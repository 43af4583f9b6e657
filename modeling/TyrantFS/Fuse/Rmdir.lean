/-
  TyrantFS.Fuse.Rmdir — the deletion of a directory.

  `tfs_unlink` gives a directory's block back as `free_block(drive, block - 1)`, where it
  gives that of a file back as `free_block(drive, block)`. The address before a block is
  none of a block, and once it is on the free list the list is none any more: deleting an
  empty directory frees its inode, and the disk is not in order afterwards
  (`rmdir_breaks`).
-/
import TyrantFS.Fuse.Growth
import TyrantFS.Help.Astray

namespace TyrantFS

open Lib Lib.PageChain Lib.PageTree Lib.Store

variable {z : Zone} {K K' K1 : View} {own own1 : Nat → Option Pos} {ps ps1 : List Nat} {par cur b c d : Nat} {n q q1 : Node} {s : Sys}
  {path before x : List UInt8}

/-! ## The call -/

/-- Of a directory without entries but "." and ".." only the block is looked at. -/
theorem unlinkBlocks_bare {sub : Nat → Nat → M Int} {drive : Int} {tmp : Nat} (hs : n.size = 512) (hn : n.blocks = 1)
    (hget : Runs K (getIBlock n 0) b K) (hfree : Runs K (freeBlock drive (u64 (b - 1))) 0 K') :
    Runs K (unlinkBlocks sub drive d n n.blocks n.blocks tmp) () K' := by
  have hskip : unlinkEntries sub d b (0 + 1) ((512 % 4096 + 255) / 256) (512 % 4096) tmp = pure tmp := by
    simp [unlinkEntries, u64]
  rw [hn, unlinkBlocks]
  apply hget.bind
  simp only [hs, if_true, hskip]
  exact Runs.pure.bind (hfree.bind Runs.pure)

section
variable (hcur : InodeAt z K own ps cur n) (hb : Beside z cur par) (hl : n.links = 1) (hd : isDir n.mode = true) (hs : n.size = 512)
  (hn : n.blocks = 1)

include hcur hb hl hd hs hn

/-- The rest of the call, when the entry is gone. -/
theorem unlinkFrom_bare (hr : Runs K (removeLinkFromParent par cur) 0 K1) (hsh : Shrunk z par K own ps q K1 own1 ps1 q1) :
    ∃ K', Runs K (unlinkFrom par cur) 0 K' ∧ Astray z.lo K'.vol.bytes ∧ (∀ k < 256, K'.vol.bytes (cur + k) = 0) ∧
      Keeps (fun _ => True) K K' := by
  have hlow := hcur.low
  have hhigh := hcur.high
  obtain ⟨hcur1, -⟩ := hcur.other hsh.confined hsh.inode.space fun c hc => hc ▸ hb
  obtain ⟨hm2, -⟩ := hcur1.tick
  generalize ht : K1.vol.env.clock K1.vol.ticks % 2 ^ 64 = t at *
  obtain ⟨hcommit, hcur3, -⟩ := (hm2.sameMap SameMap.unlinked).commit (unlinked_fits hcur.fits (show t < 2 ^ 64 by omega))
  generalize hK3 : K1.tick.store cur 208 (n.unlinked t).encode = K3 at *
  have hk3 : Keeps (fun _ => True) K1 K3 := hK3 ▸ Keeps.tick.trans (Keeps.store fun _ _ _ => trivial)
  obtain ⟨b, hbd⟩ : ∃ b, b = addrOf K3.vol.bytes (n.unlinked t) 0 := ⟨_, rfl⟩
  have hblocks : 0 < (n.unlinked t).blocks := by
    show 0 < n.blocks
    omega
  have hown : own1 b = some (.data cur 0) := hbd ▸ hcur3.maps.data 0 hblocks
  have hget : Runs K3 (getIBlock (n.unlinked t) 0) b K3 := hbd ▸ hcur3.get hblocks
  have hhas : z.Has b := hcur3.space.owned b (by rw [hown]; exact Option.some_ne_none _)
  have hbal := hhas.aligned
  have hblow := hhas.low
  have hbhigh := hhas.high
  have h8 := hcur3.space.low
  have hsize := hcur3.space.high
  have hu : u64 ((b : Int) - 1) = b - 1 := by
    have := K3.vol.size_lt
    unfold u64
    omega
  obtain ⟨K4, hfree, hastray, hk4⟩ : ∃ K4, Runs K3 (freeBlock K3.vol.glob.drive (b - 1)) 0 K4 ∧ _ :=
    freeBlock_astray hcur3.space hcur3.space.drive (by omega) (by omega) (by omega) fun p hp => by
      have hfp := hcur3.space.free p (mem_order.mpr (Or.inl hp))
      have hpal := hfp.2.aligned
      have hpb : p ≠ b := fun e => by
        rw [e, hown] at hfp
        exact absurd hfp.1 (Option.some_ne_none _)
      omega
  have hk : Keeps (fun _ => True) K K4 := ((hsh.confined.keeps.mono fun _ _ => trivial).trans hk3).trans hk4
  have hin : z.lo ≤ K4.vol.size := hk4.size.symm ▸ hcur3.inside
  refine ⟨K4.store cur 256 zeros, hr.bind ?_, hastray.congr (fun x hx => ?_) fun x hx => ?_, fun k hk => ?_,
    hk.trans (Keeps.store fun _ _ _ => trivial)⟩
  · have hdrive : K1.vol.glob.drive = K3.vol.glob.drive := by rw [hk3.glob]
    have hlinks : (1 + (2 ^ 32 - 1)) % 2 ^ 32 = 0 := by decide
    rw [if_neg (by decide)]
    refine globals_runs.bind (environ_runs.bind (hcur1.fetch.bind (hsh.inode.fetch.bind (getCurrentTimeInNsec_runs.bind ?_))))
    rw [ht, hl, hlinks]
    apply hcommit.bind
    simp only [if_true, hd]
    rw [hdrive]
    apply (unlinkBlocks_bare (show (n.unlinked t).size = 512 from hs) (show (n.unlinked t).blocks = 1 from hn) hget (by rw [hu]; exact hfree)).bind
    exact (freeInode_runs (show cur ≠ 0 by omega) (show cur + 256 ≤ K4.vol.size by omega)).bind Runs.pure
  · rw [store_bytes, put_out (by omega)]
  · rw [store_bytes, put_out (by omega)]
  · rw [store_bytes, put_in (by omega) (by omega)]
    rfl

end

theorem tfsRmdir_bare (h : Kept z s.vol own ps) (hp : Plain (tokens path)) (hw : Walkable s.vol.tree s.vol.glob.rootNode (tokens path))
    (hl : splitLast path = some (before, x)) (hx0 : x ≠ []) (hd : Leads s.vol.tree s.vol.glob.rootNode (tokens before) d)
    (hx : (x, c) ∈ s.vol.tree.entries d) (hdir : s.vol.tree.IsDir c) (he : s.vol.tree.entries c = []) :
    ∃ s', tfsRmdir path s = some (0, s') ∧ ¬ InUse s'.vol.bytes c ∧ Astray z.lo s'.vol.bytes := by
  obtain ⟨s1, hs1, hfound⟩ := h.found hp hw hl hx0 hd hx
  obtain ⟨hds, hdu, hdd⟩ := h.dir_of_tree (.of_mem hx)
  obtain ⟨hcs, hcu, hcd⟩ := h.dir_of_tree hdir
  have hcdir := (h.good c hcs hcu).dir hcd
  have hlow := hcs.low
  have hlowd := hds.low
  have hdc : d ≠ c := by
    intro heq
    subst heq
    exact h.tree.not_self hx
  have hsize : (nodeAt s.vol.bytes c).size = 512 := by
    have hlen := congrArg List.length he
    rw [(h.entries_tree hcs hcu hcd).2, List.length_drop, length_entries, List.length_nil] at hlen
    have := hcdir.two
    have := hcdir.packed.whole
    omega
  have hblocks : (nodeAt s.vol.bytes c).blocks = 1 := by rw [hcdir.packed.ceil, hsize]
  obtain ⟨e, -, hlt, -, hchild, hseen, -⟩ := h.entry hx
  rcases removeLink_cases (h.inode hds hdu) ((h.good d hds hdu).dir hdd).packed (show c ≠ 0 by omega) with
    ⟨hno, -⟩ | ⟨K1, own1, ps1, q1, hr, hsh⟩
  · exact absurd hchild (hno e hlt hseen)
  obtain ⟨K', hrun, hastray, hzero, hk⟩ := unlinkFrom_bare (h.inode hcs hcu) (h.beside hcs hds hdc) (h.good c hcs hcu).links hcd
    hsize hblocks hr hsh
  obtain ⟨s', hcall, hs'⟩ := hrun.exec (s := s1) (holds_all.mpr hs1)
  obtain rfl := hk.all hs'
  refine ⟨s', (hfound.unlink (by omega) (by omega)).trans hcall, ?_, hastray⟩
  have hclear : nodeAt s'.vol.bytes c = Node.decode zeros := nodeAt_zero fun k hk => hzero k (by omega)
  rw [InUse, hclear]
  exact not_not.mpr decode_zeros_mode

/-- In every state that is reached, deleting an empty directory ends, and its inode is
    free; but there was a free list, and there is none afterwards. -/
theorem rmdir_breaks (h : Reached s) (hp : s.vol.fs.Path path) (hl : splitLast path = some (before, x)) (hx0 : x ≠ [])
    (hat : s.vol.fs.At path c) (hdir : s.vol.tree.IsDir c) (he : s.vol.tree.entries c = []) :
    (∃ ps, FreeList (.all s.vol) ps) ∧
      ∃ s', tfsRmdir path s = some (0, s') ∧ s'.vol.tree c = none ∧ ∀ ps, ¬ FreeList (.all s'.vol) ps := by
  obtain ⟨hh, own, ps, hk⟩ := h.inOrder
  obtain ⟨d, hd, hx⟩ := hat.parent hl hx0
  have hroot := hh.root
  obtain ⟨s', hrun, hun, hastray⟩ := tfsRmdir_bare hk hp.plain (by rw [hroot]; exact hp.walkable) hl hx0 (by rw [hroot]; exact hd) hx
    hdir he
  have hfree : ∀ ps, ¬ FreeList (.all s'.vol) ps := fun ps => Astray.not_freeList hastray
  exact ⟨⟨ps, hk.space.list⟩, s', hrun, if_neg fun hin => hun hin.2, hfree⟩

theorem rmdir_breaks_small : ∃ a, (∃ ps, FreeList (.all withDir.vol) ps) ∧
    ∃ s', tfsRmdir [47, 97] withDir = some (0, s') ∧ s'.vol.tree a = none ∧ ∀ ps, ¬ FreeList (.all s'.vol) ps := by
  obtain ⟨hpath, a, hat, ha⟩ := withDir_dir
  have hbroken := rmdir_breaks withDir_reached hpath (show splitLast [47, 97] = some ([], [97]) by decide) (by decide) hat ⟨_, _, ha⟩
    (entries_dir ha)
  exact ⟨a, hbroken⟩

end TyrantFS

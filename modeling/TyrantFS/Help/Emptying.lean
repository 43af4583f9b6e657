/-
  TyrantFS.Help.Emptying — what the loops of `tfs_unlink` and `sub_unlink` do to a directory
  on a disk of which little is known.

  Whatever the disk holds, the device keeps its size (`subUnlink_sized`). A directory of one
  block, below which no inode has a block and beside which nothing is free, is emptied
  without anything being freed (`Emptying.entries`).
-/
import TyrantFS.Help.Grow
import TyrantFS.Help.Removal
import TyrantFS.Fuse.Readdir

namespace TyrantFS

open Lib Lib.PageChain Lib.PageTree

variable {α : Type} {z : Zone} {K K' : View} {own own' : Nat → Option Pos} {ps ps' : List Nat} {N a b c e i l t cur : Nat} {fd : Int}
  {n n' : Node} {C : Nat → Prop} {s s' : Sys}

/-! ## The size of the device -/

theorem Reads.sized {call : M α} (h : Reads call) : Preserves (Sized N) call := (h.keeps (Q := fun v => v.size = N)).preserves

theorem sysWrite_sized {f : Mem} {k : Nat} : Preserves (Sized N) (sysWrite f k) := (sysWrite_total N f k).preserves

theorem lseekBack_sized {k : Nat} : Preserves (Sized N) (lseekBack k) := by
  refine Ensures.preserves fun s hs => ⟨(), _, rfl, ?_⟩
  dsimp only
  split
  · exact hs
  · exact hs

theorem readVar_sized {v : Nat} : Preserves (Sized N) (readVar v) := sysRead_reads.sized.bind fun _ => .pure

theorem freeScan_sized {left k w fb : Nat} : Preserves (Sized N) (freeScan b left k w fb) := by
  induction left generalizing k w fb with
  | zero =>
    exact lseekSet_reads.sized.bind fun _ => sysWrite_sized.bind fun _ => lseekSet_reads.sized.bind fun _ => sysWrite_sized.bind fun _ =>
      lseekSet_reads.sized.bind fun _ => sysWrite_sized.bind fun _ => .pure
  | succ left ih =>
    exact readVar_sized.bind fun _ => .ite (lseekBack_sized.bind fun _ => sysWrite_sized.bind fun _ =>
      .ite (lseekSet_reads.sized.bind fun _ => sysWrite_sized.bind fun _ => .pure) .pure) ih

theorem freeBlock_sized : Preserves (Sized N) (freeBlock fd b) :=
  .ite .pure (lseekSet_reads.sized.bind fun _ => readVar_sized.bind fun _ => .ite
    (lseekSet_reads.sized.bind fun _ => sysWrite_sized.bind fun _ => lseekSet_reads.sized.bind fun _ => sysWrite_sized.bind fun _ => .pure)
    (lseekSet_reads.sized.bind fun _ => freeScan_sized))

theorem getIBlock_reads : Reads (getIBlock n i) :=
  .ite .pure (.ite .pure (.ite .pure (.bind junkVar_reads fun _ => .ite (.ite .pure readAddr_reads)
    (.ite (.ite .pure (.bind readAddr_reads fun _ => readAddr_reads))
      (.ite .pure (.bind readAddr_reads fun _ => .bind readAddr_reads fun _ => readAddr_reads))))))

theorem writeBlock_sized {f : Mem} {k : Nat} {o : Int} : Preserves (Sized N) (writeBlock f b o k) :=
  .ite .pure (lseekSet_reads.sized.bind fun _ => .ite sysWrite_sized sysWrite_sized)

theorem commitInode_sized : Preserves (Sized N) (commitInode n b) := (commitInode_total N n b).preserves

theorem freeInode_sized : Preserves (Sized N) (freeInode b) :=
  .ite .pure (lseekSet_reads.sized.bind fun _ => sysWrite_sized.bind fun _ => fetchNode_reads.sized.bind fun _ => .pure)

theorem getTime_sized : Preserves (Sized N) getCurrentTimeInNsec := Ensures.preserves fun _ hs => ⟨_, _, rfl, hs⟩

theorem scanEntries_sized {cur left j child : Nat} {act : Nat → Nat → Nat → M Int} (ha : ∀ b i j, Preserves (Sized N) (act b i j)) :
    Preserves (Sized N) (scanEntries cur n act b i left j child) := by
  induction left generalizing j child with
  | zero => exact .pure
  | succ left ih => exact .ite (readAddr_reads.sized.bind fun _ => .ite ((ha _ _ _).bind fun _ => .pure) ih) .pure

theorem scanBlocks_sized {cur left child : Nat} {act : Nat → Nat → Nat → M Int} (ha : ∀ b i j, Preserves (Sized N) (act b i j)) :
    Preserves (Sized N) (scanBlocks cur n act left i child) := by
  induction left generalizing i child with
  | zero => exact .pure
  | succ left ih =>
    refine getIBlock_reads.sized.bind fun _ => .ite .pure ((scanEntries_sized ha).bind fun r => ?_)
    split
    · exact .pure
    · exact ih

theorem removeEntry_sized {par j : Nat} : Preserves (Sized N) (removeEntry par n b i j) := by
  refine globals_reads.sized.bind fun _ => writeBlock_sized.bind fun _ => getIBlock_reads.sized.bind fun _ => .ite .pure ?_
  refine .bind ?_ fun _ => .bind ?_ fun _ => getTime_sized.bind fun _ => commitInode_sized.bind fun _ => .pure
  · exact .ite .pure (environ_reads.sized.bind fun _ => readBlock_reads.sized.bind fun _ => writeBlock_sized.bind fun _ =>
      writeBlock_sized.bind fun _ => .pure)
  · exact .ite (freeBlock_sized.bind fun _ => .pure) .pure

theorem removeLinkFromParent_sized {par cur : Nat} : Preserves (Sized N) (removeLinkFromParent par cur) :=
  .ite .pure (.ite .pure (fetchNode_reads.sized.bind fun _ => scanBlocks_sized fun _ _ _ => removeEntry_sized))

theorem freeBlocksDown_sized : Preserves (Sized N) (freeBlocksDown fd n i) := by
  induction i with
  | zero => exact .pure
  | succ i ih => exact getIBlock_reads.sized.bind fun _ => freeBlock_sized.bind fun _ => ih

theorem unlinkEntries_sized {sub : Nat → Nat → M Int} (hs : ∀ a c, Preserves (Sized N) (sub a c)) {d left j tmp : Nat} :
    Preserves (Sized N) (unlinkEntries sub d b i left j tmp) := by
  induction left generalizing j tmp with
  | zero => exact .pure
  | succ left ih => exact .ite ih (readAddr_reads.sized.bind fun _ => (hs _ _).bind fun _ => ih)

theorem unlinkBlocks_sized {sub : Nat → Nat → M Int} (hs : ∀ a c, Preserves (Sized N) (sub a c)) {d t tmp : Nat} :
    Preserves (Sized N) (unlinkBlocks sub fd d n t i tmp) := by
  induction i generalizing tmp with
  | zero => exact .pure
  | succ i ih => exact getIBlock_reads.sized.bind fun _ => (unlinkEntries_sized hs).bind fun _ => freeBlock_sized.bind fun _ => ih

/-- Whatever the directory holds, and however deep it is. -/
theorem subUnlink_sized {stack par cur : Nat} : Preserves (Sized N) (subUnlink stack par cur) := by
  induction stack generalizing par cur with
  | zero => exact fun _ _ _ _ h => by cases h
  | succ stack ih =>
    unfold subUnlink
    refine .ite .pure (removeLinkFromParent_sized.bind fun _ => .ite .pure (globals_reads.sized.bind fun _ =>
      fetchNode_reads.sized.bind fun _ => fetchNode_reads.sized.bind fun _ => ?_))
    dsimp only
    refine .ite (.ite ?_ ?_) (commitInode_sized.bind fun _ => .pure)
    · exact (unlinkBlocks_sized fun _ _ => ih).bind fun _ => freeInode_sized.bind fun _ => .pure
    · exact freeBlocksDown_sized.bind fun _ => freeInode_sized.bind fun _ => .pure

/-! ## A directory of one block that is being emptied -/

/-- Without blocks, or the directory itself. -/
def Bare (z : Zone) (a : Nat) (m : Mem) (c : Nat) : Prop := c = a ∨ (IsSlot z.lo c ∧ Beside z a c) ∧ (nodeAt m c).blocks = 0

/-- The directory at `a`, whose only block is `b`, can lose `t` entries more. Nothing is
    free, and those in `C`, to which its entries lead, have no blocks. -/
structure Emptying (z : Zone) (a b t : Nat) (C : Nat → Prop) (K : View) (n : Node) : Prop where
  inode : ∃ own, InodeAt z K own [] a n
  packed : Packed K n
  block : n.blocks = 1 ∧ n.direct 0 = b
  links : n.links = 0 ∨ 2 ^ 32 - 16 + t ≤ n.links
  least : 256 * (t + 2) ≤ n.size
  most : n.size ≤ 256 * 15
  child : ∀ e, 2 ≤ e → e < n.size / 256 → childOf K.vol.bytes n e ≠ 0 → C (childOf K.vol.bytes n e)
  bare : ∀ c, C c → Bare z a K.vol.bytes c

theorem Emptying.mono (h : Emptying z a b (t + 1) C K n) : Emptying z a b t C K n := by
  have h1 := h.least
  exact { h with links := h.links.imp_right fun hl => by omega, least := by omega }

/-- Another inode without blocks changes. -/
theorem Emptying.slot (h : Emptying z a b t C K n) (hs : IsSlot z.lo c) (hc : Beside z a c)
    (hk : Keeps (fun x => c ≤ x ∧ x < c + 256) K K') (h0 : (nodeAt K'.vol.bytes c).blocks = 0) : Emptying z a b t C K' n := by
  obtain ⟨own, hi⟩ := h.inode
  have hlow := hc.low
  have hhigh := hc.high
  have hap := hc.apart
  obtain ⟨hm, -, haddr⟩ := hi.toMapAt.keep hk fun x hx => Or.inl (by omega)
  have hfar : ∀ i < n.blocks, addrOf K'.vol.bytes n i = addrOf K.vol.bytes n i ∧
      ∀ k < 4096, K'.vol.bytes (addrOf K.vol.bytes n i + k) = K.vol.bytes (addrOf K.vol.bytes n i + k) := fun i hi' =>
    ⟨haddr i hi', fun k _ => hk.bytes _ fun hx => by
      have := (hi.has hi').low
      omega⟩
  refine { h with inode := ⟨own, hm, ?_⟩, packed := h.packed.kept hfar hk.vis, child := fun e he hlt => ?_, bare := fun d hd => ?_ }
  · rw [nodeAt_congr fun k hk' => hk.bytes _ (by omega)]
    exact hi.node
  · rw [child_kept hfar (h.packed.lt hlt)]
    exact h.child e he hlt
  · refine (h.bare d hd).imp_right fun hbare => ⟨hbare.1, ?_⟩
    by_cases hdc : d = c
    · rw [hdc]
      exact h0
    · have h1 := hbare.1.1.aligned
      have h2 := hs.aligned
      rw [nodeAt_congr fun k hk' => hk.bytes _ (by omega)]
      exact hbare.2

/-- The inode with `k` links. -/
def Node.withLinks (n : Node) (k : Nat) : Node := { n with links := k }

@[simp] theorem withLinks_blocks {k : Nat} : (n.withLinks k).blocks = n.blocks := rfl

theorem withLinks_fits {k : Nat} (h : n.Fits) (hk : k < 2 ^ 32) : (n.withLinks k).Fits := { h with links := hk }

/-- Its own links change. -/
theorem Emptying.relink (h : Emptying z a b t C K n) {k : Nat} (hlt : k < 2 ^ 32) (hl : k = 0 ∨ 2 ^ 32 - 16 + t ≤ k) :
    Runs K (commitInode (n.withLinks k) a) 208 (K.store a 208 (n.withLinks k).encode) ∧
      Emptying z a b t C (K.store a 208 (n.withLinks k).encode) (n.withLinks k) := by
  obtain ⟨own, hi⟩ := h.inode
  have hhigh := hi.high
  have hsame : SameMap n (n.withLinks k) := ⟨rfl, fun _ => rfl⟩
  have hfits := withLinks_fits hi.fits hlt
  obtain ⟨hrun, hi', -⟩ := (hi.toMapAt.sameMap hsame).commit hfits
  have hk : Keeps (fun x => a ≤ x ∧ x < a + 208) K (K.store a 208 (n.withLinks k).encode) := Keeps.store fun x h1 h2 => ⟨h1, h2⟩
  obtain ⟨-, -, haddr⟩ := (hi.toMapAt.sameMap hsame).keep hk fun x hx => Or.inl (by have := hi.low; omega)
  have hfar : ∀ i < (n.withLinks k).blocks, addrOf (K.store a 208 (n.withLinks k).encode).vol.bytes (n.withLinks k) i =
      addrOf K.vol.bytes (n.withLinks k) i ∧ ∀ j < 4096,
        (K.store a 208 (n.withLinks k).encode).vol.bytes (addrOf K.vol.bytes (n.withLinks k) i + j) =
          K.vol.bytes (addrOf K.vol.bytes (n.withLinks k) i + j) := fun i hi' =>
    ⟨haddr i hi', fun j _ => hk.bytes _ fun hx => by
      have := (hi.has hi').low
      rw [hsame.addr] at hx
      omega⟩
  have hp := h.packed.sameMap hsame rfl
  refine ⟨hrun, ⟨own, hi'⟩, hp.kept hfar hk.vis, h.block, hl, h.least, h.most, fun e he hlt => ?_, fun d hd => ?_⟩
  · have hchild : childOf K.vol.bytes (n.withLinks k) e = childOf K.vol.bytes n e := by
      rw [childOf, entryAt, hsame.addr, childOf, entryAt]
    rw [child_kept hfar (hp.lt hlt), hchild]
    exact h.child e he hlt
  · refine (h.bare d hd).imp_right fun hbare => ⟨hbare.1, ?_⟩
    have := hbare.1.2.apart
    rw [nodeAt_congr fun k hk' => hk.bytes _ (by omega)]
    exact hbare.2

/-- An entry goes. -/
theorem Emptying.remove (h : Emptying z a b (t + 1) C K n) (hc : cur ≠ 0) :
    Runs K (removeLinkFromParent a cur) (-1) K ∨ ∃ K' n', Runs K (removeLinkFromParent a cur) 0 K' ∧ Emptying z a b t C K' n' ∧
      n'.links = n.links ∧ Keeps (fun _ => True) K K' := by
  obtain ⟨own, hi⟩ := h.inode
  have hleast := h.least
  have hmost := h.most
  have hwhole := h.packed.whole
  rcases removeLink_moves hi h.packed hc (by omega) with hr | ⟨e, l, K', own', ps', n', hr, hl, hrem, hchild⟩
  · exact Or.inl hr
  have hsize := hrem.size
  have hone : n'.blocks = 1 := by
    have := hrem.ceil
    omega
  obtain rfl : ps' = [] := by
    have hfree := hrem.free
    rw [if_neg (by omega)] at hfree
    exact nil_of_freeOrder hfree.eq_nil
  have hlinks : n'.links = n.links := by rw [hrem.node]
  refine Or.inr ⟨K', n', hr, ⟨⟨own', hrem.inode⟩, hrem.packed, ⟨hone, ?_⟩, ?_, by omega, by omega, fun f hf hlt h0 => ?_, fun d hd => ?_⟩,
    hlinks, hrem.confined.keeps.mono fun _ _ => trivial⟩
  · have := hrem.addr 0 (by omega)
    rw [addrOf_direct (by decide), addrOf_direct (by decide)] at this
    exact this.trans h.block.2
  · rw [hlinks]
    exact h.mono.links
  · have hfl : f < l := by omega
    rw [hchild f hfl] at h0 ⊢
    split at h0 <;> rename_i hfe
    · rw [if_pos hfe]
      exact h.child l (by omega) (by omega) h0
    · rw [if_neg hfe]
      exact h.child f hf (by omega) h0
  · refine (h.bare d hd).imp_right fun hbare => ⟨hbare.1, ?_⟩
    have hbe := hbare.1.2
    rw [nodeAt_congr fun k hk => hrem.confined.slot hbe.low hbe.high (fun c hc => by rw [hc]; have := hbe.apart; omega)
      (Nat.le_add_right _ _) (by omega)]
    exact hbare.2

/-- `sub_unlink` frees no block there. -/
theorem Emptying.sub (h : Emptying z a b (t + 1) C K n) (hcur : cur ≠ 0 → C cur) (stack : Nat) :
    ∃ r K' n', Runs K (subUnlink (stack + 1) a cur) r K' ∧ Emptying z a b t C K' n' ∧ Keeps (fun _ => True) K K' := by
  obtain ⟨own, hi⟩ := h.inode
  have hlow := hi.low
  have hleast := h.least
  have hmost := h.most
  unfold subUnlink
  by_cases hc0 : cur = 0
  · rw [if_pos (Or.inr hc0)]
    exact ⟨_, _, n, Runs.pure, h.mono, .refl⟩
  rw [if_neg (by omega)]
  rcases h.remove hc0 with hr | ⟨K1, n1, hr, h1, hlinks, hk1⟩
  · exact ⟨_, _, n, hr.bind Runs.pure, h.mono, .refl⟩
  obtain ⟨own1, hi1⟩ := h1.inode
  have hin1 := hi1.inside
  rcases h1.bare cur (hcur hc0) with rfl | ⟨⟨hs, hb⟩, h0⟩
  · -- the directory itself
    have hlt := hi.fits.links
    have hl := h.links
    have hnew : (n1.links + (2 ^ 32 - 1)) % 2 ^ 32 ≠ 0 ∧ 2 ^ 32 - 16 + t ≤ (n1.links + (2 ^ 32 - 1)) % 2 ^ 32 := by
      rw [hlinks]
      omega
    obtain ⟨hcommit, h2⟩ := h1.relink (Nat.mod_lt _ (Nat.two_pow_pos 32)) (Or.inr hnew.2)
    refine ⟨0, _, _, hr.bind ?_, h2, hk1.trans (Keeps.store fun _ _ _ => trivial)⟩
    rw [if_neg (by decide)]
    refine globals_runs.bind (hi1.fetch.bind (hi1.fetch.bind ?_))
    dsimp only
    rw [if_neg hnew.1]
    exact hcommit.bind Runs.pure
  · have hhigh := hb.high
    have hfetch : Runs K1 (fetchNode cur) (nodeAt K1.vol.bytes cur) K1 :=
      fetchNode_runs hc0 (by omega) (hi1.sees.mono (Nat.zero_le _) (by omega))
    generalize hnc : nodeAt K1.vol.bytes cur = nc at *
    by_cases hlk : (nc.links + (2 ^ 32 - 1)) % 2 ^ 32 = 0
    · have hzero : (nodeAt (K1.store cur 256 zeros).vol.bytes cur).blocks = 0 := by
        rw [nodeAt_zero fun k hk => by rw [store_bytes, put_in (by omega) (by omega)]; rfl]
        exact leVal_zero _
      refine ⟨0, _, n1, hr.bind ?_, h1.slot hs hb (Keeps.store fun x h1 h2 => ⟨h1, h2⟩) hzero, hk1.trans (Keeps.store fun _ _ _ => trivial)⟩
      rw [if_neg (by decide)]
      refine globals_runs.bind (hi1.fetch.bind (hfetch.bind ?_))
      dsimp only
      rw [if_pos hlk, h0]
      split
      · exact Runs.pure.bind ((freeInode_runs hc0 (by omega)).bind Runs.pure)
      · exact Runs.pure.bind ((freeInode_runs hc0 (by omega)).bind Runs.pure)
    · have hf : nc.Fits := hnc ▸ nodeAt_fits K1.vol.bytes cur
      have hfits : (nc.withLinks ((nc.links + (2 ^ 32 - 1)) % 2 ^ 32)).Fits :=
        withLinks_fits hf (Nat.mod_lt _ (Nat.two_pow_pos 32))
      have hzero : (nodeAt (K1.store cur 208 (nc.withLinks ((nc.links + (2 ^ 32 - 1)) % 2 ^ 32)).encode).vol.bytes cur).blocks = 0 := by
        rw [store_bytes, nodeAt_put hfits, withLinks_blocks]
        exact h0
      refine ⟨0, _, n1, hr.bind ?_, h1.slot hs hb (Keeps.store fun x h1 h2 => ⟨h1, by omega⟩) hzero, hk1.trans (Keeps.store fun _ _ _ => trivial)⟩
      rw [if_neg (by decide)]
      refine globals_runs.bind (hi1.fetch.bind (hfetch.bind ?_))
      dsimp only
      rw [if_neg hlk]
      exact (commitInode_runs (by omega)).bind Runs.pure

/-- Nor does the loop over the entries: "." and ".." stay. -/
theorem Emptying.entries {stack left : Nat} (hl : left ≤ 15) {tmp : Nat} (h : Emptying z a b (left - 2) C (.all s.vol) n) {r : Nat}
    (hr : unlinkEntries (subUnlink stack) a b 1 left (256 * left) tmp s = some (r, s')) :
    ∃ n', Emptying z a b 0 C (.all s'.vol) n' := by
  induction left generalizing tmp n s with
  | zero =>
    obtain ⟨-, rfl⟩ := Prod.mk.inj (Option.some.inj hr)
    exact ⟨n, h⟩
  | succ left ih =>
    have hentry : u64 (((1 : Nat) - 1 : Int) * 4096 + ((256 * (left + 1) : Nat) : Int) - 256) = 256 * left := by
      unfold u64
      omega
    unfold unlinkEntries at hr
    simp only [hentry] at hr
    rw [show 256 * (left + 1) - 256 = 256 * left by omega] at hr
    by_cases hskip : left ≤ 1
    · rw [if_pos (by omega)] at hr
      rw [show left + 1 - 2 = 0 by omega] at h
      exact ih (by omega) (by rw [show left - 2 = 0 by omega]; exact h) hr
    rw [if_neg (by omega)] at hr
    obtain ⟨t, rfl⟩ : ∃ t, left = t + 2 := ⟨left - 2, by omega⟩
    rw [show t + 2 + 1 - 2 = t + 1 by omega] at h
    obtain ⟨own, hi⟩ := h.inode
    have hone := h.block.1
    -- the address that is read
    have hread := hi.toMapAt.readChild (c := tmp) h.packed (show 0 < n.blocks by omega) (show t + 2 < 16 by omega)
    rw [addrOf_direct (by decide), h.block.2, show (16 * 0 + (t + 2)) = t + 2 by omega,
      show ((256 * (t + 2) : Nat) : Int) + 256 - 8 = ((256 * (t + 2 + 1) : Nat) : Int) - 8 by omega] at hread
    obtain ⟨s1, hs1, hr⟩ := hread.then_some (holds_all.mpr rfl) hr
    have hv1 : s1.vol = s.vol := holds_all.mp hs1
    obtain ⟨r1, s2, hsub, hr⟩ := bind_some.mp hr
    cases stack with
    | zero => cases hsub
    | succ stack =>
      have hleast := h.least
      obtain ⟨r2, K', n', hrun, h', hk⟩ := h.sub (fun h0 => h.child (t + 2) (by omega) (by omega) h0) stack
      obtain ⟨s3, e3, hs3⟩ := hrun.exec hs1
      obtain ⟨-, rfl⟩ := Prod.mk.inj (Option.some.inj (e3.symm.trans hsub))
      obtain rfl := hk.all hs3
      exact ih (by omega) h' hr

end TyrantFS

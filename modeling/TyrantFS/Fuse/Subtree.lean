/-
  TyrantFS.Fuse.Subtree — deleting a directory with all that is below it.

  Every block of a directory is given back as the address before it, the first block last.
  Whatever the calls for the entries have done, the free list is none after that, or what is
  free is not what should be: no directory's deletion reclaims its subtree
  (`unlink_dir_never`).
-/
import TyrantFS.Fuse.Rmdir
import TyrantFS.Fuse.Spare
import TyrantFS.Help.Emptying

namespace TyrantFS

open Lib Lib.PageChain Lib.PageTree Lib.Store

variable {z : Zone} {K1 : View} {own own1 : Nat → Option Pos} {ps ps1 ps' : List Nat} {N par cur i t tmp d : Nat} {fd : Int}
  {n q q1 : Node} {v v' : Vol} {path : List UInt8} {s0 s s' : Sys}

/-! ## What the deletion should leave -/

/-- The directory at `a`, and what the entries of directories below it but "." and ".." lead
    to. -/
inductive Below (m : Mem) (a : Nat) : Nat → Prop
  | self : Below m a a
  | entry {c e : Nat} : Below m a c → isDir (nodeAt m c).mode → 2 ≤ e → e < (nodeAt m c).size / 256 →
      childOf m (nodeAt m c) e ≠ 0 → Below m a (childOf m (nodeAt m c) e)

/-- The deletion of the directory at `cur` reclaims its subtree. -/
structure Swept (z : Zone) (par cur : Nat) (v : Vol) (ps : List Nat) (v' : Vol) (ps' : List Nat) : Prop where
  unused : ∀ c, Below v.bytes cur c → ¬ InUse v'.bytes c
  list : FreeList (.all v') ps'
  free : ∀ b, b ∈ freeOrder (.all v') ps' ↔ b ∈ freeOrder (.all v) ps ∨
    (∃ c, Below v.bytes cur c ∧ BlockOf v.bytes (nodeAt v.bytes c) b) ∨
    (nodeAt v.bytes par).size % 4096 = 256 ∧ b = addrOf v.bytes (nodeAt v.bytes par) ((nodeAt v.bytes par).blocks - 1)
  others : ∀ c, IsSlot z.lo c → ¬ Below v.bytes cur c → c ≠ par → (∀ k < 256, v'.bytes (c + k) = v.bytes (c + k)) ∧
    (InUse v.bytes c → ∀ b, BlockOf v.bytes (nodeAt v.bytes c) b → ∀ k < 4096, v'.bytes (b + k) = v.bytes (b + k))
  parent : ∃ x, (entries v.bytes (nodeAt v.bytes par)).Perm ((x, cur) :: entries v'.bytes (nodeAt v'.bytes par))

/-! ## The call -/

/-- The first block of a directory is given back last. -/
theorem unlinkBlocks_last {sub : Nat → Nat → M Int} (hsub : ∀ a c, Preserves (Sized N) (sub a c)) (hn : 0 < n.blocks) (hs : Sized N s)
    (h : unlinkBlocks sub fd d n t (i + 1) tmp s = some ((), s')) : ∃ s1 r, Sized N s1 ∧
      freeBlock fd (u64 ((n.direct 0 : Int) - 1)) s1 = some (r, s') ∧
      (i = 0 → t = 1 → ∃ tmp', unlinkEntries sub d (n.direct 0) 1 ((n.size % 4096 + 255) / 256) (n.size % 4096) tmp s = some (tmp', s1)) := by
  induction i generalizing s tmp with
  | zero =>
    unfold unlinkBlocks at h
    have hget : getIBlock n 0 = pure (n.direct 0) := by
      unfold getIBlock
      rw [if_neg (by omega), if_neg (by omega), if_pos (by decide)]
    rw [hget, pure_bind] at h
    obtain ⟨tmp1, s1, h1, h⟩ := bind_some.mp h
    obtain ⟨r, s2, h2, h⟩ := bind_some.mp h
    obtain ⟨-, rfl⟩ := Prod.mk.inj (Option.some.inj h)
    refine ⟨s1, r, unlinkEntries_sized hsub s hs _ _ h1, h2, fun _ ht => ⟨tmp1, ?_⟩⟩
    subst ht
    exact h1
  | succ i ih =>
    unfold unlinkBlocks at h
    obtain ⟨b, s1, h1, h⟩ := bind_some.mp h
    obtain ⟨tmp1, s2, h2, h⟩ := bind_some.mp h
    obtain ⟨r, s3, h3, h⟩ := bind_some.mp h
    have hs1 := getIBlock_reads.sized s hs _ _ h1
    have hs3 := freeBlock_sized s2 (unlinkEntries_sized hsub s1 hs1 _ _ h2) _ _ h3
    obtain ⟨s4, r', hs4, hfree, -⟩ := ih hs3 h
    exact ⟨s4, r', hs4, hfree, fun h0 => absurd h0 (Nat.succ_ne_zero i)⟩

/-- The end of the call: from `s1` on the blocks of the directory go, the first one from `s2`
    on, and then its inode. -/
structure Ending (cur : Nat) (n : Node) (s' s1 s2 s3 : Sys) : Prop where
  sized : Sized s'.vol.size s2
  last : ∃ fd r, 0 ≤ fd ∧ freeBlock fd (n.direct 0 - 1) s2 = some (r, s3)
  entries : n.blocks = 1 → ∃ stack tmp, unlinkEntries (subUnlink stack) cur (n.direct 0) 1 ((n.size % 4096 + 255) / 256) (n.size % 4096) 0 s1 =
    some (tmp, s2)
  bytes : s'.vol.bytes = put s3.vol.bytes cur 256 zeros

theorem unlinkFrom_ending (hcur : InodeAt z (.all s.vol) own ps cur n) (hb : Beside z cur par) (hl : n.links = 1) (hd : isDir n.mode = true)
    (hn : 0 < n.blocks) (hr : Runs (.all s.vol) (removeLinkFromParent par cur) 0 K1)
    (hsh : Shrunk z par (.all s.vol) own ps q K1 own1 ps1 q1) (hrun : unlinkFrom par cur s = some (0, s')) :
    ∃ t s1 s2 s3, InodeAt z (.all s1.vol) own1 ps1 cur (n.unlinked t) ∧
      Keeps (fun x => cur ≤ x ∧ x < cur + 208) K1 (.all s1.vol) ∧ s'.vol.size = s.vol.size ∧ Ending cur n s' s1 s2 s3 := by
  have hlow := hcur.low
  have hhigh := hcur.high
  obtain ⟨hcur1, -⟩ := hcur.other hsh.confined hsh.inode.space fun c hc => hc ▸ hb
  obtain ⟨hm2, -⟩ := hcur1.tick
  have hlinks : (1 + (2 ^ 32 - 1)) % 2 ^ 32 = 0 := by decide
  unfold unlinkFrom at hrun
  obtain ⟨sa, hsa, hrun⟩ := hr.then_some (holds_all.mpr rfl) hrun
  rw [if_neg (by decide)] at hrun
  obtain ⟨sb, hsb, hrun⟩ := globals_runs.then_some hsa hrun
  obtain ⟨sc, hsc, hrun⟩ := environ_runs.then_some hsb hrun
  obtain ⟨sd, hsd, hrun⟩ := hcur1.fetch.then_some hsc hrun
  obtain ⟨se, hse, hrun⟩ := hsh.inode.fetch.then_some hsd hrun
  obtain ⟨sf, hsf, hrun⟩ := getCurrentTimeInNsec_runs.then_some hse hrun
  generalize ht : K1.vol.env.clock K1.vol.ticks % 2 ^ 64 = t at *
  obtain ⟨hcommit, hcur3, -⟩ := (hm2.sameMap SameMap.unlinked).commit (unlinked_fits hcur.fits (show t < 2 ^ 64 by omega))
  rw [hl, hlinks] at hrun
  obtain ⟨s1, hs1, hrun⟩ := hcommit.then_some hsf hrun
  have hk3 : Keeps (fun x => cur ≤ x ∧ x < cur + 208) K1 (K1.tick.store cur 208 (n.unlinked t).encode) :=
    Keeps.tick.trans (Keeps.store fun x h1 h2 => ⟨h1, h2⟩)
  have hk : Keeps (fun _ => True) (.all s.vol) (K1.tick.store cur 208 (n.unlinked t).encode) :=
    (hsh.confined.keeps.mono fun _ _ => trivial).trans (hk3.mono fun _ _ => trivial)
  rw [hk.all hs1] at hcur3 hk3 hk
  have hsize : s1.vol.size = s.vol.size := hk.size
  simp only [if_true, hd] at hrun
  obtain ⟨_, s3, hblocks, hrun⟩ := bind_some.mp hrun
  obtain ⟨i, hi⟩ : ∃ i, n.blocks = i + 1 := ⟨n.blocks - 1, by omega⟩
  have hblocks : unlinkBlocks (subUnlink K1.vol.env.stack) K1.vol.glob.drive cur (n.unlinked t) (i + 1) (i + 1) 0 s1 = some ((), s3) := by
    rw [← hi]
    exact hblocks
  have hsub : ∀ a c, Preserves (Sized s1.vol.size) (subUnlink K1.vol.env.stack a c) := fun _ _ => subUnlink_sized
  obtain ⟨s2, r, hsized, hlast, hentries⟩ := unlinkBlocks_last (n := n.unlinked t) hsub hn rfl hblocks
  have hsize3 : s3.vol.size = s1.vol.size := unlinkBlocks_sized hsub s1 rfl _ _ hblocks
  have hblock := hcur3.space.owned_block (hcur3.maps.data 0 hn)
  rw [addrOf_direct (by decide)] at hblock
  have hpos := hblock.pos
  have hlo := hcur3.inside
  have hin := hblock.inside
  have hlt := s1.vol.size_lt
  have hu : u64 (((n.unlinked t).direct 0 : Int) - 1) = (n.unlinked t).direct 0 - 1 := by
    rw [all_vol] at hin
    unfold u64
    omega
  obtain ⟨s4, hfree, hrun⟩ := (freeInode_runs (K := .all s3.vol) (show cur ≠ 0 by omega) (by rw [all_vol] at *; omega)).then_some
    (holds_all.mpr rfl) hrun
  obtain rfl : s4 = s' := (Prod.mk.inj (Option.some.inj hrun)).2
  have hclear : (View.all s3.vol).store cur 256 zeros = .all s4.vol := Keeps.all (S := fun _ => True) (Keeps.store fun _ _ _ => trivial) hfree
  have hvol : s4.vol.size = s3.vol.size := congrArg (fun K => K.vol.size) hclear.symm
  refine ⟨t, s1, s2, s3, hcur3, hk3, by omega, ?_, ⟨_, r, hcur3.space.drive, ?_⟩, fun h1 => ?_, congrArg (fun K => K.vol.bytes) hclear.symm⟩
  · exact hsized.trans (hsize3.symm.trans hvol.symm)
  · rw [hu] at hlast
    rw [hk3.glob]
    exact hlast
  · obtain ⟨tmp, h⟩ := hentries (by omega) (by omega)
    exact ⟨_, tmp, h⟩

/-- If there is a free list then, the first block of the directory was on it already, and
    nothing else is. -/
theorem Ending.sole {s1 s2 s3 : Sys} (h : Ending cur n s' s1 s2 s3) (hb : IsBlock s'.vol.size (n.direct 0)) (hbig : s'.vol.size ≤ 2 ^ 56)
    (hl : FreeList (.all s'.vol) ps') (hlo : ∀ c ∈ freeOrder (.all s'.vol) ps', z.lo ≤ c) (h8 : 8 ≤ cur) (hhigh : cur + 256 ≤ z.lo) :
    word s2.vol.bytes 0 = n.direct 0 ∧ freeOrder (.all s'.vol) ps' = [n.direct 0] := by
  obtain ⟨fd, r, hfd, hlast⟩ := h.last
  have hsize : s2.vol.size = s'.vol.size := h.sized
  have hcases := freeBlock_before hfd (hsize ▸ hb) (hsize ▸ hbig) hlast
  rw [hsize] at hcases
  refine hl.before hlo (fun x hx => ?_) (fun x hx => ?_) hb.pos hcases
  · rw [h.bytes, put_out (by omega)]
  · rw [h.bytes, put_out (by omega)]

/-! ## A subtree of one block -/

theorem Below.used (h : Sound z v own ps) (hc : IsSlot z.lo cur) (hu : InUse v.bytes cur) {c : Nat} (hb : Below v.bytes cur c) :
    IsSlot z.lo c ∧ InUse v.bytes c := by
  induction hb with
  | self => exact ⟨hc, hu⟩
  | entry _ hd _ he h0 ih => exact ((h.dirs _ ih.1 ih.2 hd).child _ he).resolve_left h0

section
variable (h : Sound z v own ps) (hp : IsSlot z.lo par) (hpu : InUse v.bytes par) (hq : Packed (.all v) (nodeAt v.bytes par))
  (hc : IsSlot z.lo cur) (hu : InUse v.bytes cur) (hs : Swept z par cur v ps v' ps')

include h hp hpu hq hc hu hs

theorem Swept.low {b : Nat} (hb : b ∈ freeOrder (.all v') ps') : z.lo ≤ b := by
  have hceil := hq.ceil
  rcases (hs.free b).mp hb with hf | ⟨c, hbelow, hblock⟩ | ⟨hm, rfl⟩
  · exact (h.space.free b hf).2.low
  · obtain ⟨hcs, hcu⟩ := hbelow.used h hc hu
    obtain ⟨p, hown, -⟩ := (h.maps c hcs hcu).blockOf hblock
    exact (h.space.owned b (by simp [hown])).low
  · exact ((h.inode hp hpu).has (by omega)).low

/-- If only the first block of the directory is free afterwards, nothing was free before, and
    no other block was to be given back. -/
theorem Swept.sole (hne : par ≠ cur) (hn : 0 < (nodeAt v.bytes cur).blocks)
    (hone : freeOrder (.all v') ps' = [addrOf v.bytes (nodeAt v.bytes cur) 0]) :
    ps = [] ∧ (nodeAt v.bytes par).size % 4096 ≠ 256 ∧ (nodeAt v.bytes cur).blocks = 1 ∧
      ∀ c, Below v.bytes cur c → c ≠ cur → (nodeAt v.bytes c).blocks = 0 := by
  have hceil := hq.ceil
  have hown : ∀ x, x ∈ freeOrder (.all v') ps' → own x = some (.data cur 0) := by
    intro x hx
    rw [hone] at hx
    rw [List.mem_singleton.mp hx]
    exact (h.maps cur hc hu).data 0 hn
  have hdata : ∀ c, Below v.bytes cur c → ∀ i < (nodeAt v.bytes c).blocks, Pos.data c i = .data cur 0 := by
    intro c hbelow i hi
    obtain ⟨hcs, hcu⟩ := hbelow.used h hc hu
    have hx := hown _ ((hs.free _).mpr (Or.inr (Or.inl ⟨c, hbelow, Or.inl ⟨i, hi, rfl⟩⟩)))
    exact Option.some.inj (((h.maps c hcs hcu).data i hi).symm.trans hx)
  have hnone : freeOrder (.all v) ps = [] := by
    apply List.eq_nil_iff_forall_not_mem.mpr
    intro x hx
    have := hown x ((hs.free x).mpr (Or.inl hx))
    rw [(h.space.free x hx).1] at this
    cases this
  refine ⟨nil_of_freeOrder hnone, fun hm => ?_, ?_, fun c hbelow hcc => ?_⟩
  · have := hown _ ((hs.free _).mpr (Or.inr (Or.inr ⟨hm, rfl⟩)))
    have hlast := (h.maps par hp hpu).data ((nodeAt v.bytes par).blocks - 1) (by omega)
    have hpos : Pos.data par ((nodeAt v.bytes par).blocks - 1) = .data cur 0 := Option.some.inj (hlast.symm.trans this)
    injection hpos with heq
    exact hne heq
  · by_contra h1
    cases hdata cur .self 1 (by omega)
  · by_contra h0
    cases hdata c hbelow 0 (by omega)
    exact hcc rfl

end

/-- The loop over the entries of the only block finds no free block, and leaves none. -/
theorem Ending.noneFree {s1 s2 s3 : Sys} {C : Nat → Prop} {own1 : Nat → Option Pos} (h : Ending cur n s' s1 s2 s3)
    (hi : InodeAt z (.all s1.vol) own1 [] cur (n.unlinked t)) (hp : Packed (.all s1.vol) (n.unlinked t)) (hone : n.blocks = 1)
    (htwo : 512 ≤ n.size)
    (hchild : ∀ e, 2 ≤ e → e < n.size / 256 → childOf s1.vol.bytes (n.unlinked t) e ≠ 0 → C (childOf s1.vol.bytes (n.unlinked t) e))
    (hbare : ∀ c, C c → Bare z cur s1.vol.bytes c) : word s2.vol.bytes 0 = 0 := by
  have hlist : ∃ own2 n2, InodeAt z (.all s2.vol) own2 [] cur n2 := by
    obtain ⟨stack, tmp, hr⟩ := h.entries hone
    have hwhole : n.size % 256 = 0 := hp.whole
    have hceil : n.blocks = (n.size + 4095) / 4096 := hp.ceil
    by_cases hm : n.size % 4096 = 0
    · -- a full block: no entry is looked at
      rw [hm] at hr
      obtain ⟨-, rfl⟩ := Prod.mk.inj (Option.some.inj hr)
      exact ⟨_, _, hi⟩
    obtain ⟨k, hk⟩ : ∃ k, n.size = 256 * k := ⟨n.size / 256, by omega⟩
    rw [show n.size % 4096 = 256 * k by omega, show (256 * k + 255) / 256 = k by omega] at hr
    have hemptying : Emptying z cur (n.direct 0) (k - 2) C (.all s1.vol) (n.unlinked t) :=
      ⟨⟨_, hi⟩, hp, ⟨hone, rfl⟩, Or.inl rfl, show 256 * (k - 2 + 2) ≤ n.size by omega, show n.size ≤ 256 * 15 by omega, hchild, hbare⟩
    obtain ⟨n2, own2, h2⟩ := (hemptying.entries (by omega) hr).imp fun _ he => he.inode
    exact ⟨own2, n2, h2⟩
  obtain ⟨own2, n2, h2⟩ := hlist
  by_contra h0
  obtain ⟨qs, hqs, -⟩ := linked_ne h2.space.list.chain.linked h0
  cases hqs

/-- When its entries are looked at, the blocks of the directory are what they were. -/
theorem Shrunk.keptBlocks {s1 : Sys} (hsh : Shrunk z par (.all s.vol) own ps q K1 own1 ps1 q1) (hcur : InodeAt z (.all s.vol) own ps cur n)
    (hb : Beside z cur par) (hk : Keeps (fun x => cur ≤ x ∧ x < cur + 208) K1 (.all s1.vol)) :
    ∀ i < n.blocks, addrOf (View.all s1.vol).vol.bytes n i = addrOf (View.all s.vol).vol.bytes n i ∧
      ∀ k < 4096, (View.all s1.vol).vol.bytes (addrOf (View.all s.vol).vol.bytes n i + k) =
        (View.all s.vol).vol.bytes (addrOf (View.all s.vol).vol.bytes n i + k) := by
  have hlow := hcur.low
  have hhigh := hcur.high
  obtain ⟨hcur1, hkept⟩ := hcur.other hsh.confined hsh.inode.space fun c hc => hc ▸ hb
  obtain ⟨-, -, haddr⟩ := hcur1.toMapAt.keep hk fun x hx => Or.inl (by omega)
  intro i hi
  refine ⟨(haddr i hi).trans (hkept i hi).1, fun k hk' => (hk.bytes _ fun hx => ?_).trans ((hkept i hi).2 k hk')⟩
  have := (hcur.has hi).low
  omega

/-- And an inode without blocks has none. -/
theorem Shrunk.bare {s1 : Sys} {c : Nat} (hsh : Shrunk z par (.all s.vol) own ps (nodeAt s.vol.bytes par) K1 own1 ps1 q1)
    (h : Sound z s.vol own ps) (hp : IsSlot z.lo par) (hq : Packed (.all s.vol) (nodeAt s.vol.bytes par)) (hcur : IsSlot z.lo cur)
    (hk : Keeps (fun x => cur ≤ x ∧ x < cur + 208) K1 (.all s1.vol)) (hs : IsSlot z.lo c)
    (h0 : c ≠ cur → (nodeAt s.vol.bytes c).blocks = 0) : Bare z cur s1.vol.bytes c := by
  by_cases hcc : c = cur
  · exact Or.inl hcc
  have hb := h.beside hcur hs hcc
  have hap := hb.apart
  refine Or.inr ⟨⟨hs, hb⟩, ?_⟩
  have hsame : nodeAt s1.vol.bytes c = nodeAt K1.vol.bytes c := nodeAt_congr fun k _ => hk.bytes _ (by omega)
  rw [hsame]
  by_cases hcp : c = par
  · have h0' := h0 hcc
    have := hsh.ceil
    have := hsh.size
    have := hq.ceil
    rw [hcp] at h0' ⊢
    rw [hsh.inode.node]
    omega
  · have hap' := (h.beside hs hp (Ne.symm hcp)).apart
    rw [nodeAt_congr fun k _ => hsh.confined.slot hb.low hb.high (fun d hd => by rw [hd]; omega) (Nat.le_add_right _ _) (by omega)]
    exact h0 hcc

section
variable (h : Sound z s.vol own ps) (hps : IsSlot z.lo par) (hpu : InUse s.vol.bytes par) (hpd : isDir (nodeAt s.vol.bytes par).mode)
  (hcs : IsSlot z.lo cur) (hcu : InUse s.vol.bytes cur) (hcd : isDir (nodeAt s.vol.bytes cur).mode)
  (hcl : (nodeAt s.vol.bytes cur).links = 1) (htwo : 512 ≤ (nodeAt s.vol.bytes cur).size) (hne : par ≠ cur) (hbig : s.vol.size ≤ 2 ^ 56)

include h hps hpu hpd hcs hcu hcd hcl htwo hne hbig

theorem unlinkFrom_notSwept (hrun : unlinkFrom par cur s = some (0, s')) : ¬ Swept z par cur s.vol ps s'.vol ps' := by
  intro hs
  have hcur := h.inode hcs hcu
  have hq := (h.dirs par hps hpu hpd).toPacked
  have hdir := h.dirs cur hcs hcu hcd
  have hb := h.beside hcs hps hne
  have hclow := hcs.low
  have hceil := hdir.ceil
  have hn : 0 < (nodeAt s.vol.bytes cur).blocks := by omega
  have haddr : addrOf s.vol.bytes (nodeAt s.vol.bytes cur) 0 = (nodeAt s.vol.bytes cur).direct 0 := addrOf_direct (by decide)
  rcases removeLink_cases (h.inode hps hpu) hq (show cur ≠ 0 by omega) with ⟨-, hr⟩ | ⟨K1, own1, ps1, q1, hr, hsh⟩
  · -- the call fails
    obtain ⟨s1, h1, hfail⟩ := hr.then_some (holds_all.mpr rfl) hrun
    cases hfail
  obtain ⟨t, s1, s2, s3, hi, hk, hsize, hend⟩ := unlinkFrom_ending hcur hb hcl hcd hn hr hsh hrun
  have hblock : IsBlock s'.vol.size ((nodeAt s.vol.bytes cur).direct 0) := by
    rw [hsize, ← haddr]
    exact hcur.space.owned_block (hcur.maps.data 0 hn)
  obtain ⟨hhead, hone⟩ := hend.sole hblock (hsize ▸ hbig) hs.list (fun c hc => hs.low h hps hpu hq hcs hcu hc) (by omega) hcur.high
  rw [← haddr] at hone
  obtain ⟨rfl, hpm, hsingle, hbelow⟩ := hs.sole h hps hpu hq hcs hcu hne hn hone
  have hempty := hsh.free
  rw [if_neg hpm] at hempty
  obtain rfl : ps1 = [] := nil_of_freeOrder hempty.eq_nil
  have hfar := hsh.keptBlocks hcur hb hk
  have hchild : ∀ e < (nodeAt s.vol.bytes cur).size / 256, childOf s1.vol.bytes ((nodeAt s.vol.bytes cur).unlinked t) e =
      childOf s.vol.bytes (nodeAt s.vol.bytes cur) e := fun e he => by
    have hsame := child_kept hfar (hdir.lt he)
    rw [all_vol, all_vol] at hsame
    rw [← hsame, childOf, entryAt, SameMap.unlinked.addr, childOf, entryAt]
  have hzero := hend.noneFree (C := Below s.vol.bytes cur) hi ((Packed.kept hfar hdir.toPacked fun _ _ => trivial).sameMap SameMap.unlinked rfl)
    hsingle htwo (fun e h2 he h0 => by
      rw [hchild e he] at h0 ⊢
      exact .entry .self hcd h2 he h0) fun c hc => hsh.bare h hps hq hcs hk (hc.used h hcs hcu).1 (hbelow c hc)
  exact hblock.pos (hhead.symm.trans hzero)

/-- Deleting a directory never reclaims its subtree. `s` is the state the lookups of the
    path leave. -/
theorem unlink_dir_never (hf : Found path s0 par cur s) :
    (¬ ∃ s' ps', tfsUnlink path s0 = some (0, s') ∧ Swept z par cur s.vol ps s'.vol ps') ∧
    ¬ ∃ s' ps', tfsRmdir path s0 = some (0, s') ∧ Swept z par cur s.vol ps s'.vol ps' := by
  have hplow := hps.low
  have hclow := hcs.low
  have hnever : ¬ ∃ s' ps', tfsUnlink path s0 = some (0, s') ∧ Swept z par cur s.vol ps s'.vol ps' := by
    intro hex
    obtain ⟨s', ps', hrun, hs⟩ := hex
    rw [hf.unlink (by omega) (by omega)] at hrun
    exact unlinkFrom_notSwept h hps hpu hpd hcs hcu hcd hcl htwo hne hbig hrun hs
  exact ⟨hnever, hnever⟩

end

/-! ## In a state that is reached -/

/-- The path is that of a directory other than the root, on a sound disk. -/
structure Target (path : List UInt8) (s : Sys) (own : Nat → Option Pos) (ps : List Nat) (par cur : Nat) (s1 : Sys) : Prop where
  same : s1.vol = s.vol
  found : Found path s par cur s1
  sound : Sound (zoneOf s.vol.size) s.vol own ps
  parent : IsSlot (zoneOf s.vol.size).lo par ∧ InUse s.vol.bytes par ∧ isDir (nodeAt s.vol.bytes par).mode
  dir : IsSlot (zoneOf s.vol.size).lo cur ∧ InUse s.vol.bytes cur ∧ isDir (nodeAt s.vol.bytes cur).mode
  links : (nodeAt s.vol.bytes cur).links = 1
  two : 512 ≤ (nodeAt s.vol.bytes cur).size
  ne : par ≠ cur

theorem Reached.target {before x : List UInt8} (h : Reached s) (hp : s.vol.fs.Path path) (hl : splitLast path = some (before, x)) (hx0 : x ≠ [])
    (hat : s.vol.fs.At path cur) (hdir : s.vol.tree.IsDir cur) : ∃ own ps par s1, Target path s own ps par cur s1 := by
  obtain ⟨hh, own, ps, hk⟩ := h.inOrder
  obtain ⟨d, hd, hx⟩ := hat.parent hl hx0
  have hroot := hh.root
  obtain ⟨s1, hs1, hfound⟩ := hk.found hp.plain (by rw [hroot]; exact hp.walkable) hl hx0 (by rw [hroot]; exact hd) hx
  have hcur := hk.dir_of_tree hdir
  have hgood := hk.good cur hcur.1 hcur.2.1
  have htwo := (hgood.dir hcur.2.2).two
  refine ⟨own, ps, d, s1, hs1, hfound, hk.sound, hk.dir_of_tree (.of_mem hx), hcur, hgood.links, htwo, fun heq => ?_⟩
  subst heq
  exact hk.tree.not_self hx

def makeInner : Call := .mknod [47, 97, 47, 98] 0x81A4

theorem withDir_empty {d : Nat} (hd : withDir.vol.fs.At [47, 97] d) : withDir.vol.tree.IsDir d ∧ withDir.vol.tree.entries d = [] := by
  obtain ⟨-, a, hat, ha⟩ := withDir_dir
  obtain rfl := withDir_reached.inOrder.tree.leads_inj hat hd
  exact ⟨⟨_, _, ha⟩, entries_dir ha⟩

theorem makeInner_allowed : withDir.vol.fs.Allowed makeInner := by
  refine ⟨⟨[47, 97], [98], by decide, withDir_dir.1, ⟨by decide, by decide, by simp⟩, by decide, fun d hd => ?_⟩, by decide, by decide⟩
  obtain ⟨hdir, hent⟩ := withDir_empty hd
  refine ⟨hdir, ?_, ?_⟩
  · show [98] ∉ withDir.vol.tree.names d
    rw [Store.names, hent]
    exact List.not_mem_nil
  · show (withDir.vol.tree.entries d).length < 190
    rw [hent]
    decide

theorem withDir_size : withDir.vol.size = 66 * 4096 :=
  (newDisk_born.1.inOrder.1.size_run makeDir_allowed withDir_made).trans newDisk_born.2.1

theorem withDir_slot : ∃ a, IsSlot (regionStart withDir.vol.size) a ∧ withDir.vol.tree a = none := by
  obtain ⟨hi, ht, -⟩ := newDisk_born.1.inOrder
  obtain ⟨before, name, d, a, hl, hd, -, -, -, hfs⟩ := (hi.answers makeDir_allowed withDir_made).make_inv makeDir_makes
  obtain ⟨rfl, rfl⟩ := Prod.mk.inj (Option.some.inj (hl.symm.trans (show splitLast [47, 97] = some ([], [97]) by decide)))
  obtain rfl : d = 4096 := leads_nil.mp hd
  have hnone : ∀ x, x ≠ 4096 → x ≠ a → withDir.vol.tree x = none := fun x hx hxa => by
    have htree : withDir.vol.tree = newDisk.vol.tree.make 4096 [97] a ⟨⟨0x41ED, 0, 0⟩, .dir []⟩ := congrArg Fs.tree hfs
    rw [htree, Store.make, setBody_ne hx, set_ne hxa, ht, bare, set_ne hx]
  rw [withDir_size]
  by_cases ha : a = 4352
  · exact ⟨4608, ⟨by decide, by decide, by decide⟩, hnone 4608 (by decide) (by omega)⟩
  · exact ⟨4352, ⟨by decide, by decide, by decide⟩, hnone 4352 (by decide) (by omega)⟩

/-- A directory in the root of the small device, and a file in it. -/
def withInner : Sys := makeInner.after withDir

theorem withInner_made : makeInner.run withDir = some (answer 0, withInner) := by
  have hi := withDir_reached.inOrder
  obtain ⟨r, hrun, -⟩ := hi.after makeInner_allowed
  obtain ⟨hpath, a, hat, -⟩ := withDir_dir
  obtain ⟨-, k, hfree, hk⟩ := newDisk_makes makeDir_allowed makeDir_makes (by decide)
  have hk' : 63 = k + 1 := hk
  obtain rfl : k = 62 := by omega
  have hroomy : Roomy withDir.vol a ⟨⟨0x81A4, withDir.vol.fs.userId, withDir.vol.fs.groupId⟩, .file []⟩ := by
    refine ⟨withDir_slot, 62, hfree, ?_⟩
    rw [needs, (withDir_empty hat).2]
    decide
  rcases hi.roomy makeInner_allowed rfl (show splitLast [47, 97, 47, 98] = some ([47, 97], [98]) by decide) hat hrun with
    ⟨-, rfl, -⟩ | ⟨hno, -⟩
  · exact hrun
  · exact absurd hroomy hno

theorem withInner_reached : Reached withInner := withDir_reached.next (.call makeInner _ _ makeInner_allowed withInner_made)

theorem withInner_dir : ∃ a, withInner.vol.fs.Path [47, 97] ∧ withInner.vol.fs.At [47, 97] a ∧ withInner.vol.tree.IsDir a ∧
    withInner.vol.tree.names a = [[98]] := by
  have hi := withDir_reached.inOrder
  obtain ⟨before, name, d, a, hl, hd, hdir, ha, ho, hfs⟩ := (hi.answers makeInner_allowed withInner_made).make_inv rfl
  obtain ⟨rfl, rfl⟩ := Prod.mk.inj (Option.some.inj (hl.symm.trans (show splitLast [47, 97, 47, 98] = some ([47, 97], [98]) by decide)))
  have hat : withInner.vol.fs.At [47, 97] d := by
    rw [hfs]
    exact make_leads hdir ha ho hd
  refine ⟨d, ⟨withDir_dir.1.plain, withInner_reached.inOrder.tree.walkable hat⟩, hat, ?_, ?_⟩
  · show withInner.vol.fs.tree.IsDir d
    rw [hfs]
    exact (make_entries hdir ha ho).1
  · show withInner.vol.fs.tree.names d = [[98]]
    obtain ⟨-, hent, -⟩ : _ ∧ (withDir.vol.fs.tree.make d [98] a _).entries d = _ ∧ _ := make_entries hdir ha ho
    rw [hfs]
    show ((withDir.vol.fs.tree.make d [98] a _).entries d).map Prod.fst = [[98]]
    rw [hent, show withDir.vol.fs.tree.entries d = [] from (withDir_empty hd).2]
    rfl

/-- A directory with a file in it. -/
theorem unlink_dir_never_inner : ∃ own ps par cur s, Target [47, 97] withInner own ps par cur s ∧ withInner.vol.tree.names cur = [[98]] ∧
    (¬ ∃ s' ps', tfsUnlink [47, 97] withInner = some (0, s') ∧ Swept (zoneOf withInner.vol.size) par cur withInner.vol ps s'.vol ps') ∧
    ¬ ∃ s' ps', tfsRmdir [47, 97] withInner = some (0, s') ∧ Swept (zoneOf withInner.vol.size) par cur withInner.vol ps s'.vol ps' := by
  obtain ⟨cur, hpath, hat, hdir, hnames⟩ := withInner_dir
  obtain ⟨own, ps, par, s, ht⟩ := withInner_reached.target hpath (show splitLast [47, 97] = some ([], [97]) by decide) (by decide) hat hdir
  have hsize : withInner.vol.size ≤ 2 ^ 56 := by
    rw [withDir_reached.inOrder.size_run makeInner_allowed withInner_made, withDir_size]
    decide
  refine ⟨own, ps, par, cur, s, ht, hnames, ?_⟩
  obtain ⟨hsame, hfound, hsound, hpar, hcur, hlinks, htwo, hne⟩ := ht
  rw [← hsame] at hsound hpar hcur hlinks htwo hsize ⊢
  exact unlink_dir_never hsound hpar.1 hpar.2.1 hpar.2.2 hcur.1 hcur.2.1 hcur.2.2 hlinks htwo hne hsize hfound

/-- The empty directory: its inode is cleared, and there is no free list. -/
theorem unlink_dir_lost : ∃ own ps par cur s, Target [47, 97] withDir own ps par cur s ∧
    ∃ s', tfsUnlink [47, 97] withDir = some (0, s') ∧ ∀ ps', ¬ Swept (zoneOf withDir.vol.size) par cur withDir.vol ps s'.vol ps' := by
  obtain ⟨hpath, cur, hat, hent⟩ := withDir_dir
  obtain ⟨own, ps, par, s, ht⟩ := withDir_reached.target hpath (show splitLast [47, 97] = some ([], [97]) by decide) (by decide) hat
    ⟨_, _, hent⟩
  obtain ⟨hh, own1, ps1, hk⟩ := withDir_reached.inOrder
  have hroot := hh.root
  obtain ⟨d, hd, hx⟩ := hat.parent (show splitLast [47, 97] = some ([], [97]) by decide) (by decide)
  obtain ⟨s', hrun, -, hastray⟩ := tfsRmdir_bare hk hpath.plain (by rw [hroot]; exact hpath.walkable)
    (show splitLast [47, 97] = some ([], [97]) by decide) (by decide) (by rw [hroot]; exact hd) hx ⟨_, _, hent⟩ (entries_dir hent)
  refine ⟨own, ps, par, cur, s, ht, s', hrun, fun ps' hs => ?_⟩
  have hnone : ¬ FreeList (.all s'.vol) ps' := hastray.not_freeList
  exact hnone hs.list

end TyrantFS

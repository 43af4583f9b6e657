/-
  TyrantFS.Help.Recycled — what `add_block_to_node` makes of a block that was not wiped.

  The file has filled its direct blocks and its first page, and the call takes the root of
  the double tree. `allocate_block` hands that page out as it was freed, and the call looks
  into it for the page below (`addBlockToNode_looks`). Where it finds the block it is about
  to add, that block becomes its own page (`addBlockToNode_recycled`): the block is found
  under the next number, and all the others are where they were (`Puts`), as long as nothing
  is written to it.
-/
import TyrantFS.Help.Filled

namespace TyrantFS

open Lib Lib.PageTree

variable {z : Zone} {K K' : View} {own : Nat → Option Pos} {ps ps' rest : List Nat} {a b i p q x0 x1 y : Nat} {n n' : Node} {s s' : Sys}

/-- The block `b` is the last one of `n'`, and those of `n` are where they were and hold
    what they did. -/
structure Puts (n : Node) (s : Sys) (b : Nat) (n' : Node) (s' : Sys) : Prop where
  blocks : n'.blocks = n.blocks + 1
  last : (getIBlock n' n.blocks s').map Prod.fst = some b
  earlier : ∀ i < n.blocks, ∃ c, (getIBlock n i s).map Prod.fst = some c ∧ (getIBlock n' i s').map Prod.fst = some c ∧
    ∀ k < 4096, s'.vol.bytes (c + k) = s.vol.bytes (c + k)

/-- The bytes that change: the superblock's word, the inode and the free blocks. -/
def FreeByte (K : View) (ps : List Nat) (a x : Nat) : Prop :=
  x < 8 ∨ a ≤ x ∧ x < a + 208 ∨ ∃ b ∈ freeOrder K ps, b ≤ x ∧ x < b + 4096

/-- The inode with its 525th block, the root of the double tree at `p`. -/
def Node.doubled (n : Node) (p : Nat) : Node := { n with blocks := n.blocks + 1, dblIndirect := p }

/-- What the call leaves. -/
structure Recycled (z : Zone) (a : Nat) (K : View) (own : Nat → Option Pos) (ps : List Nat) (n : Node) (x0 x1 : Nat) (rest : List Nat)
    (K' : View) (ps' : List Nat) : Prop where
  space : Space z K' own ps'
  order : freeOrder K' ps' = rest
  node : nodeAt K'.vol.bytes a = n.doubled x1
  fits : (n.doubled x1).Fits
  keeps : Keeps (FreeByte K ps a) K K'
  block : IsBlock K.vol.size x0
  page : IsBlock K.vol.size x1
  root : slot K'.vol.bytes x1 0 = x0
  leaf : slot K'.vol.bytes x0 0 = x0

/-- The slots that lead to block 524. -/
theorem getIBlock_double (hb : 524 < n.blocks) (hp : IsBlock K.vol.size n.dblIndirect) (hq : IsBlock K.vol.size q) (hv : ∀ x, K.vis x)
    (hs : slot K.vol.bytes n.dblIndirect 0 = q) : Runs K (getIBlock n 524) (slot K.vol.bytes q 0) K := by
  unfold getIBlock
  rw [if_neg (by omega), if_neg (by omega), if_neg (by omega)]
  refine junkVar_runs.bind ?_
  rw [if_neg (by omega), if_pos (by omega)]
  dsimp only
  rw [if_neg hp.pos]
  have hupper := readSlot_runs (v := 0) hp (show 0 < 512 by decide) fun _ _ => hv _
  rw [hs] at hupper
  exact hupper.bind (readSlot_runs hq (by decide) fun _ _ => hv _)

/-- The disk, when the block `x0` is entered in `y`. -/
def View.recycle (K : View) (a : Nat) (n : Node) (x0 x1 y : Nat) : View :=
  ((K.store a 208 (n.setRoot 13 x1).encode).storeWord y x0).store a 208 (n.doubled x1).encode

@[simp] theorem recycle_size : (K.recycle a n x0 x1 y).vol.size = K.vol.size := by
  rw [View.recycle, store_size, storeWord_size, store_size]

theorem Keeps.recycle {S : Nat → Prop} (ha : ∀ x, a ≤ x → x < a + 208 → S x) (hx : ∀ x, y ≤ x → x < y + 8 → S x) :
    Keeps S K (K.recycle a n x0 x1 y) :=
  ((Keeps.store fun x h1 h2 => ha x h1 h2).trans (Keeps.storeWord fun x h1 h2 => hx x h1 h2)).trans (Keeps.store fun x h1 h2 => ha x h1 h2)

theorem recycle_root (h1 : IsBlock K.vol.size x1) (hap : y + 4096 ≤ x1 ∨ x1 + 4096 ≤ y) (ha1 : a + 208 ≤ x1)
    (hw : word K.vol.bytes x1 = y) : slot (K.recycle a n x0 x1 y).vol.bytes x1 0 = y := by
  rw [slot_of_ne h1.pos]
  refine Eq.trans (word_congr fun k hk => put_out (by omega)) ((word_putWord_ne (by omega)).trans (Eq.trans ?_ hw))
  exact word_congr fun k hk => put_out (by omega)

theorem recycle_leaf (h0 : IsBlock K.vol.size x0) (hy : IsBlock K.vol.size y) (hay : a + 208 ≤ y) :
    slot (K.recycle a n x0 x1 y).vol.bytes y 0 = x0 := by
  have hin := h0.inside
  have hlt := K.vol.size_lt
  rw [slot_of_ne hy.pos]
  refine Eq.trans (word_congr fun k hk => put_out (by omega)) ?_
  exact word_putWord (by omega)

/-- The page `x1` is taken for the root, and `y` is found in it. -/
theorem addBlockDbl_recycled {K1 : View} {drive : Int} (hy : IsBlock K.vol.size y) (h1 : IsBlock K.vol.size x1) (hay : a + 208 ≤ y)
    (ha1 : a + 208 ≤ x1) (hw : word K.vol.bytes x1 = y) (hv : ∀ x, K.vis x) (hb : n.blocks = 524) (h13 : n.dblIndirect = 0)
    (hrun : Runs K1 (allocateBlock drive) x1 K) : Runs K1 (addBlockDbl drive n a x0) (x0, n.doubled x1) (K.recycle a n x0 x1 y) := by
  have hin := hy.inside
  have hroot : slot (K.store a 208 (n.setRoot 13 x1).encode).vol.bytes x1 0 = y := by
    rw [slot_of_ne h1.pos]
    exact Eq.trans (word_congr fun k hk => put_out (by omega)) hw
  have hread := readSlot_runs (v := 0) (K := K.store a 208 (n.setRoot 13 x1).encode) h1 (show 0 < 512 by decide) fun _ _ => Or.inl (hv _)
  rw [hroot] at hread
  have hstore : Runs K (do
      let _ ← commitInode (n.setRoot 13 x1) a
      Pure.pure ()) () (K.store a 208 (n.setRoot 13 x1).encode) := (commitInode_runs (by omega)).bind Runs.pure
  have hlink : Runs K1 (linkPage drive x0 n.dblIndirect fun p => do
      let _ ← commitInode (n.setRoot 13 p) a
      Pure.pure ()) x1 (K.store a 208 (n.setRoot 13 x1).encode) := by
    unfold linkPage
    rw [if_neg (fun hc => hc h13)]
    refine hrun.bind ?_
    rw [if_neg h1.pos]
    exact hstore.bind Runs.pure
  have hchild : ∀ store, Runs (K.store a 208 (n.setRoot 13 x1).encode) (linkPage drive x0 y store) y
      (K.store a 208 (n.setRoot 13 x1).encode) := by
    intro store
    unfold linkPage
    rw [if_pos hy.pos]
    exact Runs.pure
  have hleaf : Runs (K.store a 208 (n.setRoot 13 x1).encode) (addLeaf (n.setRoot 13 x1) a x0 y ↑(0 * 8)) (x0, n.doubled x1)
      (K.recycle a n x0 x1 y) := by
    unfold addLeaf
    refine (writeSlot_runs (K := K.store a 208 (n.setRoot 13 x1).encode) hy (show 0 < 512 by decide)).bind ?_
    dsimp only
    rw [setRoot_blocks, Nat.mod_eq_of_lt (by omega : n.blocks + 1 < 2 ^ 64)]
    exact (commitInode_runs (K := (K.store a 208 (n.setRoot 13 x1).encode).storeWord y x0) (n := n.doubled x1)
      (by rw [storeWord_size, store_size]; omega)).bind Runs.pure
  unfold addBlockDbl
  refine hlink.bind ?_
  rw [if_neg h1.pos]
  dsimp only
  rw [show (n.blocks - 12 - 512) / 512 = 0 by omega, show (n.blocks - 12 - 512) % 512 = 0 by omega]
  refine hread.bind ((hchild _).bind ?_)
  rw [if_neg hy.pos]
  exact hleaf

/-- Two blocks are taken; what the second one holds in its first word is taken for a page. -/
theorem addBlockToNode_looks (h : MapAt z K own ps a n) (hv : ∀ x, K.vis x) (hb : n.blocks = 524) (h13 : n.dblIndirect = 0)
    (hord : freeOrder K ps = x0 :: x1 :: rest) (h1 : x1 ∉ ps) (hw : word K.vol.bytes x1 = y) (hy : IsBlock K.vol.size y) (hay : a + 208 ≤ y) :
    ∃ K1 ps1 K2 ps2, Taken K ps x0 K1 ps1 ∧ Taken K1 ps1 x1 K2 ps2 ∧ word K2.vol.bytes x1 = y ∧
      Runs K (addBlockToNode n a) (x0, n.doubled x1) (K2.recycle a n x0 x1 y) := by
  have hlow := h.low
  have hhigh := h.high
  have hlo := h.space.low
  have hm0 : x0 ∈ freeOrder K ps := by rw [hord]; exact List.mem_cons_self
  have hm1 : x1 ∈ freeOrder K ps := by rw [hord]; exact List.mem_cons_of_mem _ List.mem_cons_self
  have hb0 := h.space.list.block x0 hm0
  have hb1 := h.space.list.block x1 hm1
  have hz1 := (h.space.free x1 hm1).2
  have hl1 := hz1.low
  obtain ⟨K1, ps1, hrun1, hk1⟩ := allocateBlock_some K.vol.glob.drive h.space.list hord
  obtain ⟨hsp1, -, -, -⟩ := h.space.take hk1
  have hord1 : freeOrder K1 ps1 = x1 :: rest := (List.cons.inj (hk1.order.symm.trans hord)).2
  obtain ⟨K2, ps2, hrun2, hk2⟩ := allocateBlock_some K.vol.glob.drive hsp1.list hord1
  have hsize2 : K2.vol.size = K.vol.size := hk2.keeps.size.trans hk1.keeps.size
  -- the page still holds what it did
  have hw2 : word K2.vol.bytes x1 = y := by
    rw [← hw]
    refine word_congr fun k hk => ?_
    rw [hk2.keeps.bytes _ (hsp1.chain_far hz1 (fun hm => h1 (hk1.pages _ hm)) (by omega) (by omega)),
      hk1.keeps.bytes _ (h.space.chain_far hz1 h1 (by omega) (by omega))]
  have hv2 : ∀ x, K2.vis x := fun x => hk2.keeps.vis x (hk1.keeps.vis x (hv x))
  refine ⟨K1, ps1, K2, ps2, hk1, hk2, hw2, ?_⟩
  unfold addBlockToNode
  rw [if_neg (by omega)]
  refine globals_runs.bind (hrun1.bind ?_)
  rw [if_neg hb0.pos, if_neg (by omega)]
  dsimp only
  rw [if_neg (by omega), if_neg (by omega), if_pos (by omega)]
  exact addBlockDbl_recycled (hsize2 ▸ hy) (hsize2 ▸ hb1) hay (by omega) hw2 hv2 hb h13 hrun2

theorem addBlockToNode_recycled (h : MapAt z K own ps a n) (hf : n.Fits) (hv : ∀ x, K.vis x) (hb : n.blocks = 524) (h13 : n.dblIndirect = 0)
    (hord : freeOrder K ps = x0 :: x1 :: rest) (h1 : x1 ∉ ps) (hw : word K.vol.bytes x1 = x0) :
    ∃ K' ps', Runs K (addBlockToNode n a) (x0, n.doubled x1) K' ∧ Recycled z a K own ps n x0 x1 rest K' ps' := by
  have hlow := h.low
  have hhigh := h.high
  have hlo := h.space.low
  have hsize := K.vol.size_lt
  have hm0 : x0 ∈ freeOrder K ps := by rw [hord]; exact List.mem_cons_self
  have hm1 : x1 ∈ freeOrder K ps := by rw [hord]; exact List.mem_cons_of_mem _ List.mem_cons_self
  have hb0 := h.space.list.block x0 hm0
  have hb1 := h.space.list.block x1 hm1
  have hz0 := (h.space.free x0 hm0).2
  have hz1 := (h.space.free x1 hm1).2
  have hl0 := hz0.low
  have hl1 := hz1.low
  have hap := hz0.apart hz1 fun e => by
    have hnd : (freeOrder K ps).Nodup := h.space.list.chain.nodup
    rw [hord, e] at hnd
    exact (List.nodup_cons.mp hnd).1 List.mem_cons_self
  obtain ⟨K1, ps1, K2, ps2, hk1, hk2, hw2, hrun⟩ := addBlockToNode_looks h hv hb h13 hord h1 hw hb0 (by omega)
  obtain ⟨hsp1, hn1, -, -⟩ := h.space.take hk1
  obtain ⟨hsp2, -, -, -⟩ := hsp1.take hk2
  have hord1 : freeOrder K1 ps1 = x1 :: rest := (List.cons.inj (hk1.order.symm.trans hord)).2
  have hord2 : freeOrder K2 ps2 = rest := (List.cons.inj (hk2.order.symm.trans hord1)).2
  have hsize2 : K2.vol.size = K.vol.size := hk2.keeps.size.trans hk1.keeps.size
  rw [← hsize2] at hb0 hb1
  have hkeep3 : Keeps (fun x => a ≤ x ∧ x < a + 208 ∨ x0 ≤ x ∧ x < x0 + 8) K2 (K2.recycle a n x0 x1 x0) :=
    Keeps.recycle (fun x h1 h2 => Or.inl ⟨h1, h2⟩) fun x h1 h2 => Or.inr ⟨h1, h2⟩
  obtain ⟨hsp, hord3⟩ := hsp2.keep hkeep3 (fun x hx => by omega) fun x c hx hc => by
      have hcz := (hsp2.free c hc).2
      have hcl := hcz.low
      have := hcz.apart hz0 fun e => hn1 (by rw [hord1, ← e, ← hord2]; exact List.mem_cons_of_mem _ hc)
      omega
  have hfits : (n.doubled x1).Fits :=
    { hf with blocks := show n.blocks + 1 < 2 ^ 64 by omega, dblIndirect := show x1 < 2 ^ 64 by have := hb1.inside; omega }
  refine ⟨_, ps2, hrun, hsp, hord3.trans hord2, nodeAt_put hfits, hfits,
    ((hk1.keeps.mono fun x hx => ?_).trans (hk2.keeps.mono fun x hx => ?_)).trans
      (Keeps.recycle (fun x h1 h2 => Or.inr (Or.inl ⟨h1, h2⟩)) fun x h1 h2 => Or.inr (Or.inr ⟨x0, hm0, h1, by omega⟩)),
    hsize2 ▸ hb0, hsize2 ▸ hb1, recycle_root hb1 hap (by omega) hw2, recycle_leaf hb0 hb0 (by omega)⟩
  · rcases hx with hx | ⟨c, hc, hx⟩
    · exact Or.inl hx
    · exact Or.inr (Or.inr ⟨c, PageChain.mem_order.mpr (Or.inl hc), hx⟩)
  · rcases hx with hx | ⟨c, hc, hx⟩
    · exact Or.inl hx
    · exact Or.inr (Or.inr ⟨c, PageChain.mem_order.mpr (Or.inl (hk1.pages c hc)), hx⟩)

/-! ## What is granted of a call -/

section
variable (hr : Recycled z a K own ps n x0 x1 rest K' ps') (h : MapAt z K own ps a n)

include hr h

/-- Nothing that is owned changes. -/
theorem Recycled.owned {c x : Nat} {p : Pos} (hc : own c = some p) (h1 : c ≤ x) (h2 : x < c + 4096) : K'.vol.bytes x = K.vol.bytes x := by
  have hhas := h.space.owned c (by simp [hc])
  have hlow := hhas.low
  have hlo := h.space.low
  have hhigh := h.high
  refine hr.keeps.bytes x ?_
  rintro (hx | hx | ⟨b, hb, hx⟩)
  · omega
  · omega
  · have := hhas.apart (h.space.free b hb).2 fun e => h.space.owned_notFree hc (e ▸ hb)
    omega

theorem Recycled.confined : Confined z (· = a) K own K' own :=
  Confined.bytes hr.keeps fun x hx => by
    rcases hx with hx | hx | ⟨b, hb, hx⟩
    · exact Or.inl hx
    · exact touch_slot rfl hx.1 (by omega)
    · exact touch_free (h.space.free b hb).2 (h.space.free b hb).1 hx.1 hx.2

theorem Recycled.get (hv : ∀ x, K'.vis x) (hb : n.blocks = 524) (hi : i < 524) :
    Runs K' (getIBlock (n.doubled x1) i) (addrOf K.vol.bytes n i) K' := by
  have hcap : (524 : Nat) < capacity := by decide +kernel
  have hroot : (n.doubled x1).root (rootOf i) = n.root (rootOf i) := by
    unfold rootOf
    split
    · rename_i h12
      rw [Node.root, Node.root, if_pos h12, if_pos h12]
      rfl
    · rfl
  have hat : ∀ π, IsPath (rootOf i) π → blockAt K'.vol.bytes (n.doubled x1) (rootOf i) π = blockAt K.vol.bytes n (rootOf i) π := fun π hp => by
    rw [blockAt, hroot]
    exact h.maps.frame (fun c j π hc x => hr.owned h hc) hp
  have hpath := pathOf_isPath (show i < capacity by omega)
  have hget : Runs K' (getIBlock (n.doubled x1) i) (addrOf K'.vol.bytes (n.doubled x1) i) K' := by
    refine getIBlock_of_pages (show i < n.blocks + 1 by omega) (by omega) fun π k ρ e => ⟨?_, fun _ _ => hv _⟩
    rw [e] at hpath
    rw [hat π hpath.prefix, hr.keeps.size]
    exact h.space.owned_block ((h.maps.used fun _ _ => h.space.owned_block).page i (by omega) π k ρ e).1
  rwa [addrOf, hat _ hpath] at hget

end

/-- The call does all that could be asked of it. -/
theorem Recycled.puts (hr : Recycled z a (.all s.vol) own ps n x0 x1 rest (.all s'.vol) ps') (h : MapAt z (.all s.vol) own ps a n)
    (hb : n.blocks = 524) : Puts n s x0 (n.doubled x1) s' := by
  have hall : ∀ {s : Sys}, (View.all s.vol).Holds s := holds_all.mpr rfl
  have hsize : s'.vol.size = s.vol.size := hr.keeps.size
  refine ⟨rfl, ?_, fun i hi => ?_⟩
  · obtain ⟨s1, e1, -⟩ := (getIBlock_double (K := .all s'.vol) (n := n.doubled x1) (q := x0) (show 524 < n.blocks + 1 by omega)
      (by rw [all_vol, hsize]; exact hr.page) (by rw [all_vol, hsize]; exact hr.block) (all_vis _) hr.root).exec hall
    rw [hb, e1, hr.leaf]
    rfl
  · obtain ⟨s1, e1, -⟩ := (h.get hi).exec hall
    obtain ⟨s2, e2, -⟩ := (hr.get (i := i) h (all_vis _) hb (by omega)).exec hall
    exact ⟨_, by rw [e1]; rfl, by rw [e2]; rfl, fun k hk => hr.owned h (h.maps.data i hi) (by omega) (by omega)⟩

end TyrantFS

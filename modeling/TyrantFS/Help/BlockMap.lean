/-
  TyrantFS.Help.BlockMap — `get_i_block` and `add_block_to_node`.

  Proved: `getIBlock_runs` (block `i` is what stands at its path),
  `addBlockToNode_runs` (a call either enters one free block at the next index, taking
  the index pages that were missing from the free list, or takes the pages there were
  and fails), and that the map returns what was put in (`blockMap_returns`).
-/
import TyrantFS.Help.Tree
import Mathlib.Data.List.GetD
import Mathlib.Tactic.SplitIfs

namespace TyrantFS

open Lib Lib.PageTree

variable {z : Zone} {K : View} {own : Nat → Option Pos} {ps : List Nat} {a i k p v : Nat} {n : Node}

/-! ## Slots -/

theorem readSlot_runs (hp : IsBlock K.vol.size p) (hk : k < 512) (hv : K.Sees (p + 8 * k) 8) :
    Runs K (readAddr v p ↑(k * 8)) (slot K.vol.bytes p k) K := by
  have hin := hp.inside
  rw [slot_of_ne hp.pos]
  exact readAddr_runs (o := 8 * k) (by rw [Nat.mul_comm]) hp.pos (by omega) (by omega) hv

theorem writeSlot_runs (hp : IsBlock K.vol.size p) (hk : k < 512) :
    Runs K (writeAddr v p ↑(k * 8)) 8 (K.storeWord (p + 8 * k) v) := by
  have hin := hp.inside
  exact writeAddr_runs (o := 8 * k) (by rw [Nat.mul_comm]) (by omega) (by omega)

/-! ## Reading the map -/

/-- The pages on the way to a block are there. -/
theorem Maps.page_ne (hm : Maps K own a n) (h : ∀ b p, own b = some p → IsBlock K.vol.size b) (hi : i < n.blocks) {π ρ : List Nat}
    (e : pathOf i = π ++ ρ) : blockAt K.vol.bytes n (rootOf i) π ≠ 0 := by
  have hne := (h _ _ (hm.data i hi)).pos
  unfold addrOf blockAt at hne
  rw [e] at hne
  exact walk_prefix_ne (fun k => slot_zero) hne

/-- The blocks in use, and the pages on the way to them: all that reading the map needs. -/
structure Used (K : View) (own : Nat → Option Pos) (a : Nat) (n : Node) : Prop where
  cap : n.blocks ≤ capacity
  data : ∀ i < n.blocks, own (addrOf K.vol.bytes n i) = some (.data a i)
  page : ∀ i < n.blocks, ∀ π k ρ, pathOf i = π ++ k :: ρ →
    own (blockAt K.vol.bytes n (rootOf i) π) = some (.page a (rootOf i) π) ∧
      K.Sees (blockAt K.vol.bytes n (rootOf i) π + 8 * k) 8

theorem pathOf_root {π ρ : List Nat} (e : pathOf i = π ++ k :: ρ) : 12 ≤ rootOf i := by
  by_contra h
  have := congrArg List.length e
  rw [length_pathOf, List.length_append, List.length_cons] at this
  unfold depth at this
  omega

theorem Maps.used (hm : Maps K own a n) (h : ∀ b p, own b = some p → IsBlock K.vol.size b) : Used K own a n := by
  refine ⟨hm.cap, hm.data, fun i hi π k ρ e => ?_⟩
  have hpath := pathOf_isPath (Nat.lt_of_lt_of_le hi hm.cap)
  have hlen := length_pathOf i
  have hr := pathOf_root e
  have hne := hm.page_ne h hi e
  rw [e] at hpath hlen
  rw [List.length_append, List.length_cons] at hlen
  refine ⟨hm.page _ π hr hpath.prefix (by omega) hne, ?_⟩
  cases ρ with
  | nil => exact hm.leaf i hi π k e
  | cons k' ρ =>
    have hk := hpath.slots k (by simp)
    rw [List.length_cons] at hlen
    exact (hm.upper _ π hr hpath.prefix (by omega) hne).mono (by omega) (by omega)

/-- `get_i_block` needs the pages on the way, and in each the slot it reads. -/
theorem getIBlock_of_pages (hi : i < n.blocks) (hc : i < capacity) (hpage : ∀ π k ρ, pathOf i = π ++ k :: ρ →
    IsBlock K.vol.size (blockAt K.vol.bytes n (rootOf i) π) ∧ K.Sees (blockAt K.vol.bytes n (rootOf i) π + 8 * k) 8) :
    Runs K (getIBlock n i) (addrOf K.vol.bytes n i) K := by
  have hpath := pathOf_isPath hc
  unfold getIBlock
  rw [if_neg (by omega), if_neg (by omega)]
  by_cases h1 : i < 12
  · rw [if_pos h1]
    have e : addrOf K.vol.bytes n i = n.direct i := by
      rw [addrOf, blockAt_direct (by unfold rootOf; rw [if_pos h1]; exact h1) hpath, rootOf, if_pos h1]
    rw [e]
    exact Runs.pure
  rw [if_neg h1]
  refine junkVar_runs.bind ?_
  by_cases h2 : i < 12 + 512
  · have hr : rootOf i = 12 := by rw [rootOf, if_neg h1, if_pos h2]
    have hpa : pathOf i = [i - 12] := by rw [pathOf, if_neg h1, if_pos h2]
    obtain ⟨hb, hs⟩ := hpage [] _ [] hpa
    rw [hr] at hb hs
    rw [if_pos h2, if_neg (show ¬ n.indirectBlocks = 0 from hb.pos)]
    refine (readSlot_runs hb (by omega) hs).result ?_
    rw [addrOf, hr, hpa]
    rfl
  rw [if_neg h2]
  by_cases h3 : i < 12 + 512 + 512 ^ 2
  · have hr : rootOf i = 13 := by rw [rootOf, if_neg h1, if_neg h2, if_pos h3]
    have hpa : pathOf i = [(i - 12 - 512) / 512, (i - 12 - 512) % 512] := by
      rw [pathOf, if_neg h1, if_neg h2, if_pos h3]
    obtain ⟨hb0, hs0⟩ := hpage [] _ _ hpa
    obtain ⟨hb1, hs1⟩ := hpage [(i - 12 - 512) / 512] _ [] hpa
    rw [hr] at hb0 hb1 hs0 hs1
    rw [if_pos h3, if_neg (show ¬ n.dblIndirect = 0 from hb0.pos)]
    refine (readSlot_runs hb0 (by omega) hs0).bind ?_
    refine (readSlot_runs hb1 (by omega) hs1).result ?_
    rw [addrOf, hr, hpa]
    rfl
  · have hr : rootOf i = 14 := by rw [rootOf, if_neg h1, if_neg h2, if_neg h3]
    obtain ⟨k1, k2, k3, hpa, e1, e2, e3, hk1, hk2, hk3⟩ : ∃ k1 k2 k3, pathOf i = [k1, k2, k3] ∧
        k1 = (i - 12 - 512 - 512 * 512) / (512 * 512) ∧ k2 = (i - 12 - 512 - 512 * 512) % (512 * 512) / 512 ∧
        k3 = (i - 12 - 512 - 512 * 512) % (512 * 512) % 512 ∧ k1 < 512 ∧ k2 < 512 ∧ k3 < 512 := by
      unfold capacity at hc
      refine ⟨_, _, _, by rw [pathOf, if_neg h1, if_neg h2, if_neg h3], rfl, rfl, rfl, ?_, ?_, ?_⟩ <;> omega
    obtain ⟨hb0, hs0⟩ := hpage [] k1 [k2, k3] hpa
    obtain ⟨hb1, hs1⟩ := hpage [k1] k2 [k3] hpa
    obtain ⟨hb2, hs2⟩ := hpage [k1, k2] k3 [] hpa
    rw [hr] at hb0 hb1 hb2 hs0 hs1 hs2
    rw [if_neg h3, if_neg (show ¬ n.trplIndirect = 0 from hb0.pos), ← e1, ← e2, ← e3]
    refine (readSlot_runs hb0 hk1 hs0).bind ?_
    refine (readSlot_runs hb1 hk2 hs1).bind ?_
    refine (readSlot_runs hb2 hk3 hs2).result ?_
    rw [addrOf, hr, hpa]
    rfl

theorem Used.get (hm : Used K own a n) (h : ∀ b p, own b = some p → IsBlock K.vol.size b) :
    Runs K (getIBlock n i) (if i < n.blocks then addrOf K.vol.bytes n i else 0) K := by
  by_cases hi : i < n.blocks
  · rw [if_pos hi]
    exact getIBlock_of_pages hi (Nat.lt_of_lt_of_le hi hm.cap) fun π k ρ e =>
      ⟨h _ _ (hm.page i hi π k ρ e).1, (hm.page i hi π k ρ e).2⟩
  · unfold getIBlock
    rw [if_neg hi]
    split
    · exact Runs.pure
    · rw [if_pos (by omega)]
      exact Runs.pure

theorem getIBlock_runs (hm : Maps K own a n) (h : ∀ b p, own b = some p → IsBlock K.vol.size b) :
    Runs K (getIBlock n i) (if i < n.blocks then addrOf K.vol.bytes n i else 0) K := (hm.used h).get h

/-! ## Growing the map -/

/-- `n` with the block map of `n'`. -/
def Node.withMap (n n' : Node) : Node :=
  { n with
    blocks := n'.blocks, directBlocks := n'.directBlocks, indirectBlocks := n'.indirectBlocks
    dblIndirect := n'.dblIndirect, trplIndirect := n'.trplIndirect }

/-- Root `j` of one of the three index trees set to `p`. -/
def Node.setRoot (n : Node) (j p : Nat) : Node :=
  if j = 12 then { n with indirectBlocks := p }
  else if j = 13 then { n with dblIndirect := p }
  else { n with trplIndirect := p }

/-- How many of the pages at `path.take t`, ..., `path.take (t + len - 1)` are missing. -/
def missing (m : Mem) (n : Node) (j : Nat) (path : List Nat) : (t len : Nat) → Nat
  | _, 0 => 0
  | t, len + 1 => (if blockAt m n j (path.take t) = 0 then 1 else 0) + missing m n j path (t + 1) len

/-- The block at `q` is known to be zero. -/
def Clear (K : View) (q : Nat) : Prop := ∀ k < 4096, K.vol.bytes (q + k) = 0 ∧ K.vis (q + k)

/-- The bytes a call of `add_block_to_node` on the inode at `a` may change: the
    superblock's word, the inode, the free blocks and the inode's pages. -/
def GrowByte (K : View) (own : Nat → Option Pos) (ps : List Nat) (a x : Nat) : Prop :=
  x < 8 ∨ a ≤ x ∧ x < a + 208 ∨ (∃ b ∈ freeOrder K ps, b ≤ x ∧ x < b + 4096) ∨
    ∃ b j π, own b = some (.page a j π) ∧ b ≤ x ∧ x < b + 4096

/-- A call of `add_block_to_node` that took the block `b` from the disk `K0` and has the
    first `t` pages on the way to its place, the path `path` below root `j`. -/
structure Growing (z : Zone) (a j : Nat) (path : List Nat) (K0 : View) (own0 : Nat → Option Pos) (ps0 : List Nat) (n0 : Node)
    (b t : Nat) (K : View) (own : Nat → Option Pos) (ps : List Nat) (n : Node) : Prop where
  space : Space z K own ps
  maps : Maps K own a n
  fits : n.Fits
  attrs : n = n0.withMap n
  blocks : n.blocks = n0.blocks
  block : z.Has b
  notFree : b ∉ freeOrder K ps
  noOwner : own b = none
  first : (freeOrder K0 ps0)[0]? = some b
  onDisk : nodeAt K.vol.bytes a = n ∨ n = n0 ∧ ∀ x, a ≤ x → x < a + 208 → K.vol.bytes x = K0.vol.bytes x
  count : (freeOrder K0 ps0).length + missing K0.vol.bytes n0 j path t (depth j - t) =
    1 + missing K0.vol.bytes n0 j path 0 (depth j) + (freeOrder K ps).length
  rest : freeOrder K ps <:+ freeOrder K0 ps0
  pages : ∀ p ∈ ps, p ∈ ps0
  listed : ∀ x ∈ freeOrder K ps, x ∉ ps → x ∉ ps0 ∧ ∀ y, x ≤ y → y < x + 4096 → K.vol.bytes y = K0.vol.bytes y
  held : ∀ k < 4096, K.vol.bytes (b + k) = if b ∈ ps0 then 0 else K0.vol.bytes (b + k)
  /-- The blocks that will be pages of pages are zero. -/
  zeros : ∀ s < missing K0.vol.bytes n0 j path t (depth j - 1 - t), ∀ q, (freeOrder K ps)[s]? = some q → q ∉ ps → Clear K q
  keeps : Keeps (GrowByte K0 own0 ps0 a) K0 K
  owner : ∀ x, own x = own0 x ∨ x ∈ freeOrder K0 ps0 ∧ ∃ j' π, own x = some (.page a j' π)
  old : ∀ j' π, 12 ≤ j' → IsPath j' π → π.length < depth j' →
    blockAt K.vol.bytes n j' π = blockAt K0.vol.bytes n0 j' π ∨
      j' = j ∧ (∃ s < t, π = path.take s) ∧ blockAt K0.vol.bytes n0 j π = 0 ∧ blockAt K.vol.bytes n j π ≠ 0
  present : ∀ s < t, blockAt K.vol.bytes n j (path.take s) ≠ 0
  addr : ∀ i < n0.blocks, addrOf K.vol.bytes n i = addrOf K0.vol.bytes n0 i

section
variable {m : Mem} {j j' q : Nat} {path π ρ : List Nat} {n' : Node}

theorem setRoot_12 : n.setRoot 12 p = { n with indirectBlocks := p } := rfl

theorem setRoot_13 : n.setRoot 13 p = { n with dblIndirect := p } := rfl

theorem setRoot_14 : n.setRoot 14 p = { n with trplIndirect := p } := rfl

theorem root_setRoot (hj : 12 ≤ j) (hj2 : j < 15) (hj' : j' < 15) :
    (n.setRoot j p).root j' = if j' = j then p else n.root j' := by
  rcases (by omega : j = 12 ∨ j = 13 ∨ j = 14) with rfl | rfl | rfl
  · rw [setRoot_12]
    unfold Node.root Node.direct
    split_ifs <;> first | rfl | omega
  · rw [setRoot_13]
    unfold Node.root Node.direct
    split_ifs <;> first | rfl | omega
  · rw [setRoot_14]
    unfold Node.root Node.direct
    split_ifs <;> first | rfl | omega

theorem setRoot_fits (h : n.Fits) (hp : p < 2 ^ 64) : (n.setRoot j p).Fits := by
  unfold Node.setRoot
  split
  · exact { h with indirectBlocks := hp }
  split
  · exact { h with dblIndirect := hp }
  · exact { h with trplIndirect := hp }

theorem setRoot_withMap : n.setRoot j p = n.withMap (n.setRoot j p) := by
  unfold Node.setRoot Node.withMap
  split
  · rfl
  split <;> rfl

theorem setRoot_blocks : (n.setRoot j p).blocks = n.blocks := by
  unfold Node.setRoot
  split
  · rfl
  split <;> rfl

theorem blockAt_append : blockAt m n j (π ++ ρ) = walk (slot m) (blockAt m n j π) ρ := walk_append

/-- Nothing hangs from a missing page. -/
theorem blockAt_missing (h : blockAt m n j π = 0) : blockAt m n j (π ++ ρ) = 0 := by
  rw [blockAt_append, h, walk_zero fun k => slot_zero]

/-- Nothing hangs from an empty page. -/
theorem blockAt_empty (h : ∀ k < 512, slot m (blockAt m n j π) k = 0) (hk : k < 512) :
    blockAt m n j (π ++ k :: ρ) = 0 := by
  rw [blockAt_append, walk_cons, h k hk, walk_zero fun k => slot_zero]

theorem Clear.slot (h : Clear K q) (hk : k < 512) : slot K.vol.bytes q k = 0 := by
  unfold TyrantFS.slot
  split
  · rfl
  · exact word_eq_zero fun i hi => by
      have := (h (8 * k + i) (by omega)).1
      rwa [show q + (8 * k + i) = q + 8 * k + i by omega] at this

theorem missing_succ {t len : Nat} : missing m n j path t (len + 1) =
    (if blockAt m n j (path.take t) = 0 then 1 else 0) + missing m n j path (t + 1) len := rfl

/-- A block that is no page of the chain lies apart from it. -/
theorem Space.chain_far {c x : Nat} (h : Space z K own ps) (hz : z.Has c) (hn : c ∉ ps) (h1 : c ≤ x) (h2 : x < c + 4096) :
    ¬ ChainByte ps x := by
  have hlow := h.low
  have hcl := hz.low
  rintro (hx | ⟨p, hp, h3, h4⟩)
  · omega
  · have := hz.apart (h.free p (PageChain.mem_order.mpr (Or.inl hp))).2 fun e => hn (e ▸ hp)
    omega

/-- A block just taken is clear if it was a page of the chain, or was clear. -/
theorem Taken.clear {K' : View} {b : Nat} {ps' : List Nat} (h : Space z K own ps) (ht : Taken K ps b K' ps')
    (hb : b ∉ ps → Clear K b) : Clear K' b := by
  intro k hk
  by_cases hm : b ∈ ps
  · exact ⟨ht.clean hm k hk, ht.keeps.vis _ (h.list.sees b hm k hk)⟩
  · obtain ⟨hz, hv⟩ := hb hm k hk
    have hbo : b ∈ freeOrder K ps := by
      rw [ht.order]
      exact List.mem_cons_self
    exact ⟨(ht.keeps.bytes _ (h.chain_far (h.free b hbo).2 hm (by omega) (by omega))).trans hz, ht.keeps.vis _ hv⟩

/-- The last block of the list is a page of the chain. -/
theorem Taken.last {K' : View} {b : Nat} {ps' : List Nat} (ht : Taken K ps b K' ps') (he : freeOrder K' ps' = []) : b ∈ ps := by
  have hord := ht.order
  rw [he] at hord
  cases ps with
  | nil => exact absurd hord.symm (List.cons_ne_nil _ _)
  | cons p ps =>
    have hp : p ∈ freeOrder K (p :: ps) := PageChain.mem_order.mpr (Or.inl List.mem_cons_self)
    rw [hord] at hp
    rw [← List.mem_singleton.mp hp]
    exact List.mem_cons_self

/-- A block that stays on the list, and is no page of it, stays as it was. -/
theorem Space.rest {K' : View} {b x : Nat} {ps' : List Nat} (h : Space z K own ps) (ht : Taken K ps b K' ps')
    (hx : x ∈ freeOrder K' ps') (hn : x ∉ ps') :
    x ∉ ps ∧ ∀ y, x ≤ y → y < x + 4096 → K'.vol.bytes y = K.vol.bytes y := by
  have hxb : x ≠ b := fun e => (h.take ht).2.1 (e ▸ hx)
  have hxs : x ∉ ps := fun hm => (ht.stay x hm).elim hn hxb
  have hf := h.free x (by rw [ht.order]; exact List.mem_cons_of_mem _ hx)
  exact ⟨hxs, fun y h1 h2 => ht.keeps.bytes y (h.chain_far hf.2 hxs h1 h2)⟩

end

/-- What a call of `add_block_to_node` on the inode `n0` at `a` leaves: `r` is its result
    and the caller's node. -/
structure Added (z : Zone) (a : Nat) (K0 : View) (own0 : Nat → Option Pos) (ps0 : List Nat) (n0 : Node) (r : Nat × Node)
    (K : View) (own : Nat → Option Pos) (ps : List Nat) : Prop where
  space : Space z K own ps
  maps : Maps K own a r.2
  fits : r.2.Fits
  attrs : r.2 = n0.withMap r.2
  onDisk : nodeAt K.vol.bytes a = r.2 ∨ r.1 = 0 ∧ r.2 = n0 ∧ ∀ x, a ≤ x → x < a + 208 → K.vol.bytes x = K0.vol.bytes x
  keeps : Keeps (GrowByte K0 own0 ps0 a) K0 K
  owner : ∀ x, own x = own0 x ∨ x ∈ freeOrder K0 ps0 ∧
    ((∃ j π, own x = some (.page a j π)) ∨ x = r.1 ∧ own x = some (.data a n0.blocks))
  sub : ∀ x ∈ freeOrder K ps, x ∈ freeOrder K0 ps0
  addr : ∀ i < n0.blocks, addrOf K.vol.bytes r.2 i = addrOf K0.vol.bytes n0 i
  old : ∀ j π, 12 ≤ j → IsPath j π → π.length < depth j →
    blockAt K.vol.bytes r.2 j π = blockAt K0.vol.bytes n0 j π ∨
      j = rootOf n0.blocks ∧ (∃ s < depth j, π = (pathOf n0.blocks).take s) ∧
        blockAt K0.vol.bytes n0 j π = 0 ∧ blockAt K.vol.bytes r.2 j π ≠ 0
  /-- A call fails for want of blocks. -/
  failed : r.1 = 0 → r.2.blocks = n0.blocks ∧ (freeOrder K0 ps0).length <
    1 + missing K0.vol.bytes n0 (rootOf n0.blocks) (pathOf n0.blocks) 0 (depth (rootOf n0.blocks))
  blocks : r.1 ≠ 0 → r.2.blocks = n0.blocks + 1
  entered : r.1 ≠ 0 → addrOf K.vol.bytes r.2 n0.blocks = r.1
  first : r.1 ≠ 0 → (freeOrder K0 ps0)[0]? = some r.1
  count : r.1 ≠ 0 → (freeOrder K0 ps0).length = 1 +
    missing K0.vol.bytes n0 (rootOf n0.blocks) (pathOf n0.blocks) 0 (depth (rootOf n0.blocks)) + (freeOrder K ps).length
  /-- The blocks that are taken come from the front of the list. -/
  rest : r.1 ≠ 0 → freeOrder K ps <:+ freeOrder K0 ps0
  pages : r.1 ≠ 0 → ∀ p ∈ ps, p ∈ ps0
  present : r.1 ≠ 0 → ∀ s < depth (rootOf n0.blocks),
    blockAt K.vol.bytes r.2 (rootOf n0.blocks) ((pathOf n0.blocks).take s) ≠ 0
  listed : r.1 ≠ 0 → ∀ x ∈ freeOrder K ps, x ∉ ps → x ∉ ps0 ∧ ∀ y, x ≤ y → y < x + 4096 → K.vol.bytes y = K0.vol.bytes y
  /-- The block holds what it held, and nothing if it was a page of the chain. -/
  held : r.1 ≠ 0 → ∀ k < 4096, K.vol.bytes (r.1 + k) = if r.1 ∈ ps0 then 0 else K0.vol.bytes (r.1 + k)

theorem Added.wasFree {z : Zone} {K0 : View} {own0 : Nat → Option Pos} {ps0 : List Nat} {n0 : Node} {r : Nat × Node}
    (h : Added z a K0 own0 ps0 n0 r K own ps) (h0 : r.1 ≠ 0) : r.1 ∈ freeOrder K0 ps0 := List.mem_of_getElem? (h.first h0)

/-- The bytes of an inode, and of the pages of its map. -/
def MapByte (own : Nat → Option Pos) (a x : Nat) : Prop :=
  a ≤ x ∧ x < a + 208 ∨ ∃ c j π, own c = some (.page a j π) ∧ c ≤ x ∧ x < c + 4096

/-- `K'`, `n'` is the map `K`, `n` with `q` entered at `τ` below root `j`. -/
structure Hooked (a j : Nat) (τ : List Nat) (own : Nat → Option Pos) (K : View) (n : Node) (q : Nat) (K' : View)
    (n' : Node) : Prop where
  keeps : Keeps (MapByte own a) K K'
  disk : nodeAt K'.vol.bytes a = n'
  fits : n'.Fits
  attrs : n' = n.withMap n'
  entered : blockAt K'.vol.bytes n' j τ = q
  rest : ∀ j' π, IsPath j' π → (j' = j → ¬ τ <+: π) → blockAt K'.vol.bytes n' j' π = blockAt K.vol.bytes n j' π
  seen : ∀ π k, τ = π ++ [k] → K'.Sees (blockAt K'.vol.bytes n' j π + 8 * k) 8

section
variable {j t b q : Nat} {path τ : List Nat} {K0 K' : View} {own0 : Nat → Option Pos} {ps0 ps' : List Nat} {n0 n' : Node}
  {drive : Int}

theorem mapByte_far (h : Space z K own ps) (ha : a + 256 ≤ z.lo) {c x : Nat} (hc : z.Has c)
    (ho : ∀ j π, own c ≠ some (.page a j π)) (h1 : c ≤ x) (h2 : x < c + 4096) : ¬ MapByte own a x := by
  have hlow := hc.low
  rintro (⟨_, hx⟩ | ⟨d, j, π, hd, h3, h4⟩)
  · omega
  · have hne : c ≠ d := fun e => ho j π (e ▸ hd)
    have := hc.apart (h.owned d (by simp [hd])) hne
    omega

theorem Growing.wasFree (hg : Growing z a j path K0 own0 ps0 n0 b t K own ps n) : b ∈ freeOrder K0 ps0 := List.mem_of_getElem? hg.first

/-- What changes in the map is a byte the call may change. -/
theorem Growing.mapByte (hg : Growing z a j path K0 own0 ps0 n0 b t K own ps n) {x : Nat} (hx : MapByte own a x) :
    GrowByte K0 own0 ps0 a x := by
  rcases hx with hx | ⟨c, j', π, hc, h1, h2⟩
  · exact Or.inr (Or.inl hx)
  · rcases hg.owner c with e | ⟨e, _⟩
    · exact Or.inr (Or.inr (Or.inr ⟨c, j', π, e ▸ hc, h1, h2⟩))
    · exact Or.inr (Or.inr (Or.inl ⟨c, e, h1, h2⟩))

/-- Nothing was entered at the next page yet. -/
theorem Growing.here (hg : Growing z a j path K0 own0 ps0 n0 b t K own ps n) (hj : 12 ≤ j) (hp : IsPath j path)
    (hl : path.length = depth j) (ht : t < depth j) :
    blockAt K.vol.bytes n j (path.take t) = blockAt K0.vol.bytes n0 j (path.take t) := by
  have hpt : IsPath j (path.take t) := by
    rw [← List.take_append_drop t path] at hp
    exact hp.prefix
  rcases hg.old j (path.take t) hj hpt (by simp; omega) with h | ⟨_, ⟨s, hs, e⟩, _⟩
  · exact h
  · have := congrArg List.length e
    simp at this
    omega

/-- The page is there. -/
theorem Growing.next (hg : Growing z a j path K0 own0 ps0 n0 b t K own ps n) (hj : 12 ≤ j) (hp : IsPath j path)
    (hl : path.length = depth j) (ht : t < depth j) (h0 : blockAt K.vol.bytes n j (path.take t) ≠ 0) :
    Growing z a j path K0 own0 ps0 n0 b (t + 1) K own ps n := by
  have hh := hg.here hj hp hl ht ▸ h0
  have hstep : ∀ len, missing K0.vol.bytes n0 j path t (len + 1) = missing K0.vol.bytes n0 j path (t + 1) len := by
    intro len
    rw [missing_succ, if_neg hh, Nat.zero_add]
  refine { hg with
    count := ?_, zeros := fun s hs => hg.zeros s ?_, old := fun j' π hj' hp' hl' => ?_, present := fun s hs => ?_ }
  · have := hg.count
    rwa [show depth j - t = depth j - (t + 1) + 1 by omega, hstep] at this
  · by_cases hc : t + 1 < depth j
    · rwa [show depth j - 1 - t = depth j - 1 - (t + 1) + 1 by omega, hstep]
    · rw [show depth j - 1 - (t + 1) = 0 by omega] at hs
      simp [missing] at hs
  · refine (hg.old j' π hj' hp' hl').imp_right ?_
    rintro ⟨e, ⟨s, hs, e'⟩, h⟩
    exact ⟨e, ⟨s, by omega, e'⟩, h⟩
  · rcases Nat.lt_succ_iff_lt_or_eq.mp hs with hs | rfl
    · exact hg.present s hs
    · exact h0

/-! ### The list is empty -/

theorem Growing.fail (hg : Growing z a (rootOf n0.blocks) (pathOf n0.blocks) K0 own0 ps0 n0 b t K own ps n) (hd : 0 ≤ drive)
    (hj : 12 ≤ rootOf n0.blocks) (hc : n0.blocks < capacity) (ht : t < depth (rootOf n0.blocks)) (he : freeOrder K ps = [])
    (h0 : blockAt K.vol.bytes n (rootOf n0.blocks) ((pathOf n0.blocks).take t) = 0) (ha8 : 8 ≤ a) (ha : a + 256 ≤ z.lo) :
    ∃ K' ps', Runs K (freeBlock drive b) 0 K' ∧ Added z a K0 own0 ps0 n0 (0, n) K' own ps' := by
  obtain ⟨K', ps', hrun, hgv⟩ := freeBlock_runs hg.space.list hd (hg.space.block hg.block) hg.notFree
  have hlow := hg.space.low
  have hbl := hg.block.low
  have hkeep : Keeps (GrowByte K0 own0 ps0 a) K K' := hgv.keeps.mono fun x hx => by
    rcases hx with (hx | ⟨q, hq, h1, h2⟩) | hx
    · exact Or.inl hx
    · exact Or.inr (Or.inr (Or.inl ⟨q, hg.rest.subset (PageChain.mem_order.mpr (Or.inl hq)), h1, h2⟩))
    · exact Or.inr (Or.inr (Or.inl ⟨b, hg.wasFree, hx⟩))
  have hframe : ∀ c j π, own c = some (.page a j π) → ∀ x, c ≤ x → x < c + 4096 → K'.vol.bytes x = K.vol.bytes x := by
    intro c j π hc x h1 h2
    refine hgv.keeps.bytes x ?_
    rintro (hx | hx)
    · exact hg.space.chainByte hc h1 h2 hx
    · have hne : c ≠ b := fun e => by rw [e, hg.noOwner] at hc; cases hc
      have := (hg.space.owned c (by simp [hc])).apart hg.block hne
      omega
  have hslot : ∀ x, a ≤ x → x < a + 208 → K'.vol.bytes x = K.vol.bytes x := by
    intro x h1 h2
    refine hgv.keeps.bytes x ?_
    rintro ((hx | ⟨q, hq, h4, _⟩) | hx)
    · omega
    · have := (hg.space.free q (PageChain.mem_order.mpr (Or.inl hq))).2.low
      omega
    · omega
  have hat : ∀ j π, IsPath j π → blockAt K'.vol.bytes n j π = blockAt K.vol.bytes n j π := fun j π =>
    hg.maps.frame hframe
  refine ⟨K', ps', hrun, {
    space := hg.space.give hg.block hg.noOwner hgv
    maps := hg.maps.keep hframe hgv.keeps.vis fun _ _ => rfl
    fits := hg.fits
    attrs := hg.attrs
    onDisk := ?_
    keeps := hg.keeps.trans hkeep
    owner := fun x => ?_
    sub := fun x hx => ?_
    addr := fun i hi => ?_
    old := fun j π hj hp hl => ?_
    failed := fun _ => ⟨hg.blocks, ?_⟩
    blocks := absurd rfl
    entered := absurd rfl
    first := absurd rfl
    pages := absurd rfl
    count := absurd rfl
    rest := absurd rfl
    present := absurd rfl
    listed := absurd rfl
    held := absurd rfl }⟩
  · rcases hg.onDisk with h | ⟨hn, h⟩
    · left
      rw [nodeAt_congr fun k hk => hslot (a + k) (by omega) (by omega)]
      exact h
    · exact Or.inr ⟨rfl, hn, fun x h1 h2 => (hslot x h1 h2).trans (h x h1 h2)⟩
  · exact (hg.owner x).imp_right fun h => ⟨h.1, Or.inl h.2⟩
  · rw [hgv.order.mem_iff, he] at hx
    rw [List.mem_singleton.mp hx]
    exact hg.wasFree
  · rw [hg.maps.addr_frame hframe (by rw [hg.blocks]; exact hi)]
    exact hg.addr i hi
  · rw [hat j π hp]
    refine (hg.old j π hj hp hl).imp_right ?_
    rintro ⟨rfl, ⟨s, hs, e⟩, h1, h2⟩
    exact ⟨rfl, ⟨s, by omega, e⟩, h1, h2⟩
  · have hcount := hg.count
    have hh := hg.here hj (pathOf_isPath hc) (length_pathOf _) ht ▸ h0
    rw [he, List.length_nil, show depth (rootOf n0.blocks) - t = depth (rootOf n0.blocks) - t - 1 + 1 by omega,
      missing_succ, if_pos hh] at hcount
    omega

/-! ### A page is entered -/

theorem nil_of_freeOrder (he : freeOrder K ps = []) : ps = [] := by
  by_contra hne
  obtain ⟨x, hx⟩ := List.exists_mem_of_ne_nil ps hne
  have hmem : x ∈ freeOrder K ps := PageChain.mem_order.mpr (Or.inl hx)
  rw [he] at hmem
  cases hmem

/-- What was entered into a map, and nothing else, is reached through its place. -/
theorem Hooked.addr (hh : Hooked a j τ own K n q K' n') (hm : Maps K own a n) (h : Space z K own ps)
    (h0 : blockAt K.vol.bytes n j τ = 0) (hi : i < n.blocks) :
    (rootOf i = j → ¬ τ <+: pathOf i) ∧ addrOf K'.vol.bytes n' i = addrOf K.vol.bytes n i := by
  have hno : rootOf i = j → ¬ τ <+: pathOf i := by
    rintro rfl ⟨ρ, e⟩
    exact hm.page_ne (fun _ _ => h.owned_block) hi e.symm h0
  exact ⟨hno, hh.rest _ _ (pathOf_isPath (Nat.lt_of_lt_of_le hi hm.cap)) hno⟩

/-- Below a page that is known to be zero there is nothing. -/
theorem Hooked.below (hh : Hooked a j τ own K n q K' n') (hz : Clear K' q) (hp : IsPath j path) (hpre : τ <+: path)
    (hne : path ≠ τ) : blockAt K'.vol.bytes n' j path = 0 := by
  obtain ⟨ρ, rfl⟩ := hpre
  rcases ρ with _ | ⟨k, ρ⟩
  · exact absurd (List.append_nil τ) hne
  · refine blockAt_empty (fun k hk => ?_) (hp.slots k (by simp))
    rw [hh.entered]
    exact hz.slot hk

theorem Hooked.clear (hh : Hooked a j τ own K n q K' n') (h : Space z K own ps) (ha : a + 256 ≤ z.lo) (hq : own q = none)
    (hzq : z.Has q) (hz : Clear K q) : Clear K' q := by
  intro k hk
  refine ⟨?_, hh.keeps.vis _ (hz k hk).2⟩
  rw [hh.keeps.bytes _ (mapByte_far h ha hzq (fun j π e => by rw [hq] at e; cases e) (by omega) (by omega))]
  exact (hz k hk).1

/-- The free list is not touched. -/
theorem Hooked.space (hh : Hooked a j τ own K n q K' n') (h : Space z K own ps) (ha8 : 8 ≤ a) (ha : a + 256 ≤ z.lo) :
    Space z K' own ps ∧ freeOrder K' ps = freeOrder K ps := by
  refine h.keep hh.keeps (fun x hx => ?_) fun x c hx hc => ?_
  · have hlow := h.low
    rcases hx with ⟨h1, _⟩ | ⟨c, j', π, hc, h1, _⟩
    · omega
    · have := (h.owned c (by simp [hc])).low
      omega
  · by_contra hcon
    have hf := h.free c hc
    exact mapByte_far h ha hf.2 (fun j π e => by rw [hf.1] at e; cases e) (by omega) (by omega) hx

/-- What is entered at a leaf changes no other place. -/
theorem Hooked.leaf_rest {i j' : Nat} {π : List Nat} (hh : Hooked a (rootOf i) (pathOf i) own K n q K' n') (hp : IsPath j' π)
    (hne : rootOf i = j' → π ≠ pathOf i) : blockAt K'.vol.bytes n' j' π = blockAt K.vol.bytes n j' π := by
  refine hh.rest j' π hp fun e hpre => hne e.symm (hpre.eq_of_length ?_).symm
  have h1 := hp.short
  have h2 := hpre.length_le
  rw [length_pathOf, e] at *
  omega

theorem Hooked.leaf_page {i j' : Nat} {π : List Nat} (hh : Hooked a (rootOf i) (pathOf i) own K n q K' n') (hp : IsPath j' π)
    (hl : π.length < depth j') : blockAt K'.vol.bytes n' j' π = blockAt K.vol.bytes n j' π := by
  refine hh.leaf_rest hp ?_
  rintro rfl rfl
  rw [length_pathOf] at hl
  omega

/-- An index page was entered. -/
theorem Hooked.maps (hh : Hooked a j τ own K n q K' n') (hm : Maps K own a n) (h : Space z K own ps) (hq : own q = none)
    (h0 : blockAt K.vol.bytes n j τ = 0) (hb : n'.blocks = n.blocks) (hτ : τ.length < depth j)
    (hz : τ.length + 1 < depth j → Clear K' q) : Maps K' (assign own q (some (.page a j τ))) a n' := by
  have hkeep : ∀ {c p}, own c = some p → assign own q (some (.page a j τ)) c = some p := by
    intro c p hc
    rw [assign_ne fun e => by rw [e, hq] at hc; cases hc]
    exact hc
  have hupper : ∀ j' π, 12 ≤ j' → IsPath j' π → π.length < depth j' → blockAt K'.vol.bytes n' j' π ≠ 0 →
      (j' = j ∧ π = τ) ∨ blockAt K'.vol.bytes n' j' π = blockAt K.vol.bytes n j' π := by
    intro j' π hj' hp hl hne
    by_cases hc : j' = j ∧ τ <+: π
    · obtain ⟨rfl, hc⟩ := hc
      left
      refine ⟨rfl, ?_⟩
      by_contra hne'
      have hlt : τ.length < π.length := lt_of_le_of_ne hc.length_le fun e => hne' (hc.eq_of_length e).symm
      exact hne (hh.below (hz (by omega)) hp hc hne')
    · exact Or.inr (hh.rest j' π hp fun e hpre => hc ⟨e, hpre⟩)
  refine ⟨by rw [hb]; exact hm.cap, fun i hi => ?_, fun j' π hj' hp hl hne => ?_, fun j' π hj' hp hl hne => ?_,
    fun i hi π k e => ?_⟩
  · rw [hb] at hi
    rw [(hh.addr hm h h0 hi).2]
    exact hkeep (hm.data i hi)
  · rcases hupper j' π hj' hp hl hne with ⟨rfl, rfl⟩ | he
    · rw [hh.entered]
      exact assign_self
    · rw [he] at hne ⊢
      exact hkeep (hm.page j' π hj' hp hl hne)
  · rcases hupper j' π hj' hp (by omega) hne with ⟨rfl, rfl⟩ | he
    · rw [hh.entered]
      exact fun x hx => (hz hl x hx).2
    · rw [he] at hne ⊢
      exact hh.keeps.sees (hm.upper j' π hj' hp hl hne)
  · rw [hb] at hi
    have hpath := pathOf_isPath (Nat.lt_of_lt_of_le hi hm.cap)
    rw [e] at hpath
    have hno := (hh.addr hm h h0 hi).1
    rw [e] at hno
    rw [hh.rest _ π hpath.init fun hr hc => hno hr (hc.trans (List.prefix_append _ _))]
    exact hh.keeps.sees (hm.leaf i hi π k e)

/-- A data block was entered at the next index. -/
theorem Hooked.mapsLeaf (hh : Hooked a (rootOf n.blocks) (pathOf n.blocks) own K n q K' n') (hm : Maps K own a n)
    (hq : own q = none) (hc : n.blocks < capacity) (hb : n'.blocks = n.blocks + 1) :
    Maps K' (assign own q (some (.data a n.blocks))) a n' := by
  have hkeep : ∀ {c p}, own c = some p → assign own q (some (.data a n.blocks)) c = some p := by
    intro c p hc
    rw [assign_ne fun e => by rw [e, hq] at hc; cases hc]
    exact hc
  refine ⟨by rw [hb]; omega, fun i hi => ?_, fun j' π hj' hp hl hne => ?_, fun j' π hj' hp hl hne => ?_,
    fun i hi π k e => ?_⟩
  · rw [hb] at hi
    by_cases e : i = n.blocks
    · rw [e, addrOf, hh.entered]
      exact assign_self
    · rw [addrOf, hh.leaf_rest (pathOf_isPath (by omega)) fun hr hp => e (pathOf_inj hr.symm hp)]
      exact hkeep (hm.data i (by omega))
  · rw [hh.leaf_page hp hl] at hne ⊢
    exact hkeep (hm.page j' π hj' hp hl hne)
  · rw [hh.leaf_page hp (by omega)] at hne ⊢
    exact hh.keeps.sees (hm.upper j' π hj' hp hl hne)
  · rw [hb] at hi
    by_cases ei : i = n.blocks
    · subst ei
      exact hh.seen π k e
    · have hpath := pathOf_isPath (i := i) (by omega)
      have hlen := length_pathOf i
      rw [e] at hpath hlen
      simp at hlen
      rw [hh.leaf_page hpath.init (by omega)]
      exact hh.keeps.sees (hm.leaf i (by omega) π k e)

theorem Growing.link {K1 : View} {ps1 : List Nat} (hg : Growing z a j path K0 own0 ps0 n0 b t K own ps n) (hj : 12 ≤ j)
    (hp : IsPath j path) (hl : path.length = depth j) (ht : t < depth j) (ha : a + 256 ≤ z.lo) (ha8 : 8 ≤ a)
    (h0 : blockAt K.vol.bytes n j (path.take t) = 0) (hk : Taken K ps q K1 ps1)
    (hh : Hooked a j (path.take t) own K1 n q K' n') (hb : n'.blocks = n.blocks) :
    Growing z a j path K0 own0 ps0 n0 b (t + 1) K' (assign own q (some (.page a j (path.take t)))) ps1 n' := by
  obtain ⟨hsp1, hqn1, hqo, hqz⟩ := hg.space.take hk
  have hlen : (path.take t).length = t := by simp; omega
  have hqm : q ∈ freeOrder K ps := by
    rw [hk.order]
    exact List.mem_cons_self
  have hbq : b ≠ q := fun e => hg.notFree (e ▸ hqm)
  have hm1 : Maps K1 own a n := hg.maps.alloc hg.space hk.keeps fun x hx _ => Or.inl hx
  have hat1 : ∀ j' π, IsPath j' π → blockAt K1.vol.bytes n j' π = blockAt K.vol.bytes n j' π := fun j' π =>
    hg.maps.frame fun c j π hc x h1 h2 => hk.keeps.bytes x (hg.space.chainByte hc h1 h2)
  have hpt : IsPath j (path.take t) := by
    rw [← List.take_append_drop t path] at hp
    exact hp.prefix
  have h01 : blockAt K1.vol.bytes n j (path.take t) = 0 := (hat1 _ _ hpt).trans h0
  have hh0 := hg.here hj hp hl ht ▸ h0
  have hsucc : ∀ len, missing K0.vol.bytes n0 j path t (len + 1) = 1 + missing K0.vol.bytes n0 j path (t + 1) len := by
    intro len
    rw [missing_succ, if_pos hh0]
  have hclear1 : t + 1 < depth j → Clear K1 q := fun hlt => by
    refine hk.clear hg.space fun hq => hg.zeros 0 ?_ q (by rw [hk.order]; rfl) hq
    rw [show depth j - 1 - t = depth j - 1 - t - 1 + 1 by omega, hsucc]
    omega
  have hclear : t + 1 < depth j → Clear K' q := fun hlt => hh.clear hsp1 ha hqo hqz (hclear1 hlt)
  obtain ⟨hsp2, hord⟩ := hh.space hsp1 ha8 ha
  have hfree : ∀ x ∈ freeOrder K' ps1, x ∈ freeOrder K ps ∧ x ≠ q := fun x hx => by
    rw [hord] at hx
    exact ⟨by rw [hk.order]; exact List.mem_cons_of_mem _ hx, fun e => hqn1 (e ▸ hx)⟩
  have hlisted : ∀ x ∈ freeOrder K' ps1, x ∉ ps1 → x ∉ ps ∧ ∀ y, x ≤ y → y < x + 4096 → K'.vol.bytes y = K.vol.bytes y := by
    intro x hx hn
    have hfx := hg.space.free x (hfree x hx).1
    obtain ⟨hxs, hby⟩ := hg.space.rest hk (hord ▸ hx) hn
    refine ⟨hxs, fun y h1 h2 => (hh.keeps.bytes y ?_).trans (hby y h1 h2)⟩
    exact mapByte_far hsp1 ha hfx.2 (fun j π e => by rw [hfx.1] at e; cases e) h1 h2
  have hother : ∀ j' π, IsPath j' π → (j' = j → ¬ path.take t <+: π) →
      blockAt K'.vol.bytes n' j' π = blockAt K.vol.bytes n j' π := fun j' π hp hn =>
    (hh.rest j' π hp hn).trans (hat1 j' π hp)
  refine {
    space := hsp2.assign hqz (by rw [hord]; exact hqn1)
    maps := hh.maps hm1 hsp1 hqo h01 hb (by omega) (by rw [hlen]; exact hclear)
    fits := hh.fits
    attrs := ?_
    blocks := hb.trans hg.blocks
    block := hg.block
    notFree := fun hm => hg.notFree (hfree b hm).1
    noOwner := (assign_ne hbq).trans hg.noOwner
    first := hg.first
    onDisk := Or.inl hh.disk
    count := ?_
    rest := ?_
    pages := fun p hp => hg.pages p (hk.pages p hp)
    listed := fun x hx hn => ?_
    held := fun k hkk => ?_
    zeros := fun s hs x hx hn => ?_
    keeps := ?_
    owner := fun x => ?_
    old := fun j' π hj' hp' hl' => ?_
    present := fun s hs => ?_
    addr := fun i hi => ?_ }
  · rw [hh.attrs, hg.attrs]
    rfl
  · have hcount := hg.count
    rw [show depth j - t = depth j - (t + 1) + 1 by omega, hsucc, hk.order, List.length_cons, ← hord] at hcount
    omega
  · have hrest := hg.rest
    rw [hk.order, ← hord] at hrest
    exact (List.suffix_cons _ _).trans hrest
  · obtain ⟨h1, h2⟩ := hlisted x hx hn
    obtain ⟨h3, h4⟩ := hg.listed x (hfree x hx).1 h1
    exact ⟨h3, fun y hy hy' => (h2 y hy hy').trans (h4 y hy hy')⟩
  · -- the block that is out lies apart from all that changes
    rw [hh.keeps.bytes (b + k) (mapByte_far hsp1 ha hg.block (fun j π e => by rw [hg.noOwner] at e; cases e) (by omega) (by omega)),
      hk.keeps.bytes (b + k) (hg.space.chain_far hg.block (fun hm => hg.notFree (PageChain.mem_order.mpr (Or.inl hm))) (by omega) (by omega))]
    exact hg.held k hkk
  · have hmem : x ∈ freeOrder K' ps1 := List.mem_of_getElem? hx
    obtain ⟨h1, h2⟩ := hlisted x hmem hn
    have hlt : t + 1 < depth j := by
      by_contra hc
      rw [show depth j - 1 - (t + 1) = 0 by omega] at hs
      simp [missing] at hs
    have hz := hg.zeros (s + 1)
      (by rw [show depth j - 1 - t = depth j - 1 - (t + 1) + 1 by omega, hsucc]; omega) x
      (by rw [hk.order, List.getElem?_cons_succ, ← hord]; exact hx) h1
    exact fun k hkk => ⟨(h2 _ (by omega) (by omega)).trans (hz k hkk).1, hh.keeps.vis _ (hk.keeps.vis _ (hz k hkk).2)⟩
  · refine hg.keeps.trans ((hk.keeps.mono fun x hx => ?_).trans (hh.keeps.mono fun x => hg.mapByte))
    rcases hx with hx | ⟨p, hpm, h1, h2⟩
    · exact Or.inl hx
    · exact Or.inr (Or.inr (Or.inl ⟨p, hg.rest.subset (PageChain.mem_order.mpr (Or.inl hpm)), h1, h2⟩))
  · by_cases e : x = q
    · rw [e]
      exact Or.inr ⟨hg.rest.subset hqm, j, _, assign_self⟩
    · rw [assign_ne e]
      exact hg.owner x
  · by_cases hc : j' = j ∧ path.take t <+: π
    · obtain ⟨rfl, hc⟩ := hc
      by_cases e : π = path.take t
      · rw [e]
        refine Or.inr ⟨rfl, ⟨t, by omega, rfl⟩, hh0, ?_⟩
        rw [hh.entered]
        have := hqz.low
        have := hg.space.low
        omega
      · have hlt : (path.take t).length < π.length := lt_of_le_of_ne hc.length_le fun e' => e (hc.eq_of_length e').symm
        left
        rw [hh.below (hclear (by omega)) hp' hc e]
        obtain ⟨ρ, rfl⟩ := hc
        exact (blockAt_missing hh0).symm
    · have he := hother j' π hp' fun e hpre => hc ⟨e, hpre⟩
      rcases hg.old j' π hj' hp' hl' with h | ⟨rfl, ⟨s, hs, e⟩, h1, h2⟩
      · exact Or.inl (he.trans h)
      · exact Or.inr ⟨rfl, ⟨s, by omega, e⟩, h1, by rw [he]; exact h2⟩
  · rcases Nat.lt_succ_iff_lt_or_eq.mp hs with hs | rfl
    · have hps : IsPath j (path.take s) := by
        rw [← List.take_append_drop s path] at hp
        exact hp.prefix
      rw [hother j _ hps fun _ hpre => ?_]
      · exact hg.present s hs
      · have := hpre.length_le
        simp at this
        omega
    · rw [hh.entered]
      have := hqz.low
      have := hg.space.low
      omega
  · have e1 := (hh.addr hm1 hsp1 h01 (by rw [hg.blocks]; exact hi)).2
    have e2 := hat1 _ _ (pathOf_isPath (Nat.lt_of_lt_of_le hi (hg.blocks ▸ hg.maps.cap)))
    exact (e1.trans e2).trans (hg.addr i hi)

/-! ### The block is entered -/

theorem Growing.enter
    (hg : Growing z a (rootOf n0.blocks) (pathOf n0.blocks) K0 own0 ps0 n0 b (depth (rootOf n0.blocks)) K own ps n)
    (hc : n0.blocks < capacity) (ha8 : 8 ≤ a) (ha : a + 256 ≤ z.lo)
    (hh : Hooked a (rootOf n0.blocks) (pathOf n0.blocks) own K n b K' n') (hb : n'.blocks = n0.blocks + 1) :
    Added z a K0 own0 ps0 n0 (b, n') K' (assign own b (some (.data a n0.blocks))) ps := by
  have hlow := hg.space.low
  have hbl := hg.block.low
  have hb0 : b ≠ 0 := by omega
  have hpath := pathOf_isPath hc
  have hlen := length_pathOf n0.blocks
  obtain ⟨hsp, hord⟩ := hh.space hg.space ha8 ha
  have hmaps : Maps K' (assign own b (some (.data a n.blocks))) a n' := by
    rw [← hg.blocks] at hh hc hb
    exact hh.mapsLeaf hg.maps hg.noOwner hc hb
  rw [hg.blocks] at hmaps
  refine {
    space := hsp.assign hg.block (by rw [hord]; exact hg.notFree)
    maps := hmaps
    fits := hh.fits
    attrs := ?_
    onDisk := Or.inl hh.disk
    keeps := hg.keeps.trans (hh.keeps.mono fun x => hg.mapByte)
    owner := fun x => ?_
    sub := fun x hx => hg.rest.subset (hord ▸ hx)
    addr := fun i hi => ?_
    old := fun j π hj hp hl => ?_
    failed := fun h => absurd h hb0
    blocks := fun _ => hb
    entered := fun _ => hh.entered
    first := fun _ => hg.first
    pages := fun _ => hg.pages
    count := fun _ => ?_
    rest := fun _ => ?_
    present := fun _ s hs => ?_
    listed := fun _ x hx hn => ?_
    held := fun _ k hk => ?_ }
  · rw [hh.attrs, hg.attrs]
    rfl
  · by_cases e : x = b
    · rw [e]
      exact Or.inr ⟨hg.wasFree, Or.inr ⟨rfl, assign_self⟩⟩
    · rw [assign_ne e]
      exact (hg.owner x).imp_right fun h => ⟨h.1, Or.inl h.2⟩
  · have hne : rootOf n0.blocks = rootOf i → pathOf i ≠ pathOf n0.blocks := fun hr hp => by
      have := pathOf_inj hr hp.symm
      omega
    exact (hh.leaf_rest (pathOf_isPath (by omega)) hne).trans (hg.addr i hi)
  · have he := hh.leaf_page hp hl
    rcases hg.old j π hj hp hl with h | ⟨rfl, ⟨s, hs, e⟩, h1, h2⟩
    · exact Or.inl (he.trans h)
    · exact Or.inr ⟨rfl, ⟨s, hs, e⟩, h1, by rw [he]; exact h2⟩
  · have hcount := hg.count
    rw [Nat.sub_self, ← hord] at hcount
    exact hcount
  · rw [hord]
    exact hg.rest
  · have hps : IsPath (rootOf n0.blocks) ((pathOf n0.blocks).take s) := by
      rw [← List.take_append_drop s (pathOf n0.blocks)] at hpath
      exact hpath.prefix
    rw [hh.leaf_page hps (by simp; omega)]
    exact hg.present s hs
  · rw [hord] at hx
    have hf := hg.space.free x hx
    obtain ⟨h1, h2⟩ := hg.listed x hx hn
    refine ⟨h1, fun y h3 h4 => ?_⟩
    rw [hh.keeps.bytes y (mapByte_far hg.space ha hf.2 (fun j π e => by rw [hf.1] at e; cases e) h3 h4)]
    exact h2 y h3 h4
  · rw [hh.keeps.bytes (b + k) (mapByte_far hg.space ha hg.block (fun j π e => by rw [hg.noOwner] at e; cases e) (by omega) (by omega))]
    exact hg.held k hk

/-! ### The calls -/

/-- The first block is taken. -/
theorem Growing.start (h : Space z K0 own0 ps0) (hm : Maps K0 own0 a n0) (hf : n0.Fits) (ha8 : 8 ≤ a) (ha : a + 256 ≤ z.lo)
    (hk : Taken K0 ps0 b K ps)
    (hz : ∀ s < missing K0.vol.bytes n0 j path 0 (depth j - 1), ∀ q, (freeOrder K0 ps0)[s + 1]? = some q → q ∉ ps0 →
      Clear K0 q) : Growing z a j path K0 own0 ps0 n0 b 0 K own0 ps n0 := by
  obtain ⟨hsp, hbn, hbo, hbz⟩ := h.take hk
  have hlow := h.low
  have hat : ∀ j' π, IsPath j' π → blockAt K.vol.bytes n0 j' π = blockAt K0.vol.bytes n0 j' π := fun j' π =>
    hm.frame fun c j π hc x h1 h2 => hk.keeps.bytes x (h.chainByte hc h1 h2)
  have hpages : ∀ p ∈ ps0, p ∈ freeOrder K0 ps0 := fun p hp => PageChain.mem_order.mpr (Or.inl hp)
  refine {
    space := hsp
    maps := hm.alloc h hk.keeps fun x hx _ => Or.inl hx
    fits := hf
    attrs := rfl
    blocks := rfl
    block := hbz
    notFree := hbn
    noOwner := hbo
    first := by rw [hk.order]; rfl
    onDisk := Or.inr ⟨rfl, fun x h1 h2 => hk.keeps.bytes x ?_⟩
    count := ?_
    rest := by rw [hk.order]; exact List.suffix_cons _ _
    pages := hk.pages
    listed := fun x hx hn => h.rest hk hx hn
    held := fun k hkk => ?_
    zeros := fun s hs q hq hn => ?_
    keeps := hk.keeps.mono fun x hx => ?_
    owner := fun x => Or.inl rfl
    old := fun j' π hj hp hl => Or.inl (hat j' π hp)
    present := fun s hs => absurd hs (Nat.not_lt_zero s)
    addr := fun i hi => hat _ _ (pathOf_isPath (Nat.lt_of_lt_of_le hi hm.cap)) }
  · rintro (hx | ⟨p, hp, h3, _⟩)
    · omega
    · have := (h.free p (hpages p hp)).2.low
      omega
  · rw [hk.order, List.length_cons, Nat.sub_zero]
    omega
  · split
    · exact hk.clean ‹_› k hkk
    · rename_i hm
      exact hk.keeps.bytes (b + k) (h.chain_far hbz hm (by omega) (by omega))
  · obtain ⟨h1, h2⟩ := h.rest hk (List.mem_of_getElem? hq) hn
    have hc := hz s hs q (by rw [hk.order, List.getElem?_cons_succ]; exact hq) h1
    exact fun k hkk => ⟨(h2 _ (by omega) (by omega)).trans (hc k hkk).1, hk.keeps.vis _ (hc k hkk).2⟩
  · rcases hx with hx | ⟨p, hp, h1, h2⟩
    · exact Or.inl hx
    · exact Or.inr (Or.inr (Or.inl ⟨p, hpages p hp, h1, h2⟩))

/-- Committing the inode leaves the pages alone. -/
theorem commit_frame (h : Space z K own ps) (ha : a + 256 ≤ z.lo) {f : Mem} {c : Nat} {p : Pos} (hc : own c = some p)
    {x : Nat} (h1 : c ≤ x) : (K.store a 208 f).vol.bytes x = K.vol.bytes x := by
  have := (h.owned c (by simp [hc])).low
  exact put_out (by omega)

/-- A root is set. -/
theorem hook_root (h : Space z K own ps) (hm : Maps K own a n) (hf : n.Fits) (hj : 12 ≤ j) (hj2 : j < 15)
    (hq : q < 2 ^ 64) (ha : a + 256 ≤ z.lo) :
    Hooked a j [] own K n q (K.store a 208 (n.setRoot j q).encode) (n.setRoot j q) where
  keeps := Keeps.store fun x h1 h2 => Or.inl ⟨h1, h2⟩
  disk := nodeAt_put (setRoot_fits hf hq)
  fits := setRoot_fits hf hq
  attrs := setRoot_withMap
  entered := by rw [blockAt, walk_nil, root_setRoot hj hj2 hj2, if_pos rfl]
  rest j' π hp hn := by
    have hne : j' ≠ j := fun e => hn e List.nil_prefix
    rw [← hm.frame (fun c j π hc x h1 _ => commit_frame h ha hc h1) hp, blockAt, root_setRoot hj hj2 hp.root, if_neg hne,
      blockAt]
  seen π k e := by simp at e

/-- A direct block is set. -/
theorem hook_direct {B : Nat} (h : Space z K own ps) (hm : Maps K own a n) (hf : n.Fits) (hj : j < 12)
    (hq : q < 2 ^ 64) (hB : B < 2 ^ 64) (ha : a + 256 ≤ z.lo) :
    Hooked a j [] own K n q (K.store a 208 { n.setDirect j q with blocks := B }.encode)
      { n.setDirect j q with blocks := B } where
  keeps := Keeps.store fun x h1 h2 => Or.inl ⟨h1, h2⟩
  disk := nodeAt_put { setDirect_fits hf hq with blocks := hB }
  fits := { setDirect_fits hf hq with blocks := hB }
  attrs := by simp only [Node.setDirect, hj, dif_pos, Node.withMap]
  entered := by
    show (if j < 12 then (n.setDirect j q).direct j else _) = q
    rw [if_pos hj, direct_setDirect n hj, if_pos rfl]
  rest j' π hp hn := by
    have hne : j' ≠ j := fun e => hn e List.nil_prefix
    rw [← hm.frame (fun c j π hc x h1 _ => commit_frame h ha hc h1) hp, blockAt, blockAt]
    congr 1
    show (if j' < 12 then (n.setDirect j q).direct j' else _) = _
    rw [direct_setDirect n hj, if_neg hne, Node.setDirect, dif_pos hj]
    rfl
  seen π k e := by simp at e

/-- A slot of a page is set. -/
theorem hook_child {B u : Nat} {π : List Nat} (h : Space z K own ps) (hm : Maps K own a n) (hf : n.Fits) (hj : 12 ≤ j)
    (hp : IsPath j (π ++ [k])) (hu : blockAt K.vol.bytes n j π = u) (hu0 : u ≠ 0)
    (hq : q < 2 ^ 64) (hB : B < 2 ^ 64) (ha : a + 256 ≤ z.lo) :
    Hooked a j (π ++ [k]) own K n q ((K.storeWord (u + 8 * k) q).store a 208 { n with blocks := B }.encode)
      { n with blocks := B } := by
  have hk : k < 512 := hp.slots k (by simp)
  have hπ := hp.init
  have hlt : π.length < depth j := by
    have := hp.short
    simp at this
    omega
  have hown : own u = some (.page a j π) := by
    rw [← hu]
    exact hm.page j π hj hπ hlt (hu ▸ hu0)
  have hub := h.owned_block hown
  have huz := h.owned u (by simp [hown])
  have hlow := huz.low
  -- what the slots of the pages hold afterwards
  have hslot : ∀ c i, c = 0 ∨ (∃ p, own c = some p) → i < 512 →
      slot (put (putWord K.vol.bytes (u + 8 * k) q) a 208 { n with blocks := B }.encode) c i =
        if c = u ∧ i = k then q else slot K.vol.bytes c i := by
    intro c i hc hi
    rcases hc with rfl | ⟨p, hc⟩
    · rw [slot_zero, slot_zero, if_neg fun e => hu0 e.1.symm]
    · have hcb := h.owned_block hc
      have hcz := h.owned c (by simp [hc])
      have := hcz.low
      rw [slot_congr (fun x h1 _ => put_out (by omega)) hi, slot_putWord hub.aligned hcb.aligned hcb.pos hk hi hq]
  have hpage : ∀ j' π', 12 ≤ j' → IsPath j' π' → π'.length < depth j' →
      blockAt K.vol.bytes n j' π' = 0 ∨ ∃ p, own (blockAt K.vol.bytes n j' π') = some p := by
    intro j' π' hj' hp' hl'
    by_cases h0 : blockAt K.vol.bytes n j' π' = 0
    · exact Or.inl h0
    · exact Or.inr ⟨_, hm.page j' π' hj' hp' hl' h0⟩
  have hrest : ∀ j' π', IsPath j' π' → (j' = j → ¬ π ++ [k] <+: π') →
      blockAt (put (putWord K.vol.bytes (u + 8 * k) q) a 208 { n with blocks := B }.encode) n j' π' =
        blockAt K.vol.bytes n j' π' := by
    intro j' π' hp' hn
    by_cases hj' : j' < 12
    · rw [blockAt_direct hj' hp', blockAt_direct hj' hp']
    refine blockAt_congr fun σ i ρ e => ?_
    subst e
    have hσ := hp'.prefix
    have hl := hp'.short
    simp at hl
    rw [hslot _ i (hpage j' σ (by omega) hσ (by omega)) (hp'.slots i (by simp)), if_neg]
    rintro ⟨e1, rfl⟩
    obtain ⟨rfl, rfl⟩ := hm.page_inj (by omega) hσ (by omega) hj hπ hlt (e1 ▸ hu0) (e1.trans hu.symm)
    exact hn rfl ⟨ρ, by simp⟩
  have hup : blockAt (put (putWord K.vol.bytes (u + 8 * k) q) a 208 { n with blocks := B }.encode) n j π = u := by
    rw [hrest j π hπ, hu]
    intro _ hpre
    have := hpre.length_le
    simp at this
  exact {
    keeps := (Keeps.storeWord fun x h1 h2 => Or.inr ⟨u, j, π, hown, by omega, by omega⟩).trans
      (Keeps.store fun x h1 h2 => Or.inl ⟨h1, h2⟩)
    disk := nodeAt_put { hf with blocks := hB }
    fits := { hf with blocks := hB }
    attrs := rfl
    entered := by
      show blockAt _ n j (π ++ [k]) = q
      rw [blockAt_append]
      show slot _ (blockAt _ n j π) k = q
      rw [store_bytes, storeWord_bytes, hup, hslot u k (Or.inr ⟨_, hown⟩) hk, if_pos ⟨rfl, rfl⟩]
    rest := hrest
    seen := fun σ i e => by
      obtain ⟨rfl, e⟩ := List.append_inj' e rfl
      obtain rfl : k = i := by simpa using e
      show View.Sees _ (blockAt _ n j π + 8 * k) 8
      rw [store_bytes, storeWord_bytes, hup]
      intro x hx
      exact Or.inl (Or.inr ⟨by omega, by omega⟩) }

/-- The outcome of a call of `add_block_to_node`. -/
def Grown (z : Zone) (a : Nat) (K0 : View) (own0 : Nat → Option Pos) (ps0 : List Nat) (n0 : Node) (r : Nat × Node)
    (K : View) : Prop := ∃ own ps, Added z a K0 own0 ps0 n0 r K own ps

/-- One level of the way down: `linkPage`, whose `store` enters the page it took. -/
theorem Growing.linkPage {store : Nat → M Unit} {N : Nat → Node} {p : Nat}
    (hg : Growing z a (rootOf n0.blocks) (pathOf n0.blocks) K0 own0 ps0 n0 b t K own ps n)
    (hj : 12 ≤ rootOf n0.blocks) (hc : n0.blocks < capacity) (ht : t < depth (rootOf n0.blocks)) (hd : 0 ≤ drive)
    (ha8 : 8 ≤ a) (ha : a + 256 ≤ z.lo) (hpage : blockAt K.vol.bytes n (rootOf n0.blocks) ((pathOf n0.blocks).take t) = p)
    (hN : N p = n) (hNb : ∀ q, (N q).blocks = n.blocks)
    (hstore : ∀ q K1 ps1, q < 2 ^ 64 → Space z K1 own ps1 → Maps K1 own a n →
      blockAt K1.vol.bytes n (rootOf n0.blocks) ((pathOf n0.blocks).take t) = 0 →
      (∀ s < t, blockAt K1.vol.bytes n (rootOf n0.blocks) ((pathOf n0.blocks).take s) =
        blockAt K.vol.bytes n (rootOf n0.blocks) ((pathOf n0.blocks).take s)) →
      ∃ K2, Runs K1 (store q) () K2 ∧ Hooked a (rootOf n0.blocks) ((pathOf n0.blocks).take t) own K1 n q K2 (N q)) :
    Ends K (linkPage drive b p store) fun r K' =>
      (r = 0 ∧ Grown z a K0 own0 ps0 n0 (0, n) K') ∨
        (r ≠ 0 ∧ ∃ own' ps', Growing z a (rootOf n0.blocks) (pathOf n0.blocks) K0 own0 ps0 n0 b (t + 1) K' own' ps' (N r) ∧
          blockAt K'.vol.bytes (N r) (rootOf n0.blocks) ((pathOf n0.blocks).take t) = r) := by
  have hpath := pathOf_isPath hc
  have hlen := length_pathOf n0.blocks
  unfold TyrantFS.linkPage
  by_cases h0 : p = 0
  · subst h0
    rw [if_neg (fun h => h rfl)]
    rcases hfo : freeOrder K ps with _ | ⟨q, rest⟩
    · obtain rfl : ps = [] := nil_of_freeOrder hfo
      obtain ⟨K', ps', hrun, hadd⟩ := hg.fail hd hj hc ht hfo hpage ha8 ha
      refine (allocateBlock_none drive hg.space.list).then ?_
      rw [if_pos rfl]
      exact hrun.then (Ends.pure (Or.inl ⟨rfl, _, _, hadd⟩))
    · obtain ⟨K1, ps1, hrun, hk⟩ := allocateBlock_some drive hg.space.list hfo
      have hq := hg.space.list.block q (by show q ∈ freeOrder K ps; rw [hfo]; exact List.mem_cons_self)
      have hq0 := hq.pos
      have hqin := hq.inside
      have hlt := K.vol.size_lt
      obtain ⟨hsp1, -, -, -⟩ := hg.space.take hk
      have hm1 : Maps K1 own a n := hg.maps.alloc hg.space hk.keeps fun x hx _ => Or.inl hx
      have hat1 : ∀ s, blockAt K1.vol.bytes n (rootOf n0.blocks) ((pathOf n0.blocks).take s) =
          blockAt K.vol.bytes n (rootOf n0.blocks) ((pathOf n0.blocks).take s) := fun s =>
        hg.maps.frame (fun c j π hc x h1 h2 => hk.keeps.bytes x (hg.space.chainByte hc h1 h2)) (by
          rw [← List.take_append_drop s (pathOf n0.blocks)] at hpath
          exact hpath.prefix)
      obtain ⟨K2, hrun2, hh⟩ := hstore q K1 ps1 (by omega) hsp1 hm1 ((hat1 t).trans hpage) fun s _ => hat1 s
      refine hrun.then ?_
      rw [if_neg hq0]
      have hnext := hg.link hj hpath hlen ht ha ha8 hpage hk hh (hNb q)
      exact hrun2.then (Ends.pure (Or.inr ⟨hq0, _, ps1, hnext, hh.entered⟩))
  · rw [if_pos h0]
    refine Ends.pure (Or.inr ⟨h0, own, ps, ?_, ?_⟩)
    · rw [hN]
      exact hg.next hj hpath hlen ht (hpage ▸ h0)
    · rw [hN]
      exact hpage

theorem setRoot_root {j : Nat} (hj : 12 ≤ j) (hj2 : j < 15) : n.setRoot j (n.root j) = n := by
  rcases (by omega : j = 12 ∨ j = 13 ∨ j = 14) with rfl | rfl | rfl <;> rfl

/-- The root page. -/
theorem Growing.linkRoot {p : Nat} (hg : Growing z a (rootOf n0.blocks) (pathOf n0.blocks) K0 own0 ps0 n0 b 0 K own ps n)
    (hj : 12 ≤ rootOf n0.blocks) (hc : n0.blocks < capacity) (hd : 0 ≤ drive) (ha8 : 8 ≤ a) (ha : a + 256 ≤ z.lo)
    (hp : n.root (rootOf n0.blocks) = p) :
    Ends K (TyrantFS.linkPage drive b p fun q => do
        let _ ← commitInode (n.setRoot (rootOf n0.blocks) q) a
        Pure.pure ()) fun r K' =>
      (r = 0 ∧ Grown z a K0 own0 ps0 n0 (0, n) K') ∨
        (r ≠ 0 ∧ ∃ own' ps', Growing z a (rootOf n0.blocks) (pathOf n0.blocks) K0 own0 ps0 n0 b 1 K' own' ps'
            (n.setRoot (rootOf n0.blocks) r) ∧
          blockAt K'.vol.bytes (n.setRoot (rootOf n0.blocks) r) (rootOf n0.blocks) [] = r) := by
  have hj2 := (pathOf_isPath hc).root
  subst hp
  refine hg.linkPage hj hc (by unfold depth; omega) hd ha8 ha rfl (setRoot_root hj hj2) (fun _ => setRoot_blocks)
    fun q K1 ps1 hq hsp hm _ _ => ?_
  have hhigh := hsp.high
  have hbl := hg.block.low
  have hbh := hg.block.high
  exact ⟨_, (commitInode_runs (by omega)).bind Runs.pure, hook_root hsp hm hg.fits hj hj2 hq ha⟩

/-- A page below the page `u`. -/
theorem Growing.linkChild {u p : Nat} (hg : Growing z a (rootOf n0.blocks) (pathOf n0.blocks) K0 own0 ps0 n0 b (t + 1) K own ps n)
    (hj : 12 ≤ rootOf n0.blocks) (hc : n0.blocks < capacity) (ht : t + 1 < depth (rootOf n0.blocks)) (hd : 0 ≤ drive)
    (ha8 : 8 ≤ a) (ha : a + 256 ≤ z.lo) (hk : (pathOf n0.blocks)[t]? = some k)
    (hu : blockAt K.vol.bytes n (rootOf n0.blocks) ((pathOf n0.blocks).take t) = u) (hp : slot K.vol.bytes u k = p) :
    Ends K (TyrantFS.linkPage drive b p (storeChild n a u ↑(k * 8))) fun r K' =>
      (r = 0 ∧ Grown z a K0 own0 ps0 n0 (0, n) K') ∨
        (r ≠ 0 ∧ ∃ own' ps', Growing z a (rootOf n0.blocks) (pathOf n0.blocks) K0 own0 ps0 n0 b (t + 1 + 1) K' own' ps' n ∧
          blockAt K'.vol.bytes n (rootOf n0.blocks) ((pathOf n0.blocks).take (t + 1)) = r) := by
  have hpath := pathOf_isPath hc
  have htake : (pathOf n0.blocks).take (t + 1) = (pathOf n0.blocks).take t ++ [k] := by
    rw [List.take_add_one, hk]
    rfl
  have hu0 : u ≠ 0 := hu ▸ hg.present t (by omega)
  have hpt : IsPath (rootOf n0.blocks) ((pathOf n0.blocks).take t ++ [k]) := by
    rw [← htake]
    rw [← List.take_append_drop (t + 1) (pathOf n0.blocks)] at hpath
    exact hpath.prefix
  refine hg.linkPage (N := fun _ => n) hj hc ht hd ha8 ha ?_ rfl (fun _ => rfl) fun q K1 ps1 hq hsp hm _ hold => ?_
  · rw [htake, blockAt_append, hu]
    exact hp
  have hhigh := hsp.high
  have hbl := hg.block.low
  have hbh := hg.block.high
  have hu1 := (hold t (by omega)).trans hu
  have hlt : ((pathOf n0.blocks).take t).length < depth (rootOf n0.blocks) := by
    simp
    omega
  have hub : IsBlock K1.vol.size u := by
    have := hm.page _ _ hj hpt.init hlt (by rw [hu1]; exact hu0)
    rw [hu1] at this
    exact hsp.owned_block this
  rw [htake]
  refine ⟨_, (writeSlot_runs hub (hpt.slots k (by simp))).bind ((commitInode_runs ?_).bind Runs.pure),
    hook_child hsp hm hg.fits hj hpt hu1 hu0 hq hg.fits.blocks ha⟩
  rw [storeWord_size]
  omega

/-- The slot the next page is read from. -/
theorem Growing.upper_slot {u : Nat}
    (hg : Growing z a (rootOf n0.blocks) (pathOf n0.blocks) K0 own0 ps0 n0 b (t + 1) K own ps n)
    (hj : 12 ≤ rootOf n0.blocks) (hc : n0.blocks < capacity) (ht : t + 1 < depth (rootOf n0.blocks))
    (hk : (pathOf n0.blocks)[t]? = some k)
    (hu : blockAt K.vol.bytes n (rootOf n0.blocks) ((pathOf n0.blocks).take t) = u) :
    IsBlock K.vol.size u ∧ k < 512 ∧ K.Sees (u + 8 * k) 8 := by
  have hpath := pathOf_isPath hc
  have hkm : k < 512 := hpath.slots k (List.mem_of_getElem? hk)
  have hu0 := hg.present t (by omega)
  rw [← List.take_append_drop t (pathOf n0.blocks)] at hpath
  have hpt := hpath.prefix
  have hl : ((pathOf n0.blocks).take t).length = t := by
    have := length_pathOf n0.blocks
    simp
    omega
  have hown := hg.maps.page _ _ hj hpt (by omega) hu0
  have hsee := hg.maps.upper _ _ hj hpt (by omega) hu0
  rw [hu] at hown hsee
  exact ⟨hg.space.owned_block hown, hkm, hsee.mono (by omega) (by omega)⟩

/-- The slot of the block. -/
theorem Growing.addLeaf {u : Nat}
    (hg : Growing z a (rootOf n0.blocks) (pathOf n0.blocks) K0 own0 ps0 n0 b (t + 1) K own ps n)
    (hj : 12 ≤ rootOf n0.blocks) (hc : n0.blocks < capacity) (ht : t + 1 = depth (rootOf n0.blocks))
    (ha8 : 8 ≤ a) (ha : a + 256 ≤ z.lo) (hk : (pathOf n0.blocks)[t]? = some k)
    (hu : blockAt K.vol.bytes n (rootOf n0.blocks) ((pathOf n0.blocks).take t) = u) :
    Ends K (TyrantFS.addLeaf n a b u ↑(k * 8)) (Grown z a K0 own0 ps0 n0) := by
  have hpath := pathOf_isPath hc
  have hlen := length_pathOf n0.blocks
  have htake : pathOf n0.blocks = (pathOf n0.blocks).take t ++ [k] := by
    have hfull : (pathOf n0.blocks).take (t + 1) = pathOf n0.blocks := List.take_of_length_le (by omega)
    rw [List.take_add_one, hk] at hfull
    exact hfull.symm
  have hu0 : u ≠ 0 := hu ▸ hg.present t (by omega)
  have hpt := hpath
  rw [htake] at hpt
  have hlt : ((pathOf n0.blocks).take t).length < depth (rootOf n0.blocks) := by
    simp
    omega
  have hub : IsBlock K.vol.size u := by
    have := hg.maps.page _ _ hj hpt.init hlt (by rw [hu]; exact hu0)
    rw [hu] at this
    exact hg.space.owned_block this
  have hhigh := hg.space.high
  have hbl := hg.block.low
  have hbh := hg.block.high
  have hsize := K.vol.size_lt
  have hB : (n.blocks + 1) % 2 ^ 64 = n0.blocks + 1 := by
    unfold capacity at hc
    rw [hg.blocks]
    omega
  have hh := hook_child (B := n0.blocks + 1) (q := b) hg.space hg.maps hg.fits hj hpt hu hu0 (by omega)
    (by unfold capacity at hc; omega) ha
  rw [← htake] at hh
  unfold TyrantFS.addLeaf
  rw [hB]
  refine (writeSlot_runs hub (hpt.slots k (by simp))).then ((commitInode_runs ?_).then (Ends.pure ?_))
  · rw [storeWord_size]
    omega
  · rw [ht] at hg
    exact ⟨_, _, hg.enter hc ha8 ha hh rfl⟩

theorem addBlockIndirect_runs
    (hg : Growing z a (rootOf n0.blocks) (pathOf n0.blocks) K0 own0 ps0 n0 b 0 K own ps n0)
    (hr : rootOf n0.blocks = 12) (hpa : pathOf n0.blocks = [n0.blocks - 12]) (hc : n0.blocks < capacity) (hd : 0 ≤ drive)
    (ha8 : 8 ≤ a) (ha : a + 256 ≤ z.lo) :
    Ends K (addBlockIndirect drive n0 a b) (Grown z a K0 own0 ps0 n0) := by
  have hj : 12 ≤ rootOf n0.blocks := by omega
  have hroot := hg.linkRoot hj hc hd ha8 ha rfl
  unfold addBlockIndirect
  rw [hr] at hroot
  refine hroot.bind fun r K1 hr1 => ?_
  rcases hr1 with ⟨rfl, h⟩ | ⟨h0, own1, ps1, hg1, hu1⟩
  · exact Ends.pure h
  rw [if_neg h0]
  rw [← hr, show n0.setRoot (rootOf n0.blocks) r = { n0 with indirectBlocks := r } by rw [hr]; rfl] at hg1 hu1
  exact hg1.addLeaf hj hc (by rw [hr]; rfl) ha8 ha (by rw [hpa]; rfl) hu1

theorem addBlockDbl_runs
    (hg : Growing z a (rootOf n0.blocks) (pathOf n0.blocks) K0 own0 ps0 n0 b 0 K own ps n0)
    (hr : rootOf n0.blocks = 13) (hpa : pathOf n0.blocks = [(n0.blocks - 12 - 512) / 512, (n0.blocks - 12 - 512) % 512])
    (hc : n0.blocks < capacity) (hd : 0 ≤ drive) (ha8 : 8 ≤ a) (ha : a + 256 ≤ z.lo) :
    Ends K (addBlockDbl drive n0 a b) (Grown z a K0 own0 ps0 n0) := by
  have hj : 12 ≤ rootOf n0.blocks := by omega
  have hpath := pathOf_isPath hc
  have hroot := hg.linkRoot hj hc hd ha8 ha rfl
  unfold addBlockDbl
  rw [hr] at hroot
  refine hroot.bind fun r K1 hr1 => ?_
  rcases hr1 with ⟨rfl, h⟩ | ⟨h0, own1, ps1, hg1, hu1⟩
  · exact Ends.pure h
  rw [if_neg h0]
  rw [← hr, show n0.setRoot (rootOf n0.blocks) r = { n0 with dblIndirect := r } by rw [hr]; rfl] at hg1 hu1
  have hup := hg1.upper_slot hj hc (t := 0) (by rw [hr]; decide) (by rw [hpa]; rfl) hu1
  refine (readSlot_runs hup.1 hup.2.1 hup.2.2).then ?_
  refine (hg1.linkChild hj hc (by rw [hr]; decide) hd ha8 ha (by rw [hpa]; rfl) hu1 rfl).bind fun r2 K2 hr2 => ?_
  rcases hr2 with ⟨rfl, h⟩ | ⟨h02, own2, ps2, hg2, hu2⟩
  · exact Ends.pure h
  rw [if_neg h02]
  exact hg2.addLeaf hj hc (by rw [hr]; rfl) ha8 ha (by rw [hpa]; rfl) hu2

theorem addBlockTrpl_runs
    (hg : Growing z a (rootOf n0.blocks) (pathOf n0.blocks) K0 own0 ps0 n0 b 0 K own ps n0)
    (hr : rootOf n0.blocks = 14)
    (hpa : pathOf n0.blocks = [(n0.blocks - 12 - 512 - 512 * 512) / (512 * 512),
      (n0.blocks - 12 - 512 - 512 * 512) % (512 * 512) / 512, (n0.blocks - 12 - 512 - 512 * 512) % (512 * 512) % 512])
    (hc : n0.blocks < capacity) (hd : 0 ≤ drive) (ha8 : 8 ≤ a) (ha : a + 256 ≤ z.lo) :
    Ends K (addBlockTrpl drive n0 a b) (Grown z a K0 own0 ps0 n0) := by
  have hj : 12 ≤ rootOf n0.blocks := by omega
  have hroot := hg.linkRoot hj hc hd ha8 ha rfl
  unfold addBlockTrpl
  rw [hr] at hroot
  refine hroot.bind fun r K1 hr1 => ?_
  rcases hr1 with ⟨rfl, h⟩ | ⟨h0, own1, ps1, hg1, hu1⟩
  · exact Ends.pure h
  rw [if_neg h0]
  rw [← hr, show n0.setRoot (rootOf n0.blocks) r = { n0 with trplIndirect := r } by rw [hr]; rfl] at hg1 hu1
  have hup := hg1.upper_slot hj hc (t := 0) (by rw [hr]; decide) (by rw [hpa]; rfl) hu1
  refine (readSlot_runs hup.1 hup.2.1 hup.2.2).then ?_
  refine (hg1.linkChild hj hc (by rw [hr]; decide) hd ha8 ha (by rw [hpa]; rfl) hu1 rfl).bind fun r2 K2 hr2 => ?_
  rcases hr2 with ⟨rfl, h⟩ | ⟨h02, own2, ps2, hg2, hu2⟩
  · exact Ends.pure h
  rw [if_neg h02]
  have hup2 := hg2.upper_slot hj hc (t := 1) (by rw [hr]; decide) (by rw [hpa]; rfl) hu2
  refine (readSlot_runs hup2.1 hup2.2.1 hup2.2.2).then ?_
  refine (hg2.linkChild hj hc (by rw [hr]; decide) hd ha8 ha (by rw [hpa]; rfl) hu2 rfl).bind fun r3 K3 hr3 => ?_
  rcases hr3 with ⟨rfl, h⟩ | ⟨h03, own3, ps3, hg3, hu3⟩
  · exact Ends.pure h
  rw [if_neg h03]
  exact hg3.addLeaf hj hc (by rw [hr]; rfl) ha8 ha (by rw [hpa]; rfl) hu3

/-- `add_block_to_node` with no free block. -/
theorem Added.empty (h : Space z K0 own0 ps0) (hm : Maps K0 own0 a n0) (hf : n0.Fits) (he : freeOrder K0 ps0 = []) :
    Added z a K0 own0 ps0 n0 (0, n0) K0 own0 ps0 where
  space := h
  maps := hm
  fits := hf
  attrs := rfl
  onDisk := Or.inr ⟨rfl, rfl, fun _ _ _ => rfl⟩
  keeps := Keeps.refl
  owner _ := Or.inl rfl
  sub _ hx := hx
  addr _ _ := rfl
  old _ _ _ _ _ := Or.inl rfl
  failed _ := ⟨rfl, by rw [he, List.length_nil]; omega⟩
  blocks := absurd rfl
  entered := absurd rfl
  first := absurd rfl
  pages := absurd rfl
  count := absurd rfl
  rest := absurd rfl
  present := absurd rfl
  listed := absurd rfl
  held := absurd rfl

/-- The blocks that a call would take as pages of pages are zero. -/
def PagesClear (K : View) (ps : List Nat) (n : Node) : Prop :=
  ∀ s < missing K.vol.bytes n (rootOf n.blocks) (pathOf n.blocks) 0 (depth (rootOf n.blocks) - 1), ∀ q,
    (freeOrder K ps)[s + 1]? = some q → q ∉ ps → Clear K q

theorem addBlockToNode_runs (h : Space z K0 own0 ps0) (hm : Maps K0 own0 a n0) (hf : n0.Fits) (ha8 : 8 ≤ a)
    (ha : a + 256 ≤ z.lo) (hc : n0.blocks < capacity) (hz : PagesClear K0 ps0 n0) :
    Ends K0 (addBlockToNode n0 a) (Grown z a K0 own0 ps0 n0) := by
  have hd := h.drive
  unfold addBlockToNode
  rw [if_neg (by omega)]
  refine globals_runs.then ?_
  rcases hfo : freeOrder K0 ps0 with _ | ⟨b, rest⟩
  · obtain rfl : ps0 = [] := nil_of_freeOrder hfo
    refine (allocateBlock_none _ h.list).then ?_
    rw [if_pos rfl]
    exact Ends.pure ⟨own0, [], Added.empty h hm hf hfo⟩
  obtain ⟨K, ps, hrun, hk⟩ := allocateBlock_some K0.vol.glob.drive h.list hfo
  have hg : Growing z a (rootOf n0.blocks) (pathOf n0.blocks) K0 own0 ps0 n0 b 0 K own0 ps n0 :=
    Growing.start h hm hf ha8 ha hk hz
  have hb0 := (hg.space.block hg.block).pos
  have hbin := (hg.space.block hg.block).inside
  have hlt := K.vol.size_lt
  have hbl := hg.block.low
  refine hrun.then ?_
  have hc' := hc
  unfold capacity at hc'
  rw [if_neg hb0, if_neg (by omega)]
  simp only
  by_cases h1 : n0.blocks < 12
  · have hr : rootOf n0.blocks = n0.blocks := by rw [rootOf, if_pos h1]
    have hpa : pathOf n0.blocks = [] := by rw [pathOf, if_pos h1]
    have hh := hook_direct (B := n0.blocks + 1) (q := b) hg.space hg.maps hf h1 (by omega) (by omega) ha
    rw [if_pos h1, Nat.mod_eq_of_lt (by omega : n0.blocks + 1 < 2 ^ 64)]
    have hg' := hg
    rw [show (0 : Nat) = depth (rootOf n0.blocks) by rw [hr]; unfold depth; omega] at hg'
    rw [← hpa] at hh
    have hadd := hg'.enter hc ha8 ha (by rw [hr]; exact hh) rfl
    exact (commitInode_runs (by omega)).then (Ends.pure ⟨_, _, hadd⟩)
  rw [if_neg h1]
  by_cases h2 : n0.blocks < 12 + 512
  · rw [if_pos h2]
    exact addBlockIndirect_runs hg (by rw [rootOf, if_neg h1, if_pos h2]) (by rw [pathOf, if_neg h1, if_pos h2]) hc hd ha8 ha
  rw [if_neg h2]
  by_cases h3 : n0.blocks < 12 + 512 + 512 ^ 2
  · rw [if_pos h3]
    exact addBlockDbl_runs hg (by rw [rootOf, if_neg h1, if_neg h2, if_pos h3])
      (by rw [pathOf, if_neg h1, if_neg h2, if_pos h3]) hc hd ha8 ha
  rw [if_neg h3]
  exact addBlockTrpl_runs hg (by rw [rootOf, if_neg h1, if_neg h2, if_neg h3])
    (by rw [pathOf, if_neg h1, if_neg h2, if_neg h3]) hc hd ha8 ha

end

/-! ## The map returns what was put in -/

/-- The blocks the next call takes as index pages are zero when it takes them: a page of
    the free chain is emptied before it is handed out, the others have to be zero. -/
def ZeroFilled (v : Vol) (n : Node) : Prop :=
  ∀ ps, FreeList (.all v) ps →
    ∀ s < missing v.bytes n (rootOf n.blocks) (pathOf n.blocks) 0 (depth (rootOf n.blocks)), ∀ q,
      (freeOrder (.all v) ps)[s + 1]? = some q → q ∉ ps → ∀ k < 4096, v.bytes (q + k) = 0

/-- Successful calls of `add_block_to_node` on the inode at `a`, and the blocks they
    returned. -/
inductive Adds (a : Nat) : Sys → Node → List Nat → Sys → Node → Prop where
  | nil {s n} : Adds a s n [] s n
  | snoc {s n bs s1 n1 b s2 n2} : Adds a s n bs s1 n1 → ZeroFilled s1.vol n1 →
      addBlockToNode n1 a s1 = some ((b, n2), s2) → b ≠ 0 → Adds a s n (bs ++ [b]) s2 n2

/-- The inode `n` maps the blocks `bs`. -/
structure Mapped (z : Zone) (a : Nat) (s : Sys) (n : Node) (bs : List Nat) (own : Nat → Option Pos) (ps : List Nat) : Prop where
  space : Space z (.all s.vol) own ps
  maps : Maps (.all s.vol) own a n
  fits : n.Fits
  blocks : n.blocks = bs.length
  entry : ∀ (i : Nat) (h : i < bs.length), addrOf s.vol.bytes n i = bs[i]

section
variable {s s' : Sys} {n' : Node} {b i : Nat} {bs : List Nat}

/-- With no blocks and no index pages nothing is mapped. -/
theorem Maps.empty (h0 : n.blocks = 0) (h : n.indirectBlocks = 0 ∧ n.dblIndirect = 0 ∧ n.trplIndirect = 0) :
    Maps K own a n := by
  have hno : ∀ j path, 12 ≤ j → IsPath j path → blockAt K.vol.bytes n j path = 0 := by
    intro j path hj hp
    have hr : n.root j = 0 := by
      have := hp.root
      rcases (by omega : j = 12 ∨ j = 13 ∨ j = 14) with rfl | rfl | rfl
      · exact h.1
      · exact h.2.1
      · exact h.2.2
    rw [blockAt, hr, walk_zero fun k => slot_zero]
  refine ⟨by omega, fun i hi => ?_, fun j path hj hp _ hne => ?_, fun j path hj hp _ hne => ?_, fun i hi => ?_⟩
  · omega
  · exact absurd (hno j path hj hp) hne
  · exact absurd (hno j path hj hp) hne
  · omega

theorem missing_mono {m : Mem} {j : Nat} {path : List Nat} : ∀ {l l' t : Nat}, l ≤ l' →
    missing m n j path t l ≤ missing m n j path t l'
  | 0, _, _, _ => Nat.zero_le _
  | l + 1, 0, _, h => absurd h (by omega)
  | l + 1, l' + 1, t, h => by
    rw [missing_succ, missing_succ]
    exact Nat.add_le_add_left (missing_mono (by omega)) _

/-- With no page at all, all of them are missing. -/
theorem missing_all {m : Mem} {j : Nat} {path : List Nat} (h : ∀ t, blockAt m n j (path.take t) = 0) : ∀ {l t : Nat}, missing m n j path t l = l
  | 0, _ => rfl
  | l + 1, t => by rw [missing_succ, if_pos (h t), missing_all h, Nat.add_comm]

/-- The pages of pages are among the pages. -/
theorem ZeroFilled.pagesClear {v : Vol} {ps : List Nat} (h : ZeroFilled v n) (hl : FreeList (.all v) ps) :
    PagesClear (.all v) ps n := fun s hs q hq hn k hk =>
  ⟨h ps hl s (Nat.lt_of_lt_of_le hs (missing_mono (Nat.sub_le _ 1))) q hq hn k hk, trivial⟩

/-- What one more call does. -/
theorem Mapped.add (h : Mapped z a s n bs own ps) (ha8 : 8 ≤ a) (ha : a + 256 ≤ z.lo) (hc : bs.length < capacity)
    (hz : ZeroFilled s.vol n) (hcall : addBlockToNode n a s = some ((b, n'), s')) (hb : b ≠ 0) :
    ∃ own' ps', Mapped z a s' n' (bs ++ [b]) own' ps' ∧ Added z a (.all s.vol) own ps n (b, n') (.all s'.vol) own' ps' := by
  have hzs := hz.pagesClear h.space.list
  obtain ⟨⟨b1, n1⟩, K', hrun, own', ps', had⟩ := addBlockToNode_runs h.space h.maps h.fits ha8 ha (by rw [h.blocks]; exact hc) hzs
  obtain ⟨s1, hc1, hs1⟩ := hrun.exec (holds_all.mpr rfl : (View.all s.vol).Holds s)
  obtain ⟨⟨rfl, rfl⟩, rfl⟩ : (b1 = b ∧ n1 = n') ∧ s1 = s' := by
    have := hc1.symm.trans hcall
    simpa using this
  obtain rfl : K' = .all s1.vol := had.keeps.all hs1
  have hblocks : n1.blocks = n.blocks + 1 := had.blocks hb
  refine ⟨own', ps', ⟨had.space, had.maps, had.fits, ?_, fun i hi => ?_⟩, had⟩
  · rw [hblocks, h.blocks]
    simp
  · rw [List.length_append, List.length_singleton] at hi
    by_cases e : i = bs.length
    · subst e
      have := had.entered hb
      rw [h.blocks] at this
      rw [List.getElem_concat_length rfl]
      exact this
    · rw [List.getElem_append_left (by omega), ← h.entry i (by omega)]
      exact had.addr i (by rw [h.blocks]; omega)

theorem Adds.mapped (hr : Adds a s n bs s' n') (h : Mapped z a s n [] own ps) (ha8 : 8 ≤ a) (ha : a + 256 ≤ z.lo)
    (hc : bs.length ≤ capacity) : ∃ own' ps', Mapped z a s' n' bs own' ps' := by
  induction hr with
  | nil => exact ⟨own, ps, h⟩
  | snoc hr hz hcall hb ih =>
    rw [List.length_append, List.length_singleton] at hc
    obtain ⟨own1, ps1, h1⟩ := ih (by omega)
    obtain ⟨own2, ps2, h2, -⟩ := h1.add ha8 ha (by omega) hz hcall hb
    exact ⟨own2, ps2, h2⟩

theorem Mapped.get (h : Mapped z a s n bs own ps) (i : Nat) : (getIBlock n i s).map Prod.fst = some (bs.getD i 0) := by
  obtain ⟨s1, hc, -⟩ := (getIBlock_runs (i := i) h.maps fun _ _ => h.space.owned_block).exec (holds_all.mpr rfl : (View.all s.vol).Holds s)
  rw [hc, Option.map_some]
  by_cases hi : i < bs.length
  · rw [if_pos (by rw [h.blocks]; exact hi), all_vol, h.entry i hi, List.getD_eq_getElem _ _ hi]
  · rw [if_neg (by rw [h.blocks]; exact hi), List.getD_eq_default _ _ (by omega)]

/-- The blocks are owned, each at its index. -/
theorem Mapped.owner (h : Mapped z a s n bs own ps) (hi : i < bs.length) : own bs[i] = some (.data a i) := by
  rw [← h.entry i hi]
  exact h.maps.data i (by rw [h.blocks]; exact hi)

theorem Mapped.nodup (h : Mapped z a s n bs own ps) : bs.Nodup := by
  rw [List.nodup_iff_injective_get]
  intro i k e
  have hi := h.owner i.isLt
  have hk := h.owner k.isLt
  change bs[i.val] = bs[k.val] at e
  rw [e, hk] at hi
  simpa [Fin.ext_iff, eq_comm] using hi

/-- The block map returns what was put in. -/
theorem blockMap_returns (h : Space z (.all s.vol) (fun _ => none) ps) (ha8 : 8 ≤ a) (ha : a + 256 ≤ z.lo) (hf : n.Fits)
    (h0 : n.blocks = 0) (hi : n.indirectBlocks = 0 ∧ n.dblIndirect = 0 ∧ n.trplIndirect = 0)
    (hr : Adds a s n bs s' n') (hc : bs.length ≤ capacity) :
    n'.blocks = bs.length ∧
    (∀ (i : Nat) (h : i < bs.length), (getIBlock n' i s').map Prod.fst = some bs[i]) ∧
    (∀ i ≥ bs.length, (getIBlock n' i s').map Prod.fst = some 0) ∧
    bs.Nodup ∧
    (∀ b ∈ bs, b ≠ 0 ∧ ∀ j path, 12 ≤ j → IsPath j path → path.length < depth j → blockAt s'.vol.bytes n' j path ≠ b) ∧
    ∀ b n'' s'', bs.length < capacity → ZeroFilled s'.vol n' → addBlockToNode n' a s' = some ((b, n''), s'') → b ≠ 0 →
      ∀ i < bs.length, (getIBlock n'' i s'').map Prod.fst = (getIBlock n' i s').map Prod.fst := by
  obtain ⟨own', ps', hm⟩ := hr.mapped ⟨h, .empty h0 hi, hf, h0, fun i hi => absurd hi (by simp)⟩ ha8 ha hc
  refine ⟨hm.blocks, fun i hi => ?_, fun i hi => ?_, hm.nodup, fun b hb => ⟨?_, fun j path hj hp hl e => ?_⟩,
    fun b n'' s'' hlt hz hcall hb i hi => ?_⟩
  · rw [hm.get, List.getD_eq_getElem _ _ hi]
  · rw [hm.get, List.getD_eq_default _ _ hi]
  · obtain ⟨i, hi, rfl⟩ := List.mem_iff_getElem.mp hb
    exact (hm.space.owned_block (hm.owner hi)).pos
  · obtain ⟨i, hi, rfl⟩ := List.mem_iff_getElem.mp hb
    have hdata := hm.owner hi
    have hne := (hm.space.owned_block hdata).pos
    have hpage := hm.maps.page j path hj hp hl (e ▸ hne)
    rw [all_vol, e, hdata] at hpage
    cases hpage
  · obtain ⟨own2, ps2, h2, -⟩ := hm.add ha8 ha hlt hz hcall hb
    rw [h2.get, hm.get, List.getD_append _ _ _ _ hi]

/-! The first inode of a small device is given 13 blocks, the last one behind an index page. -/

theorem missing_le {m : Mem} {j l t : Nat} {path : List Nat} : missing m n j path t l ≤ l := by
  induction l generalizing t with
  | zero => exact Nat.le_refl 0
  | succ l ih =>
    have := ih (t := t + 1)
    rw [missing_succ]
    split <;> omega

theorem Mapped.listed_start : Mapped ⟨8192, 4096 * 17⟩ 4096 listedDisk (nodeAt zeros 4096) [] (fun _ => none) [8192] := by
  have h0 : (nodeAt zeros 4096).blocks = 0 := leVal_zero 8
  refine ⟨⟨listedDisk_list, fun b hb => ?_, fun b hb => absurd rfl hb, by decide, Nat.le_refl _, by decide⟩,
    .empty h0 ⟨leVal_zero 8, leVal_zero 8, leVal_zero 8⟩, nodeAt_fits zeros 4096, h0, fun i hi => absurd hi (Nat.not_lt_zero i)⟩
  rw [listedDisk_order] at hb
  obtain ⟨h1, h2, h3⟩ := mem_listedBlocks hb
  exact ⟨rfl, h1, h2, h3⟩

/-- Every listed block is clear. -/
def AllClear (v : Vol) (ps : List Nat) : Prop := ∀ b ∈ freeOrder (.all v) ps, b ∉ ps → ∀ k < 4096, v.bytes (b + k) = 0

theorem Mapped.listed_adds (k : Nat) (hk : k ≤ 13) : ∃ bs s' n' own ps, Adds 4096 listedDisk (nodeAt zeros 4096) bs s' n' ∧
    Mapped ⟨8192, 4096 * 17⟩ 4096 s' n' bs own ps ∧ bs.length = k ∧ AllClear s'.vol ps ∧
    15 ≤ (freeOrder (.all s'.vol) ps).length + k + k / 13 := by
  induction k with
  | zero =>
    refine ⟨[], listedDisk, _, _, _, .nil, listed_start, rfl, fun b hb hn k hk => ?_, ?_⟩
    · rw [listedDisk_order] at hb
      obtain ⟨h1, h2, -⟩ := mem_listedBlocks hb
      have hne : b ≠ 8192 := fun e => hn (List.mem_singleton.mpr e)
      show listed (b + k) = 0
      rw [listed, if_neg (by omega), if_neg (by omega)]
    · rw [listedDisk_order]
      decide
  | succ k ih =>
    obtain ⟨bs, s, n, own, ps, hadds, hm, rfl, hclear, hlen⟩ := ih (by omega)
    have hdepth : depth (rootOf bs.length) ≤ bs.length / 12 := by
      unfold depth rootOf
      split
      · omega
      · rw [if_pos (by omega)]
        omega
    have hmiss : missing s.vol.bytes n (rootOf n.blocks) (pathOf n.blocks) 0 (depth (rootOf n.blocks)) ≤ bs.length / 12 := by
      rw [hm.blocks]
      exact Nat.le_trans missing_le hdepth
    have hz : ZeroFilled s.vol n := fun ps' hl t _ q hq hn => by
      obtain rfl := hl.unique hm.space.list
      exact hclear q (List.mem_of_getElem? hq) hn
    have hcap : bs.length < capacity := Nat.lt_of_lt_of_le (show bs.length < 13 by omega) (by decide +kernel)
    obtain ⟨r, K', hrun, own', ps', had⟩ := addBlockToNode_runs hm.space hm.maps hm.fits (show 8 ≤ 4096 by decide)
      (show 4096 + 256 ≤ 8192 by decide) (by rw [hm.blocks]; exact hcap)
      (hz.pagesClear hm.space.list)
    have hb : r.1 ≠ 0 := fun h0 => by
      have hfew := (had.failed h0).2
      rw [all_vol] at hfew
      omega
    obtain ⟨s', hcall, -⟩ := hrun.exec (holds_all.mpr rfl)
    obtain ⟨own2, ps2, hm2, had2⟩ := hm.add (by decide) (by decide) hcap hz hcall hb
    refine ⟨bs ++ [r.1], s', r.2, own2, ps2, .snoc hadds hz hcall hb, hm2, by simp, fun b hb' hn j hj => ?_, ?_⟩
    · obtain ⟨hn0, hkeep⟩ := had2.listed hb b hb' hn
      exact (hkeep _ (by omega) (by omega)).trans (hclear b (had2.sub b hb') hn0 j hj)
    · have hcount := had2.count hb
      rw [all_vol] at hcount
      omega

theorem blockMap_returns_page : ∃ bs s' n', bs.length = 13 ∧ Adds 4096 listedDisk (nodeAt zeros 4096) bs s' n' ∧ n'.root 12 ≠ 0 ∧
    n'.blocks = 13 ∧ (∀ (i : Nat) (h : i < bs.length), (getIBlock n' i s').map Prod.fst = some bs[i]) ∧ bs.Nodup := by
  obtain ⟨bs, s', n', own, ps, hadds, hm, hlen, -⟩ := Mapped.listed_adds 13 (Nat.le_refl 13)
  have h := Mapped.listed_start
  have hend := blockMap_returns h.space (by decide : 8 ≤ 4096) (by decide) h.fits h.blocks
    ⟨leVal_zero 8, leVal_zero 8, leVal_zero 8⟩ hadds (by rw [hlen]; decide +kernel)
  have hpage : blockAt s'.vol.bytes n' (rootOf 12) [] ≠ 0 :=
    hm.maps.page_ne (fun _ _ => hm.space.owned_block) (show 12 < n'.blocks by rw [hm.blocks, hlen]; decide) rfl
  exact ⟨bs, s', n', hlen, hadds, hpage, hend.1.trans hlen, hend.2.1, hend.2.2.2.1⟩

end

end TyrantFS

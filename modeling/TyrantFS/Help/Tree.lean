/-
  TyrantFS.Help.Tree — the block map of an inode as fifteen trees of pages.

  `direct_blocks[j]` is the root of a tree of depth 0 for `j < 12`, `indirect_blocks`,
  `dbl_indirect` and `trpl_indirect` are the roots of trees of depth 1, 2 and 3 (`j` is
  12, 13 and 14). A path of slots leads from a root to a page, a path as long as the
  tree is deep to a data block (`blockAt`). Block `i` of the inode is `blockAt` at
  `rootOf i`, `pathOf i`.

  Who owns which block is kept in a map from blocks to positions (`own`, ghost state):
  `Maps` says that the blocks and pages of an inode are owned by it, each at its own
  position, so no two of them are the same.
-/
import TyrantFS.Help.Help
import TyrantFS.Disk.Allocator
import TyrantFS.Lib.PageTree

namespace TyrantFS

open Lib Lib.PageTree

/-! ## The trees -/

/-- Root `j` of an inode. -/
def Node.root (n : Node) (j : Nat) : Nat :=
  if j < 12 then n.direct j else if j = 12 then n.indirectBlocks else if j = 13 then n.dblIndirect else n.trplIndirect

/-- How deep the tree under root `j` is. -/
def depth (j : Nat) : Nat := j - 11

/-- What stands at a path below root `j`. -/
def blockAt (m : Mem) (n : Node) (j : Nat) (path : List Nat) : Nat := walk (slot m) (n.root j) path

/-- A place in tree `j`: a page or, at full depth, a data block. -/
structure IsPath (j : Nat) (path : List Nat) : Prop where
  root : j < 15
  short : path.length ≤ depth j
  slots : ∀ k ∈ path, k < 512

/-- The number of blocks an inode can map. -/
def capacity : Nat := 12 + 512 + 512 ^ 2 + 512 ^ 3

/-- The tree block `i` is in. -/
def rootOf (i : Nat) : Nat :=
  if i < 12 then i else if i < 12 + 512 then 12 else if i < 12 + 512 + 512 ^ 2 then 13 else 14

/-- Its path there. -/
def pathOf (i : Nat) : List Nat :=
  if i < 12 then []
  else if i < 12 + 512 then [i - 12]
  else if i < 12 + 512 + 512 ^ 2 then [(i - 12 - 512) / 512, (i - 12 - 512) % 512]
  else [(i - 12 - 512 - 512 * 512) / (512 * 512), (i - 12 - 512 - 512 * 512) % (512 * 512) / 512,
    (i - 12 - 512 - 512 * 512) % (512 * 512) % 512]

/-- Block `i` of the inode `n`. -/
def addrOf (m : Mem) (n : Node) (i : Nat) : Nat := blockAt m n (rootOf i) (pathOf i)

theorem pathOf_isPath {i : Nat} (h : i < capacity) : IsPath (rootOf i) (pathOf i) := by
  unfold capacity at h
  unfold rootOf pathOf
  split
  · exact ⟨by omega, by simp, by simp⟩
  split
  · exact ⟨by omega, by simp [depth], by simp; omega⟩
  split
  · refine ⟨by omega, by simp [depth], ?_⟩
    simp only [List.mem_cons, List.not_mem_nil, or_false, forall_eq_or_imp, forall_eq]
    omega
  · refine ⟨by omega, by simp [depth], ?_⟩
    simp only [List.mem_cons, List.not_mem_nil, or_false, forall_eq_or_imp, forall_eq]
    omega

theorem length_pathOf (i : Nat) : (pathOf i).length = depth (rootOf i) := by
  unfold rootOf pathOf
  split
  · simp [depth]; omega
  split
  · simp [depth]
  split <;> simp [depth]

theorem rootOf_trpl {i : Nat} (h : 12 + 512 + 512 ^ 2 ≤ i) : rootOf i = 14 := by
  rw [rootOf, if_neg (by omega), if_neg (by omega), if_neg (by omega)]

theorem pathOf_trpl {i : Nat} (h : 12 + 512 + 512 ^ 2 ≤ i) : pathOf i = (i - 12 - 512 - 512 * 512) / (512 * 512) ::
    [(i - 12 - 512 - 512 * 512) % (512 * 512) / 512, (i - 12 - 512 - 512 * 512) % (512 * 512) % 512] := by
  rw [pathOf, if_neg (by omega), if_neg (by omega), if_neg (by omega)]

theorem pathOf_ne_nil {i : Nat} (h : 12 ≤ rootOf i) : pathOf i ≠ [] := by
  intro e
  have hl := length_pathOf i
  rw [e, List.length_nil, depth] at hl
  omega

/-- The blocks behind a page are below the last three roots. -/
theorem rootOf_page {i : Nat} (h : pathOf i ≠ []) : 12 ≤ rootOf i ∧ rootOf i < 15 := by
  have hl := length_pathOf i
  have := List.length_pos_of_ne_nil h
  unfold depth at hl
  refine ⟨by omega, ?_⟩
  unfold rootOf
  split
  · omega
  split
  · decide
  split <;> decide

theorem pathOf_inj {i k : Nat} (h : rootOf i = rootOf k) (h' : pathOf i = pathOf k) : i = k := by
  unfold rootOf at h
  unfold pathOf at h'
  by_cases h1 : i < 12 <;> by_cases h2 : k < 12 <;> simp only [h1, h2, if_true, if_false] at h h'
  · exact h
  · split at h
    · omega
    · split at h <;> omega
  · split at h
    · omega
    · split at h <;> omega
  by_cases h3 : i < 12 + 512 <;> by_cases h4 : k < 12 + 512 <;> simp only [h3, h4, if_true, if_false] at h h'
  · simp at h'
    omega
  · split at h <;> omega
  · split at h <;> omega
  by_cases h5 : i < 12 + 512 + 512 ^ 2 <;> by_cases h6 : k < 12 + 512 + 512 ^ 2 <;>
    simp only [h5, h6, if_true, if_false] at h h'
  · simp at h'
    omega
  · omega
  · omega
  · simp at h'
    omega

/-! ## Ownership -/

/-- A position in the file system: a data block, or a page at a path below root `j`. -/
inductive Pos where
  | data (a i : Nat)
  | page (a j : Nat) (path : List Nat)

/-- The data region: whole blocks between `lo` and `hi`. -/
structure Zone where
  lo : Nat
  hi : Nat

structure Zone.Has (z : Zone) (b : Nat) : Prop where
  aligned : b % 4096 = 0
  low : z.lo ≤ b
  high : b + 4096 ≤ z.hi

/-- The free list and the owners, over the data region. Free blocks have no owner. -/
structure Space (z : Zone) (K : View) (own : Nat → Option Pos) (ps : List Nat) : Prop where
  list : FreeList K ps
  free : ∀ b ∈ freeOrder K ps, own b = none ∧ z.Has b
  owned : ∀ b, own b ≠ none → z.Has b
  low : 8 ≤ z.lo
  high : z.hi ≤ K.vol.size
  drive : 0 ≤ K.vol.glob.drive

/-- The block map of the inode at `a`, whose contents are `n`. -/
structure Maps (K : View) (own : Nat → Option Pos) (a : Nat) (n : Node) : Prop where
  cap : n.blocks ≤ capacity
  data : ∀ i < n.blocks, own (addrOf K.vol.bytes n i) = some (.data a i)
  page : ∀ j path, 12 ≤ j → IsPath j path → path.length < depth j → blockAt K.vol.bytes n j path ≠ 0 →
    own (blockAt K.vol.bytes n j path) = some (.page a j path)
  /-- Pages of pages are known in full, pages of blocks as far as they are in use. -/
  upper : ∀ j path, 12 ≤ j → IsPath j path → path.length + 1 < depth j → blockAt K.vol.bytes n j path ≠ 0 →
    K.Sees (blockAt K.vol.bytes n j path) 4096
  leaf : ∀ i < n.blocks, ∀ path k, pathOf i = path ++ [k] →
    K.Sees (blockAt K.vol.bytes n (rootOf i) path + 8 * k) 8

section
variable {z : Zone} {K K' : View} {own own' : Nat → Option Pos} {ps : List Nat} {a i j k : Nat} {n : Node}
  {path : List Nat} {m m' : Mem}

theorem Space.block {b : Nat} (h : Space z K own ps) (hz : z.Has b) : IsBlock K.vol.size b := by
  have := h.low
  have := h.high
  have := hz.low
  have := hz.high
  exact ⟨hz.aligned, by omega, by omega⟩

theorem Space.owned_block {b : Nat} {p : Pos} (h : Space z K own ps) (hb : own b = some p) : IsBlock K.vol.size b :=
  h.block (h.owned b (by simp [hb]))

theorem Space.owned_notFree {b : Nat} {p : Pos} (h : Space z K own ps) (hb : own b = some p) : b ∉ freeOrder K ps :=
  fun hm => by simp [(h.free b hm).1] at hb

theorem IsPath.init (h : IsPath j (path ++ [k])) : IsPath j path := by
  refine ⟨h.root, ?_, fun x hx => h.slots x (by simp [hx])⟩
  have := h.short
  simp at this
  omega

theorem IsPath.prefix {rest : List Nat} (h : IsPath j (path ++ rest)) : IsPath j path := by
  refine ⟨h.root, ?_, fun x hx => h.slots x (by simp [hx])⟩
  have := h.short
  simp at this
  omega

/-- The pages of an inode are different: one address, one path. -/
theorem Maps.page_inj {j' : Nat} {path' : List Nat} (h : Maps K own a n) (hj : 12 ≤ j) (hp : IsPath j path)
    (hl : path.length < depth j) (hj' : 12 ≤ j') (hp' : IsPath j' path') (hl' : path'.length < depth j')
    (h0 : blockAt K.vol.bytes n j path ≠ 0) (e : blockAt K.vol.bytes n j path = blockAt K.vol.bytes n j' path') :
    j = j' ∧ path = path' := by
  have h1 := h.page j path hj hp hl h0
  have h2 := h.page j' path' hj' hp' hl' (e ▸ h0)
  rw [e, h2] at h1
  cases h1
  exact ⟨rfl, rfl⟩

/-- A walk stays what it is when the pages on the way do. -/
theorem blockAt_congr (h : ∀ π k ρ, path = π ++ k :: ρ → slot m' (blockAt m n j π) k = slot m (blockAt m n j π) k) :
    blockAt m' n j path = blockAt m n j path := walk_congr h

/-- The whole map stays what it is when the inode's pages do. -/
theorem Maps.blockAt_frame (h : Maps K own a n)
    (hb : ∀ b π, own b = some (.page a j π) → ∀ x, b ≤ x → x < b + 4096 → m' x = K.vol.bytes x)
    (hj : 12 ≤ j) (hp : IsPath j path) : blockAt m' n j path = blockAt K.vol.bytes n j path := by
  refine blockAt_congr fun π k ρ e => ?_
  subst e
  have hπ := hp.prefix
  have hlen := hp.short
  simp at hlen
  have hk : k < 512 := hp.slots k (by simp)
  by_cases h0 : blockAt K.vol.bytes n j π = 0
  · rw [h0, slot_zero, slot_zero]
  · exact slot_congr (hb _ π (h.page j π hj hπ (by omega) h0)) hk

theorem blockAt_direct (hj : j < 12) (hp : IsPath j path) : blockAt m n j path = n.direct j := by
  have hlen := hp.short
  unfold depth at hlen
  obtain rfl : path = [] := List.eq_nil_of_length_eq_zero (by omega)
  simp [blockAt, Node.root, hj]

theorem Maps.frame (h : Maps K own a n)
    (hb : ∀ b j π, own b = some (.page a j π) → ∀ x, b ≤ x → x < b + 4096 → m' x = K.vol.bytes x) (hp : IsPath j path) :
    blockAt m' n j path = blockAt K.vol.bytes n j path := by
  by_cases hj : j < 12
  · rw [blockAt_direct hj hp, blockAt_direct hj hp]
  · exact h.blockAt_frame (fun b π => hb b j π) (by omega) hp

theorem Maps.addr_frame (h : Maps K own a n)
    (hb : ∀ b j π, own b = some (.page a j π) → ∀ x, b ≤ x → x < b + 4096 → m' x = K.vol.bytes x) (hi : i < n.blocks) :
    addrOf m' n i = addrOf K.vol.bytes n i :=
  h.frame hb (pathOf_isPath (Nat.lt_of_lt_of_le hi h.cap))

/-- The map survives a change that leaves the inode's pages, and their owners, alone. -/
theorem Maps.keep (h : Maps K own a n)
    (hb : ∀ b j π, own b = some (.page a j π) → ∀ x, b ≤ x → x < b + 4096 → K'.vol.bytes x = K.vol.bytes x)
    (hv : ∀ x, K.vis x → K'.vis x) (ho : ∀ b, own b ≠ none → own' b = own b) : Maps K' own' a n := by
  have hat : ∀ j path, IsPath j path → blockAt K'.vol.bytes n j path = blockAt K.vol.bytes n j path :=
    fun j path => h.frame hb
  refine ⟨h.cap, fun i hi => ?_, fun j path hj hp hl h0 => ?_, fun j path hj hp hl h0 => ?_, fun i hi path k e => ?_⟩
  · rw [h.addr_frame hb hi, ho _ (by simp [h.data i hi]), h.data i hi]
  · rw [hat j path hp] at h0 ⊢
    have := h.page j path hj hp hl h0
    rw [ho _ (by simp [this]), this]
  · rw [hat j path hp] at h0 ⊢
    exact fun x hx => hv _ (h.upper j path hj hp hl h0 x hx)
  · have hp := pathOf_isPath (Nat.lt_of_lt_of_le hi h.cap)
    rw [e] at hp
    rw [hat _ path hp.init]
    exact fun x hx => hv _ (h.leaf i hi path k e x hx)

/-! ## The allocator and the owners -/

/-- The map of owners with the block `b` given to `p`. -/
def assign (own : Nat → Option Pos) (b : Nat) (p : Option Pos) : Nat → Option Pos :=
  fun c => if c = b then p else own c

@[simp] theorem assign_self {b : Nat} {p : Option Pos} : assign own b p b = p := if_pos rfl

theorem assign_ne {b c : Nat} {p : Option Pos} (h : c ≠ b) : assign own b p c = own c := if_neg h

/-- Two blocks of the region are the same or apart. -/
theorem Zone.Has.apart {b c : Nat} (hb : z.Has b) (hc : z.Has c) (h : b ≠ c) : b + 4096 ≤ c ∨ c + 4096 ≤ b := by
  have := hb.aligned
  have := hc.aligned
  omega

/-- What the allocator touches is not owned. -/
theorem Space.chainByte {b x : Nat} {p : Pos} (h : Space z K own ps) (hb : own b = some p) (h1 : b ≤ x) (h2 : x < b + 4096) :
    ¬ ChainByte ps x := by
  have hz := h.owned b (by simp [hb])
  rintro (hx | ⟨q, hq, h3, h4⟩)
  · have := h.low
    have := hz.low
    omega
  · have hqm := PageChain.mem_order (r := slot K.vol.bytes) (L := 511).mpr (Or.inl hq)
    have hne : b ≠ q := fun e => h.owned_notFree hb (e ▸ hqm)
    have := hz.apart (h.free q hqm).2 hne
    omega

theorem Maps.alloc {S : Nat → Prop} (hm : Maps K own a n) (h : Space z K own ps) (hk : Keeps S K K')
    (hs : ∀ x, S x → z.lo ≤ x → ChainByte ps x ∨ ∀ b p, own b = some p → x < b ∨ b + 4096 ≤ x) : Maps K' own a n := by
  refine hm.keep (fun b j π hb x h1 h2 => hk.bytes x fun hx => ?_) hk.vis fun _ _ => rfl
  have hz := h.owned b (by simp [hb])
  rcases hs x hx (by have := hz.low; omega) with hc | hc
  · exact h.chainByte hb h1 h2 hc
  · have := hc b _ hb
    omega

/-- A block was taken: it has no owner, the rest is as it was. -/
theorem Space.take {b : Nat} {ps' : List Nat} (h : Space z K own ps) (ht : Taken K ps b K' ps') :
    Space z K' own ps' ∧ b ∉ freeOrder K' ps' ∧ own b = none ∧ z.Has b := by
  have hsub : ∀ x ∈ freeOrder K' ps', x ∈ freeOrder K ps := fun x hx => by
    rw [ht.order]
    exact List.mem_cons_of_mem _ hx
  have hb : b ∈ freeOrder K ps := by
    rw [ht.order]
    exact List.mem_cons_self
  have hnd : (b :: freeOrder K' ps').Nodup := by
    rw [← ht.order]
    exact h.list.chain.nodup
  refine ⟨⟨ht.free, fun x hx => h.free x (hsub x hx), h.owned, h.low, by rw [ht.keeps.size]; exact h.high,
    by rw [ht.keeps.glob]; exact h.drive⟩, (List.nodup_cons.mp hnd).1, (h.free b hb).1, (h.free b hb).2⟩

/-- A block that is not free, and owned by nobody, was given back. -/
theorem Space.give {b : Nat} {ps' : List Nat} (h : Space z K own ps) (hz : z.Has b) (ho : own b = none)
    (hg : Given K ps b K' ps') : Space z K' own ps' := by
  refine ⟨hg.free, fun x hx => ?_, h.owned, h.low, by rw [hg.keeps.size]; exact h.high,
    by rw [hg.keeps.glob]; exact h.drive⟩
  rcases List.mem_cons.mp (hg.order.mem_iff.mp hx) with rfl | hx
  · exact ⟨ho, hz⟩
  · exact h.free x hx

/-- A block that is not free gets an owner, or loses its own. -/
theorem Space.assign {b : Nat} {p : Option Pos} (h : Space z K own ps) (hz : z.Has b) (hn : b ∉ freeOrder K ps) :
    Space z K (assign own b p) ps := by
  refine ⟨h.list, fun x hx => ?_, fun x hx => ?_, h.low, h.high, h.drive⟩
  · have hne : x ≠ b := fun e => hn (e ▸ hx)
    rw [assign_ne hne]
    exact h.free x hx
  · by_cases e : x = b
    · subst e
      exact hz
    · rw [assign_ne e] at hx
      exact h.owned x hx

/-- A change outside the superblock's word and the free blocks. -/
theorem Space.keep {S : Nat → Prop} (h : Space z K own ps) (hk : Keeps S K K') (h0 : ∀ x, S x → 8 ≤ x)
    (hf : ∀ x b, S x → b ∈ freeOrder K ps → x < b ∨ b + 4096 ≤ x) :
    Space z K' own ps ∧ freeOrder K' ps = freeOrder K ps := by
  have hp : ∀ p ∈ ps, p ∈ freeOrder K ps := fun p hp => PageChain.mem_order.mpr (Or.inl hp)
  obtain ⟨hl, ho⟩ := h.list.keep hk.size (fun x hx => hk.bytes x fun hS => by have := h0 x hS; omega)
    (fun p hm x h1 h2 => hk.bytes x fun hS => by have := hf x p hS (hp p hm); omega) hk.vis
  refine ⟨⟨hl, fun x hx => h.free x (ho ▸ hx), h.owned, h.low, by rw [hk.size]; exact h.high,
    by rw [hk.glob]; exact h.drive⟩, ho⟩

end

end TyrantFS

/-
  TyrantFS.Help.Largest — a file of the greatest size, laid out on a disk.

  The data region is counted in blocks from `D` on: block `i` of the file is number `i`,
  its pages follow behind the last block, and what a page lists is a formula
  (`listedUnit`): first the three roots, then the pages below `dbl_indirect`, those below
  `trpl_indirect`, and the pages below these.
-/
import TyrantFS.Help.Grow

namespace TyrantFS

open Lib Lib.PageTree

variable {D a i j k p : Nat} {m : Mem} {n : Node} {b : Nat}

/-- Block number `u` of the region. -/
def unit (D u : Nat) : Nat := D + 4096 * u

/-- The number of pages of a file of the greatest size. -/
def pageCount : Nat := 3 + 512 + 512 + 512 * 512

/-- What slot `k` of page `p` lists. -/
def listedUnit (p k : Nat) : Nat :=
  if p = 0 then 12 + k
  else if p < 3 then capacity + (3 + 512 * (p - 1) + k)
  else if p < 515 then 524 + 512 * (p - 3) + k
  else if p < 1027 then capacity + (1027 + 512 * (p - 515) + k)
  else 262668 + 512 * (p - 1027) + k

/-- The position of a page. -/
def pagePos (a p : Nat) : Pos :=
  if p < 3 then .page a (12 + p) []
  else if p < 515 then .page a 13 [p - 3]
  else if p < 1027 then .page a 14 [p - 515]
  else .page a 14 [(p - 1027) / 512, (p - 1027) % 512]

/-- Who owns the blocks of the region. -/
def spreadOwn (D a b : Nat) : Option Pos :=
  if b % 4096 = 0 ∧ D ≤ b then
    if (b - D) / 4096 < capacity then some (.data a ((b - D) / 4096))
    else if (b - D) / 4096 < capacity + pageCount then some (pagePos a ((b - D) / 4096 - capacity)) else none
  else none

/-- The file lies there. -/
structure Spread (D : Nat) (m : Mem) (n : Node) : Prop where
  aligned : D % 4096 = 0
  pos : 0 < D
  direct : ∀ i < 12, n.direct i = unit D i
  roots : ∀ j, 12 ≤ j → j < 15 → n.root j = unit D (capacity + (j - 12))
  slots : ∀ p < pageCount, ∀ k < 512, slot m (unit D (capacity + p)) k = unit D (listedUnit p k)

theorem unit_sub {u : Nat} : (unit D u - D) / 4096 = u := by
  unfold unit
  omega

theorem spreadOwn_data (hD : D % 4096 = 0) (hi : i < capacity) : spreadOwn D a (unit D i) = some (.data a i) := by
  unfold spreadOwn
  rw [unit_sub, if_pos ⟨by unfold unit; omega, by unfold unit; omega⟩, if_pos hi]

theorem spreadOwn_page (hD : D % 4096 = 0) (hp : p < pageCount) : spreadOwn D a (unit D (capacity + p)) = some (pagePos a p) := by
  unfold spreadOwn
  rw [unit_sub, if_pos ⟨by unfold unit; omega, by unfold unit; omega⟩, if_neg (by omega), if_pos (by omega), Nat.add_sub_cancel_left]

section
variable (h : Spread D m n)

include h

theorem Spread.page_root (hj : 12 ≤ j) (hj2 : j < 15) : blockAt m n j [] = unit D (capacity + (j - 12)) := h.roots j hj hj2

/-- What the page at a path lists. -/
theorem Spread.child {π : List Nat} (hat : blockAt m n j π = unit D (capacity + p)) (hp : p < pageCount) (hk : k < 512) :
    blockAt m n j (π ++ [k]) = unit D (listedUnit p k) := by
  rw [blockAt, walk_snoc]
  exact (congrArg (slot m · k) hat).trans (h.slots p hp k hk)

theorem Spread.page_dbl (hk : k < 512) : blockAt m n 13 [k] = unit D (capacity + (3 + k)) := by
  have e := h.child (h.page_root (j := 13) (by decide) (by decide)) (by decide) hk
  simpa [listedUnit] using e

theorem Spread.page_trpl (hk : k < 512) : blockAt m n 14 [k] = unit D (capacity + (515 + k)) := by
  have e := h.child (h.page_root (j := 14) (by decide) (by decide)) (by decide) hk
  simpa [listedUnit] using e

theorem Spread.page_last {l : Nat} (hk : k < 512) (hl : l < 512) : blockAt m n 14 [k, l] = unit D (capacity + (1027 + 512 * k + l)) := by
  have e := h.child (h.page_trpl hk) (by unfold pageCount; omega) hl
  rw [listedUnit, if_neg (by omega), if_neg (by omega), if_neg (by omega), if_pos (by omega)] at e
  rwa [show 515 + k - 515 = k by omega] at e

theorem Spread.addr (hi : i < capacity) : addrOf m n i = unit D i := by
  unfold capacity at hi
  unfold addrOf
  by_cases h1 : i < 12
  · rw [rootOf, pathOf, if_pos h1, if_pos h1]
    show n.root i = _
    rw [Node.root, if_pos h1]
    exact h.direct i h1
  by_cases h2 : i < 12 + 512
  · have e := h.child (h.page_root (j := 12) (by decide) (by decide)) (p := 0) (k := i - 12) (by decide) (by omega)
    rw [rootOf, pathOf, if_neg h1, if_neg h1, if_pos h2, if_pos h2]
    rwa [listedUnit, if_pos rfl, show 12 + (i - 12) = i by omega] at e
  by_cases h3 : i < 12 + 512 + 512 ^ 2
  · have e := h.child (h.page_dbl (k := (i - 12 - 512) / 512) (by omega)) (k := (i - 12 - 512) % 512) (by unfold pageCount; omega) (by omega)
    rw [rootOf, pathOf, if_neg h1, if_neg h1, if_neg h2, if_neg h2, if_pos h3, if_pos h3]
    rwa [listedUnit, if_neg (by omega), if_neg (by omega), if_pos (by omega),
      show 524 + 512 * (3 + (i - 12 - 512) / 512 - 3) + (i - 12 - 512) % 512 = i by omega] at e
  · have hle : 12 + 512 + 512 ^ 2 ≤ i := by omega
    have e := h.child (h.page_last (k := (i - 12 - 512 - 512 * 512) / (512 * 512)) (l := (i - 12 - 512 - 512 * 512) % (512 * 512) / 512)
      (by omega) (by omega)) (k := (i - 12 - 512 - 512 * 512) % (512 * 512) % 512) (by unfold pageCount; omega) (by omega)
    rw [rootOf_trpl hle, pathOf_trpl hle]
    rwa [listedUnit, if_neg (by omega), if_neg (by omega), if_neg (by omega), if_neg (by omega),
      show 262668 + 512 * (1027 + 512 * ((i - 12 - 512 - 512 * 512) / (512 * 512)) + (i - 12 - 512 - 512 * 512) % (512 * 512) / 512 - 1027) +
        (i - 12 - 512 - 512 * 512) % (512 * 512) % 512 = i by omega] at e

/-- Every page of the three trees lies there. -/
theorem Spread.at {π : List Nat} (hj : 12 ≤ j) (hp : IsPath j π) (hl : π.length < depth j) :
    ∃ p < pageCount, blockAt m n j π = unit D (capacity + p) ∧ pagePos a p = .page a j π := by
  have h15 := hp.root
  have hslot := hp.slots
  unfold depth at hl
  rcases π with _ | ⟨x, _ | ⟨y, _ | ⟨w, π⟩⟩⟩
  · refine ⟨j - 12, by unfold pageCount; omega, h.page_root hj h15, ?_⟩
    rw [pagePos, if_pos (by omega), Nat.add_sub_cancel' hj]
  · have hx := hslot x (by simp)
    simp only [List.length_cons, List.length_nil] at hl
    obtain rfl | rfl : j = 13 ∨ j = 14 := by omega
    · refine ⟨3 + x, by unfold pageCount; omega, h.page_dbl hx, ?_⟩
      rw [pagePos, if_neg (by omega), if_pos (by omega), Nat.add_sub_cancel_left]
    · refine ⟨515 + x, by unfold pageCount; omega, h.page_trpl hx, ?_⟩
      rw [pagePos, if_neg (by omega), if_neg (by omega), if_pos (by omega), Nat.add_sub_cancel_left]
  · have hx := hslot x (by simp)
    have hy := hslot y (by simp)
    simp only [List.length_cons, List.length_nil] at hl
    obtain rfl : j = 14 := by omega
    refine ⟨1027 + 512 * x + y, by unfold pageCount; omega, h.page_last hx hy, ?_⟩
    rw [pagePos, if_neg (by omega), if_neg (by omega), if_neg (by omega), show (1027 + 512 * x + y - 1027) / 512 = x by omega,
      show (1027 + 512 * x + y - 1027) % 512 = y by omega]
  · simp only [List.length_cons] at hl
    omega

/-- The pages on the way. -/
theorem Spread.page {π ρ : List Nat} (hi : i < capacity) (hp : pathOf i = π ++ k :: ρ) :
    ∃ p < pageCount, blockAt m n (rootOf i) π = unit D (capacity + p) ∧ pagePos a p = .page a (rootOf i) π := by
  have hpath := pathOf_isPath hi
  rw [hp] at hpath
  refine h.at (pathOf_root hp) hpath.prefix ?_
  rw [← length_pathOf, hp, List.length_append, List.length_cons]
  omega

end

theorem Spread.used {K : View} (h : Spread D K.vol.bytes n) (hb : n.blocks ≤ capacity) (hv : ∀ x, K.vis x) :
    Used K (spreadOwn D a) a n := by
  refine ⟨hb, fun i hi => ?_, fun i hi π k ρ e => ?_⟩
  · rw [h.addr (Nat.lt_of_lt_of_le hi hb)]
    exact spreadOwn_data h.aligned (Nat.lt_of_lt_of_le hi hb)
  · obtain ⟨p, hp, hat, hpos⟩ := h.page (Nat.lt_of_lt_of_le hi hb) e
    rw [hat, spreadOwn_page h.aligned hp, hpos]
    exact ⟨rfl, fun _ _ => hv _⟩

theorem Spread.maps {K : View} (h : Spread D K.vol.bytes n) (hb : n.blocks ≤ capacity) (hv : ∀ x, K.vis x) :
    Maps K (spreadOwn D a) a n := by
  refine ⟨hb, (h.used hb hv).data, fun j π hj hp hl _ => ?_, fun _ _ _ _ _ _ _ _ => hv _, fun _ _ _ _ _ _ _ => hv _⟩
  obtain ⟨p, hlt, hat, hpos⟩ := h.at (a := a) hj hp hl
  rw [hat, spreadOwn_page h.aligned hlt, hpos]

/-- What the pages hold, and the page of the free list behind them, which lists the block
    behind it. -/
def spreadData (D : Nat) : Mem := fun x =>
  if (x - D) / 4096 < capacity then 0
  else if (x - D) / 4096 < capacity + pageCount then leByte (unit D (listedUnit ((x - D) / 4096 - capacity) (x % 4096 / 8))) (x % 8)
  else if (x - D) / 4096 = capacity + pageCount ∧ x % 4096 < 8 then leByte (unit D (capacity + pageCount) + 4096) (x % 8)
  else 0

/-- A word of the region. -/
theorem word_of_bytes {x v : Nat} (hv : v < 2 ^ 64) (h : ∀ k < 8, m (x + k) = leByte v k) : word m x = v := by
  have e : leVal 8 (fun k => m (x + k)) = leVal 8 (leByte v) := leVal_congr h
  rw [word, e, leVal_leByte]
  exact Nat.mod_eq_of_lt (by simpa using hv)

section
variable (hD : D % 4096 = 0) (hpos : 0 < D) (hlt : D < 2 ^ 50) (hm : ∀ x, unit D capacity ≤ x → m x = spreadData D x)

include hD hpos hlt hm

theorem spread_slots (hp : p < pageCount) (hk : k < 512) : slot m (unit D (capacity + p)) k = unit D (listedUnit p k) := by
  have hne : unit D (capacity + p) ≠ 0 := by unfold unit; omega
  rw [slot_of_ne hne]
  unfold pageCount at hp
  refine word_of_bytes (by unfold unit listedUnit capacity; split_ifs <;> omega) fun b hb => ?_
  have hu : (unit D (capacity + p) + 8 * k + b - D) / 4096 = capacity + p := by unfold unit; omega
  rw [hm _ (by unfold unit; omega), spreadData, hu, if_neg (by omega), if_pos (by unfold pageCount; omega), Nat.add_sub_cancel_left,
    show (unit D (capacity + p) + 8 * k + b) % 4096 / 8 = k by unfold unit; omega,
    show (unit D (capacity + p) + 8 * k + b) % 8 = b by unfold unit; omega]

/-- The page of the free list. -/
theorem spread_free (hk : k < 512) :
    slot m (unit D (capacity + pageCount)) k = if k = 0 then unit D (capacity + pageCount) + 4096 else 0 := by
  have hbyte : ∀ x < 4096, m (unit D (capacity + pageCount) + x) = if x < 8 then leByte (unit D (capacity + pageCount) + 4096) x else 0 := by
    intro x hx
    have hu : (unit D (capacity + pageCount) + x - D) / 4096 = capacity + pageCount := by unfold unit; omega
    have hr : (unit D (capacity + pageCount) + x) % 4096 = x := by unfold unit; omega
    rw [hm _ (by unfold unit; omega), spreadData, hu, if_neg (by omega), if_neg (by omega), hr]
    by_cases h8 : x < 8
    · rw [if_pos ⟨rfl, h8⟩, if_pos h8, show (unit D (capacity + pageCount) + x) % 8 = x by unfold unit; omega]
    · rw [if_neg fun h => h8 h.2, if_neg h8]
  rw [slot_of_ne (by unfold unit; omega)]
  by_cases h0 : k = 0
  · subst h0
    rw [if_pos rfl]
    refine word_of_bytes (by unfold unit capacity pageCount; omega) fun b hb => ?_
    rw [Nat.mul_zero, Nat.add_zero, hbyte b (by omega), if_pos hb]
  · rw [if_neg h0]
    refine word_eq_zero fun b hb => ?_
    rw [Nat.add_assoc, hbyte _ (by omega), if_neg (by omega)]

end

theorem spreadOwn_has {N b : Nat} (hD : D % 4096 = 0) (hb : spreadOwn D a b ≠ none) (hN : D + 4096 * (capacity + pageCount) ≤ N) : Zone.Has ⟨D, N⟩ b := by
  unfold spreadOwn at hb
  split at hb
  · rename_i hc
    have hlt : (b - D) / 4096 < capacity + pageCount := by
      by_contra hge
      rw [if_neg (by omega), if_neg hge] at hb
      exact hb rfl
    refine ⟨hc.1, hc.2, ?_⟩
    show b + 4096 ≤ N
    omega
  · exact absurd rfl hb

theorem spreadOwn_free {u : Nat} (hu : capacity + pageCount ≤ u) : spreadOwn D a (unit D u) = none := by
  unfold spreadOwn
  rw [unit_sub]
  split
  · rw [if_neg (by omega), if_neg (by omega)]
  · rfl

/-- Two free blocks follow the pages. -/
theorem spread_space {v : Vol} {N : Nat} (hD : D % 4096 = 0) (hpos : 8 ≤ D) (hlt : D < 2 ^ 50)
    (hm : ∀ x, unit D capacity ≤ x → v.bytes x = spreadData D x) (hw : word v.bytes 0 = unit D (capacity + pageCount))
    (hN : N = unit D (capacity + pageCount + 2)) (hs : v.size = N) (hd : 0 ≤ v.glob.drive) :
    Space ⟨D, N⟩ (.all v) (spreadOwn D a) [unit D (capacity + pageCount)] ∧
      freeOrder (.all v) [unit D (capacity + pageCount)] = [unit D (capacity + pageCount) + 4096, unit D (capacity + pageCount)] := by
  have hslot := fun k hk => spread_free (k := k) hD (by omega) hlt hm hk
  have hhas : ∀ u, capacity + pageCount ≤ u → u < capacity + pageCount + 2 → Zone.Has ⟨D, N⟩ (unit D u) := fun u h1 h2 =>
    ⟨by unfold unit; omega, by show D ≤ unit D u; unfold unit; omega, by show unit D u + 4096 ≤ N; rw [hN]; unfold unit; omega⟩
  have hnext : unit D (capacity + pageCount) + 4096 = unit D (capacity + pageCount + 1) := by unfold unit; omega
  refine Space.pair hw ((hslot 0 (by decide)).trans (if_pos rfl)) (fun k hk h0 => (hslot k hk).trans (if_neg h0)) (hhas _ (Nat.le_refl _) (by omega))
    (hnext ▸ hhas _ (by omega) (by omega)) (by omega) (spreadOwn_free (Nat.le_refl _)) (hnext ▸ spreadOwn_free (by omega)) hpos
    (by rw [hs]) hd fun b hb => spreadOwn_has hD hb ?_
  rw [hN]
  unfold unit
  omega

/-! ## The disk -/

/-- The blocks of the disk: superblock and inode table, the file and its pages, two free
    ones. -/
def largestBlocks : Nat := 2 + capacity + pageCount + 2

/-- The free page, the one before the last block; it lists the last one. -/
def largestFree : Nat := unit 8192 (capacity + pageCount)

/-- The bytes of the data region. -/
def largestData : Mem := spreadData 8192

/-- The inode of the file. -/
def largestNode : Node :=
  { plainNode 0x8000 (4096 * capacity) 12 8192 1 with
    blocks := capacity
    indirectBlocks := unit 8192 capacity
    dblIndirect := unit 8192 (capacity + 1)
    trplIndirect := unit 8192 (capacity + 2) }

/-- The free list starts at `head`: `largestFree`, or 0 for an empty one. -/
def largestSys (head : Nat) : Sys :=
  imageSys largestBlocks (by unfold largestBlocks capacity pageCount; omega) head
    (fun a => if a = 4352 then some largestNode else none) largestData zeros

theorem largestNode_fits : largestNode.Fits := by
  have h : (plainNode 0x8000 (4096 * capacity) 12 8192 1).Fits :=
    plainNode_fits (by decide) (by unfold capacity; omega) (by decide) (by decide) (by decide)
  exact { h with
    blocks := show capacity < 2 ^ 64 by unfold capacity; omega
    indirectBlocks := show unit 8192 capacity < 2 ^ 64 by unfold unit capacity; omega
    dblIndirect := show unit 8192 (capacity + 1) < 2 ^ 64 by unfold unit capacity; omega
    trplIndirect := show unit 8192 (capacity + 2) < 2 ^ 64 by unfold unit capacity; omega }

theorem largestSys_data {head x : Nat} (hx : 8192 ≤ x) : (largestSys head).vol.bytes x = spreadData 8192 x := by
  rw [largestSys, imageSys_bytes, image_data hx, largestData]

theorem largest_spread (head : Nat) : Spread 8192 (largestSys head).vol.bytes largestNode := by
  refine ⟨by decide, by decide, fun i hi => ?_, fun j hj hj2 => ?_, fun p hp k hk => ?_⟩
  · show (plainNode 0x8000 (4096 * capacity) 12 8192 1).direct i = _
    exact plainNode_direct hi hi
  · obtain rfl | rfl | rfl : j = 12 ∨ j = 13 ∨ j = 14 := by omega
    · rfl
    · rfl
    · rfl
  · exact spread_slots (by decide) (by decide) (by decide) (fun x hx => largestSys_data (by unfold unit at hx; omega)) hp hk

/-! ## Its free list -/

theorem largest_pair : Space ⟨8192, 4096 * largestBlocks⟩ (.all (largestSys largestFree).vol) (spreadOwn 8192 4352) [largestFree] ∧
    freeOrder (.all (largestSys largestFree).vol) [largestFree] = [largestFree + 4096, largestFree] := by
  refine spread_space (by decide) (by decide) (by decide) (fun x hx => largestSys_data (by unfold unit at hx; omega)) ?_ ?_ rfl (by decide)
  · rw [largestSys, imageSys_bytes]
    exact image_super (by unfold largestFree unit capacity pageCount; omega)
  · unfold largestBlocks unit
    omega

theorem largest_space : Space ⟨8192, 4096 * largestBlocks⟩ (.all (largestSys largestFree).vol) (spreadOwn 8192 4352) [largestFree] :=
  largest_pair.1

theorem largest_order : freeOrder (.all (largestSys largestFree).vol) [largestFree] = [largestFree + 4096, largestFree] := largest_pair.2

/-- The file is well formed and has all the blocks it can have. -/
theorem largest_file {head : Nat} {ps : List Nat} (hsp : Space ⟨8192, 4096 * largestBlocks⟩ (.all (largestSys head).vol) (spreadOwn 8192 4352) ps) :
    FileAt ⟨8192, 4096 * largestBlocks⟩ (.all (largestSys head).vol) (spreadOwn 8192 4352) ps 4352 largestNode := by
  refine ⟨hsp, by decide, by decide, ?_, View.Sees.all _ _ _, largestNode_fits,
    (largest_spread head).used (Nat.le_refl _) fun _ => trivial, fun j hj hj2 _ => ?_⟩
  · show 8192 ≤ 4096 * largestBlocks
    unfold largestBlocks
    omega
  · rw [(largest_spread head).roots j hj hj2, spreadOwn_page (by decide) (by unfold pageCount; omega), pagePos, if_pos (by omega),
      Nat.add_sub_cancel' hj]

theorem largest_node (head : Nat) : nodeAt (largestSys head).vol.bytes 4352 = largestNode := by
  rw [largestSys, imageSys_bytes]
  exact image_node (by decide) (by decide) (by decide) rfl largestNode_fits

theorem largest_space_full : Space ⟨8192, 4096 * largestBlocks⟩ (.all (largestSys 0).vol) (spreadOwn 8192 4352) [] :=
  image_space (by unfold largestBlocks; omega) fun _ hb => spreadOwn_has (by decide) hb (by unfold largestBlocks; omega)

end TyrantFS

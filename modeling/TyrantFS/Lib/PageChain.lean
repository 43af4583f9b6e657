/-
  TyrantFS.Lib.PageChain — a free list kept inside the free pages themselves.

  Pages are read through `r page slot`. A page lists free blocks in its slots
  `0 .. L-1` (0 for an empty slot) and links to the next page in slot `L` (0 at the
  end). `Chain r L head ps` says that `ps` are the pages on the chain that starts at
  `head`, and that the pages and the blocks they list are all different. `order` lists
  the free blocks in the order in which taking "the first listed block of the first
  page, or that page itself when it lists none" hands them out.

  Each lemma under "Moves" is one change of the chain: what the slots are afterwards,
  and the chain and its `order` that result.
-/
import Mathlib.Data.List.Perm.Basic
import Mathlib.Data.List.Nodup
import Mathlib.Data.List.GetD

namespace Lib.PageChain

/-! ## The non-empty slots of a page -/

/-- The non-zero values among `f 0 .. f (n-1)`, in order. -/
def nz (f : Nat → Nat) (n : Nat) : List Nat := ((List.range n).map f).filter (· ≠ 0)

theorem nz_succ (f : Nat → Nat) (n : Nat) : nz f (n + 1) = nz f n ++ if f n = 0 then [] else [f n] := by
  simp only [nz, List.range_succ, List.map_append, List.filter_append, List.map_cons, List.map_nil]
  split <;> simp_all

theorem mem_nz {f : Nat → Nat} {n x : Nat} : x ∈ nz f n ↔ x ≠ 0 ∧ ∃ k < n, f k = x := by
  simp only [nz, List.mem_filter, List.mem_map, List.mem_range, decide_eq_true_eq]
  tauto

theorem nz_congr {f g : Nat → Nat} {n : Nat} (h : ∀ k < n, g k = f k) : nz g n = nz f n := by
  simp only [nz]
  rw [List.map_congr_left fun k hk => h k (List.mem_range.mp hk)]

theorem nz_eq_nil {f : Nat → Nat} {n : Nat} (h : ∀ k < n, f k = 0) : nz f n = [] := by
  rw [List.eq_nil_iff_forall_not_mem]
  intro x hx
  obtain ⟨h0, k, hk, rfl⟩ := mem_nz.mp hx
  exact h0 (h k hk)

/-- Emptying the first non-empty slot takes the head off the list. -/
theorem nz_pop {f g : Nat → Nat} {n k : Nat} (hk : k < n) (hz : ∀ j < k, f j = 0) (hv : f k ≠ 0)
    (hg : ∀ j < n, g j = if j = k then 0 else f j) : nz f n = f k :: nz g n := by
  induction n with
  | zero => omega
  | succ n ih =>
    rw [nz_succ, nz_succ, hg n (by omega)]
    by_cases e : n = k
    · subst e
      have hf : nz f n = [] := nz_eq_nil hz
      have hgn : nz g n = [] := nz_eq_nil fun j hj => by rw [hg j (by omega), if_neg (by omega), hz j hj]
      simp [hf, hgn, hv]
    · rw [ih (by omega) fun j hj => hg j (by omega), if_neg e, List.cons_append]

/-- A page that lists `es` in its first slots. -/
theorem nz_getD {f : Nat → Nat} {n : Nat} {es : List Nat} (hf : ∀ k < n, f k = es.getD k 0) (hn : es.length ≤ n) (h0 : ∀ x ∈ es, x ≠ 0) :
    nz f n = es := by
  have hmap : (List.range n).map f = es ++ List.replicate (n - es.length) 0 := by
    refine List.ext_getElem (by simp; omega) fun k hk _ => ?_
    rw [List.length_map, List.length_range] at hk
    rw [List.getElem_map, List.getElem_range, hf k hk]
    by_cases hes : k < es.length
    · rw [List.getElem_append_left hes, List.getD_eq_getElem _ _ hes]
    · rw [List.getElem_append_right (by omega), List.getElem_replicate, List.getD_eq_default _ _ (by omega)]
  rw [nz, hmap, List.filter_append, List.filter_eq_self.mpr fun x hx => by simpa using h0 x hx, List.filter_replicate]
  simp

/-- Filling an empty slot adds its block. -/
theorem nz_fill {f g : Nat → Nat} {n k b : Nat} (hk : k < n) (h0 : f k = 0) (hb : b ≠ 0)
    (hg : ∀ j < n, g j = if j = k then b else f j) : (nz g n).Perm (b :: nz f n) := by
  induction n with
  | zero => omega
  | succ n ih =>
    rw [nz_succ, nz_succ, hg n (by omega)]
    by_cases e : n = k
    · subst e
      rw [nz_congr fun j hj => by rw [hg j (by omega), if_neg (by omega)]]
      simp [h0, hb]
    · rw [if_neg e]
      exact (ih (by omega) fun j hj => hg j (by omega)).append_right _

theorem nz_nodup {f : Nat → Nat} {n : Nat} (h : ∀ i < n, ∀ j < n, f i ≠ 0 → f i = f j → i = j) : (nz f n).Nodup := by
  induction n with
  | zero => exact List.nodup_nil
  | succ n ih =>
    rw [nz_succ]
    have ih := ih fun i hi j hj => h i (by omega) j (by omega)
    split
    · simpa using ih
    · rename_i h0
      refine List.nodup_append.mpr ⟨ih, by simp, fun x hx y hy e => ?_⟩
      obtain ⟨_, k, hk, rfl⟩ := mem_nz.mp hx
      obtain rfl := List.mem_singleton.mp hy
      have := h n (by omega) k (by omega) h0 e.symm
      omega

/-! ## Chains -/

section
variable (r : Nat → Nat → Nat) (L : Nat)

inductive Linked : Nat → List Nat → Prop
  | nil : Linked 0 []
  | cons {p : Nat} {ps : List Nat} : p ≠ 0 → Linked (r p L) ps → Linked p (p :: ps)

/-- The blocks of the pages `ps` in the order they are handed out: what a page lists,
    then the page. -/
def order (ps : List Nat) : List Nat := ps.flatMap fun p => nz (r p) L ++ [p]

structure Chain (head : Nat) (ps : List Nat) : Prop where
  linked : Linked r L head ps
  nodup : (order r L ps).Nodup

end

variable {r s : Nat → Nat → Nat} {L : Nat} {head p b : Nat} {ps : List Nat}

@[simp] theorem order_nil : order r L [] = [] := rfl

@[simp] theorem order_cons : order r L (p :: ps) = nz (r p) L ++ p :: order r L ps := by simp [order]

theorem mem_order {x : Nat} : x ∈ order r L ps ↔ x ∈ ps ∨ x ≠ 0 ∧ ∃ p ∈ ps, ∃ k < L, r p k = x := by
  simp only [order, List.mem_flatMap, List.mem_append, mem_nz, List.mem_singleton]
  constructor
  · rintro ⟨p, hp, ⟨h0, hk⟩ | rfl⟩
    · exact Or.inr ⟨h0, p, hp, hk⟩
    · exact Or.inl hp
  · rintro (h | ⟨h0, p, hp, hk⟩)
    · exact ⟨x, h, Or.inr rfl⟩
    · exact ⟨p, hp, Or.inl ⟨h0, hk⟩⟩

theorem order_congr (s : Nat → Nat → Nat) (h : ∀ q ∈ ps, ∀ k < L, s q k = r q k) : order s L ps = order r L ps := by
  induction ps with
  | nil => rfl
  | cons q ps ih =>
    rw [order_cons, order_cons, nz_congr (h q (by simp)), ih fun r hr => h r (by simp [hr])]

theorem linked_congr (h : ∀ q ∈ ps, s q L = r q L) (hl : Linked r L head ps) : Linked s L head ps := by
  induction hl with
  | nil => exact .nil
  | @cons p ps hp _ ih =>
    refine .cons hp ?_
    rw [h p (by simp)]
    exact ih fun q hq => h q (by simp [hq])

theorem Chain.congr (h : ∀ q ∈ ps, ∀ k ≤ L, s q k = r q k) (hc : Chain r L head ps) : Chain s L head ps :=
  ⟨linked_congr (fun q hq => h q hq L (Nat.le_refl _)) hc.linked,
    by rw [order_congr s fun q hq k hk => h q hq k (by omega)]; exact hc.nodup⟩

theorem linked_zero (h : Linked r L 0 ps) : ps = [] := by
  cases h with
  | nil => rfl
  | cons h0 _ => exact absurd rfl h0

theorem linked_ne (h : Linked r L head ps) (h0 : head ≠ 0) :
    ∃ qs, ps = head :: qs ∧ Linked r L (r head L) qs := by
  cases h with
  | nil => exact absurd rfl h0
  | cons _ hl => exact ⟨_, rfl, hl⟩

theorem linked_nil (h : Linked r L head []) : head = 0 := by
  cases h
  rfl

theorem linked_cons (h : Linked r L head (p :: ps)) : head = p ∧ Linked r L (r p L) ps := by
  cases h with
  | cons _ hl => exact ⟨rfl, hl⟩

theorem linked_unique {qs : List Nat} (h : Linked r L head ps) (h' : Linked r L head qs) : ps = qs := by
  induction h generalizing qs with
  | nil => exact (linked_zero h').symm
  | cons h0 _ ih =>
    obtain ⟨rs, rfl, hl⟩ := linked_ne h' h0
    rw [ih hl]

/-- The link of a page is zero or the next page. -/
theorem linked_link (h : Linked r L head ps) (hp : p ∈ ps) (h0 : r p L ≠ 0) : r p L ∈ ps := by
  induction h with
  | nil => cases hp
  | cons _ hl ih =>
    rcases List.mem_cons.mp hp with rfl | hp
    · obtain ⟨qs, rfl, _⟩ := linked_ne hl h0
      simp
    · exact List.mem_cons_of_mem _ (ih hp)

/-- Pages that list different blocks, none of them a page. -/
theorem order_nodup (hp : ps.Nodup)
    (hi : ∀ p ∈ ps, ∀ q ∈ ps, ∀ i < L, ∀ j < L, r p i ≠ 0 → r p i = r q j → p = q ∧ i = j)
    (hq : ∀ p ∈ ps, ∀ i < L, r p i ∉ ps) : (order r L ps).Nodup := by
  induction ps with
  | nil => exact List.nodup_nil
  | cons p ps ih =>
    have hpn := List.nodup_cons.mp hp
    have ih := ih hpn.2 (fun r hr s hs => hi r (by simp [hr]) s (by simp [hs]))
      fun r hr i hi' hm => hq r (by simp [hr]) i hi' (by simp [hm])
    rw [order_cons]
    refine List.nodup_append.mpr ⟨nz_nodup fun i hi1 j hj h0 e => (hi p (by simp) p (by simp) i hi1 j hj h0 e).2,
      List.nodup_cons.mpr ⟨fun hm => ?_, ih⟩, fun x hx y hy e => ?_⟩
    · rcases mem_order.mp hm with hm | ⟨_, r, hr, k, hk, e⟩
      · exact hpn.1 hm
      · exact hq r (by simp [hr]) k hk (by simp [e])
    · subst e
      obtain ⟨h0, k, hk, rfl⟩ := mem_nz.mp hx
      rcases List.mem_cons.mp hy with e | hy
      · exact hq p (by simp) k hk (by simp [e])
      · rcases mem_order.mp hy with hm | ⟨_, r, hr, j, hj, e⟩
        · exact hq p (by simp) k hk (by simp [hm])
        · obtain ⟨rfl, -⟩ := hi p (by simp) r (by simp [hr]) k hk j hj h0 e.symm
          exact hpn.1 hr

theorem Chain.page_notMem (h : Chain r L head (p :: ps)) : p ∉ ps := by
  have hn := h.nodup
  rw [order_cons, List.nodup_append] at hn
  have hp := (List.nodup_cons.mp hn.2.1).1
  exact fun hm => hp (mem_order.mpr (Or.inl hm))

theorem Chain.tail (h : Chain r L head (p :: ps)) : Chain r L (r p L) ps := by
  have hn := h.nodup
  rw [order_cons, List.nodup_append] at hn
  cases h.linked with
  | cons _ hl => exact ⟨hl, (List.nodup_cons.mp hn.2.1).2⟩

/-! ## Moves -/

/-- The first listed block is taken out of its slot. -/
theorem Chain.pop_slot (h : Chain r L p (p :: ps)) {k : Nat} (hk : k < L) (hz : ∀ j < k, r p j = 0)
    (hv : r p k ≠ 0) (hp : ∀ j ≤ L, s p j = if j = k then 0 else r p j)
    (ho : ∀ q ∈ ps, ∀ j ≤ L, s q j = r q j) :
    order r L (p :: ps) = r p k :: order s L (p :: ps) ∧ Chain s L p (p :: ps) := by
  have e : order r L (p :: ps) = r p k :: order s L (p :: ps) := by
    rw [order_cons, order_cons, nz_pop hk hz hv fun j hj => hp j (by omega),
      order_congr s fun q hq j hj => ho q hq j (by omega), List.cons_append]
  refine ⟨e, ?_, ?_⟩
  · cases h.linked with
    | cons h0 hl =>
      refine .cons h0 ?_
      rw [hp L (Nat.le_refl _), if_neg (by omega)]
      exact linked_congr (fun q hq => ho q hq L (Nat.le_refl _)) hl
  · have hn := h.nodup
    rw [e] at hn
    exact (List.nodup_cons.mp hn).2

/-- A page that lists nothing is taken, and its link becomes the head. -/
theorem Chain.pop_page (h : Chain r L p (p :: ps)) (hz : ∀ j < L, r p j = 0)
    (ho : ∀ q ∈ ps, ∀ j ≤ L, s q j = r q j) :
    order r L (p :: ps) = p :: order s L ps ∧ Chain s L (r p L) ps := by
  rw [order_cons, nz_eq_nil hz, order_congr s fun q hq j hj => ho q hq j (by omega)]
  exact ⟨rfl, h.tail.congr ho⟩

/-- A block enters an empty slot of the first page. -/
theorem Chain.push_slot (h : Chain r L p (p :: ps)) (hb : b ∉ order r L (p :: ps)) (hb0 : b ≠ 0) {k : Nat}
    (hk : k < L) (h0 : r p k = 0) (hp : ∀ j ≤ L, s p j = if j = k then b else r p j)
    (ho : ∀ q ∈ ps, ∀ j ≤ L, s q j = r q j) :
    (order s L (p :: ps)).Perm (b :: order r L (p :: ps)) ∧ Chain s L p (p :: ps) := by
  have e : (order s L (p :: ps)).Perm (b :: order r L (p :: ps)) := by
    rw [order_cons, order_cons, order_congr s fun q hq j hj => ho q hq j (by omega)]
    exact (nz_fill hk h0 hb0 fun j hj => hp j (by omega)).append_right _
  refine ⟨e, ?_, e.nodup_iff.mpr (List.nodup_cons.mpr ⟨hb, h.nodup⟩)⟩
  cases h.linked with
  | cons hp0 hl =>
    refine .cons hp0 ?_
    rw [hp L (Nat.le_refl _), if_neg (by omega)]
    exact linked_congr (fun q hq => ho q hq L (Nat.le_refl _)) hl

/-- A wiped block becomes the page after the only, unlinked page. -/
theorem Chain.push_link (h : Chain r L p [p]) (hb : b ∉ order r L [p]) (hb0 : b ≠ 0)
    (hp : ∀ j ≤ L, s p j = if j = L then b else r p j) (hbz : ∀ j ≤ L, s b j = 0) :
    (order s L [p, b]).Perm (b :: order r L [p]) ∧ Chain s L p [p, b] := by
  have e : (order s L [p, b]).Perm (b :: order r L [p]) := by
    have hl : nz (s p) L = nz (r p) L := nz_congr fun j hj => by rw [hp j (by omega), if_neg (by omega)]
    rw [order_cons, order_cons, order_nil, hl, nz_eq_nil (f := s b) fun j hj => hbz j (by omega), order_cons, order_nil]
    have hs : (p :: b :: ([] : List Nat)).Perm (b :: [p]) := List.Perm.swap b p []
    exact (hs.append_left _).trans List.perm_middle
  refine ⟨e, ?_, e.nodup_iff.mpr (List.nodup_cons.mpr ⟨hb, h.nodup⟩)⟩
  cases h.linked with
  | cons hp0 _ =>
    refine .cons hp0 ?_
    rw [hp L (Nat.le_refl _), if_pos rfl]
    refine .cons hb0 ?_
    rw [hbz L (Nat.le_refl _)]
    exact .nil

/-- A wiped block whose link is the old head becomes the head. -/
theorem Chain.push_head (h : Chain r L p ps) (hb : b ∉ order r L ps) (hb0 : b ≠ 0)
    (hbl : s b L = p) (hbz : ∀ j < L, s b j = 0) (ho : ∀ q ∈ ps, ∀ j ≤ L, s q j = r q j) :
    order s L (b :: ps) = b :: order r L ps ∧ Chain s L b (b :: ps) := by
  have e : order s L (b :: ps) = b :: order r L ps := by
    rw [order_cons, nz_eq_nil hbz, order_congr s fun q hq j hj => ho q hq j (by omega), List.nil_append]
  refine ⟨e, .cons hb0 ?_, by rw [e]; exact List.nodup_cons.mpr ⟨hb, h.nodup⟩⟩
  rw [hbl]
  exact linked_congr (fun q hq => ho q hq L (Nat.le_refl _)) h.linked

end Lib.PageChain

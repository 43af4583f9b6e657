/-
  TyrantFS.Lib.Overlay — a list written over another one from an index on.
-/

namespace Lib

variable {α : Type} {l d e : List α} {f g : Nat → α} {off i k n m : Nat}

/-- `l` with `d` written over it from index `off` on. -/
def overlay (l : List α) (off : Nat) (d : List α) : List α := l.take off ++ d ++ l.drop (off + d.length)

theorem length_overlay (h : off ≤ l.length) : (overlay l off d).length = max l.length (off + d.length) := by
  unfold overlay
  simp only [List.length_append, List.length_take, List.length_drop]
  omega

theorem getElem?_overlay (h : off ≤ l.length) :
    (overlay l off d)[i]? = if off ≤ i ∧ i < off + d.length then d[i - off]? else l[i]? := by
  unfold overlay
  by_cases h1 : i < off
  · rw [if_neg (by omega), List.append_assoc, List.getElem?_append_left (by rw [List.length_take]; omega),
      List.getElem?_take_of_lt h1]
  by_cases h2 : i < off + d.length
  · rw [if_pos ⟨by omega, h2⟩, List.append_assoc, List.getElem?_append_right (by rw [List.length_take]; omega), List.length_take,
      Nat.min_eq_left h, List.getElem?_append_left (by omega)]
  · rw [if_neg (by omega), List.getElem?_append_right (by rw [List.length_append, List.length_take]; omega), List.length_append,
      List.length_take, Nat.min_eq_left h, List.getElem?_drop, show off + d.length + (i - (off + d.length)) = i by omega]

theorem overlay_nil : overlay l off [] = l := by
  rw [overlay, List.append_nil, List.length_nil, Nat.add_zero, List.take_append_drop]

/-- Two writes, the second where the first ends, are one. -/
theorem overlay_overlay (h : off ≤ l.length) : overlay (overlay l off d) (off + d.length) e = overlay l off (d ++ e) := by
  refine List.ext_getElem? fun i => ?_
  rw [getElem?_overlay (by rw [length_overlay h]; omega), getElem?_overlay h, getElem?_overlay h, List.length_append]
  by_cases h1 : off + d.length ≤ i ∧ i < off + d.length + e.length
  · rw [if_pos h1, if_pos (by omega), List.getElem?_append_right (by omega), Nat.sub_sub]
  · rw [if_neg h1]
    by_cases h2 : off ≤ i ∧ i < off + d.length
    · rw [if_pos h2, if_pos (by omega), List.getElem?_append_left (by omega)]
    · rw [if_neg h2, if_neg (by omega)]

/-- What was written is what is there. -/
theorem take_drop_overlay (h : off ≤ l.length) (hi : i + k ≤ d.length) : ((overlay l off d).drop (off + i)).take k = (d.drop i).take k := by
  refine List.ext_getElem? fun j => ?_
  rw [List.getElem?_take, List.getElem?_take, List.getElem?_drop, List.getElem?_drop, getElem?_overlay h]
  by_cases hj : j < k
  · rw [if_pos hj, if_pos hj, if_pos (by omega), Nat.add_assoc, Nat.add_sub_cancel_left]
  · rw [if_neg hj, if_neg hj]

/-! ## Lists given by a function -/

theorem getElem?_map_range : ((List.range n).map f)[i]? = if i < n then some (f i) else none := by
  rw [List.getElem?_map]
  split
  · rw [List.getElem?_range ‹_›]
    rfl
  · rw [List.getElem?_eq_none (by rw [List.length_range]; omega)]
    rfl

/-- Writing what `g` gives over what `f` gives. -/
theorem overlay_range (h : off ≤ n) (hm : m = max n (off + k)) :
    overlay ((List.range n).map f) off ((List.range k).map g) =
      (List.range m).map fun i => if off ≤ i ∧ i < off + k then g (i - off) else f i := by
  refine List.ext_getElem? fun i => ?_
  rw [getElem?_overlay (by simpa using h), getElem?_map_range, getElem?_map_range, getElem?_map_range, List.length_map,
    List.length_range]
  by_cases h1 : off ≤ i ∧ i < off + k
  · rw [if_pos h1, if_pos (by omega), if_pos (by omega), if_pos h1]
  · rw [if_neg h1, if_neg h1]
    by_cases h2 : i < n
    · rw [if_pos h2, if_pos (by omega)]
    · rw [if_neg h2, if_neg (by omega)]

/-- A part of what `f` gives. -/
theorem drop_take_range : (((List.range n).map f).drop off).take k = (List.range (min k (n - off))).map fun i => f (off + i) := by
  refine List.ext_getElem? fun i => ?_
  rw [List.getElem?_take, List.getElem?_drop, getElem?_map_range, getElem?_map_range]
  by_cases h1 : i < k
  · rw [if_pos h1]
    by_cases h2 : off + i < n
    · rw [if_pos h2, if_pos (by omega)]
    · rw [if_neg h2, if_neg (by omega)]
  · rw [if_neg h1, if_neg (by omega)]

end Lib

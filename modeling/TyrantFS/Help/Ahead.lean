/-
  TyrantFS.Help.Ahead — what the next calls of `add_block_to_node` take from the free list.

  A round takes one block for the file and then the pages that are missing on the way to
  it. Which pages those are can be told in advance (`Paged`), and so can the place in the
  free list from which each round takes (`place`). `GrowsClear` says of the disk before
  the first round that no round finds anything in a page it takes and reads; it then
  holds before every round (`GrowsClear.next`).
-/
import TyrantFS.Help.Frame
import Mathlib.Data.Nat.Count

namespace TyrantFS

open Lib Lib.PageTree

variable {z : Zone} {K K' K0 : View} {own own' own0 : Nat → Option Pos} {ps ps' ps0 : List Nat} {a i l left t : Nat}
  {n n' n0 : Node} {m m' : Mem} {r : Nat × Node}

/-- The page `s` levels down on the way to block `i` is there, or is taken for one of the
    new blocks in front of it. -/
def Paged (m : Mem) (n : Node) (i s : Nat) : Prop :=
  blockAt m n (rootOf i) ((pathOf i).take s) ≠ 0 ∨
    ∃ k < i, n.blocks ≤ k ∧ rootOf k = rootOf i ∧ (pathOf k).take s = (pathOf i).take s

instance {s : Nat} : Decidable (Paged m n i s) := inferInstanceAs (Decidable (_ ∨ ∃ k < i, _ ∧ _ ∧ _))

/-- The pages that are taken for block `i`, among the first `l` on the way. -/
def newPages (m : Mem) (n : Node) (i l : Nat) : Nat := Nat.count (fun s => ¬ Paged m n i s) l

/-- Where in the free list the next `t` rounds end. -/
def place (m : Mem) (n : Node) : Nat → Nat
  | 0 => 0
  | t + 1 => place m n t + 1 + newPages m n (n.blocks + t) (depth (rootOf (n.blocks + t)))

/-- The next `left` rounds find nothing in the pages they take, and the map has room for
    the blocks there are (one more is given back). -/
structure GrowsClear (K : View) (ps : List Nat) (n : Node) (left : Nat) : Prop where
  pages : ∀ t < left, n.blocks + t < capacity →
    ∀ s < newPages K.vol.bytes n (n.blocks + t) (depth (rootOf (n.blocks + t)) - 1), ∀ q,
      (freeOrder K ps)[place K.vol.bytes n t + 1 + s]? = some q → q ∉ ps → Clear K q
  room : n.blocks + left ≤ capacity ∨ (freeOrder K ps).length ≤ place K.vol.bytes n (capacity - n.blocks) + 1

theorem missing_count {j : Nat} {path : List Nat} : missing m n j path t l = Nat.count (fun s => blockAt m n j (path.take (t + s)) = 0) l := by
  induction l generalizing t with
  | zero => rfl
  | succ l ih =>
    rw [missing_succ, Nat.count_succ', ih, Nat.add_comm]
    simp only [Nat.add_zero, Nat.add_assoc, Nat.add_comm 1]

theorem count_congr {p q : Nat → Prop} [DecidablePred p] [DecidablePred q] (h : ∀ s < l, p s ↔ q s) : Nat.count p l = Nat.count q l :=
  Nat.le_antisymm (Nat.count_mono_left fun s hs => (h s hs).mp) (Nat.count_mono_left fun s hs => (h s hs).mpr)

/-- The next round. -/
theorem newPages_next : newPages m n n.blocks l = missing m n (rootOf n.blocks) (pathOf n.blocks) 0 l := by
  rw [missing_count]
  refine count_congr fun s _ => ?_
  rw [Nat.zero_add]
  constructor
  · intro h
    by_contra h0
    exact h (Or.inl h0)
  · rintro h0 (h | ⟨k, h1, h2, -⟩)
    · exact h h0
    · omega

theorem place_one : place m n 1 = 1 + missing m n (rootOf n.blocks) (pathOf n.blocks) 0 (depth (rootOf n.blocks)) := by
  show 0 + 1 + newPages m n (n.blocks + 0) (depth (rootOf (n.blocks + 0))) = _
  rw [Nat.add_zero n.blocks, newPages_next]

theorem newPages_congr (h : ∀ s < l, (Paged m n i s ↔ Paged m' n' i s)) : newPages m n i l = newPages m' n' i l :=
  count_congr fun s hs => not_congr (h s hs)

section
variable (h : Added z a K0 own0 ps0 n0 r K own ps) (h0 : r.1 ≠ 0)

include h h0

/-- A round changes nothing about the later ones. -/
theorem Added.paged (hi : n0.blocks < i) (hc : i < capacity) {s : Nat} (hs : s < depth (rootOf i)) :
    Paged K.vol.bytes r.2 i s ↔ Paged K0.vol.bytes n0 i s := by
  have hlen := length_pathOf i
  have hblocks := h.blocks h0
  have hj : 12 ≤ rootOf i := by
    unfold depth at hs
    omega
  have hpath : IsPath (rootOf i) ((pathOf i).take s) := by
    have hp := pathOf_isPath hc
    rw [← List.take_append_drop s (pathOf i)] at hp
    exact hp.prefix
  -- the page is there now, or was there before, or is one of those of this round
  have hat : blockAt K.vol.bytes r.2 (rootOf i) ((pathOf i).take s) ≠ 0 ↔ blockAt K0.vol.bytes n0 (rootOf i) ((pathOf i).take s) ≠ 0 ∨
      rootOf n0.blocks = rootOf i ∧ (pathOf n0.blocks).take s = (pathOf i).take s := by
    have hold := h.old (rootOf i) ((pathOf i).take s) hj hpath (by simp; omega)
    constructor
    · intro hne
      rcases hold with hold | ⟨e, ⟨s', hs', e'⟩, -⟩
      · exact Or.inl (hold ▸ hne)
      · have hl := congrArg List.length e'
        have hlen' := length_pathOf n0.blocks
        simp at hl
        rw [show s' = s by rw [e] at hlen hs; omega] at e'
        exact Or.inr ⟨e.symm, e'.symm⟩
    · rintro (hne | ⟨e, e'⟩)
      · rcases hold with hold | ⟨-, -, -, hold⟩
        · rwa [hold]
        · exact hold
      · rw [← e, ← e']
        exact h.present h0 s (by rw [e]; exact hs)
  unfold Paged
  rw [hat, hblocks]
  constructor
  · rintro ((hne | ⟨e, e'⟩) | ⟨k, h1, h2, h3⟩)
    · exact Or.inl hne
    · exact Or.inr ⟨n0.blocks, hi, Nat.le_refl _, e, e'⟩
    · exact Or.inr ⟨k, h1, by omega, h3⟩
  · rintro (hne | ⟨k, h1, h2, h3⟩)
    · exact Or.inl (Or.inl hne)
    · rcases Nat.eq_or_lt_of_le h2 with rfl | h2
      · exact Or.inl (Or.inr h3)
      · exact Or.inr ⟨k, h1, h2, h3⟩

theorem Added.newPages (hi : n0.blocks < i) (hc : i < capacity) (hl : l ≤ depth (rootOf i)) :
    newPages K.vol.bytes r.2 i l = TyrantFS.newPages K0.vol.bytes n0 i l :=
  newPages_congr fun _ hs => h.paged h0 hi hc (by omega)

theorem Added.place (hc : n0.blocks + t < capacity) :
    place K0.vol.bytes n0 (t + 1) = TyrantFS.place K0.vol.bytes n0 1 + TyrantFS.place K.vol.bytes r.2 t := by
  have hblocks := h.blocks h0
  induction t with
  | zero => rfl
  | succ t ih =>
    have hnew := h.newPages h0 (i := n0.blocks + (t + 1)) (by omega) hc (Nat.le_refl _)
    show TyrantFS.place K0.vol.bytes n0 (t + 1) + 1 + _ = _ + (TyrantFS.place K.vol.bytes r.2 t + 1 + _)
    rw [ih (by omega), hblocks, ← hnew, show n0.blocks + 1 + t = n0.blocks + (t + 1) by omega]
    omega

/-- The blocks that are taken come from the front of the list. -/
theorem Added.order : freeOrder K ps = (freeOrder K0 ps0).drop (TyrantFS.place K0.vol.bytes n0 1) := by
  have hcount := h.count h0
  rw [← place_one] at hcount
  have := List.suffix_iff_eq_drop.mp (h.rest h0)
  rwa [hcount, Nat.add_sub_cancel] at this

theorem GrowsClear.next (hz : GrowsClear K0 ps0 n0 (left + 1)) (hc : n0.blocks < capacity) : GrowsClear K ps r.2 left := by
  have hblocks := h.blocks h0
  have horder := h.order h0
  constructor
  · intro t ht hcap s hs q hq hn
    have hi : r.2.blocks + t = n0.blocks + (t + 1) := by omega
    rw [hi] at hcap hs
    rw [h.newPages h0 (by omega) hcap (Nat.sub_le _ 1)] at hs
    obtain ⟨h1, h2⟩ := h.listed h0 q (List.mem_of_getElem? hq) hn
    rw [horder, List.getElem?_drop, show TyrantFS.place K0.vol.bytes n0 1 + (TyrantFS.place K.vol.bytes r.2 t + 1 + s) =
      TyrantFS.place K0.vol.bytes n0 (t + 1) + 1 + s by rw [h.place (t := t) h0 (by omega)]; omega] at hq
    have hclear := hz.pages (t + 1) (by omega) hcap s hs q hq h1
    exact fun k hk => ⟨(h2 _ (by omega) (by omega)).trans (hclear k hk).1, h.keeps.vis _ (hclear k hk).2⟩
  · refine hz.room.imp (fun hr => by omega) fun hr => ?_
    rw [horder, List.length_drop, hblocks]
    rw [show capacity - n0.blocks = capacity - (n0.blocks + 1) + 1 by omega, h.place h0 (by omega)] at hr
    omega

end

/-- The first round. -/
theorem GrowsClear.first (hz : GrowsClear K ps n (left + 1)) (hc : n.blocks < capacity) : PagesClear K ps n := by
  intro s hs q hq hn
  refine hz.pages 0 (by omega) hc s ?_ q ?_ hn
  · rw [Nat.add_zero, newPages_next]
    exact hs
  · show (freeOrder K ps)[0 + 1 + s]? = _
    rwa [Nat.zero_add, Nat.add_comm]

/-- With the blocks of the single tree no page of pages is taken. -/
theorem GrowsClear.low (hl : n.blocks + left ≤ 12 + 512) : GrowsClear K ps n left := by
  refine ⟨fun t ht _ s hs => ?_, Or.inl (Nat.le_trans hl (by decide +kernel))⟩
  have hdepth : depth (rootOf (n.blocks + t)) - 1 = 0 := by
    unfold depth rootOf
    split
    · omega
    · rw [if_pos (by omega)]
  rw [hdepth] at hs
  exact absurd hs (Nat.not_lt_zero s)

section
variable (hb : n'.blocks = n.blocks) (hat : ∀ j π, IsPath j π → blockAt m' n' j π = blockAt m n j π)

include hb hat

theorem newPages_eq (hi : i < capacity) : newPages m' n' i l = newPages m n i l :=
  newPages_congr fun s _ => by
    have hp := pathOf_isPath hi
    rw [← List.take_append_drop s (pathOf i)] at hp
    rw [Paged, Paged, hat _ _ hp.prefix, hb]

/-- The places are those of the map. -/
theorem place_eq (ht : n.blocks + t ≤ capacity) : place m' n' t = place m n t := by
  induction t with
  | zero => rfl
  | succ t ih =>
    show place m' n' t + 1 + _ = place m n t + 1 + _
    rw [ih (by omega), hb, newPages_eq hb hat (by omega)]

end

theorem GrowsClear.congr (hz : GrowsClear K ps n left) (hb : n'.blocks = n.blocks) (hord : freeOrder K' ps = freeOrder K ps)
    (hat : ∀ j π, IsPath j π → blockAt K'.vol.bytes n' j π = blockAt K.vol.bytes n j π)
    (hclear : ∀ q ∈ freeOrder K ps, Clear K q → Clear K' q) : GrowsClear K' ps n' left := by
  constructor
  · intro t ht hcap s hs q hq hn
    rw [hb] at hcap hs
    rw [hord, place_eq hb hat (by omega)] at hq
    rw [newPages_eq hb hat hcap] at hs
    exact hclear q (List.mem_of_getElem? hq) (hz.pages t ht hcap s hs q hq hn)
  · rw [hb, hord]
    refine hz.room.imp_right fun hr => ?_
    by_cases hle : n.blocks ≤ capacity
    · rwa [place_eq hb hat (by omega)]
    · rw [show capacity - n.blocks = 0 by omega] at hr ⊢
      exact hr

end TyrantFS

/-
  TyrantFS.Lib.NameTree — name spaces that are trees.

  A name space over a type of nodes is a set of nodes in use, a root, and for every node
  the list of the nodes its entries name. It is a tree when every entry names a node in
  use other than the root, no node is named twice, and every node in use is reached
  from the root. A new node may be entered anywhere (`create`), a node that names none
  may be removed (`remove`); the order of the entries does not matter (`congr`).
-/
import Mathlib.Data.Set.Insert
import Mathlib.Logic.Relation
import Mathlib.Tactic.Tauto

namespace Lib

open Relation

variable {α : Type} {root d a : α} {used : Set α} {kids kids' : α → List α}

structure NameTree (r : α) (used : Set α) (kids : α → List α) : Prop where
  root : r ∈ used
  live : ∀ d a, a ∈ kids d → d ∈ used ∧ a ∈ used ∧ a ≠ r
  once : ∀ d, (kids d).Nodup
  one : ∀ d e a, a ∈ kids d → a ∈ kids e → d = e
  reach : ∀ a ∈ used, ReflTransGen (fun d a => a ∈ kids d) r a

namespace NameTree

/-- The root alone. -/
theorem single (hk : ∀ d, kids d = []) : NameTree root {root} kids := by
  have hno : ∀ d a, a ∉ kids d := fun d a => by rw [hk]; exact List.not_mem_nil
  refine ⟨rfl, fun d a ha => absurd ha (hno d a), fun d => by rw [hk]; exact List.nodup_nil, fun d e a ha _ => absurd ha (hno d a),
    fun a ha => ?_⟩
  obtain rfl : a = root := ha
  exact .refl

theorem congr (h : NameTree root used kids) (hk : ∀ d, (kids' d).Perm (kids d)) : NameTree root used kids' := by
  have hm : ∀ d a, a ∈ kids' d ↔ a ∈ kids d := fun d a => (hk d).mem_iff
  refine ⟨h.root, fun d a ha => h.live d a ((hm d a).mp ha), fun d => (hk d).nodup_iff.mpr (h.once d),
    fun d e a h1 h2 => h.one d e a ((hm d a).mp h1) ((hm e a).mp h2), fun a ha => ?_⟩
  exact ReflTransGen.mono (fun d a => (hm d a).mpr) _ _ (h.reach a ha)

theorem create (h : NameTree root used kids) (hd : d ∈ used) (ha : a ∉ used) (hk : (kids' d).Perm (a :: kids d))
    (ho : ∀ e, e ≠ d → kids' e = kids e) : NameTree root (insert a used) kids' := by
  classical
  have hm : ∀ e b, b ∈ kids' e ↔ b ∈ kids e ∨ e = d ∧ b = a := by
    intro e b
    by_cases he : e = d
    · subst he
      rw [hk.mem_iff, List.mem_cons]
      tauto
    · rw [ho e he]
      tauto
  have hno : ∀ e, a ∉ kids e := fun e he => ha (h.live e a he).2.1
  refine ⟨Or.inr h.root, fun e b hb => ?_, fun e => ?_, fun e f b h1 h2 => ?_, fun b hb => ?_⟩
  · rcases (hm e b).mp hb with hb | ⟨rfl, rfl⟩
    · obtain ⟨h1, h2, h3⟩ := h.live e b hb
      exact ⟨Or.inr h1, Or.inr h2, h3⟩
    · exact ⟨Or.inr hd, Or.inl rfl, fun e => ha (e ▸ h.root)⟩
  · by_cases he : e = d
    · subst he
      rw [hk.nodup_iff, List.nodup_cons]
      exact ⟨hno e, h.once e⟩
    · rw [ho e he]
      exact h.once e
  · rcases (hm e b).mp h1 with h1 | ⟨e1, hb1⟩ <;> rcases (hm f b).mp h2 with h2 | ⟨e2, hb2⟩
    · exact h.one e f b h1 h2
    · exact absurd (hb2 ▸ h1) (hno e)
    · exact absurd (hb1 ▸ h2) (hno f)
    · rw [e1, e2]
  · have hold : ∀ c ∈ used, ReflTransGen (fun d a => a ∈ kids' d) root c := fun c hc =>
      ReflTransGen.mono (fun e b hb => (hm e b).mpr (Or.inl hb)) _ _ (h.reach c hc)
    rcases hb with rfl | hb
    · exact (hold d hd).tail ((hm d b).mpr (Or.inr ⟨rfl, rfl⟩))
    · exact hold b hb

theorem remove (h : NameTree root used kids) (ha : a ∈ kids d) (hl : kids a = []) (hk : (kids d).Perm (a :: kids' d))
    (ho : ∀ e, e ≠ d → kids' e = kids e) : NameTree root (used \ {a}) kids' := by
  classical
  have hnd := hk.nodup_iff.mp (h.once d)
  rw [List.nodup_cons] at hnd
  have hm : ∀ e b, b ∈ kids' e ↔ b ∈ kids e ∧ b ≠ a := by
    intro e b
    by_cases he : e = d
    · subst he
      rw [hk.mem_iff, List.mem_cons]
      by_cases hb : b = a
      · subst hb
        simp [hnd.1]
      · simp [hb]
    · rw [ho e he]
      refine ⟨fun hb => ⟨hb, fun e' => he ?_⟩, fun hb => hb.1⟩
      exact h.one e d a (e' ▸ hb) ha
  have hra : root ≠ a := fun e => (h.live d a ha).2.2 e.symm
  refine ⟨⟨h.root, hra⟩, fun e b hb => ?_, fun e => ?_, fun e f b h1 h2 => ?_, fun b hb => ?_⟩
  · obtain ⟨hb, hne⟩ := (hm e b).mp hb
    obtain ⟨h1, h2, h3⟩ := h.live e b hb
    refine ⟨⟨h1, ?_⟩, ⟨h2, hne⟩, h3⟩
    rintro rfl
    rw [hl] at hb
    cases hb
  · by_cases he : e = d
    · subst he
      exact hnd.2
    · rw [ho e he]
      exact h.once e
  · exact h.one e f b ((hm e b).mp h1).1 ((hm f b).mp h2).1
  · -- the way to another node does not lead through `a`, which names none
    have hway : ∀ c, ReflTransGen (fun d a => a ∈ kids d) root c → c ≠ a → ReflTransGen (fun d a => a ∈ kids' d) root c := by
      intro c hc
      induction hc with
      | refl => exact fun _ => .refl
      | @tail c e _ hce ih =>
        intro hea
        have hca : c ≠ a := by
          rintro rfl
          rw [hl] at hce
          cases hce
        exact (ih hca).tail ((hm c e).mpr ⟨hce, hea⟩)
    exact hway b (h.reach b hb.1) hb.2

/-- Every node in use but the root is named, by one node. -/
theorem named (h : NameTree root used kids) (ha : a ∈ used) (hr : a ≠ root) : ∃ d ∈ used, a ∈ kids d := by
  rcases ReflTransGen.cases_tail (h.reach a ha) with e | ⟨d, _, hd⟩
  · exact absurd e hr
  · exact ⟨d, (h.live d a hd).1, hd⟩

end NameTree

end Lib

/-
  TyrantFS.Lib.Simulation — labelled runs, and simulations between two systems.

  A system is a relation between a state, a label and the state after; a run takes a list
  of labels. What every step keeps, every run keeps (`Steps.invariant`); where every step
  of one system is matched by a step of another with the same label, so is every run
  (`Steps.simulate`).
-/
import Mathlib.Init

namespace Lib

variable {σ τ ℓ : Type} {step : σ → ℓ → σ → Prop} {step' : τ → ℓ → τ → Prop} {s s' s'' : σ} {t : τ} {l : ℓ}
  {ls ls' : List ℓ}

inductive Steps (step : σ → ℓ → σ → Prop) : σ → List ℓ → σ → Prop
  | nil {s : σ} : Steps step s [] s
  | cons {s s' s'' : σ} {l : ℓ} {ls : List ℓ} : step s l s' → Steps step s' ls s'' → Steps step s (l :: ls) s''

theorem Steps.append (h : Steps step s ls s') (h' : Steps step s' ls' s'') : Steps step s (ls ++ ls') s'' := by
  induction h with
  | nil => exact h'
  | cons hs _ ih => exact .cons hs (ih h')

theorem Steps.invariant {I : σ → Prop} (hI : ∀ s l s', l ∈ ls → I s → step s l s' → I s') (h : Steps step s ls s')
    (hs : I s) : I s' := by
  induction h with
  | nil => exact hs
  | cons h1 _ ih => exact ih (fun s l s' hl => hI s l s' (List.mem_cons_of_mem _ hl)) (hI _ _ _ List.mem_cons_self hs h1)

theorem Steps.simulate {R : σ → τ → Prop} (hR : ∀ s l s' t, R s t → step s l s' → ∃ t', step' t l t' ∧ R s' t')
    (h : Steps step s ls s') (hs : R s t) : ∃ t', Steps step' t ls t' ∧ R s' t' := by
  induction h generalizing t with
  | nil => exact ⟨t, .nil, hs⟩
  | cons h1 _ ih =>
    obtain ⟨t1, ht, hr⟩ := hR _ _ _ _ hs h1
    obtain ⟨t', ht', hr'⟩ := ih hr
    exact ⟨t', .cons ht ht', hr'⟩

end Lib

/-
  TyrantFS.Lib.Returns — triples with a fixed result for stateful computations that
  may fail to return (`StateT σ Option`).

  `Returns P c a Q`: from every state that satisfies `P`, `c` returns, its result is
  `a`, and the state it ends in satisfies `Q`. One result for all the states of `P`:
  so a triple is a statement of total correctness, and, when `P` leaves part of the
  state open, also says that the result does not depend on that part.

  `Ensures P c Q`: total correctness where the result may depend on the state.

  `Preserves P c`: partial correctness, for what is kept wherever `c` does return.
-/

namespace Lib

variable {σ α β : Type} {P P' Q Q' R : σ → Prop}

def Returns (P : σ → Prop) (c : StateT σ Option α) (a : α) (Q : σ → Prop) : Prop :=
  ∀ s, P s → ∃ s', c s = some (a, s') ∧ Q s'

/-! ## Structural rules -/

theorem Returns.pure (a : α) : Returns P (Pure.pure a) a P := fun s h => ⟨s, rfl, h⟩

theorem Returns.bind {c : StateT σ Option α} {f : α → StateT σ Option β} {a : α} {b : β}
    (hc : Returns P c a Q) (hf : Returns Q (f a) b R) : Returns P (c >>= f) b R := by
  intro s hs
  obtain ⟨s1, e1, h1⟩ := hc s hs
  obtain ⟨s2, e2, h2⟩ := hf s1 h1
  exact ⟨s2, by simp only [Bind.bind, StateT.bind, e1, Option.bind]; exact e2, h2⟩

theorem Returns.mono {c : StateT σ Option α} {a : α} (h : Returns P c a Q) (hP : ∀ s, P' s → P s)
    (hQ : ∀ s, Q s → Q' s) : Returns P' c a Q' := by
  intro s hs
  obtain ⟨s', e, h'⟩ := h s (hP s hs)
  exact ⟨s', e, hQ s' h'⟩

theorem Returns.post {c : StateT σ Option α} {a : α} (h : Returns P c a Q) (hQ : ∀ s, Q s → Q' s) :
    Returns P c a Q' := h.mono (fun _ h => h) hQ

theorem Returns.pre {c : StateT σ Option α} {a : α} (h : Returns P c a Q) (hP : ∀ s, P' s → P s) :
    Returns P' c a Q := h.mono hP (fun _ h => h)

/-- A result that differs only in how it is written. -/
theorem Returns.result {c : StateT σ Option α} {a b : α} (h : Returns P c a Q) (e : a = b) : Returns P c b Q := e ▸ h

/-- A run is a triple from its first state. -/
theorem Returns.of_some {c : StateT σ Option α} {a : α} {s s' : σ} (h : c s = some (a, s')) (hq : Q s') :
    Returns (· = s) c a Q := by
  rintro t rfl
  exact ⟨s', h, hq⟩

/-- A sequence whose first part is known. -/
theorem bind_eq {c : StateT σ Option α} {f : α → StateT σ Option β} {a : α} {s s' : σ} (h : c s = some (a, s')) :
    (c >>= f) s = f a s' := by simp only [Bind.bind, StateT.bind, h, Option.bind]

/-- A sequence that returns: its first part does. -/
theorem bind_some {c : StateT σ Option α} {f : α → StateT σ Option β} {s : σ} {r : β × σ} :
    (c >>= f) s = some r ↔ ∃ a s1, c s = some (a, s1) ∧ f a s1 = some r := by
  simp only [Bind.bind, StateT.bind, Option.bind_eq_some_iff, Prod.exists]

/-- A sequence whose first part has a triple. -/
theorem Returns.then_some {c : StateT σ Option α} {f : α → StateT σ Option β} {a : α} {s : σ} {r : β × σ}
    (h : Returns P c a Q) (hs : P s) (hr : (c >>= f) s = some r) : ∃ s1, Q s1 ∧ f a s1 = some r := by
  obtain ⟨s1, e1, h1⟩ := h s hs
  obtain ⟨a', s1', e2, h2⟩ := bind_some.mp hr
  obtain ⟨rfl, rfl⟩ := Prod.mk.inj (Option.some.inj (e1.symm.trans e2))
  exact ⟨s1, h1, h2⟩

/-! ## State rules -/

theorem Returns.get_bind {f : σ → StateT σ Option β} {b : β} (h : ∀ s, P s → Returns (fun t => t = s) (f s) b R) :
    Returns P (MonadState.get >>= f) b R := fun s hs => h s hs s rfl

theorem Returns.modify {f : σ → σ} (h : ∀ s, P s → Q (f s)) :
    Returns P (modify f : StateT σ Option PUnit) () Q := fun s hs => ⟨f s, rfl, h s hs⟩

/-! ## Results that depend on the state -/

def Ensures (P : σ → Prop) (c : StateT σ Option α) (Q : α → σ → Prop) : Prop := ∀ s, P s → ∃ a s', c s = some (a, s') ∧ Q a s'

section
variable {c : StateT σ Option α} {f : α → StateT σ Option β} {a : α} {T T' : α → σ → Prop} {U : β → σ → Prop}

theorem Ensures.pure (h : ∀ s, P s → T a s) : Ensures P (Pure.pure a) T := fun s hs => ⟨a, s, rfl, h s hs⟩

theorem Ensures.bind (hc : Ensures P c T) (hf : ∀ a, Ensures (T a) (f a) U) : Ensures P (c >>= f) U := by
  intro s hs
  obtain ⟨a, s1, e1, h1⟩ := hc s hs
  obtain ⟨b, s2, e2, h2⟩ := hf a s1 h1
  exact ⟨b, s2, (bind_eq e1).trans e2, h2⟩

theorem Ensures.mono (h : Ensures P c T) (hP : ∀ s, P' s → P s) (hT : ∀ a s, T a s → T' a s) : Ensures P' c T' := by
  intro s hs
  obtain ⟨a, s', e, h'⟩ := h s (hP s hs)
  exact ⟨a, s', e, hT a s' h'⟩

theorem Ensures.post (h : Ensures P c T) (hT : ∀ a s, T a s → T' a s) : Ensures P c T' := h.mono (fun _ h => h) hT

theorem Ensures.pre (h : Ensures P c T) (hP : ∀ s, P' s → P s) : Ensures P' c T := h.mono hP fun _ _ h => h

theorem Ensures.and (h : Ensures P c T) (h' : Ensures P c T') : Ensures P c fun a s => T a s ∧ T' a s := by
  intro s hs
  obtain ⟨a, s', e, ha⟩ := h s hs
  obtain ⟨a', s'', e', ha'⟩ := h' s hs
  obtain ⟨rfl, rfl⟩ := Prod.mk.inj (Option.some.inj (e.symm.trans e'))
  exact ⟨a, s', e, ha, ha'⟩

/-- A sequence that returns, by what its first part ensures. -/
theorem Ensures.then_some {s : σ} {r : β × σ} (h : Ensures P c T) (hs : P s) (hr : (c >>= f) s = some r) :
    ∃ a s1, T a s1 ∧ f a s1 = some r := by
  obtain ⟨a, s1, e1, h1⟩ := h s hs
  obtain ⟨a', s1', e2, h2⟩ := bind_some.mp hr
  obtain ⟨rfl, rfl⟩ := Prod.mk.inj (Option.some.inj (e1.symm.trans e2))
  exact ⟨a, s1, h1, h2⟩

/-- A first part with a fixed result. -/
theorem Returns.next (hc : Returns P c a Q) (hf : Ensures Q (f a) U) : Ensures P (c >>= f) U := by
  intro s hs
  obtain ⟨s1, e1, h1⟩ := hc s hs
  obtain ⟨b, s2, e2, h2⟩ := hf s1 h1
  exact ⟨b, s2, (bind_eq e1).trans e2, h2⟩

theorem Returns.ensures (hc : Returns P c a Q) (h : ∀ s, Q s → T a s) : Ensures P c T := by
  intro s hs
  obtain ⟨s1, e1, h1⟩ := hc s hs
  exact ⟨a, s1, e1, h s1 h1⟩

/-- A result that is always the same. -/
theorem Returns.of_ensures (h : Ensures P c fun r s => r = a ∧ Q s) : Returns P c a Q := by
  intro s hs
  obtain ⟨r, s', e, rfl, hq⟩ := h s hs
  exact ⟨s', e, hq⟩

end

/-! ## What is kept -/

/-- Where `c` returns from a state of `P`, it ends in one. -/
def Preserves (P : σ → Prop) (c : StateT σ Option α) : Prop := ∀ s, P s → ∀ a s', c s = some (a, s') → P s'

section
variable {c d : StateT σ Option α} {f : α → StateT σ Option β} {a : α}

theorem Preserves.pure : Preserves P (Pure.pure a : StateT σ Option α) := by
  intro s hs b s' h
  obtain ⟨-, rfl⟩ := Prod.mk.inj (Option.some.inj h)
  exact hs

theorem Preserves.bind (hc : Preserves P c) (hf : ∀ a, Preserves P (f a)) : Preserves P (c >>= f) := by
  intro s hs b s' h
  obtain ⟨a, s1, h1, h2⟩ := bind_some.mp h
  exact hf a s1 (hc s hs a s1 h1) b s' h2

theorem Preserves.ite {p : Prop} [Decidable p] (hc : Preserves P c) (hd : Preserves P d) : Preserves P (if p then c else d) := by
  split
  · exact hc
  · exact hd

theorem Ensures.preserves (h : Ensures P c fun _ => P) : Preserves P c := by
  intro s hs a s' hr
  obtain ⟨b, s1, e, h1⟩ := h s hs
  obtain ⟨-, rfl⟩ := Prod.mk.inj (Option.some.inj (e.symm.trans hr))
  exact h1

end

end Lib

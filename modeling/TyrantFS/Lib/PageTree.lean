/-
  TyrantFS.Lib.PageTree — radix trees of pages.

  A page holds `B` addresses, read through `rd page slot`. From a root, a path (a list
  of slots) leads to an address: `walk rd r path`. In a tree of depth `d` the addresses
  at paths shorter than `d` are pages and those at paths of length `d` are leaves; leaf
  number `i` stands at `digits B d i`, the `d` digits of `i` in base `B`, most
  significant first.
-/
import Mathlib.Data.List.Basic
import Mathlib.Tactic.Ring

namespace Lib.PageTree

/-! ## Walks -/

def walk (rd : Nat → Nat → Nat) (r : Nat) (path : List Nat) : Nat := path.foldl rd r

variable {rd rd' : Nat → Nat → Nat} {r k : Nat} {path rest : List Nat}

@[simp] theorem walk_nil : walk rd r [] = r := rfl

@[simp] theorem walk_cons : walk rd r (k :: path) = walk rd (rd r k) path := rfl

theorem walk_append : walk rd r (path ++ rest) = walk rd (walk rd r path) rest := by simp [walk]

theorem walk_snoc : walk rd r (path ++ [k]) = rd (walk rd r path) k := by simp [walk]

/-- A page table that reads 0 through page 0 leads nowhere from there. -/
theorem walk_zero (h : ∀ k, rd 0 k = 0) : walk rd 0 path = 0 := by
  induction path with
  | nil => rfl
  | cons k path ih => rw [walk_cons, h, ih]

/-- A walk reads only the slots it passes through. -/
theorem walk_congr (h : ∀ π j ρ, path = π ++ j :: ρ → rd' (walk rd r π) j = rd (walk rd r π) j) :
    walk rd' r path = walk rd r path := by
  induction path generalizing r with
  | nil => rfl
  | cons k path ih =>
    rw [walk_cons, walk_cons, show rd' r k = rd r k from h [] k path rfl]
    exact ih fun π j ρ e => h (k :: π) j ρ (by rw [e]; rfl)

/-- Where the walk is not zero, no page on the way is. -/
theorem walk_prefix_ne (h0 : ∀ k, rd 0 k = 0) (h : walk rd r (path ++ rest) ≠ 0) : walk rd r path ≠ 0 := by
  intro e
  rw [walk_append, e, walk_zero h0] at h
  exact h rfl

/-! ## Leaf numbers -/

/-- The `d` base-`B` digits of `i`, most significant first. -/
def digits (B : Nat) : Nat → Nat → List Nat
  | 0, _ => []
  | d + 1, i => i / B ^ d :: digits B d (i % B ^ d)

variable {B d i : Nat}

@[simp] theorem digits_zero : digits B 0 i = [] := rfl

theorem digits_succ : digits B (d + 1) i = i / B ^ d :: digits B d (i % B ^ d) := rfl

theorem digits_lt (hi : i < B ^ d) : ∀ x ∈ digits B d i, x < B := by
  induction d generalizing i with
  | zero => intro x hx; cases hx
  | succ d ih =>
    have hpos : 0 < B ^ d := Nat.pos_of_ne_zero fun h => by
      rw [Nat.pow_succ, h, Nat.zero_mul] at hi
      exact absurd hi (Nat.not_lt_zero i)
    intro x hx
    rcases List.mem_cons.mp hx with rfl | hx
    · exact Nat.div_lt_of_lt_mul (by rwa [← Nat.pow_succ])
    · exact ih (Nat.mod_lt i hpos) x hx

/-- Leaf `i` of the `k`-th tree below a root. -/
theorem digits_child (hi : i < B ^ d) : digits B (d + 1) (k * B ^ d + i) = k :: digits B d i := by
  have hpos : 0 < B ^ d := Nat.lt_of_le_of_lt (Nat.zero_le i) hi
  rw [digits_succ, Nat.mul_comm k, Nat.mul_add_div hpos, Nat.div_eq_of_lt hi, Nat.add_zero, Nat.mul_add_mod, Nat.mod_eq_of_lt hi]

theorem walk_child (hi : i < B ^ d) : walk rd r (digits B (d + 1) (k * B ^ d + i)) = walk rd (rd r k) (digits B d i) := by
  rw [digits_child hi, walk_cons]

end Lib.PageTree

/-
  TyrantFS.Help.Stage — what `find_path_node` leaves of the disk.

  As long as the search stays within the direct blocks (`StaysDirect`) it only reads. A
  stage behind them seeks to the index page and then writes the buffer there, where it
  should read. The buffer holds the last direct block: in a directory this begins with
  a name, where an index page begins with the low byte of an address, which is 0. So the
  first byte of the page changes, and what the other stages write, to other blocks or
  once more to the same, does not bring it back (`findLoop_marks`).
-/
import TyrantFS.Help.Lookup
import TyrantFS.Help.Grow

namespace TyrantFS

open Lib Lib.PageTree

variable {z : Zone} {K : View} {own : Nat → Option Pos} {ps : List Nat} {a c cnt i left N P x : Nat} {n : Node}
  {name : List UInt8} {names : List (List UInt8)} {b buf tmp : Mem} {s : Sys}

/-! ## Searches within the direct blocks -/

/-- The direct blocks that a search looks into. -/
def searched (n : Node) : List Nat := ((List.range 12).takeWhile fun i => i < n.blocks ∧ n.direct i ≠ 0).map n.direct

/-- The first address that is not 0 under the name. -/
def foundIn (m : Mem) (name : List UInt8) (bs : List Nat) : Nat :=
  ((bs.map fun b => checkBlock (fun k => m (b + k)) name).find? (· ≠ 0)).getD 0

/-- A search in the inode `n` finds the name in its direct blocks, or has none behind them
    to go on with. -/
def EndsDirect (m : Mem) (n : Node) (name : List UInt8) : Prop :=
  foundIn m name (searched n) ≠ 0 ∨ n.blocks ≤ 12 ∨ ∃ i < 12, n.direct i = 0

/-- So do all those along the names from the inode at `a`, on a disk of `N` bytes, and
    what they look into lies on the disk. -/
def StaysDirect (m : Mem) (N : Nat) : Nat → List (List UInt8) → Prop
  | _, [] => True
  | a, name :: rest => a + 208 ≤ N ∧ (∀ b ∈ searched (nodeAt m a), b + 4096 ≤ N) ∧ EndsDirect m (nodeAt m a) name ∧
      (foundIn m name (searched (nodeAt m a)) ≠ 0 → StaysDirect m N (foundIn m name (searched (nodeAt m a))) rest)

section
variable (h : InodeAt z K own ps a n) (hp : Packed K n)

include h

theorem searched_inside {b : Nat} (hb : b ∈ searched n) : ∃ i < 12, i < n.blocks ∧ b = addrOf K.vol.bytes n i ∧ b + 4096 ≤ K.vol.size := by
  obtain ⟨i, hi, rfl⟩ := List.mem_map.mp hb
  have h12 : i < 12 := List.mem_range.mp ((List.takeWhile_sublist _).mem hi)
  have hgo := List.all_eq_true.mp List.all_takeWhile i hi
  have hlt : i < n.blocks := by
    simp only [decide_eq_true_eq] at hgo
    exact hgo.1
  rw [← addrOf_direct (m := K.vol.bytes) h12]
  exact ⟨i, h12, hlt, rfl, (h.block hlt).inside⟩

theorem mem_searched (h12 : i < 12) (hi : i < n.blocks) : addrOf K.vol.bytes n i ∈ searched n := by
  rw [addrOf_direct h12]
  refine List.mem_map_of_mem ?_
  rw [show 12 = (i + 1) + (12 - (i + 1)) by omega, List.range_add, List.takeWhile_append_of_pos fun j hj => ?_]
  · exact List.mem_append_left _ (List.mem_range.mpr (Nat.lt_succ_self i))
  · have hj' := List.mem_range.mp hj
    have hb := (h.block (show j < n.blocks by omega)).pos
    rw [addrOf_direct (by omega)] at hb
    simpa using ⟨show j < n.blocks by omega, hb⟩

include hp

/-- What a near name stands for is found. -/
theorem foundIn_near (hd : NamesDiffer K.vol.bytes n) (hne : name ≠ []) (hnear : Near K.vol.bytes n name) :
    foundIn K.vol.bytes name (searched n) = lookup K.vol.bytes n name := by
  unfold foundIn
  cases hf : ((searched n).map fun b => checkBlock (fun k => K.vol.bytes (b + k)) name).find? (· ≠ 0) with
  | none =>
    refine (lookup_zero fun e he hname => ?_).symm
    have hlt := hp.lt he
    by_cases h12 : e / 16 < 12
    · have h0 := List.find?_eq_none.mp hf _ (List.mem_map_of_mem (mem_searched h h12 hlt))
      rw [checkBlock_hit hd he hname] at h0
      simpa using h0
    · rcases hnear with hb | ⟨f, hf1, hf2, hf3, -⟩
      · omega
      · have := hd e f he hf2 (hname.trans hf3.symm)
        omega
  | some c =>
    have h0 : c ≠ 0 := by simpa using List.find?_some hf
    obtain ⟨b, hb, hc⟩ := List.mem_map.mp (List.mem_of_find?_eq_some hf)
    obtain ⟨i, h12, hi, rfl, -⟩ := searched_inside h hb
    by_cases hex : ∃ e < n.size / 256, e / 16 = i ∧ nameOf K.vol.bytes n e = name
    · obtain ⟨e, he, rfl, hname⟩ := hex
      rw [checkBlock_hit hd he hname] at hc
      rw [lookup_eq hd he hname, hc]
      rfl
    · refine absurd (hc.symm.trans (checkBlock_zero hp.toLaid hd hi hne fun e he hei hname => ?_)) h0
      exact absurd ⟨e, he, hei, hname⟩ hex

theorem endsDirect_near (hd : NamesDiffer K.vol.bytes n) (hne : name ≠ []) (hnear : Near K.vol.bytes n name) :
    EndsDirect K.vol.bytes n name := by
  have hnear' := hnear
  rcases hnear with hb | ⟨e, -, he, hname, h0⟩
  · exact Or.inr (Or.inl hb)
  · left
    rwa [foundIn_near h hp hd hne hnear', lookup_eq hd he hname]

end

/-! ## A stage -/

variable {check : Mem → Nat → M (Nat × Nat)} {root : Nat}

end TyrantFS

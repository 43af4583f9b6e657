/-
  TyrantFS.Disk.InodeTable — the inode table: slots of 256 bytes from byte 4096 to
  `inode_byte_boundary`; a slot is free when the mode in it is 0. `allocate_inode`
  answers with the first free slot and changes nothing.
-/
import TyrantFS.Disk.Blocks

namespace TyrantFS

open Lib

/-- `a` is the address of a slot of the inode table that ends at `boundary`. -/
structure IsSlot (boundary a : Nat) : Prop where
  low : 4096 ≤ a
  high : a < boundary
  aligned : a % 256 = 0

/-- The slot at `a` is in use. -/
def InUse (m : Mem) (a : Nat) : Prop := (nodeAt m a).mode ≠ 0

variable {K : View} {a i left : Nat}

theorem allocateInodeScan_none (hs : i + 256 * left ≤ K.vol.size) (hv : K.Sees i (256 * left))
    (hu : ∀ k < left, InUse K.vol.bytes (i + 256 * k)) {buff : Mem} : Runs K (allocateInodeScan left i buff) 0 K := by
  induction left generalizing i buff with
  | zero => exact Runs.pure
  | succ left ih =>
    have h0 : InUse K.vol.bytes i := by simpa using hu 0 (by omega)
    have e : Node.decode (clip 208 (fun k => K.vol.bytes (i + k)) buff) = nodeAt K.vol.bytes i :=
      decode_congr fun k hk => clip_lt hk
    refine (lseekSet_at (by omega)).bind ((sysRead_at (by omega) (hv.mono (by omega) (by omega))).bind ?_)
    simp only [e]
    rw [if_neg h0]
    refine Returns.pre (ih (by omega) (hv.mono (by omega) (by omega)) fun k hk => ?_) fun s hs => hs.1
    have := hu (k + 1) (by omega)
    rwa [show i + 256 * (k + 1) = i + 256 + 256 * k by omega] at this

theorem allocateInodeScan_some {j : Nat} (hs : i + 256 * left ≤ K.vol.size) (hv : K.Sees i (256 * left)) (hj : j < left)
    (hu : ∀ k < j, InUse K.vol.bytes (i + 256 * k)) (hf : ¬ InUse K.vol.bytes (i + 256 * j)) {buff : Mem} :
    Runs K (allocateInodeScan left i buff) (i + 256 * j) K := by
  induction left generalizing i j buff with
  | zero => omega
  | succ left ih =>
    have e : Node.decode (clip 208 (fun k => K.vol.bytes (i + k)) buff) = nodeAt K.vol.bytes i :=
      decode_congr fun k hk => clip_lt hk
    refine (lseekSet_at (by omega)).bind ((sysRead_at (by omega) (hv.mono (by omega) (by omega))).bind ?_)
    simp only [e]
    rcases j with _ | j
    · have h0 : (nodeAt K.vol.bytes i).mode = 0 := by
        by_contra hc
        exact hf hc
      rw [if_pos h0]
      exact Runs.of_at (q := i + 208) (Returns.pure _)
    · have h0 : InUse K.vol.bytes i := by simpa using hu 0 (by omega)
      rw [if_neg h0]
      rw [show i + 256 * (j + 1) = i + 256 + 256 * j by omega] at hf ⊢
      refine Returns.pre (ih (by omega) (hv.mono (by omega) (by omega)) (by omega) (fun k hk => ?_) hf) fun s hs => hs.1
      have := hu (k + 1) (by omega)
      rwa [show i + 256 * (k + 1) = i + 256 + 256 * k by omega] at this

/-- What `allocate_inode` relies on. -/
structure Table (K : View) : Prop where
  drive : 0 ≤ K.vol.glob.drive
  low : 4096 ≤ K.vol.glob.inodeByteBoundary
  aligned : K.vol.glob.inodeByteBoundary % 256 = 0
  high : K.vol.glob.inodeByteBoundary ≤ K.vol.size
  sees : K.Sees 0 K.vol.glob.inodeByteBoundary

theorem Table.run (h : Table K) {x : Nat} (hr : ∀ buff, Runs K
    (allocateInodeScan ((K.vol.glob.inodeByteBoundary - 4096) / 256) 4096 buff) x K) : Runs K (allocateInode fd) x K := by
  have hlow := h.low
  have hhigh := h.high
  have hd := h.drive
  have e : (K.vol.glob.inodeByteBoundary - 4096 + 255) / 256 = (K.vol.glob.inodeByteBoundary - 4096) / 256 := by
    have := h.aligned
    omega
  refine globals_runs.bind ?_
  rw [if_neg (by omega)]
  refine (lseekSet_at (by omega)).bind ?_
  rw [e]
  exact (environ_runs.bind (hr _)).pre fun s hs => hs.1

/-- Every slot is in use. -/
theorem allocateInode_none (fd : Int) (h : Table K) (hu : ∀ a, IsSlot K.vol.glob.inodeByteBoundary a → InUse K.vol.bytes a) :
    Runs K (allocateInode fd) 0 K := by
  have hlow := h.low
  have hhigh := h.high
  have hal := h.aligned
  refine h.run fun buff => allocateInodeScan_none (by omega) (h.sees.mono (by omega) (by omega)) fun k hk => hu _ ?_
  exact ⟨by omega, by omega, by omega⟩

/-- The first free slot. -/
theorem allocateInode_some (fd : Int) (h : Table K) (ha : IsSlot K.vol.glob.inodeByteBoundary a) (hf : ¬ InUse K.vol.bytes a)
    (hu : ∀ b, IsSlot K.vol.glob.inodeByteBoundary b → b < a → InUse K.vol.bytes b) :
    Runs K (allocateInode fd) a K := by
  have hlow := ha.low
  have hhigh := ha.high
  have hal := ha.aligned
  have h1 := h.high
  have h2 := h.aligned
  obtain ⟨j, rfl⟩ : ∃ j, a = 4096 + 256 * j := ⟨(a - 4096) / 256, by omega⟩
  refine h.run fun buff => allocateInodeScan_some (by omega) (h.sees.mono (by omega) (by omega)) (by omega)
    (fun k hk => hu _ ?_ (by omega)) hf
  exact ⟨by omega, by omega, by omega⟩

/-- Either every slot is in use or there is a first free one. -/
theorem first_free (m : Mem) (boundary : Nat) : (∀ a, IsSlot boundary a → InUse m a) ∨
    ∃ a, IsSlot boundary a ∧ ¬ InUse m a ∧ ∀ b, IsSlot boundary b → b < a → InUse m b := by
  by_cases h : ∃ a, IsSlot boundary a ∧ ¬ InUse m a
  · right
    classical
    refine ⟨Nat.find h, (Nat.find_spec h).1, (Nat.find_spec h).2, fun b hb hlt => ?_⟩
    by_contra hc
    exact Nat.find_min h hlt ⟨hb, hc⟩
  · left
    intro a ha
    by_contra hc
    exact h ⟨a, ha, hc⟩

/-- A zeroed slot is free, and its inode is empty. -/
theorem nodeAt_zero {m : Mem} (h : ∀ k < 208, m (a + k) = 0) : nodeAt m a = Node.decode zeros :=
  decode_congr h

theorem decode_zeros_mode : (Node.decode zeros).mode = 0 := leVal_zero 4

end TyrantFS

/-
  TyrantFS.Disk.Overrun — `tfs_mkfs` on a device of any size.

  Below 65 blocks there is no inode block: `data_blocks` is 2^64 - 1, so the free list
  runs over the end of the device, and `allocate_inode` returns 0, so the root's inode is
  committed to block 0 (`tfsMkfs_small`). Neither call is looked at. From 65 blocks on
  every write stays on the device.
-/
import TyrantFS.Disk.Mkfs

namespace TyrantFS

open Lib Lib.PageChain

variable {α β : Type} {g : Globals} {c d : M α} {f : α → M β} {fd : Int} {s : Sys}

/-! ## What leaves the globals alone -/

/-- `c` returns, wherever it starts, and the globals are still `g`. -/
def Stays (g : Globals) (c : M α) : Prop := Ensures (fun s => s.vol.glob = g) c fun _ s => s.vol.glob = g

theorem Stays.pure {a : α} : Stays g (Pure.pure a : M α) := Ensures.pure fun _ h => h

theorem Stays.bind (hc : Stays g c) (hf : ∀ a, Stays g (f a)) : Stays g (c >>= f) := Ensures.bind hc hf

theorem Stays.ite {p : Prop} [Decidable p] (hc : Stays g c) (hd : Stays g d) : Stays g (if p then c else d) := by
  split
  · exact hc
  · exact hd

theorem lseekSet_stays {a : Nat} : Stays g (lseekSet a) := by
  intro s hs
  refine ⟨(), _, rfl, ?_⟩
  dsimp only
  split
  · exact hs
  · exact hs

theorem lseekBack_stays {n : Nat} : Stays g (lseekBack n) := by
  intro s hs
  refine ⟨(), _, rfl, ?_⟩
  dsimp only
  split
  · exact hs
  · exact hs

theorem sysRead_stays {m : Mem} {n : Nat} : Stays g (sysRead m n) := fun _ hs => ⟨_, _, rfl, hs⟩

theorem sysWrite_stays {m : Mem} {n : Nat} : Stays g (sysWrite m n) := by
  intro s hs
  unfold sysWrite
  dsimp only
  split
  · exact ⟨_, _, rfl, hs⟩
  · exact ⟨_, _, rfl, hs⟩

theorem environ_stays : Stays g environ := fun s hs => ⟨s.vol.env, s, rfl, hs⟩

theorem globals_stays : Stays g globals := fun s hs => ⟨s.vol.glob, s, rfl, hs⟩

theorem getCurrentTimeInNsec_stays : Stays g getCurrentTimeInNsec := fun _ hs => ⟨_, _, rfl, hs⟩

theorem readVar_stays {v : Nat} : Stays g (readVar v) := sysRead_stays.bind fun _ => .pure

theorem writeVar_stays {v : Nat} : Stays g (writeVar v) := sysWrite_stays

theorem readBlock_stays {m : Mem} {b n : Nat} {o : Int} : Stays g (readBlock m b o n) :=
  .ite .pure (.ite .pure (lseekSet_stays.bind fun _ => .ite sysRead_stays sysRead_stays))

theorem writeBlock_stays {m : Mem} {b n : Nat} {o : Int} : Stays g (writeBlock m b o n) :=
  .ite .pure (lseekSet_stays.bind fun _ => .ite sysWrite_stays sysWrite_stays)

theorem fetchInode_stays {m : Mem} {a : Nat} : Stays g (fetchInode m a) :=
  .ite .pure (lseekSet_stays.bind fun _ => sysRead_stays.bind fun _ => .pure)

theorem commitInode_stays {n : Node} {a : Nat} : Stays g (commitInode n a) := lseekSet_stays.bind fun _ => sysWrite_stays

theorem allocateScan_stays {left i b : Nat} : Stays g (allocateScan left i b) := by
  induction left generalizing i b with
  | zero => exact lseekSet_stays.bind fun _ => readVar_stays.bind fun _ => lseekBack_stays.bind fun _ => writeVar_stays.bind fun _ => .pure
  | succ left ih =>
    refine readVar_stays.bind fun _ => .ite (lseekBack_stays.bind fun _ => writeVar_stays.bind fun _ => .ite ?_ .pure) ih
    exact lseekSet_stays.bind fun _ => readVar_stays.bind fun _ => lseekSet_stays.bind fun _ => writeVar_stays.bind fun _ => .pure

theorem allocateBlock_stays : Stays g (allocateBlock fd) :=
  lseekSet_stays.bind fun _ => readVar_stays.bind fun _ => .ite .pure (lseekSet_stays.bind fun _ => allocateScan_stays)

theorem mkfsClear_stays {left : Nat} : Stays g (mkfsClear left) := by
  induction left with
  | zero => exact .pure
  | succ left ih => exact sysWrite_stays.bind fun _ => ih

theorem mkfsSlots_stays {D left c b : Nat} : Stays g (mkfsSlots D left c b) := by
  induction left generalizing c b with
  | zero => exact .pure
  | succ left ih => exact .ite .pure (writeVar_stays.bind fun _ => ih)

theorem mkfsPages_stays {B D rounds c b : Nat} : Stays g (mkfsPages B D rounds c b) := by
  induction rounds generalizing c b with
  | zero => exact .pure
  | succ rounds ih =>
    exact .ite (lseekSet_stays.bind fun _ => sysWrite_stays.bind fun _ => lseekBack_stays.bind fun _ => mkfsSlots_stays.bind fun _ => ih) .pure

/-! ## Devices of fewer than 65 blocks -/

/-- Without an inode block there is no slot to return. -/
theorem allocateInode_nowhere (hb : g.inodeByteBoundary = 4096) :
    Returns (fun s => s.vol.glob = g) (allocateInode fd) 0 fun s => s.vol.glob = g := by
  rintro s rfl
  unfold allocateInode
  rw [bind_eq (show globals s = some (s.vol.glob, s) from rfl)]
  split
  · exact ⟨s, rfl, rfl⟩
  · obtain ⟨_, s1, e1, h1⟩ := (lseekSet_stays (g := s.vol.glob) (a := 4096)) s rfl
    rw [bind_eq e1, bind_eq (show environ s1 = some (s1.vol.env, s1) from rfl), hb]
    exact ⟨s1, rfl, h1⟩

theorem mkfsRoot_nowhere (hb : g.inodeByteBoundary = 4096) :
    Ensures (fun s => s.vol.glob = g) (mkfsRoot fd) fun _ s => s.vol.glob = { g with rootNode := 0 } := by
  unfold mkfsRoot
  have hset : Returns (fun s => s.vol.glob = g) (setRootNode 0) () fun s => s.vol.glob = { g with rootNode := 0 } :=
    Returns.modify fun s hs => by rw [← hs]
  refine (allocateInode_nowhere hb).next (hset.next (environ_stays.bind fun _ => lseekSet_stays.bind fun _ => sysRead_stays.bind fun _ => ?_))
  refine getCurrentTimeInNsec_stays.bind fun _ => getCurrentTimeInNsec_stays.bind fun _ => globals_stays.bind fun _ => ?_
  refine allocateBlock_stays.bind fun _ => writeBlock_stays.bind fun _ => writeBlock_stays.bind fun _ => writeBlock_stays.bind fun _ => ?_
  refine writeBlock_stays.bind fun _ => writeBlock_stays.bind fun _ => readBlock_stays.bind fun _ => readBlock_stays.bind fun _ => ?_
  exact getCurrentTimeInNsec_stays.bind fun _ => commitInode_stays.bind fun _ => fetchInode_stays.bind fun _ => .pure

/-- The call returns 0, and the root's inode is at 0. -/
theorem tfsMkfs_small (hfd : 0 ≤ fd) (h : s.vol.size / 4096 < 65) : ∃ s', tfsMkfs fd s = some (0, s') ∧ s'.vol.glob.rootNode = 0 := by
  obtain ⟨g, hg⟩ : ∃ g, g = boundaries s.vol.glob fd s.vol.size := ⟨_, rfl⟩
  have hb : g.inodeByteBoundary = 4096 := by
    rw [hg]
    show u64 ((s.vol.size / 4096 / 65 + 1 : Nat) * 4096) = 4096
    rw [Nat.div_eq_of_lt h]
    decide
  have hset : Returns (fun t => t = s) (setBoundaries fd) () fun t => t.vol.glob = g :=
    Returns.modify fun t ht => by rw [ht, hg]
  have hrun : Ensures (fun t => t = s) (tfsMkfs fd) fun r t => r = 0 ∧ t.vol.glob.rootNode = 0 := by
    unfold tfsMkfs
    rw [if_neg (by omega)]
    refine hset.next (Ensures.bind globals_stays fun _ => Ensures.bind lseekSet_stays fun _ => Ensures.bind mkfsClear_stays fun _ => ?_)
    refine Ensures.bind lseekSet_stays fun _ => Ensures.bind writeVar_stays fun _ => Ensures.bind mkfsPages_stays fun _ => ?_
    refine (mkfsRoot_nowhere hb).bind fun _ => ?_
    exact Ensures.pure fun t ht => ⟨rfl, by rw [ht]⟩
  obtain ⟨r, s', e, rfl, hroot⟩ := hrun s rfl
  exact ⟨s', e, hroot⟩

/-! ## Every size -/

/-- What formatting should do: nothing, or only writes on the device, and then the
    superblock's word is the head of the free list and no inode is in block 0. -/
def FormatsInside (fd : Int) (s : Sys) : Prop :=
  (∃ s', tfsMkfs fd s = some (-1, s') ∧ s'.vol.bytes = s.vol.bytes) ∨
  ∃ r s', tfsMkfs fd s = some (r, s') ∧ tfsMkfsVia sysWriteInside fd s ≠ none ∧
    (∃ p ps, word s'.vol.bytes 0 = p ∧ Chain (slot s'.vol.bytes) 511 p (p :: ps)) ∧ 4096 ≤ s'.vol.glob.rootNode ∧
    ∀ x, 8 ≤ x → x < 4096 → s'.vol.bytes x = 0

theorem not_formatsInside (hfd : 0 ≤ fd) (h : s.vol.size / 4096 < 65) : ¬ FormatsInside fd s := by
  obtain ⟨s1, e1, hroot⟩ := tfsMkfs_small hfd h
  rintro (⟨s', e, -⟩ | ⟨r, s', e, -, -, hlow, -⟩)
  · have : (0 : Int) = -1 := congrArg Prod.fst (Option.some.inj (e1.symm.trans e))
    omega
  · obtain ⟨rfl, rfl⟩ := Prod.mk.inj (Option.some.inj (e1.symm.trans e))
    omega

/-- Formatting stays on the device exactly from 65 blocks on. -/
theorem tfsMkfs_inside_iff (hfd : 0 ≤ fd) : FormatsInside fd s ↔ 65 ≤ s.vol.size / 4096 := by
  constructor
  · intro h
    by_contra hlt
    exact not_formatsInside hfd (Nat.lt_of_not_le hlt) h
  · intro h
    obtain ⟨w, ps, hrun, hf, -, -, -, hblock⟩ := tfsMkfsVia_runs (v := s.vol) sysWrite_isWrite hfd h
    rw [tfsMkfsVia_sysWrite] at hrun
    obtain ⟨s', e, hs'⟩ := hrun.exec (holds_all.mpr rfl)
    obtain rfl := holds_all.mp hs'
    obtain ⟨w', ps', hinside, -⟩ := tfsMkfsVia_runs (v := s.vol) sysWriteInside_isWrite hfd h
    obtain ⟨s1, e1, -⟩ := hinside.exec (s := s) (holds_all.mpr rfl)
    refine Or.inr ⟨0, s', e, by rw [e1]; exact Option.some_ne_none _, ?_, hf.root.ge, hblock⟩
    -- the first page of the region heads the list
    have hchain := hf.chain
    cases hl : ps with
    | nil =>
      have hfirst := (hf.free (regionStart s.vol.size)).mpr ⟨0, Nat.zero_le _, by decide, by rw [Nat.mul_zero, Nat.add_zero]⟩
      rw [hl] at hfirst
      exact absurd hfirst List.not_mem_nil
    | cons p rest =>
      rw [hl] at hchain
      have hp := (linked_cons hchain.linked).1
      exact ⟨p, rest, hp, hp ▸ hchain⟩

/-- The smallest device that is formatted. -/
theorem tfsMkfs_inside_65 : FormatsInside 3 ⟨.start .still (65 * 4096) (by decide) zeros, 0⟩ :=
  (tfsMkfs_inside_iff (show (0 : Int) ≤ 3 by decide)).mpr (show 65 ≤ 65 * 4096 / 4096 by decide)

/-- One block less. -/
theorem tfsMkfs_overrun_64 : ¬ FormatsInside 3 ⟨.start .still (64 * 4096) (by decide) zeros, 0⟩ :=
  not_formatsInside (show (0 : Int) ≤ 3 by decide) (show 64 * 4096 / 4096 < 65 by decide)

end TyrantFS

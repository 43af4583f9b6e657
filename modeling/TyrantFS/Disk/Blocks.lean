/-
  TyrantFS.Disk.Blocks — what the accesses to blocks and inodes do when they stay
  inside the device.
-/
import TyrantFS.Disk.Disk

namespace TyrantFS

open Lib

variable {K : View} {b o n a : Nat} {offset : Int} {f g : Mem}

/-! ## Blocks -/

theorem readBlock_runs (he : offset = o) (hb : b ≠ 0) (ho : o ≤ 4096) (hs : b + o + min n (4096 - o) ≤ K.vol.size)
    (hv : K.Sees (b + o) (min n (4096 - o))) :
    Runs K (readBlock g b offset n)
      (min n (4096 - o), clip (min n (4096 - o)) (fun k => K.vol.bytes (b + o + k)) g) K := by
  subst he
  have hlt := K.vol.size_lt
  have h1 : ¬ ((o : Int) > 4096 ∨ (o : Int) < 0) := by omega
  have h2 : u64 ((b : Int) + o) = b + o := by unfold u64; omega
  have h3 : u64 ((4096 : Int) - o) = 4096 - o := by unfold u64; omega
  have hread := sysRead_at (g := g) hs hv
  simp only [readBlock, if_neg hb, if_neg h1, h2, h3]
  refine Runs.of_at (q := b + o + min n (4096 - o)) ((lseekSet_at (by omega)).bind ?_)
  by_cases h : 4096 - o < n
  · rw [if_pos h]
    rwa [Nat.min_eq_right (by omega)] at hread ⊢
  · rw [if_neg h]
    rwa [Nat.min_eq_left (by omega)] at hread ⊢

theorem writeBlock_runs (he : offset = o) (ho : o ≤ 4096) (hs : b + o + min n (4096 - o) ≤ K.vol.size) :
    Runs K (writeBlock f b offset n) (min n (4096 - o) : Nat) (K.store (b + o) (min n (4096 - o)) f) := by
  subst he
  have hlt := K.vol.size_lt
  have h1 : ¬ ((o : Int) > 4096 ∨ (o : Int) < 0) := by omega
  have h2 : u64 ((b : Int) + o) = b + o := by unfold u64; omega
  have h3 : u64 ((4096 : Int) - o) = 4096 - o := by unfold u64; omega
  have hwrite := sysWrite_at (f := f) hs
  simp only [writeBlock, if_neg h1, h2, h3]
  refine Runs.of_at (q := b + o + min n (4096 - o)) ((lseekSet_at (by omega)).bind ?_)
  by_cases h : 4096 - o < n
  · rw [if_pos h]
    rwa [Nat.min_eq_right (by omega)] at hwrite ⊢
  · rw [if_neg h]
    rwa [Nat.min_eq_left (by omega)] at hwrite ⊢

/-- A read that fits into the block. -/
theorem readBlock_fits (he : offset = o) (hb : b ≠ 0) (ho : o + n ≤ 4096) (hs : b + o + n ≤ K.vol.size)
    (hv : K.Sees (b + o) n) :
    Runs K (readBlock g b offset n) (n, clip n (fun k => K.vol.bytes (b + o + k)) g) K := by
  have hn : min n (4096 - o) = n := Nat.min_eq_left (by omega)
  have h := readBlock_runs (n := n) (g := g) he hb (by omega) (by rwa [hn]) (by rwa [hn])
  rwa [hn] at h

theorem writeBlock_fits (he : offset = o) (ho : o + n ≤ 4096) (hs : b + o + n ≤ K.vol.size) :
    Runs K (writeBlock f b offset n) n (K.store (b + o) n f) := by
  have hn : min n (4096 - o) = n := Nat.min_eq_left (by omega)
  have h := writeBlock_runs (f := f) he (by omega) (by rwa [hn])
  rwa [hn] at h

theorem readAddr_runs {v : Nat} (he : offset = o) (hb : b ≠ 0) (ho : o + 8 ≤ 4096) (hs : b + o + 8 ≤ K.vol.size)
    (hv : K.Sees (b + o) 8) : Runs K (readAddr v b offset) (word K.vol.bytes (b + o)) K := by
  refine (readBlock_fits he hb ho hs hv).bind ?_
  rw [leVal_clip (Nat.le_refl 8), word_eq]
  exact Runs.pure

theorem writeAddr_runs {v : Nat} (he : offset = o) (ho : o + 8 ≤ 4096) (hs : b + o + 8 ≤ K.vol.size) :
    Runs K (writeAddr v b offset) 8 (K.storeWord (b + o) v) := writeBlock_fits he ho hs

/-! ## Inodes -/

theorem fetchInode_runs (ha : a ≠ 0) (hs : a + 208 ≤ K.vol.size) (hv : K.Sees a 208) :
    Runs K (fetchInode f a) (nodeAt K.vol.bytes a) K := by
  unfold fetchInode
  rw [if_neg ha]
  have e : Node.decode (clip 208 (fun k => K.vol.bytes (a + k)) f) = nodeAt K.vol.bytes a :=
    decode_congr fun k hk => clip_lt hk
  refine Runs.of_at (q := a + 208) ((lseekSet_at (by omega)).bind ((sysRead_at hs hv).bind ?_))
  rw [e]
  exact Returns.pure _

theorem fetchNode_runs (ha : a ≠ 0) (hs : a + 208 ≤ K.vol.size) (hv : K.Sees a 208) :
    Runs K (fetchNode a) (nodeAt K.vol.bytes a) K := environ_runs.bind (fetchInode_runs ha hs hv)

theorem commitInode_runs {n : Node} (hs : a + 208 ≤ K.vol.size) :
    Runs K (commitInode n a) 208 (K.store a 208 n.encode) :=
  Runs.of_at (q := a + 208) ((lseekSet_at (by omega)).bind (sysWrite_at hs))

theorem freeInode_runs (ha : a ≠ 0) (hs : a + 256 ≤ K.vol.size) :
    Runs K (freeInode a) 0 (K.store a 256 zeros) := by
  unfold freeInode
  rw [if_neg ha]
  refine (lseekSet_at (by omega)).bind ((sysWrite_at hs).bind ?_)
  refine Returns.pre ?_ fun s hs => hs.1
  refine (fetchNode_runs ha (by rw [store_size]; omega) ?_).bind Runs.pure
  intro k hk
  exact Or.inr ⟨by omega, by omega⟩

/-! ## Reading, whatever the address -/

theorem readBlock_reads : Reads (readBlock g b offset n) :=
  .ite .pure (.ite .pure (.bind lseekSet_reads fun _ => .ite sysRead_reads sysRead_reads))

theorem readAddr_reads {v : Nat} : Reads (readAddr v b offset) := .bind readBlock_reads fun _ => .pure

theorem fetchInode_reads : Reads (fetchInode f a) :=
  .ite .pure (.bind lseekSet_reads fun _ => .bind sysRead_reads fun _ => .pure)

theorem fetchNode_reads : Reads (fetchNode a) := .bind environ_reads fun _ => fetchInode_reads

end TyrantFS

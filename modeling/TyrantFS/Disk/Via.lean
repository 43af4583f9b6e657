/-
  TyrantFS.Disk.Via — `tfs_mkfs` and what it calls, over the `write` they are given.

  `fVia sysWrite` is `f` (`tfsMkfsVia_sysWrite`). With a `write` that stops the process
  when its range does not lie on the device (`sysWriteInside`), a call that returns has
  asked for writes inside the device only. The rules hold for every `write` that does
  inside the device what `write` does there (`IsWrite`).
-/
import TyrantFS.Disk.Allocator

namespace TyrantFS

open Lib

section
variable (write : Mem → Nat → M Int)

def writeVarVia (x : Nat) : M Int := write (leByte x) 8

def writeBlockVia (buff : Mem) (block : Nat) (offset : Int) (bytes : Nat) : M Int :=
  if offset > 4096 ∨ offset < 0 then pure 0
  else do
    let start := u64 (block + offset)
    lseekSet start
    let bytesAvail := u64 (4096 - offset)
    if bytesAvail < bytes then write buff bytesAvail else write buff bytes

def writeAddrVia (x block : Nat) (offset : Int) : M Int := writeBlockVia write (leByte x) block offset 8

def commitInodeVia (myNode : Node) (nodeLoc : Nat) : M Int := do
  lseekSet nodeLoc
  write myNode.encode 208

def allocateScanVia : (left i freeBlock : Nat) → M Nat
  | 0, _, freeBlock => do
    lseekSet 0
    let freeBlock ← readVar freeBlock
    lseekBack 8
    let _ ← writeVarVia write 0
    pure freeBlock
  | left + 1, i, freeBlock => do
    let freeBlock ← readVar freeBlock
    if freeBlock ≠ 0 then do
      lseekBack 8
      let _ ← writeVarVia write 0
      if i = 4096 - 8 then do
        let nextBlock := freeBlock
        lseekSet 0
        let freeBlock ← readVar freeBlock
        lseekSet 0
        let _ ← writeVarVia write nextBlock
        pure freeBlock
      else pure freeBlock
    else allocateScanVia left (i + 8) freeBlock

def allocateBlockVia (_fd : Int) : M Nat := do
  lseekSet 0
  let nextBlock ← readVar 0
  if nextBlock = 0 then pure 0
  else do
    lseekSet nextBlock
    allocateScanVia write 512 0 0

def mkfsClearVia : (left : Nat) → M Unit
  | 0 => pure ()
  | left + 1 => do
    let _ ← write zeros 4096
    mkfsClearVia left

def mkfsSlotsVia (dataBlocks : Nat) : (left addrCounter blockPtr : Nat) → M (Nat × Nat)
  | 0, addrCounter, blockPtr => pure (addrCounter, blockPtr)
  | left + 1, addrCounter, blockPtr =>
    if addrCounter ≥ dataBlocks then pure (addrCounter, blockPtr)
    else do
      let _ ← writeVarVia write blockPtr
      mkfsSlotsVia dataBlocks left (addrCounter + 1) (u64 (blockPtr + 4096))

def mkfsPagesVia (boundary dataBlocks : Nat) : (rounds addrCounter freeBlockptr : Nat) → M Unit
  | 0, _, _ => pure ()
  | rounds + 1, addrCounter, freeBlockptr =>
    if addrCounter < dataBlocks then do
      lseekSet freeBlockptr
      let _ ← write zeros 4096
      lseekBack 4096
      let blockPtr := u64 (boundary + addrCounter * 4096 + 4096)
      let r ← mkfsSlotsVia write dataBlocks 512 addrCounter blockPtr
      mkfsPagesVia boundary dataBlocks rounds r.1 (u64 (r.2 - 4096))
    else pure ()

def mkfsRootVia (fd : Int) : M Unit := do
  let rootNode ← allocateInode fd
  setRootNode rootNode
  let e ← environ
  lseekSet rootNode
  let r ← sysRead e.junk 208
  let tempNode := Node.decode r.2
  let accessTime ← getCurrentTimeInNsec
  let creationTime ← getCurrentTimeInNsec
  let g ← globals
  let block ← allocateBlockVia write g.drive
  let _ ← writeBlockVia write zeros block 0 4096
  let _ ← writeBlockVia write (strBuf dotName zeros) block 0 2
  let _ ← writeAddrVia write rootNode block (256 - 8)
  let _ ← writeBlockVia write (strBuf dotDotName zeros) block 256 3
  let _ ← writeAddrVia write rootNode block (256 * 2 - 8)
  let r ← readBlock zeros block (256 - 8) 8
  let _ ← readBlock r.2 block (256 + 256 - 8) 8
  let dataTime ← getCurrentTimeInNsec
  let tempNode := { tempNode.setDirect 0 block with
    mode := rootMode, accessTime := accessTime, creationTime := creationTime, dataTime := dataTime
    size := 256 * 2, blocks := 1, links := 1 }
  let _ ← commitInodeVia write tempNode rootNode
  let _ ← fetchInode tempNode.encode rootNode
  pure ()

def tfsMkfsVia (fd : Int) : M Int :=
  if fd < 0 then pure (-1)
  else do
    setBoundaries fd
    let g ← globals
    lseekSet 0
    mkfsClearVia write (g.inodeBlocks + 1)
    lseekSet 0
    let _ ← writeVarVia write g.inodeByteBoundary
    mkfsPagesVia write g.inodeByteBoundary g.dataBlocks g.dataBlocks 0 g.inodeByteBoundary
    mkfsRootVia write fd
    pure 0

end

/-! ## With the kernel's `write` -/

theorem allocateScanVia_sysWrite {left i freeBlock : Nat} : allocateScanVia sysWrite left i freeBlock = allocateScan left i freeBlock := by
  induction left generalizing i freeBlock with
  | zero => rfl
  | succ left ih =>
    unfold allocateScanVia allocateScan
    simp only [ih]
    rfl

theorem mkfsClearVia_sysWrite {left : Nat} : mkfsClearVia sysWrite left = mkfsClear left := by
  induction left with
  | zero => rfl
  | succ left ih => rw [mkfsClearVia, mkfsClear, ih]

theorem mkfsSlotsVia_sysWrite {D left c b : Nat} : mkfsSlotsVia sysWrite D left c b = mkfsSlots D left c b := by
  induction left generalizing c b with
  | zero => rfl
  | succ left ih =>
    unfold mkfsSlotsVia mkfsSlots
    simp only [ih]
    rfl

theorem mkfsPagesVia_sysWrite {B D rounds c b : Nat} : mkfsPagesVia sysWrite B D rounds c b = mkfsPages B D rounds c b := by
  induction rounds generalizing c b with
  | zero => rfl
  | succ rounds ih =>
    unfold mkfsPagesVia mkfsPages
    simp only [ih, mkfsSlotsVia_sysWrite]

theorem mkfsRootVia_sysWrite {fd : Int} : mkfsRootVia sysWrite fd = mkfsRoot fd := by
  unfold mkfsRootVia mkfsRoot allocateBlockVia
  simp only [allocateScanVia_sysWrite]
  rfl

theorem tfsMkfsVia_sysWrite {fd : Int} : tfsMkfsVia sysWrite fd = tfsMkfs fd := by
  unfold tfsMkfsVia tfsMkfs
  simp only [mkfsClearVia_sysWrite, mkfsPagesVia_sysWrite, mkfsRootVia_sysWrite]
  rfl

/-! ## Inside the device -/

/-- A `write` that stops the process when its range does not lie on the device. -/
def sysWriteInside (buf : Mem) (n : Nat) : M Int := fun s => if s.pos + n ≤ s.vol.size then sysWrite buf n s else none

/-- Inside the device `write` does what the kernel's does. -/
def IsWrite (write : Mem → Nat → M Int) : Prop := ∀ f n s, s.pos + n ≤ s.vol.size → write f n s = sysWrite f n s

theorem sysWrite_isWrite : IsWrite sysWrite := fun _ _ _ _ => rfl

theorem sysWriteInside_isWrite : IsWrite sysWriteInside := fun _ _ _ h => if_pos h

variable {write : Mem → Nat → M Int} {K : View} {a b n o p k : Nat} {f : Mem} {offset : Int}

theorem IsWrite.at (hw : IsWrite write) (hn : p + n ≤ K.vol.size) :
    Returns (K.At p) (write f n) n ((K.store p n f).At (p + n)) := by
  intro s hs
  rw [hw f n s (by rw [hs.2, hs.1.size]; exact hn)]
  exact sysWrite_at hn s hs

theorem writeVarVia_at {v : Nat} (hw : IsWrite write) (hn : p + 8 ≤ K.vol.size) :
    Returns (K.At p) (writeVarVia write v) 8 ((K.storeWord p v).At (p + 8)) := hw.at hn

theorem writeBlockVia_fits (hw : IsWrite write) (he : offset = o) (ho : o + n ≤ 4096) (hs : b + o + n ≤ K.vol.size) :
    Runs K (writeBlockVia write f b offset n) n (K.store (b + o) n f) := by
  subst he
  have hlt := K.vol.size_lt
  have h1 : ¬ ((o : Int) > 4096 ∨ (o : Int) < 0) := by omega
  have h2 : u64 ((b : Int) + o) = b + o := by unfold u64; omega
  have h3 : u64 ((4096 : Int) - o) = 4096 - o := by unfold u64; omega
  simp only [writeBlockVia, if_neg h1, h2, h3]
  rw [if_neg (by omega)]
  exact Runs.of_at ((lseekSet_at (by omega)).bind (hw.at hs))

theorem writeAddrVia_runs {v : Nat} (hw : IsWrite write) (he : offset = o) (ho : o + 8 ≤ 4096) (hs : b + o + 8 ≤ K.vol.size) :
    Runs K (writeAddrVia write v b offset) 8 (K.storeWord (b + o) v) := writeBlockVia_fits hw he ho hs

theorem commitInodeVia_runs {n : Node} (hw : IsWrite write) (hs : a + 208 ≤ K.vol.size) :
    Runs K (commitInodeVia write n a) 208 (K.store a 208 n.encode) :=
  Runs.of_at ((lseekSet_at (by omega)).bind (hw.at hs))

/-- The first slot of the head page lists a block. -/
theorem allocateBlockVia_first (fd : Int) (hw : IsWrite write) (h : HeadPage K p) (hv : slot K.vol.bytes p 0 ≠ 0) :
    Runs K (allocateBlockVia write fd) (slot K.vol.bytes p 0) (K.storeWord p 0) := by
  have hp : IsBlock K.vol.size p := h.block
  have hsee := h.sees
  have hin := hp.inside
  have hword : word K.vol.bytes p = slot K.vol.bytes p 0 := by rw [slot_of_ne hp.pos, Nat.mul_zero, Nat.add_zero]
  refine (lseekSet_at (by omega)).bind ((readVar_at (by omega) h.super).bind ?_)
  rw [h.head, if_neg hp.pos]
  refine (lseekSet_from (by omega)).bind ?_
  unfold allocateScanVia
  refine (readVar_at (by omega) (hsee.mono (by omega) (by omega))).bind ?_
  rw [hword, if_pos hv]
  refine (lseekBack_at (by omega)).bind ?_
  rw [Nat.add_sub_cancel]
  refine Runs.of_at (q := p + 8) ((writeVarVia_at hw (by omega)).bind ?_)
  rw [if_neg (by omega)]
  exact Returns.pure _

end TyrantFS

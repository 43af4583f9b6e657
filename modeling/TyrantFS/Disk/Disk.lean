/-
  TyrantFS.Disk.Disk — disk.c: blocks, inodes, the two allocators, `tfs_mkfs`.

  A buffer argument is the `Mem` its bytes are; a `read` returns the buffer as it is
  afterwards, so a short read leaves the rest of what was there (`old`). Loops of the C
  code recurse on the number of rounds left.
-/
import TyrantFS.Disk.Inode

namespace TyrantFS

open Lib

/-- A bzero'ed buffer. -/
def zeros : Mem := fun _ => 0

/-! ## Blocks -/

/-- `read_block`: the number of bytes read, and the buffer. -/
def readBlock (old : Mem) (block : Nat) (offset : Int) (bytes : Nat) : M (Nat × Mem) :=
  if block = 0 then pure (0, old)
  else if offset > 4096 ∨ offset < 0 then pure (0, old)
  else do
    let start := u64 (block + offset)
    let bytesAvail := u64 (4096 - offset)
    lseekSet start
    if bytesAvail < bytes then sysRead old bytesAvail else sysRead old bytes

/-- `write_block` -/
def writeBlock (buff : Mem) (block : Nat) (offset : Int) (bytes : Nat) : M Int :=
  if offset > 4096 ∨ offset < 0 then pure 0
  else do
    let start := u64 (block + offset)
    lseekSet start
    let bytesAvail := u64 (4096 - offset)
    if bytesAvail < bytes then sysWrite buff bytesAvail else sysWrite buff bytes

/-- `read_block(&x, block, offset, ADDR_LENGTH)` into a uint64_t that holds `old` -/
def readAddr (old block : Nat) (offset : Int) : M Nat := do
  let r ← readBlock (leByte old) block offset 8
  pure (leVal 8 r.2)

/-- `write_block(&x, block, offset, ADDR_LENGTH)` from a uint64_t -/
def writeAddr (x block : Nat) (offset : Int) : M Int := writeBlock (leByte x) block offset 8

/-! ## Inodes -/

/-- `fetch_inode` into the buffer `buff` -/
def fetchInode (buff : Mem) (myNode : Nat) : M Node :=
  if myNode = 0 then pure (Node.decode buff)
  else do
    lseekSet myNode
    let r ← sysRead buff 208
    pure (Node.decode r.2)

/-- `fetch_inode` into a local that was never assigned -/
def fetchNode (myNode : Nat) : M Node := do
  let e ← environ
  fetchInode e.junk myNode

/-- `commit_inode` -/
def commitInode (myNode : Node) (nodeLoc : Nat) : M Int := do
  lseekSet nodeLoc
  sysWrite myNode.encode 208

/-- The last lines of every case of `fetch_block`: `if (block_addr == 0) return NULL;
    read_block(block, block_addr, 0, BLOCKSIZE); return block;` -/
def fetchAddr (block : Mem) (blockAddr : Nat) : M (Option Mem) :=
  if blockAddr = 0 then pure none
  else do
    let r ← readBlock block blockAddr 0 4096
    pure (some r.2)

/-- The loop over the slots of the double indirect block; `i` is the loop's counter. -/
def fetchDbl (parent : Node) (block : Mem) : (left i dblOffset : Nat) → M (Option Mem)
  | 0, _, _ => pure none
  | left + 1, i, dblOffset =>
    if dblOffset < i then do
      let r ← readBlock (leByte 0) parent.dblIndirect (off (u64 ((i / 512 - 1) * 8))) 8
      let indirBlk := leVal 8 r.2
      if indirBlk = 0 ∨ r.1 = 0 then pure none
      else do
        let dblOffset := u64 (dblOffset - (i - 512))
        let blockAddr ← readAddr 0 indirBlk (off (u64 (dblOffset * 8)))
        fetchAddr block blockAddr
    else fetchDbl parent block left (i + 512) dblOffset

/-- The inner loop of the triple indirect case, over the slots of `dbl_blk`; `none` when
    it runs to its end. -/
def fetchTrplInner (dblBlk : Nat) (block : Mem) : (left j trplOffset : Nat) → M (Option (Option Mem))
  | 0, _, _ => pure none
  | left + 1, j, trplOffset =>
    if trplOffset < j then do
      let indirBlk ← readAddr 0 dblBlk (off (u64 ((j / 512 - 1) * 8)))
      if indirBlk = 0 then pure (some none)
      else do
        let trplOffset := u64 (trplOffset - (j - 512))
        let blockAddr ← readAddr 0 indirBlk (off (u64 (trplOffset * 8)))
        let r ← fetchAddr block blockAddr
        pure (some r)
    else fetchTrplInner dblBlk block left (j + 512) trplOffset

/-- The outer loop. It goes on with the `trpl_offset` that the inner loop was given. -/
def fetchTrpl (parent : Node) (block : Mem) : (left i trplOffset dblBlk : Nat) → M (Option Mem)
  | 0, _, _, _ => pure none
  | left + 1, i, trplOffset, dblBlk =>
    if trplOffset < i then do
      let dblBlk ← readAddr dblBlk parent.trplIndirect (off (u64 ((i / (512 * 512) - 1) * 8)))
      if dblBlk = 0 then pure none
      else do
        let trplOffset := u64 (trplOffset - (i - 512 * 512))
        let r ← fetchTrplInner dblBlk block 512 0 trplOffset
        match r with
        | some r => pure r
        | none => fetchTrpl parent block left (i + 512 * 512) trplOffset dblBlk
    else fetchTrpl parent block left (i + 512 * 512) trplOffset dblBlk

/-- `fetch_block`: the buffer, `none` for NULL. `pow` is the integer power, and the offsets
    are computed modulo 2^64. -/
def fetchBlock (myNode blockNo : Nat) (block : Mem) : M (Option Mem) :=
  if myNode = 0 then pure none
  else do
    let parent ← fetchNode myNode
    if parent.blocks ≤ blockNo then pure none
    else if blockNo < 12 then do
      let r ← readBlock block (parent.direct blockNo) 0 4096
      pure (some r.2)
    else if blockNo < 12 + 512 then do
      let blockAddr ← readAddr 0 parent.indirectBlocks (off (u64 ((blockNo - 12) * 8)))
      fetchAddr block blockAddr
    else if blockNo < 12 + 512 + 512 ^ 2 then fetchDbl parent block 512 0 (blockNo - 12 - 512)
    else if blockNo < 12 + 512 + 512 ^ 2 + 512 ^ 3 then
      fetchTrpl parent block 512 0 (blockNo - (12 + 512 + 512 ^ 2)) 0
    else pure none

def allocateInodeScan : (left i : Nat) → Mem → M Nat
  | 0, _, _ => pure 0
  | left + 1, i, inodePtr => do
    lseekSet i
    let r ← sysRead inodePtr 208
    if (Node.decode r.2).mode = 0 then pure i else allocateInodeScan left (i + 256) r.2

/-- `allocate_inode`: the first slot whose mode is 0; 0 when there is none. -/
def allocateInode (_fd : Int) : M Nat := do
  let g ← globals
  if g.drive < 0 then pure 0
  else do
    lseekSet 4096
    let e ← environ
    allocateInodeScan ((g.inodeByteBoundary - 4096 + 255) / 256) 4096 e.junk

/-- `free_inode` -/
def freeInode (curNode : Nat) : M Int :=
  if curNode = 0 then pure (-1)
  else do
    lseekSet curNode
    let _ ← sysWrite zeros 256
    let _ ← fetchNode curNode
    pure 0

/-! ## The free list -/

/-- The scan of the head page for a listed block; `i` is the byte offset of the next
    slot. -/
def allocateScan : (left i freeBlock : Nat) → M Nat
  | 0, _, freeBlock => do
    -- every slot is zero: the page itself is the last free block
    lseekSet 0
    let freeBlock ← readVar freeBlock
    lseekBack 8
    let _ ← writeVar 0
    pure freeBlock
  | left + 1, i, freeBlock => do
    let freeBlock ← readVar freeBlock
    if freeBlock ≠ 0 then do
      lseekBack 8
      let _ ← writeVar 0
      if i = 4096 - 8 then do
        -- the link: the page is handed out and the superblock moves on
        let nextBlock := freeBlock
        lseekSet 0
        let freeBlock ← readVar freeBlock
        lseekSet 0
        let _ ← writeVar nextBlock
        pure freeBlock
      else pure freeBlock
    else allocateScan left (i + 8) freeBlock

/-- `allocate_block` -/
def allocateBlock (_fd : Int) : M Nat := do
  lseekSet 0
  let nextBlock ← readVar 0
  if nextBlock = 0 then pure 0
  else do
    lseekSet nextBlock
    allocateScan 512 0 0

/-- The scan of the head page for an empty slot. -/
def freeScan (block : Nat) : (left i nextBlock freeBlock : Nat) → M Int
  | 0, _, nextBlock, _ => do
    -- the page is full: `block` becomes the head, linked to it
    let nextBlock := u64 (nextBlock - 4096)
    lseekSet block
    let _ ← sysWrite zeros 4096
    lseekSet (u64 (block + 4096 - 8))
    let _ ← writeVar nextBlock
    lseekSet 0
    let _ ← writeVar block
    pure 0
  | left + 1, i, nextBlock, freeBlock => do
    let freeBlock ← readVar freeBlock
    if freeBlock = 0 then do
      lseekBack 8
      let _ ← writeVar block
      if i = 4096 - 8 then do
        lseekSet block
        let _ ← sysWrite zeros 4096
        pure 0
      else pure 0
    else freeScan block left (i + 8) (u64 (nextBlock + 8)) freeBlock

/-- `free_block` -/
def freeBlock (fd : Int) (block : Nat) : M Int :=
  if fd < 0 ∨ block = 0 then pure (-1)
  else do
    lseekSet 0
    let nextBlock ← readVar 0
    if nextBlock = 0 then do
      lseekSet 0
      let _ ← writeVar block
      lseekSet block
      let _ ← sysWrite zeros 4096
      pure 0
    else do
      lseekSet nextBlock
      freeScan block 512 0 nextBlock 0

/-! ## Formatting -/

/-- `tfs_mkfs` clears the superblock and the inode blocks. -/
def mkfsClear : (left : Nat) → M Unit
  | 0 => pure ()
  | left + 1 => do
    let _ ← sysWrite zeros 4096
    mkfsClear left

/-- The inner loop: one page of addresses. Returns `addr_counter` and `block_ptr`. -/
def mkfsSlots (dataBlocks : Nat) : (left addrCounter blockPtr : Nat) → M (Nat × Nat)
  | 0, addrCounter, blockPtr => pure (addrCounter, blockPtr)
  | left + 1, addrCounter, blockPtr =>
    if addrCounter ≥ dataBlocks then pure (addrCounter, blockPtr)
    else do
      let _ ← writeVar blockPtr
      mkfsSlots dataBlocks left (addrCounter + 1) (u64 (blockPtr + 4096))

/-- The outer loop: every round lists at least one block, so `data_blocks` rounds are
    enough. -/
def mkfsPages (boundary dataBlocks : Nat) : (rounds addrCounter freeBlockptr : Nat) → M Unit
  | 0, _, _ => pure ()
  | rounds + 1, addrCounter, freeBlockptr =>
    if addrCounter < dataBlocks then do
      lseekSet freeBlockptr
      let _ ← sysWrite zeros 4096
      lseekBack 4096
      let blockPtr := u64 (boundary + addrCounter * 4096 + 4096)
      let r ← mkfsSlots dataBlocks 512 addrCounter blockPtr
      mkfsPages boundary dataBlocks rounds r.1 (u64 (r.2 - 4096))
    else pure ()

/-- `S_IFDIR | S_IRUSR | S_IRGRP | S_IROTH` -/
def rootMode : Nat := 0x4124

def dotName : List UInt8 := [46]
def dotDotName : List UInt8 := [46, 46]

/-- The boundaries `tfs_mkfs` and `tfs_disk_info` derive from the device's size. -/
def boundaries (g : Globals) (fd : Int) (drivesize : Nat) : Globals :=
  let numBlocks := drivesize / 4096
  let inodeBlocks := numBlocks / 65
  { g with
    drive := fd
    drivesize := drivesize
    numBlocks := numBlocks
    inodeBlocks := inodeBlocks
    dataBlocks := u64 (inodeBlocks * 64 - 1)
    inodeByteBoundary := u64 ((inodeBlocks + 1) * 4096) }

/-- `ioctl(fd, BLKGETSIZE64, &drivesize)` and the assignments after it -/
def setBoundaries (fd : Int) : M Unit :=
  modify fun s => { s with vol := { s.vol with glob := boundaries s.vol.glob fd s.vol.size } }

def setRootNode (a : Nat) : M Unit :=
  modify fun s => { s with vol := { s.vol with glob := { s.vol.glob with rootNode := a } } }

/-- The root directory: its inode, its block, and the entries "." and "..". -/
def mkfsRoot (fd : Int) : M Unit := do
  let rootNode ← allocateInode fd
  setRootNode rootNode
  let e ← environ
  lseekSet rootNode
  let r ← sysRead e.junk 208
  let tempNode := Node.decode r.2
  let accessTime ← getCurrentTimeInNsec
  let creationTime ← getCurrentTimeInNsec
  let g ← globals
  let block ← allocateBlock g.drive
  let _ ← writeBlock zeros block 0 4096
  let _ ← writeBlock (strBuf dotName zeros) block 0 2
  let _ ← writeAddr rootNode block (256 - 8)
  let _ ← writeBlock (strBuf dotDotName zeros) block 256 3
  let _ ← writeAddr rootNode block (256 * 2 - 8)
  let r ← readBlock zeros block (256 - 8) 8
  let _ ← readBlock r.2 block (256 + 256 - 8) 8
  let dataTime ← getCurrentTimeInNsec
  let tempNode := { tempNode.setDirect 0 block with
    mode := rootMode, accessTime := accessTime, creationTime := creationTime, dataTime := dataTime
    size := 256 * 2, blocks := 1, links := 1 }
  let _ ← commitInode tempNode rootNode
  let _ ← fetchInode tempNode.encode rootNode
  pure ()

/-- `tfs_mkfs` -/
def tfsMkfs (fd : Int) : M Int :=
  if fd < 0 then pure (-1)
  else do
    setBoundaries fd
    let g ← globals
    lseekSet 0
    mkfsClear (g.inodeBlocks + 1)
    lseekSet 0
    let _ ← writeVar g.inodeByteBoundary
    mkfsPages g.inodeByteBoundary g.dataBlocks g.dataBlocks 0 g.inodeByteBoundary
    mkfsRoot fd
    pure 0

/-- `tfs_disk_info`, without its report -/
def tfsDiskInfo (fd : Int) : M Int :=
  if fd < 0 then pure (-1)
  else do
    setBoundaries fd
    pure 0

end TyrantFS

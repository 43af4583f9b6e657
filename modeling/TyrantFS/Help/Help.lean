/-
  TyrantFS.Help.Help — tyrant_help.c: the block map of an inode, directories, path
  lookup.

  An in-out `node *` is an argument and part of the result. Names and paths are C
  strings: lists of non-zero bytes. A name in a directory slot ends at its NUL, or after
  248 bytes where there is none (`tfs_rename` can write such a slot): `check_block` then
  looks at a byte of its buffer that nothing has set, which is taken for NUL here.
-/
import TyrantFS.Disk.Disk

namespace TyrantFS

open Lib

/-! ## The block map -/

/-- The code's `if (page == 0) { page = allocate_block(drive); if (page == 0) {
    free_block(drive, block); return 0; } store; }`: the page, 0 for the `return`. -/
def linkPage (drive : Int) (block page : Nat) (store : Nat → M Unit) : M Nat :=
  if page ≠ 0 then pure page
  else do
    let page ← allocateBlock drive
    if page = 0 then do
      let _ ← freeBlock drive block
      pure 0
    else do
      store page
      pure page

/-- `write_block(&page, upper, offset, ADDR_LENGTH); commit_inode(parent, parent_loc)` -/
def storeChild (parent : Node) (parentLoc upper : Nat) (offset : Int) (page : Nat) : M Unit := do
  let _ ← writeAddr page upper offset
  let _ ← commitInode parent parentLoc
  pure ()

/-- The last lines of each indirect case: enter the block and commit. -/
def addLeaf (parent : Node) (parentLoc block indirBlk : Nat) (offset : Int) : M (Nat × Node) := do
  let _ ← writeAddr block indirBlk offset
  let parent := { parent with blocks := (parent.blocks + 1) % 2 ^ 64 }
  let _ ← commitInode parent parentLoc
  pure (block, parent)

def addBlockIndirect (drive : Int) (parent : Node) (parentLoc block : Nat) : M (Nat × Node) := do
  let i := parent.blocks
  let indirBlk ← linkPage drive block parent.indirectBlocks fun p => do
    let _ ← commitInode { parent with indirectBlocks := p } parentLoc
    pure ()
  if indirBlk = 0 then pure (0, parent)
  else
    let parent := { parent with indirectBlocks := indirBlk }
    addLeaf parent parentLoc block indirBlk ↑((i - 12) * 8)

def addBlockDbl (drive : Int) (parent : Node) (parentLoc block : Nat) : M (Nat × Node) := do
  let i := parent.blocks
  let dblBlk ← linkPage drive block parent.dblIndirect fun p => do
    let _ ← commitInode { parent with dblIndirect := p } parentLoc
    pure ()
  if dblBlk = 0 then pure (0, parent)
  else do
    let parent := { parent with dblIndirect := dblBlk }
    let dblBlkOffset : Int := ↑((i - 12 - 512) / 512 * 8)
    let indirBlkOffset : Int := ↑((i - 12 - 512) % 512 * 8)
    let indirBlk ← readAddr 0 dblBlk dblBlkOffset
    let indirBlk ← linkPage drive block indirBlk (storeChild parent parentLoc dblBlk dblBlkOffset)
    if indirBlk = 0 then pure (0, parent)
    else addLeaf parent parentLoc block indirBlk indirBlkOffset

def addBlockTrpl (drive : Int) (parent : Node) (parentLoc block : Nat) : M (Nat × Node) := do
  let i := parent.blocks
  let trplBlk ← linkPage drive block parent.trplIndirect fun p => do
    let _ ← commitInode { parent with trplIndirect := p } parentLoc
    pure ()
  if trplBlk = 0 then pure (0, parent)
  else do
    let parent := { parent with trplIndirect := trplBlk }
    let trplBlkOffset : Int := ↑((i - 12 - 512 - 512 * 512) / (512 * 512) * 8)
    let dblBlkOffset : Int := ↑((i - 12 - 512 - 512 * 512) % (512 * 512) / 512 * 8)
    let indirBlkOffset : Int := ↑((i - 12 - 512 - 512 * 512) % (512 * 512) % 512 * 8)
    let dblBlk ← readAddr 0 trplBlk trplBlkOffset
    let dblBlk ← linkPage drive block dblBlk (storeChild parent parentLoc trplBlk trplBlkOffset)
    if dblBlk = 0 then pure (0, parent)
    else do
      let indirBlk ← readAddr 0 dblBlk dblBlkOffset
      let indirBlk ← linkPage drive block indirBlk (storeChild parent parentLoc dblBlk dblBlkOffset)
      if indirBlk = 0 then pure (0, parent)
      else addLeaf parent parentLoc block indirBlk indirBlkOffset

/-- `add_block_to_node`: the new block (0 on failure) and the caller's node. -/
def addBlockToNode (parent : Node) (parentLoc : Nat) : M (Nat × Node) :=
  if parentLoc = 0 then pure (0, parent)
  else do
    let g ← globals
    let block ← allocateBlock g.drive
    if block = 0 then pure (0, parent)
    else if parent.blocks = 2 ^ 64 - 1 then do
      let _ ← freeBlock g.drive block
      pure (0, parent)
    else
      let i := parent.blocks
      if i < 12 then do
        let parent := { parent.setDirect i block with blocks := (parent.blocks + 1) % 2 ^ 64 }
        let _ ← commitInode parent parentLoc
        pure (block, parent)
      else if i < 12 + 512 then addBlockIndirect g.drive parent parentLoc block
      else if i < 12 + 512 + 512 ^ 2 then addBlockDbl g.drive parent parentLoc block
      else addBlockTrpl g.drive parent parentLoc block

/-- `get_i_block` -/
def getIBlock (curNode : Node) (i : Nat) : M Nat :=
  if curNode.blocks = 0 then pure 0
  else if curNode.blocks ≤ i then pure 0
  else if i < 12 then pure (curNode.direct i)
  else do
    let curBlk ← junkVar
    if i < 12 + 512 then
      let indirBlk := curNode.indirectBlocks
      if indirBlk = 0 then pure 0 else readAddr curBlk indirBlk ↑((i - 12) * 8)
    else if i < 12 + 512 + 512 ^ 2 then
      let dblBlk := curNode.dblIndirect
      let dblBlkOffset : Int := ↑((i - 12 - 512) / 512 * 8)
      let indirBlkOffset : Int := ↑((i - 12 - 512) % 512 * 8)
      if dblBlk = 0 then pure 0
      else do
        let indirBlk ← readAddr 0 dblBlk dblBlkOffset
        readAddr curBlk indirBlk indirBlkOffset
    else
      let trplBlk := curNode.trplIndirect
      let trplBlkOffset : Int := ↑((i - 12 - 512 - 512 * 512) / (512 * 512) * 8)
      let dblBlkOffset : Int := ↑((i - 12 - 512 - 512 * 512) % (512 * 512) / 512 * 8)
      let indirBlkOffset : Int := ↑((i - 12 - 512 - 512 * 512) % (512 * 512) % 512 * 8)
      if trplBlk = 0 then pure 0
      else do
        let dblBlk ← readAddr 0 trplBlk trplBlkOffset
        let indirBlk ← readAddr 0 dblBlk dblBlkOffset
        readAddr curBlk indirBlk indirBlkOffset

/-! ## Finding the entry of an inode -/

/-- `j + i * BLOCKSIZE`, computed in int, where a uint64_t is compared with it. -/
def entryOffset (i j : Nat) : Nat := u64 (int32 (↑j + ↑i * 4096))

/-- The inner loop of `remove_link_from_parent` and `rename_from_parent`, over the
    entries of one block: `none` when none of them is `curNode`'s, otherwise what the
    body of the innermost `if`, `act`, returns. The second result is the local `child`. -/
def scanEntries (curNode : Nat) (parentNode : Node) (act : (block i j : Nat) → M Int) (block i : Nat) :
    (left j child : Nat) → M (Option Int × Nat)
  | 0, _, child => pure (none, child)
  | left + 1, j, child =>
    if entryOffset i j < parentNode.size then do
      let child ← readAddr child block (↑j + 256 - 8)
      if child = curNode then do
        let r ← act block i j
        pure (some r, child)
      else scanEntries curNode parentNode act block i left (j + 256) child
    else pure (none, child)

/-- Their outer loop, over the blocks of the directory. -/
def scanBlocks (curNode : Nat) (parentNode : Node) (act : (block i j : Nat) → M Int) : (left i child : Nat) → M Int
  | 0, _, _ => pure (-1)
  | left + 1, i, child => do
    let block ← getIBlock parentNode i
    if block = 0 then pure (-1)
    else do
      let r ← scanEntries curNode parentNode act block i 16 0 child
      match r.1 with
      | some status => pure status
      | none => scanBlocks curNode parentNode act left (i + 1) r.2

/-! ## Removing an entry -/

/-- `if (j + i * BLOCKSIZE != parent_node.size - NAME_BOUNDARY)`: the last entry takes
    the place of the one at `j`. -/
def moveLast (parentNode : Node) (block lastBlock i j : Nat) : M Unit :=
  if entryOffset i j = u64 (parentNode.size - 256) then pure ()
  else do
    let e ← environ
    let lastOffset := off (u64 (parentNode.size % 4096 - 256))
    let r ← readBlock e.junk lastBlock lastOffset 256
    let _ ← writeBlock r.2 block j 256
    let _ ← writeBlock zeros lastBlock lastOffset 256
    pure ()

/-- `if (parent_node.size % BLOCKSIZE == 0)`: the last block is empty and goes back. -/
def dropLast (drive : Int) (parentNode : Node) (lastBlock : Nat) : M Node :=
  if parentNode.size % 4096 = 0 then do
    let _ ← freeBlock drive lastBlock
    pure { parentNode with blocks := u64 (parentNode.blocks - 1) }
  else pure parentNode

/-- The body of the innermost `if` of `remove_link_from_parent`: the entry at `j` of
    block `i` (at `block`) goes. -/
def removeEntry (parent : Nat) (parentNode : Node) (block i j : Nat) : M Int := do
  let g ← globals
  let _ ← writeBlock zeros block j 256
  let lastBlock ← getIBlock parentNode (u64 (parentNode.blocks - 1))
  if lastBlock = 0 then pure (-1)
  else do
    moveLast parentNode block lastBlock i j
    let parentNode ← dropLast g.drive { parentNode with size := u64 (parentNode.size - 256) } lastBlock
    let t ← getCurrentTimeInNsec
    let parentNode := { parentNode with dataTime := t, changeTime := t }
    let _ ← commitInode parentNode parent
    pure 0

/-- `remove_link_from_parent` -/
def removeLinkFromParent (parent curNode : Nat) : M Int :=
  if parent = 0 then pure (-1)
  else if curNode = 0 then pure (-1)
  else do
    let parentNode ← fetchNode parent
    scanBlocks curNode parentNode (removeEntry parent parentNode) parentNode.blocks 0 0

/-! ## Recursive deletion -/

/-- `(mode & S_IFDIR) == S_IFDIR` -/
def isDir (mode : Nat) : Bool := mode &&& 0x4000 == 0x4000

/-- The loop over the entries of block `i - 1`, from offset `j` down; `tmp` is the
    local the entry's address is read into. -/
def unlinkEntries (sub : Nat → Nat → M Int) (dir block i : Nat) : (left j tmp : Nat) → M Nat
  | 0, _, tmp => pure tmp
  | left + 1, j, tmp =>
    let entry := u64 ((↑i - 1) * 4096 + ↑j - 256)
    if entry = 256 ∨ entry = 0 then unlinkEntries sub dir block i left (j - 256) tmp
    else do
      let tmp ← readAddr tmp block (↑j - 8)
      let _ ← sub dir tmp
      unlinkEntries sub dir block i left (j - 256) tmp

/-- The loop over the blocks of a directory being deleted; `i` counts down. -/
def unlinkBlocks (sub : Nat → Nat → M Int) (drive : Int) (dir : Nat) (node : Node) (totalBlocks : Nat) :
    (i tmp : Nat) → M Unit
  | 0, _ => pure ()
  | i + 1, tmp => do
    let block ← getIBlock node i
    let start := if i + 1 = totalBlocks then node.size % 4096 else 4096
    let tmp ← unlinkEntries sub dir block (i + 1) ((start + 255) / 256) start tmp
    let _ ← freeBlock drive (u64 (↑block - 1))
    unlinkBlocks sub drive dir node totalBlocks i tmp

/-- `sub_unlink` frees the blocks of a file from the last to the first. -/
def freeBlocksDown (drive : Int) (node : Node) : (i : Nat) → M Unit
  | 0 => pure ()
  | i + 1 => do
    let block ← getIBlock node i
    let _ ← freeBlock drive block
    freeBlocksDown drive node i

/-- `sub_unlink`; it does not return once its nesting uses up the stack. -/
def subUnlink : (stack parent child : Nat) → M Int
  | 0, _, _ => failure
  | stack + 1, parent, child =>
    if parent = 0 ∨ child = 0 then pure (-1)
    else do
      let status ← removeLinkFromParent parent child
      if status = -1 then pure (-1)
      else do
        let g ← globals
        let _ ← fetchNode parent
        let childNode ← fetchNode child
        let childNode := { childNode with links := (childNode.links + (2 ^ 32 - 1)) % 2 ^ 32 }
        if childNode.links = 0 then do
          if isDir childNode.mode then
            unlinkBlocks (subUnlink stack) g.drive child childNode childNode.blocks childNode.blocks 0
          else freeBlocksDown g.drive childNode childNode.blocks
          let _ ← freeInode child
        else do
          let _ ← commitInode childNode child
        pure 0

/-! ## Adding an entry -/

/-- The loop of `add_addr` over the 16 slots of a block; `emptySpace` is the byte read
    last. -/
def addAddrScan (parent block addr : Nat) (parentNode addrNode : Node) (temp : Mem) :
    (left i : Nat) → UInt8 → M Int
  | 0, _, _ => pure (-1)
  | left + 1, i, emptySpace => do
    let r ← readBlock (fun _ => emptySpace) block i 1
    let emptySpace := r.2 0
    if emptySpace = 0 then do
      let _ ← writeBlock temp block i 248
      let _ ← writeAddr addr block (↑i + 256 - 8)
      let t ← getCurrentTimeInNsec
      let parentNode := { parentNode with size := (parentNode.size + 256) % 2 ^ 64, dataTime := t, changeTime := t }
      let addrNode := { addrNode with links := (addrNode.links + 1) % 2 ^ 32, changeTime := t }
      let _ ← commitInode parentNode parent
      let _ ← commitInode addrNode addr
      pure 0
    else addAddrScan parent block addr parentNode addrNode temp left (i + 256) emptySpace

/-- `add_addr` -/
def addAddr (parent block addr : Nat) (name : List UInt8) : M Int :=
  if block = 0 ∨ parent = 0 ∨ addr = 0 then pure (-1)
  else do
    let e ← environ
    let parentNode ← fetchNode parent
    let addrNode ← fetchNode addr
    addAddrScan parent block addr parentNode addrNode (strBuf name e.junk) 16 0 0

/-- `add_to_directory` -/
def addToDirectory (parent child : Nat) (name : List UInt8) : M Int :=
  if parent = 0 ∨ child = 0 then pure (-1)
  else do
    let parentNode ← fetchNode parent
    let _ ← fetchNode child
    if parentNode.size % 4096 = 0 then do
      let r ← addBlockToNode parentNode parent
      let block := r.1
      if block = 0 then pure (-1)
      else do
        let _ ← writeBlock zeros block 0 4096
        addAddr parent block child name
    else do
      let block ← getIBlock parentNode (u64 (parentNode.blocks - 1))
      addAddr parent block child name

/-! ## Lookup -/

/-- The scan of `check_block` over the slots from the `i`-th byte on. -/
def checkSlots (block : Mem) (name : List UInt8) : (left i : Nat) → Nat
  | 0, _ => 0
  | left + 1, i =>
    if cstr 248 (fun k => block (i + k)) = name then word block (i + 256 - 8)
    else checkSlots block name left (i + 256)

/-- `check_block`: the address stored under `name` in a directory block, 0 if none. -/
def checkBlock (block : Mem) (name : List UInt8) : Nat := checkSlots block name 16 0

/-- The loop of `check_indirect_blk`: the address and `*block_count` afterwards. -/
def checkLeaves (block : Mem) (name : List UInt8) : (left i : Nat) → Mem → Nat → M (Nat × Nat)
  | 0, _, _, blockCount => pure (0, blockCount)
  | left + 1, i, dataBlock, blockCount =>
    if blockCount = 0 then pure (0, blockCount)
    else do
      lseekSet (word block i)
      let r ← sysRead dataBlock 4096
      let tmpNode := checkBlock r.2 name
      if tmpNode ≠ 0 then pure (tmpNode, blockCount - 1)
      else checkLeaves block name left (i + 8) r.2 (blockCount - 1)

/-- `check_indirect_blk` -/
def checkIndirectBlk (block : Mem) (name : List UInt8) (blockCount : Nat) : M (Nat × Nat) := do
  let e ← environ
  checkLeaves block name 512 0 e.junk blockCount

/-- The loop that `check_dbl_indirect_blk` and `check_trpl_indirect_blk` share: `inner`
    checks the page one level down. -/
def checkPages (inner : Mem → Nat → M (Nat × Nat)) (block : Mem) : (left i : Nat) → Mem → Nat → M (Nat × Nat)
  | 0, _, _, blockCount => pure (0, blockCount)
  | left + 1, i, dataBlock, blockCount =>
    if blockCount = 0 then pure (0, blockCount)
    else do
      lseekSet (word block i)
      let r ← sysRead dataBlock 4096
      let t ← inner r.2 blockCount
      if t.1 ≠ 0 then pure t else checkPages inner block left (i + 8) r.2 t.2

/-- `check_dbl_indirect_blk` -/
def checkDblIndirectBlk (block : Mem) (name : List UInt8) (blockCount : Nat) : M (Nat × Nat) := do
  let e ← environ
  checkPages (fun b c => checkIndirectBlk b name c) block 512 0 e.junk blockCount

/-- `check_trpl_indirect_blk` -/
def checkTrplIndirectBlk (block : Mem) (name : List UInt8) (blockCount : Nat) : M (Nat × Nat) := do
  let e ← environ
  checkPages (fun b c => checkDblIndirectBlk b name c) block 512 0 e.junk blockCount

/-- The components `strtok(path, "/")` yields. -/
def splitSlash : List UInt8 → List (List UInt8)
  | [] => [[]]
  | c :: cs =>
    if c = 47 then [] :: splitSlash cs
    else match splitSlash cs with
      | p :: ps => (c :: p) :: ps
      | [] => [[c]]

def tokens (path : List UInt8) : List (List UInt8) := (splitSlash path).filter (· ≠ [])

/-- The loop over the direct blocks: `none` is the `return 0` inside it, otherwise
    `tmp_node`, `block_cnt` and `tmp_block` after it. -/
def findDirect (curNode : Node) (name : List UInt8) : (left i blockCnt : Nat) → Mem → M (Option (Nat × Nat × Mem))
  | 0, _, blockCnt, tmpBlock => pure (some (0, blockCnt, tmpBlock))
  | left + 1, i, blockCnt, tmpBlock =>
    if blockCnt = 0 then pure none
    else if curNode.direct i = 0 then pure none
    else do
      lseekSet (curNode.direct i)
      let r ← sysRead tmpBlock 4096
      let tmpNode := checkBlock r.2 name
      if tmpNode ≠ 0 then pure (some (tmpNode, blockCnt - 1, r.2))
      else findDirect curNode name left (i + 1) (blockCnt - 1) r.2

/-- One of the three indirect stages: `lseek(drive, root, SEEK_SET); write(drive,
    tmp_block, BLOCKSIZE);` and the search. -/
def findStage (root : Nat) (tmpBlock : Mem) (check : Mem → Nat → M (Nat × Nat)) (blockCnt : Nat) : M (Nat × Nat) := do
  lseekSet root
  let _ ← sysWrite tmpBlock 4096
  check tmpBlock blockCnt

/-- The indirect stages, one after the other, as long as blocks are left: `tmp_node`, 0
    for every `return 0`. -/
def findIndirect (curNode : Node) (name : List UInt8) (tmpBlock : Mem) (blockCnt : Nat) : M Nat :=
  if blockCnt = 0 then pure 0
  else do
    let r ← findStage curNode.indirectBlocks tmpBlock (fun b c => checkIndirectBlk b name c) blockCnt
    if r.1 ≠ 0 then pure r.1
    else if r.2 = 0 then pure 0
    else do
      let r ← findStage curNode.dblIndirect tmpBlock (fun b c => checkDblIndirectBlk b name c) r.2
      if r.1 ≠ 0 then pure r.1
      else if r.2 = 0 then pure 0
      else do
        let r ← findStage curNode.trplIndirect tmpBlock (fun b c => checkTrplIndirectBlk b name c) r.2
        pure r.1

/-- The loop of `find_path_node` over the components that are left. -/
def findLoop : List (List UInt8) → Node → Mem → Nat → M Nat
  | [], _, _, tmpNode => pure tmpNode
  | name :: rest, curNode, tmpBlock, _ => do
    let r ← findDirect curNode name 12 0 curNode.blocks tmpBlock
    match r with
    | none => pure 0
    | some (found, blockCnt, tmpBlock) =>
      let tmpNode ← if found ≠ 0 then pure found else findIndirect curNode name tmpBlock blockCnt
      if tmpNode = 0 then pure 0
      else do
        let curNode ← fetchInode curNode.encode tmpNode
        findLoop rest curNode tmpBlock tmpNode

/-- `find_path_node` -/
def findPathNode (path : List UInt8) : M Nat := do
  let g ← globals
  if g.rootNode = 0 then pure 0
  else do
    let e ← environ
    let curNode ← fetchInode e.junk g.rootNode
    findLoop (tokens path) curNode e.junk g.rootNode

/-! ## Renaming an entry -/

/-- The body of the innermost `if` of `rename_from_parent`. -/
def renameEntry (parent : Nat) (parentNode : Node) (newName : List UInt8) (block _i j : Nat) : M Int := do
  let _ ← writeBlock zeros block j 248
  let nameSize := if newName.length ≥ 248 then 248 else newName.length
  let _ ← writeBlock (strBuf newName zeros) block j nameSize
  let _ ← readBlock zeros block j 248
  let t ← getCurrentTimeInNsec
  let parentNode := { parentNode with dataTime := t, changeTime := t }
  let _ ← commitInode parentNode parent
  pure 0

/-- `rename_from_parent` -/
def renameFromParent (parent curNode : Nat) (newName : List UInt8) : M Int :=
  if parent = 0 then pure (-1)
  else if curNode = 0 then pure (-1)
  else do
    let parentNode ← fetchNode parent
    scanBlocks curNode parentNode (renameEntry parent parentNode newName) parentNode.blocks 0 0

end TyrantFS

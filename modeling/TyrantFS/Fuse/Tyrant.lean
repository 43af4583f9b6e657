/-
  TyrantFS.Fuse.Tyrant — tyrant.c: the FUSE operations.

  Results are C ints (ENOENT is 2); a read also returns the bytes it put into the
  caller's buffer, a readdir the names it gave to the filler, a getattr the attributes.
  A name that fills its 248 bytes in the directory ends there, as in `checkSlots`.
-/
import TyrantFS.Help.Help

namespace TyrantFS

open Lib

/-- What stands before the last '/' of a path and what stands after it; `none` when it
    has none (the code's `i == -1`). -/
def splitLast : List UInt8 → Option (List UInt8 × List UInt8)
  | [] => none
  | c :: cs =>
    match splitLast cs with
    | some (p, n) => some (c :: p, n)
    | none => if c = 47 then some ([], cs) else none

/-- `if (i != 0) parent = find_path_node(temp); else parent = root_node;` -/
def findParent (before : List UInt8) : M Nat := do
  let g ← globals
  if before = [] then pure g.rootNode else findPathNode before

/-- `tfs_mkdir` -/
def tfsMkdir (path : List UInt8) (m : UInt32) : M Int :=
  match splitLast path with
  | none => pure (-1)
  | some (before, name) => do
    let parent ← findParent before
    if parent = 0 then pure (-2)
    else do
      let _ ← fetchNode parent
      let g ← globals
      let dir ← allocateInode g.drive
      if dir = 0 then pure (-1)
      else do
        let dirNode ← fetchNode dir
        let block ← allocateBlock g.drive
        if block = 0 then do
          let _ ← freeInode dir
          pure (-1)
        else do
          let _ ← writeBlock zeros block 0 4096
          let t ← getCurrentTimeInNsec
          let e ← environ
          let dirNode := { dirNode.setDirect 0 block with
            creationTime := t, accessTime := t, changeTime := t, dataTime := t
            userId := e.euid % 2 ^ 32, groupId := e.egid % 2 ^ 32
            mode := m.toNat ||| 0x4000, blocks := 1, links := 0 }
          let _ ← writeBlock (strBuf dotName zeros) block 0 2
          let _ ← writeAddr dir block 248
          let _ ← writeBlock (strBuf dotDotName zeros) block 256 3
          let _ ← writeAddr parent block (2 * 256 - 4096)
          let dirNode := { dirNode with size := 256 * 2 }
          let _ ← commitInode dirNode dir
          let result ← addToDirectory parent dir name
          if result ≠ 0 then do
            let _ ← freeBlock g.drive block
            let _ ← freeInode dir
            pure (-1)
          else pure result

/-- `tfs_mknod`; the device number is not used. -/
def tfsMknod (path : List UInt8) (m : UInt32) : M Int :=
  match splitLast path with
  | none => pure (-1)
  | some (before, name) => do
    let parent ← findParent before
    if parent = 0 then pure (-2)
    else do
      let g ← globals
      let data ← allocateInode g.drive
      if data = 0 then pure (-1)
      else do
        let dataNode ← fetchNode data
        let e ← environ
        let t ← getCurrentTimeInNsec
        let dataNode := { dataNode with
          mode := m.toNat, links := 0, blocks := 0, size := 0
          userId := e.euid % 2 ^ 32, groupId := e.egid % 2 ^ 32
          creationTime := t, accessTime := t, changeTime := t, dataTime := t }
        let _ ← commitInode dataNode data
        let result ← addToDirectory parent data name
        if result ≠ 0 then do
          let _ ← freeInode data
          pure result
        else pure result

/-! ## Listing -/

/-- The inner loop of `tfs_readdir`, over the slots of one block: `byte_count`, the
    buffer `name`, and the names given to the filler. -/
def readdirSlots (block totalBytes : Nat) : (left i byteCount : Nat) → Mem → M (Nat × Mem × List (List UInt8))
  | 0, _, byteCount, name => pure (byteCount, name, [])
  | left + 1, i, byteCount, name =>
    if byteCount < totalBytes then do
      let r ← readBlock name block i 248
      let byteCount := byteCount + 256
      let t ← readdirSlots block totalBytes left (i + 256) byteCount r.2
      if r.2 0 = 0 then pure t else pure (t.1, t.2.1, cstr 248 r.2 :: t.2.2)
    else pure (byteCount, name, [])

def readdirBlocks (dir : Node) (totalBytes : Nat) : (left blockCount byteCount : Nat) → Mem → M (List (List UInt8))
  | 0, _, _, _ => pure []
  | left + 1, blockCount, byteCount, name =>
    if byteCount < totalBytes then do
      let block ← getIBlock dir blockCount
      if block = 0 then readdirBlocks dir totalBytes left (blockCount + 1) (byteCount + 4096) name
      else do
        let r ← readdirSlots block totalBytes 16 0 byteCount name
        let rest ← readdirBlocks dir totalBytes left (blockCount + 1) r.1 r.2.1
        pure (r.2.2 ++ rest)
    else pure []

/-- `tfs_readdir` -/
def tfsReaddir (path : List UInt8) : M (Int × List (List UInt8)) := do
  let dirLoc ← findPathNode path
  if dirLoc = 0 then pure (-2, [])
  else do
    let dir ← fetchNode dirLoc
    let t ← getCurrentTimeInNsec
    let dir := { dir with accessTime := t }
    let _ ← commitInode dir dirLoc
    let e ← environ
    let names ← readdirBlocks dir dir.size dir.blocks 0 0 e.junk
    pure (0, names)

/-! ## Removal -/

/-- `tfs_unlink` frees the blocks of a file from the first to the last. -/
def freeBlocksUp (drive : Int) (node : Node) : (left i : Nat) → M Unit
  | 0, _ => pure ()
  | left + 1, i => do
    let block ← getIBlock node i
    let _ ← freeBlock drive block
    freeBlocksUp drive node left (i + 1)

/-- The part of `tfs_unlink` after the parent search. -/
def unlinkFrom (parent cur : Nat) : M Int := do
  let status ← removeLinkFromParent parent cur
  if status = -1 then pure (-1)
  else do
    let g ← globals
    let e ← environ
    let curNode ← fetchNode cur
    let _ ← fetchNode parent
    let t ← getCurrentTimeInNsec
    let curNode := { curNode with links := (curNode.links + (2 ^ 32 - 1)) % 2 ^ 32, changeTime := t }
    let _ ← commitInode curNode cur
    if curNode.links = 0 then do
      if isDir curNode.mode then
        unlinkBlocks (subUnlink e.stack) g.drive cur curNode curNode.blocks curNode.blocks 0
      else freeBlocksUp g.drive curNode curNode.blocks 0
      let _ ← freeInode cur
    else do
      let _ ← commitInode curNode cur
    pure 0

/-- `tfs_unlink` -/
def tfsUnlink (path : List UInt8) : M Int := do
  let cur ← findPathNode path
  if cur = 0 then pure (-2)
  else do
    let _ ← fetchNode cur
    if path = [47] then pure (-1)
    else match splitLast path with
      | none => pure (-1)
      | some (before, _) => do
        let parent ← findParent before
        if parent = 0 then pure (-1) else unlinkFrom parent cur

/-- `tfs_rmdir` -/
def tfsRmdir (path : List UInt8) : M Int := tfsUnlink path

/-! ## Reading and writing -/

/-- The loop of `tfs_read`; `left` is `total_blocks - blocks`. The result is what is
    appended to the caller's buffer, whose bytes from here on are `buff`. -/
def readLoop (curNode : Node) : (left blocks loc byteCounter : Nat) → Mem → M (List UInt8)
  | 0, _, _, _, _ => pure []
  | left + 1, blocks, loc, byteCounter, buff =>
    if byteCounter ≠ 0 then do
      let block ← getIBlock curNode blocks
      let r ← readBlock buff block loc byteCounter
      let rest ← readLoop curNode left (blocks + 1) 0 (byteCounter - r.1) (fun k => buff (r.1 + k))
      pure ((List.range r.1).map r.2 ++ rest)
    else pure []

/-- `tfs_read` into a buffer that holds `buff`: the result and the bytes put there. -/
def tfsRead (path : List UInt8) (buff : Mem) (size : Nat) (offset : Nat) : M (Int × List UInt8) := do
  let cur ← findPathNode path
  if cur = 0 then pure (-2, [])
  else do
    let curNode ← fetchNode cur
    let totalBytes := curNode.size
    let totalBlocks := curNode.blocks
    if offset ≥ totalBytes then pure (-1, [])
    else do
      let blocks := offset / 4096
      let loc := offset % 4096
      let byteCounter := if (offset + size) % 2 ^ 64 > totalBytes then totalBytes - offset else size
      let t ← getCurrentTimeInNsec
      let curNode := { curNode with accessTime := t }
      let _ ← commitInode curNode cur
      let bytes ← readLoop curNode (totalBlocks - blocks) blocks loc byteCounter buff
      pure (int32 bytes.length, bytes)

/-- `for (i = total_blocks; i < final_blocks; i++)` of `tfs_write`, which stops at the
    first failure. -/
def growLoop (cur : Nat) : (left : Nat) → Node → M Node
  | 0, curNode => pure curNode
  | left + 1, curNode => do
    let r ← addBlockToNode curNode cur
    if r.1 = 0 then pure r.2 else growLoop cur left r.2

/-- The loop of `tfs_write`; `left` is `total_blocks - blocks`. The result is `bytes`. -/
def writeLoop (curNode : Node) (buff : Mem) : (left blocks loc byteCounter bytes : Nat) → M Nat
  | 0, _, _, _, bytes => pure bytes
  | left + 1, blocks, loc, byteCounter, bytes =>
    if byteCounter ≠ 0 then do
      let block ← getIBlock curNode blocks
      let w ← writeBlock (fun k => buff (bytes + k)) block loc byteCounter
      let tmp := u64 w
      writeLoop curNode buff left (blocks + 1) 0 (u64 (byteCounter - tmp)) ((bytes + tmp) % 2 ^ 64)
    else pure bytes

/-- `(size + offset) / BLOCKSIZE + (((size + offset) % BLOCKSIZE) == 0 ? 0 : 1)` -/
def finalBlocks (size offset : Nat) : Nat :=
  (size + offset) % 2 ^ 64 / 4096 + if (size + offset) % 2 ^ 64 % 4096 = 0 then 0 else 1

/-- `tfs_write` -/
def tfsWrite (path : List UInt8) (buff : Mem) (size : Nat) (offset : Nat) : M Int := do
  let cur ← findPathNode path
  if cur = 0 then pure (-2)
  else do
    let curNode ← fetchNode cur
    let totalBytes := curNode.size
    let totalBlocks := curNode.blocks
    let t ← getCurrentTimeInNsec
    let curNode := { curNode with dataTime := t, changeTime := t }
    let _ ← commitInode curNode cur
    let curNode ← if (size + offset) % 2 ^ 64 > totalBytes then
        growLoop cur (finalBlocks size offset - totalBlocks) curNode
      else pure curNode
    let bytes ← writeLoop curNode buff (curNode.blocks - offset / 4096) (offset / 4096) (offset % 4096) size 0
    let last := (offset + bytes) % 2 ^ 64
    let curNode := { curNode with size := if totalBytes > last then totalBytes else last }
    let _ ← commitInode curNode cur
    pure (int32 bytes)

/-- The loop of `tfs_truncate`, whose index is a uint32_t; the node's `blocks` goes down
    as it runs. -/
def truncateLoop (drive : Int) : (left i : Nat) → Node → M Node
  | 0, _, curNode => pure curNode
  | left + 1, i, curNode => do
    let block ← getIBlock curNode i
    let _ ← freeBlock drive block
    truncateLoop drive left (i + 1) { curNode with blocks := u64 (curNode.blocks - 1) }

/-- `tfs_truncate`. With 2^32 blocks or more its 32-bit index never reaches the end. -/
def tfsTruncate (path : List UInt8) (length : Int) : M Int := do
  let cur ← findPathNode path
  if cur = 0 then pure (-2)
  else do
    let curNode ← fetchNode cur
    if curNode.size ≤ u64 length then pure 0
    else do
      let g ← globals
      let blockNo := (length / 4096).toNat
      let _ ← getIBlock curNode blockNo
      let totalBlocks := curNode.blocks
      if 2 ^ 32 ≤ totalBlocks then failure
      else do
        let i := (blockNo + 1) % 2 ^ 32
        let curNode ← truncateLoop g.drive (totalBlocks - i) i curNode
        let t ← getCurrentTimeInNsec
        let curNode := { curNode with changeTime := t, dataTime := t, size := u64 length }
        let _ ← commitInode curNode cur
        pure 0

/-! ## Attributes -/

/-- The fields of `struct stat` the code fills in. -/
structure Stat where
  ino : Nat
  mode : Nat
  nlink : Nat
  size : Nat
  blocks : Nat
  uid : Nat
  gid : Nat
  blksize : Nat
  atime : Nat
  mtime : Nat
  ctime : Nat
  deriving DecidableEq

/-- `tfs_getattr` -/
def tfsGetattr (path : List UInt8) : M (Int × Option Stat) := do
  let cur ← findPathNode path
  if cur = 0 then pure (-2, none)
  else do
    let n ← fetchNode cur
    pure (0, some {
      ino := u64 (↑cur - 4096) / 256, mode := n.mode, nlink := n.links, size := n.size, blocks := n.blocks
      uid := n.userId, gid := n.groupId, blksize := 4096
      atime := n.accessTime, mtime := n.dataTime, ctime := n.changeTime })

/-- The permission bits that `tfs_open` looks for: `switch (fi->flags & O_ACCMODE)`. -/
def openBits (flags : Nat) : Nat :=
  if flags &&& 3 = 2 then 0x1B6 else if flags &&& 3 = 0 then 0x124 else if flags &&& 3 = 1 then 0x92 else 0

/-- `tfs_open` -/
def tfsOpen (path : List UInt8) (flags : Nat) : M Int := do
  let cur ← findPathNode path
  if cur = 0 then pure (-2)
  else do
    let curNode ← fetchNode cur
    let t ← getCurrentTimeInNsec
    let curNode := { curNode with accessTime := t }
    let _ ← commitInode curNode cur
    if openBits flags &&& curNode.mode ≠ 0 then pure 0 else pure (-1)

/-- `tfs_utime`, which sets the change time to `modtime`. -/
def tfsUtime (path : List UInt8) (actime modtime : Int) : M Int := do
  let cur ← findPathNode path
  if cur = 0 then pure (-2)
  else do
    let curNode ← fetchNode cur
    let curNode := { curNode with accessTime := u64 actime, changeTime := u64 modtime }
    let _ ← commitInode curNode cur
    pure 0

/-- `tfs_chmod` -/
def tfsChmod (path : List UInt8) (m : UInt32) : M Int := do
  let cur ← findPathNode path
  if cur = 0 then pure (-2)
  else do
    let curNode ← fetchNode cur
    let curNode := { curNode with mode := m.toNat }
    let _ ← commitInode curNode cur
    pure 0

/-- `tfs_chown` -/
def tfsChown (path : List UInt8) (owner group : UInt32) : M Int := do
  let cur ← findPathNode path
  if cur = 0 then pure (-2)
  else do
    let curNode ← fetchNode cur
    let curNode := { curNode with userId := owner.toNat, groupId := group.toNat }
    let _ ← commitInode curNode cur
    pure 0

/-- `tfs_flush` -/
def tfsFlush (_path : List UInt8) : M Int := pure 0

/-! ## Renaming -/

/-- `tfs_rename` -/
def tfsRename (path newName : List UInt8) : M Int := do
  let cur ← findPathNode path
  if cur = 0 then pure (-2)
  else do
    let _ ← fetchNode cur
    if path = [47] then pure (-1)
    else match splitLast path with
      | none => pure (-1)
      | some (before, _) => do
        let parent ← findParent before
        if parent = 0 then pure (-1)
        else match splitLast newName with
          | none => pure (-1)
          | some (_, name) => renameFromParent parent cur name

end TyrantFS

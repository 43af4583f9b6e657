import TyrantFS.Lib.Returns
import TyrantFS.Lib.Bytes
import TyrantFS.Lib.PageChain
import TyrantFS.Lib.PageTree
import TyrantFS.Lib.Overlay
import TyrantFS.Lib.NameTree
import TyrantFS.Lib.FileTree
import TyrantFS.Lib.Simulation
import TyrantFS.Disk.Device
import TyrantFS.Disk.Inode
import TyrantFS.Disk.Disk
import TyrantFS.Help.Help
import TyrantFS.Fuse.Tyrant
import TyrantFS.Disk.Blocks
import TyrantFS.Disk.Allocator
import TyrantFS.Disk.FreeSet
import TyrantFS.Disk.InodeTable
import TyrantFS.Disk.Entry
import TyrantFS.Disk.Via
import TyrantFS.Disk.Mkfs
import TyrantFS.Disk.Overrun
import TyrantFS.Disk.InodeSet
import TyrantFS.Disk.Image
import TyrantFS.Help.Tree
import TyrantFS.Help.BlockMap
import TyrantFS.Help.Directory
import TyrantFS.Help.Removal
import TyrantFS.Help.Frame
import TyrantFS.Help.Grow
import TyrantFS.Help.Largest
import TyrantFS.Help.Limit
import TyrantFS.Help.Insertion
import TyrantFS.Help.Refusal
import TyrantFS.Help.Lookup
import TyrantFS.Help.Stage
import TyrantFS.Help.Indirect
import TyrantFS.Help.Readers
import TyrantFS.Help.Walk
import TyrantFS.Help.Renaming
import TyrantFS.Fuse.Sound
import TyrantFS.Fuse.Crowd
import TyrantFS.Fuse.Search
import TyrantFS.Fuse.Release
import TyrantFS.Fuse.Truncate
import TyrantFS.Fuse.Unlink
import TyrantFS.Fuse.Rename
import TyrantFS.Fuse.Contents
import TyrantFS.Fuse.Write
import TyrantFS.Fuse.Gap
import TyrantFS.Fuse.Create
import TyrantFS.Fuse.Readdir
import TyrantFS.Fuse.Volume
import TyrantFS.Fuse.Attr
import TyrantFS.Fuse.Files
import TyrantFS.Fuse.Names
import TyrantFS.Fuse.Make
import TyrantFS.Fuse.Mount
import TyrantFS.Fuse.Spec
import TyrantFS.Fuse.Runs
import TyrantFS.Fuse.Growth
import TyrantFS.Fuse.Effects
import TyrantFS.Fuse.Rmdir
import TyrantFS.Fuse.Paths
import TyrantFS.Fuse.Invariants
import TyrantFS.Help.Filled
import TyrantFS.Help.Ahead
import TyrantFS.Help.Recycled
import TyrantFS.Fuse.Overlap
import TyrantFS.Fuse.Spare
import TyrantFS.Help.Astray
import TyrantFS.Help.Emptying
import TyrantFS.Fuse.Subtree

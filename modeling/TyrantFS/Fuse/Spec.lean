/-
  TyrantFS.Fuse.Spec — what the file system is for.

  A user sees a file tree and issues calls (`Call`); `Does` says what a call may answer
  and what the tree is afterwards. It knows nothing of blocks: a write or a new name may
  also fail half way or whole, which is when the disk is full. `Allowed` are the calls
  for which the code does that: what the kernel checks before a call (the name of a new
  file is free, directories are on the way), and the limits of the code.
-/
import TyrantFS.Fuse.Volume

namespace TyrantFS

open Lib Lib.Store

/-- The calls of FUSE that the table in tyrant.c answers. -/
inductive Call where
  | getattr (path : List UInt8)
  | readdir (path : List UInt8)
  | openFile (path : List UInt8) (flags : Nat)
  | read (path : List UInt8) (buff : Mem) (size offset : Nat)
  | write (path data : List UInt8) (offset : Nat)
  | truncate (path : List UInt8) (length : Nat)
  | mknod (path : List UInt8) (m : UInt32)
  | mkdir (path : List UInt8) (m : UInt32)
  | unlink (path : List UInt8)
  | rename (path newName : List UInt8)
  | utime (path : List UInt8) (actime modtime : Int)
  | chmod (path : List UInt8) (m : UInt32)
  | chown (path : List UInt8) (owner group : UInt32)
  | flush (path : List UInt8)

/-- What a call gives back: its result, the bytes read, the names listed, the attributes. -/
structure Reply where
  status : Int
  bytes : List UInt8
  names : List (List UInt8)
  stat : Option Stat

def answer (r : Int) : Reply := ⟨r, [], [], none⟩

/-- What a user sees: the tree, and whose files are made. -/
structure Fs where
  tree : FileTree
  userId : Nat
  groupId : Nat

noncomputable def Vol.fs (v : Vol) : Fs := ⟨v.tree, v.env.euid % 2 ^ 32, v.env.egid % 2 ^ 32⟩

/-- Where the path leads from the root, whose inode is the first. -/
def Fs.At (f : Fs) (path : List UInt8) (a : Nat) : Prop := Leads f.tree 4096 (tokens path) a

def Fs.with (f : Fs) (t : FileTree) : Fs := { f with tree := t }

/-- The attributes of the object `o` under the inode at `a`; the tree has no times. -/
structure Describes (o : Obj (List UInt8) Nat Attrs UInt8) (a : Nat) (st : Stat) : Prop where
  ino : st.ino = (a - 4096) / 256
  attrs : o.attrs = ⟨st.mode, st.uid, st.gid⟩
  nlink : st.nlink = 1
  size : st.size = match o.body with
    | .dir es => 256 * (es.length + 2)
    | .file bs => bs.length

/-- The path that a call looks up: that of the directory, where the name is new. -/
def Call.target : Call → Option (List UInt8)
  | .mknod path _ | .mkdir path _ => (splitLast path).map Prod.fst
  | .getattr path | .readdir path | .openFile path _ | .read path _ _ _ | .write path _ _ | .truncate path _ | .unlink path
  | .rename path _ | .utime path _ _ | .chmod path _ | .chown path _ _ => some path
  | .flush _ => none

/-- What a call answers, and what is seen afterwards. -/
inductive Does (f : Fs) : Call → Reply → Fs → Prop
  | missing (c : Call) (path : List UInt8) : c.target = some path → (∀ a, ¬ f.At path a) → Does f c (answer (-2)) f
  | getattr (path : List UInt8) (a : Nat) (o : Obj (List UInt8) Nat Attrs UInt8) (st : Stat) :
      f.At path a → f.tree a = some o → Describes o a st →
      Does f (.getattr path) { answer 0 with stat := some st } f
  | readdir (path : List UInt8) (a : Nat) : f.At path a → f.tree.IsDir a →
      Does f (.readdir path) { answer 0 with names := dotName :: dotDotName :: f.tree.names a } f
  | openFile (path : List UInt8) (flags a : Nat) (o : Obj (List UInt8) Nat Attrs UInt8) :
      f.At path a → f.tree a = some o →
      Does f (.openFile path flags) (answer (if openBits flags &&& o.attrs.mode ≠ 0 then 0 else -1)) f
  | read (path : List UInt8) (buff : Mem) (size offset a : Nat) (w : Attrs) (bs : List UInt8) :
      f.At path a → f.tree a = some ⟨w, .file bs⟩ → offset < bs.length →
      Does f (.read path buff size offset)
        { answer (min size (bs.length - offset) : Nat) with bytes := (bs.drop offset).take size } f
  | readEnd (path : List UInt8) (buff : Mem) (size offset a : Nat) (w : Attrs) (bs : List UInt8) :
      f.At path a → f.tree a = some ⟨w, .file bs⟩ → bs.length ≤ offset →
      Does f (.read path buff size offset) (answer (-1)) f
  | write (path data : List UInt8) (offset a : Nat) (w : Attrs) (bs : List UInt8) (k : Nat) :
      f.At path a → f.tree a = some ⟨w, .file bs⟩ → offset ≤ bs.length → k ≤ data.length →
      Does f (.write path data offset) (answer k) (f.with (f.tree.setBody a (.file (overlay bs offset (data.take k)))))
  | truncate (path : List UInt8) (length a : Nat) (w : Attrs) (bs : List UInt8) : f.At path a → f.tree a = some ⟨w, .file bs⟩ →
      Does f (.truncate path length) (answer 0) (f.with (f.tree.setBody a (.file (bs.take length))))
  | mknod (path before name : List UInt8) (m : UInt32) (d a : Nat) : splitLast path = some (before, name) → f.At before d →
      f.tree.IsDir d → name ∉ f.tree.names d → f.tree a = none →
      Does f (.mknod path m) (answer 0) (f.with (f.tree.make d name a ⟨⟨m.toNat, f.userId, f.groupId⟩, .file []⟩))
  | mkdir (path before name : List UInt8) (m : UInt32) (d a : Nat) : splitLast path = some (before, name) → f.At before d →
      f.tree.IsDir d → name ∉ f.tree.names d → f.tree a = none →
      Does f (.mkdir path m) (answer 0) (f.with (f.tree.make d name a ⟨⟨m.toNat ||| 0x4000, f.userId, f.groupId⟩, .dir []⟩))
  | mknodFull (path before name : List UInt8) (m : UInt32) (d : Nat) : splitLast path = some (before, name) → f.At before d →
      Does f (.mknod path m) (answer (-1)) f
  | mkdirFull (path before name : List UInt8) (m : UInt32) (d : Nat) : splitLast path = some (before, name) → f.At before d →
      Does f (.mkdir path m) (answer (-1)) f
  | unlink (path before x : List UInt8) (d c : Nat) (es : List (List UInt8 × Nat)) : splitLast path = some (before, x) →
      x ≠ [] → f.At before d → f.tree.IsFile c → (f.tree.entries d).Perm ((x, c) :: es) →
      Does f (.unlink path) (answer 0) (f.with (f.tree.drop d c es))
  | rename (path newName before x before' y : List UInt8) (d c : Nat) : splitLast path = some (before, x) → x ≠ [] →
      splitLast newName = some (before', y) → f.At before d → (x, c) ∈ f.tree.entries d → (y = x ∨ y ∉ f.tree.names d) →
      Does f (.rename path newName) (answer 0) (f.with (f.tree.label d x y))
  | utime (path : List UInt8) (actime modtime : Int) (a : Nat) : f.At path a → Does f (.utime path actime modtime) (answer 0) f
  | chmod (path : List UInt8) (m : UInt32) (a : Nat) (w : Attrs) (b : Body (List UInt8) Nat UInt8) :
      f.At path a → f.tree a = some ⟨w, b⟩ →
      Does f (.chmod path m) (answer 0) (f.with (f.tree.setAttrs a ⟨m.toNat, w.userId, w.groupId⟩))
  | chown (path : List UInt8) (owner group : UInt32) (a : Nat) (w : Attrs) (b : Body (List UInt8) Nat UInt8) :
      f.At path a → f.tree a = some ⟨w, b⟩ →
      Does f (.chown path owner group) (answer 0) (f.with (f.tree.setAttrs a ⟨w.mode, owner.toNat, group.toNat⟩))
  | flush (path : List UInt8) : Does f (.flush path) (answer 0) f

/-- Whatever a call does is one step on the tree. -/
theorem Does.step {f f' : Fs} {c : Call} {r : Reply} (h : Does f c r f') : Step f.tree f'.tree := by
  cases h with
  | write path data offset a w bs k _ ha => exact .write a _ ⟨w, bs, ha⟩
  | truncate path length a w bs _ ha => exact .write a _ ⟨w, bs, ha⟩
  | mknod path before name m d a _ _ hd hn ha => exact .make d name a _ hd hn ha (Or.inr ⟨[], rfl⟩)
  | mkdir path before name m d a _ _ hd hn ha => exact .make d name a _ hd hn ha (Or.inl rfl)
  | unlink path before x d c es _ _ _ hc hp => exact .drop d x c es hc hp
  | rename path newName before x before' y d c _ _ _ _ hx hy => exact .label d x y (.of_mem hx) hy
  | chmod path m a w b => exact .attrs a _
  | chown path owner group a w b => exact .attrs a _
  | missing | getattr | readdir | openFile | read | readEnd | mknodFull | mkdirFull | utime | flush => exact .same

/-! ## The calls it is about -/

/-- The path leads through directories, and has no "." or "..". -/
structure Fs.Path (f : Fs) (path : List UInt8) : Prop where
  plain : Plain (tokens path)
  walkable : Walkable f.tree 4096 (tokens path)

/-- A name for a new entry of the directory that `before` leads to, where 190 entries fit
    into the direct blocks beside "." and "..". -/
structure Fs.NewName (f : Fs) (before name : List UInt8) : Prop where
  path : f.Path before
  isName : IsName name
  plain : name ≠ dotName ∧ name ≠ dotDotName
  room : ∀ d, f.At before d → f.tree.IsDir d ∧ name ∉ f.tree.names d ∧ (f.tree.entries d).length < 190

/-- The calls that the code serves. -/
def Fs.Allowed (f : Fs) : Call → Prop
  | .getattr path | .openFile path _ | .utime path _ _ | .chown path _ _ => f.Path path
  | .flush _ => True
  | .readdir path => f.Path path ∧ ∀ a, f.At path a → f.tree.IsDir a
  | .read path _ size offset => f.Path path ∧ (∀ a, f.At path a → f.tree.IsFile a) ∧ size < 2 ^ 31 ∧ offset + size < 2 ^ 63
  -- no gap is left behind the old end, and a single indirect block is enough
  | .write path data offset => f.Path path ∧ (∀ a, f.At path a → ∃ w bs, f.tree a = some ⟨w, .file bs⟩ ∧ offset ≤ bs.length) ∧
      offset + data.length ≤ 4096 * (12 + 512)
  | .truncate path length => f.Path path ∧ (∀ a, f.At path a → f.tree.IsFile a) ∧ length < 2 ^ 63
  | .mknod path m => (∃ before name, splitLast path = some (before, name) ∧ f.NewName before name) ∧ m.toNat ≠ 0 ∧ isDir m.toNat = false
  | .mkdir path _ => ∃ before name, splitLast path = some (before, name) ∧ f.NewName before name
  -- a file; the last entry is moved to its place, but for one that begins a block
  | .unlink path => f.Path path ∧ ∃ before x, splitLast path = some (before, x) ∧ x ≠ [] ∧
      ∀ d c, f.At before d → (x, c) ∈ f.tree.entries d → f.tree.IsFile c ∧
        (((f.tree.entries d).length + 2) % 16 ≠ 0 ∨ (f.tree.entries d).getLast? = some (x, c))
  -- in its directory
  | .rename path newName => f.Path path ∧ ∃ before x before' y, splitLast path = some (before, x) ∧ x ≠ [] ∧
      splitLast newName = some (before', y) ∧ tokens before' = tokens before ∧ IsName y ∧ (y ≠ dotName ∧ y ≠ dotDotName) ∧
      ∀ d, f.At before d → y = x ∨ y ∉ f.tree.names d
  | .chmod path m => f.Path path ∧ m.toNat ≠ 0 ∧ ∀ a, f.At path a → (f.tree.IsDir a ↔ isDir m.toNat)

end TyrantFS

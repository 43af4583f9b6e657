/-
  TyrantFS.Disk.Image — disks put together from an inode table and the blocks behind it.

  `imageFrom lo head table data`: the superblock's word is `head`, the inode table is what
  lies between 4096 and `lo` (slot `a` holds `table a`), and behind it the bytes are `data`.
  `image` is the same with a table of one block.
  `dirBlocks es` are the blocks of a directory with the entries `es`, packed.
-/
import TyrantFS.Disk.Allocator
import TyrantFS.Disk.InodeTable
import TyrantFS.Disk.Entry

namespace TyrantFS

open Lib

def imageFrom (lo head : Nat) (table : Nat → Option Node) (data : Mem) : Mem := fun x =>
  if x < 4096 then (if x < 8 then leByte head x else 0)
  else if x < lo then
    match table (x / 256 * 256) with
    | some n => if x % 256 < 208 then n.encode (x % 256) else 0
    | none => 0
  else data x

def image (head : Nat) (table : Nat → Option Node) (data : Mem) : Mem := imageFrom 8192 head table data

/-- A process on that disk, whose size is a whole number of blocks; uninitialised locals
    hold `junk`. -/
def imageSys (blocks : Nat) (h : blocks < 2 ^ 52) (head : Nat) (table : Nat → Option Node) (data junk : Mem) : Sys where
  vol := {
    env := { Env.still with junk := junk }
    glob := ⟨4096, 3, 4096 * blocks, blocks, 1, blocks - 2, 8192⟩
    size := 4096 * blocks
    size_lt := by omega
    bytes := image head table data
    ticks := 0 }
  pos := 0

@[simp] theorem imageSys_bytes {blocks head : Nat} {h : blocks < 2 ^ 52} {table : Nat → Option Node} {data junk : Mem} :
    (imageSys blocks h head table data junk).vol.bytes = image head table data := rfl

section
variable {lo head a x : Nat} {table : Nat → Option Node} {data : Mem} {n : Node}

theorem imageFrom_super (h : head < 2 ^ 64) : word (imageFrom lo head table data) 0 = head := by
  have e : leVal 8 (fun k => imageFrom lo head table data (0 + k)) = leVal 8 (leByte head) := leVal_congr fun k hk => by
    rw [imageFrom, Nat.zero_add, if_pos (by omega), if_pos hk]
  rw [word, e, leVal_leByte]
  exact Nat.mod_eq_of_lt (by simpa using h)

theorem imageFrom_data (hl : 4096 ≤ lo) (h : lo ≤ x) : imageFrom lo head table data x = data x := by
  rw [imageFrom, if_neg (by omega), if_neg (by omega)]

theorem imageFrom_slot (h1 : 4096 ≤ a) (h2 : a + 208 ≤ lo) (ha : a % 256 = 0) {k : Nat} (hk : k < 208) :
    imageFrom lo head table data (a + k) = match table a with | some n => n.encode k | none => 0 := by
  rw [imageFrom, if_neg (by omega), if_pos (by omega), show (a + k) / 256 * 256 = a by omega, show (a + k) % 256 = k by omega]
  split
  · rw [if_pos hk]
  · rfl

theorem imageFrom_node (h1 : 4096 ≤ a) (h2 : a + 208 ≤ lo) (ha : a % 256 = 0) (ht : table a = some n) (hf : n.Fits) :
    nodeAt (imageFrom lo head table data) a = n := by
  rw [← decode_encode hf]
  refine decode_congr fun k hk => ?_
  rw [imageFrom_slot h1 h2 ha hk, ht]

theorem imageFrom_unused (h1 : 4096 ≤ a) (h2 : a + 208 ≤ lo) (ha : a % 256 = 0) (ht : table a = none) :
    ¬ InUse (imageFrom lo head table data) a := by
  have h : nodeAt (imageFrom lo head table data) a = Node.decode zeros :=
    nodeAt_zero fun k hk => by rw [imageFrom_slot h1 h2 ha hk, ht]
  unfold InUse
  rw [h, decode_zeros_mode]
  exact fun h => h rfl

theorem image_super (h : head < 2 ^ 64) : word (image head table data) 0 = head := imageFrom_super h

theorem image_data (h : 8192 ≤ x) : image head table data x = data x := imageFrom_data (by decide) h

theorem image_node (h1 : 4096 ≤ a) (h2 : a < 8192) (ha : a % 256 = 0) (ht : table a = some n) (hf : n.Fits) :
    nodeAt (image head table data) a = n := imageFrom_node h1 (by omega) ha ht hf

theorem image_unused (h1 : 4096 ≤ a) (h2 : a < 8192) (ha : a % 256 = 0) (ht : table a = none) :
    ¬ InUse (image head table data) a := imageFrom_unused h1 (by omega) ha ht

end

/-! ## Directories -/

def dirBlocks (es : List (List UInt8 × Nat)) : Mem := fun x =>
  match es[x / 256]? with
  | some (name, child) => if x % 256 < 248 then strBuf name zeros (x % 256) else leByte child (x % 256 - 248)
  | none => 0

section
variable {m : Mem} {b e : Nat} {es : List (List UInt8 × Nat)}

theorem dirBlocks_rest (he : es.length ≤ e) {k : Nat} (hk : k < 256) : dirBlocks es (256 * e + k) = 0 := by
  rw [dirBlocks, show (256 * e + k) / 256 = e by omega, List.getElem?_eq_none he]

theorem dirBlocks_name (he : e < es.length) (hn : IsName es[e].1)
    (hm : ∀ k < 256, m (b + k) = dirBlocks es (256 * e + k)) : entryName m b = es[e].1 := by
  have hb : ∀ k < 248, m (b + k) = strBuf es[e].1 zeros k := fun k hk => by
    rw [hm k (by omega), dirBlocks, show (256 * e + k) / 256 = e by omega, show (256 * e + k) % 256 = k by omega,
      List.getElem?_eq_getElem he]
    exact if_pos hk
  refine cstr_of_prefix hn.short hn.noNul (fun k hk => ?_) ?_
  · rw [hb k (by have := hn.short; omega), strBuf_lt hk]
  · rw [hb _ hn.short, strBuf_length]

theorem dirBlocks_addr (he : e < es.length) (hc : es[e].2 < 2 ^ 64)
    (hm : ∀ k < 256, m (b + k) = dirBlocks es (256 * e + k)) : entryAddr m b = es[e].2 := by
  have hb : leVal 8 (fun k => m (b + 248 + k)) = leVal 8 (leByte es[e].2) := leVal_congr fun k hk => by
    rw [Nat.add_assoc, hm _ (by omega), dirBlocks, show (256 * e + (248 + k)) / 256 = e by omega,
      show (256 * e + (248 + k)) % 256 = 248 + k by omega, List.getElem?_eq_getElem he]
    simp only
    rw [if_neg (by omega), Nat.add_sub_cancel_left]
  rw [entryAddr, word, hb, leVal_leByte]
  exact Nat.mod_eq_of_lt (by simpa using hc)

end

/-- An inode whose blocks are the consecutive ones from `b` on. -/
def plainNode (mode size blocks b links : Nat) : Node :=
  { Node.decode zeros with
    mode := mode, size := size, blocks := blocks, links := links
    directBlocks := Vector.ofFn fun i => if i < blocks then b + 4096 * i else 0 }

section
variable {mode size blocks b links : Nat}

theorem plainNode_fits (hm : mode < 2 ^ 32) (hs : size < 2 ^ 64) (hb : blocks < 2 ^ 64) (hl : links < 2 ^ 32)
    (hd : b + 4096 * 12 < 2 ^ 64) : (plainNode mode size blocks b links).Fits :=
  { decode_fits zeros with
    mode := hm, size := hs, blocks := hb, links := hl
    direct := fun i hi => by
      simp only [plainNode, Vector.getElem_ofFn]
      split <;> omega }

theorem plainNode_direct {i : Nat} (hi : i < 12) (hb : i < blocks) :
    (plainNode mode size blocks b links).direct i = b + 4096 * i := by
  rw [Node.direct, dif_pos hi]
  simp only [plainNode, Vector.getElem_ofFn]
  rw [if_pos hb]

theorem plainNode_indirect (mode size blocks b links : Nat) : (plainNode mode size blocks b links).indirectBlocks = 0 ∧
    (plainNode mode size blocks b links).dblIndirect = 0 ∧ (plainNode mode size blocks b links).trplIndirect = 0 :=
  ⟨leVal_zero 8, leVal_zero 8, leVal_zero 8⟩

end

end TyrantFS

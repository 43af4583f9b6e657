/-
  TyrantFS.Disk.Inode — `struct inode` of disk.h as it lies on the device: 208 bytes
  with the offsets the compiler gives it (4 bytes of padding after `mode` and after
  `links`), in a slot of 256.
-/
import TyrantFS.Disk.Device

namespace TyrantFS

open Lib

structure Node where
  userId : Nat
  groupId : Nat
  mode : Nat
  size : Nat
  accessTime : Nat
  changeTime : Nat
  dataTime : Nat
  creationTime : Nat
  deletionTime : Nat
  links : Nat
  blocks : Nat
  directBlocks : Vector Nat 12
  indirectBlocks : Nat
  dblIndirect : Nat
  trplIndirect : Nat
  flags : Nat
  checksum : Nat

def Node.layout (n : Node) : List Field :=
  [⟨0, 4, n.userId⟩, ⟨4, 4, n.groupId⟩, ⟨8, 4, n.mode⟩, ⟨16, 8, n.size⟩, ⟨24, 8, n.accessTime⟩,
    ⟨32, 8, n.changeTime⟩, ⟨40, 8, n.dataTime⟩, ⟨48, 8, n.creationTime⟩, ⟨56, 8, n.deletionTime⟩,
    ⟨64, 4, n.links⟩, ⟨72, 8, n.blocks⟩] ++
  (List.finRange 12).map (fun i => ⟨80 + 8 * i, 8, n.directBlocks[i]⟩) ++
  [⟨176, 8, n.indirectBlocks⟩, ⟨184, 8, n.dblIndirect⟩, ⟨192, 8, n.trplIndirect⟩, ⟨200, 4, n.flags⟩,
    ⟨204, 4, n.checksum⟩]

/-- The bytes of the struct. -/
def Node.encode (n : Node) : Mem := record n.layout

/-- The struct a buffer of 208 bytes holds. -/
def Node.decode (f : Mem) : Node where
  userId := leVal 4 f
  groupId := leVal 4 fun k => f (4 + k)
  mode := leVal 4 fun k => f (8 + k)
  size := leVal 8 fun k => f (16 + k)
  accessTime := leVal 8 fun k => f (24 + k)
  changeTime := leVal 8 fun k => f (32 + k)
  dataTime := leVal 8 fun k => f (40 + k)
  creationTime := leVal 8 fun k => f (48 + k)
  deletionTime := leVal 8 fun k => f (56 + k)
  links := leVal 4 fun k => f (64 + k)
  blocks := leVal 8 fun k => f (72 + k)
  directBlocks := Vector.ofFn fun i => leVal 8 fun k => f (80 + 8 * i + k)
  indirectBlocks := leVal 8 fun k => f (176 + k)
  dblIndirect := leVal 8 fun k => f (184 + k)
  trplIndirect := leVal 8 fun k => f (192 + k)
  flags := leVal 4 fun k => f (200 + k)
  checksum := leVal 4 fun k => f (204 + k)

/-- The inode at `a`. -/
def nodeAt (m : Mem) (a : Nat) : Node := Node.decode fun k => m (a + k)

/-- Every field holds what its C type can. -/
structure Node.Fits (n : Node) : Prop where
  userId : n.userId < 2 ^ 32
  groupId : n.groupId < 2 ^ 32
  mode : n.mode < 2 ^ 32
  size : n.size < 2 ^ 64
  accessTime : n.accessTime < 2 ^ 64
  changeTime : n.changeTime < 2 ^ 64
  dataTime : n.dataTime < 2 ^ 64
  creationTime : n.creationTime < 2 ^ 64
  deletionTime : n.deletionTime < 2 ^ 64
  links : n.links < 2 ^ 32
  blocks : n.blocks < 2 ^ 64
  direct : ∀ (i : Nat) (h : i < 12), n.directBlocks[i] < 2 ^ 64
  indirectBlocks : n.indirectBlocks < 2 ^ 64
  dblIndirect : n.dblIndirect < 2 ^ 64
  trplIndirect : n.trplIndirect < 2 ^ 64
  flags : n.flags < 2 ^ 32
  checksum : n.checksum < 2 ^ 32

/-! ## Decoding what was encoded -/

theorem layout_apart (n : Node) : n.layout.Pairwise Field.Apart := by
  have h : (n.layout.map fun f => (f.start, f.width)).Pairwise
      (fun a b => a.1 + a.2 ≤ b.1 ∨ b.1 + b.2 ≤ a.1) := by
    have e : (n.layout.map fun f => (f.start, f.width)) =
        [(0, 4), (4, 4), (8, 4), (16, 8), (24, 8), (32, 8), (40, 8), (48, 8), (56, 8), (64, 4), (72, 8), (80, 8),
          (88, 8), (96, 8), (104, 8), (112, 8), (120, 8), (128, 8), (136, 8), (144, 8), (152, 8), (160, 8), (168, 8),
          (176, 8), (184, 8), (192, 8), (200, 4), (204, 4)] := rfl
    rw [e]
    decide
  exact (List.pairwise_map (f := fun g : Field => (g.start, g.width))).mp h

theorem encode_field (n : Node) {s w v : Nat} (hm : (⟨s, w, v⟩ : Field) ∈ n.layout) (hv : v < 256 ^ w) :
    leVal w (fun k => n.encode (s + k)) = v := record_field (layout_apart n) hm hv

theorem encode_direct (n : Node) (i : Fin 12) (hv : n.directBlocks[i] < 2 ^ 64) :
    leVal 8 (fun k => n.encode (80 + 8 * i + k)) = n.directBlocks[i] :=
  encode_field n (List.mem_append_left _ (List.mem_append_right _ (List.mem_map.mpr ⟨i, List.mem_finRange i, rfl⟩)))
    (by simpa using hv)

theorem decode_encode {n : Node} (h : n.Fits) : Node.decode n.encode = n := by
  have f4 : ∀ {s v : Nat}, (⟨s, 4, v⟩ : Field) ∈ n.layout → v < 2 ^ 32 → leVal 4 (fun k => n.encode (s + k)) = v :=
    fun hm hv => encode_field n hm (by simpa using hv)
  have f8 : ∀ {s v : Nat}, (⟨s, 8, v⟩ : Field) ∈ n.layout → v < 2 ^ 64 → leVal 8 (fun k => n.encode (s + k)) = v :=
    fun hm hv => encode_field n hm (by simpa using hv)
  have hu : leVal 4 n.encode = n.userId := by
    have := f4 (s := 0) (v := n.userId) (by simp [Node.layout]) h.userId
    simpa using this
  have hd : (Vector.ofFn fun i : Fin 12 => leVal 8 fun k => n.encode (80 + 8 * i + k)) = n.directBlocks := by
    refine Vector.ext fun i hi => ?_
    rw [Vector.getElem_ofFn]
    exact encode_direct n ⟨i, hi⟩ (h.direct i hi)
  unfold Node.decode
  rw [hu, hd, f4 (s := 4) (v := n.groupId) (by simp [Node.layout]) h.groupId,
    f4 (s := 8) (v := n.mode) (by simp [Node.layout]) h.mode,
    f8 (s := 16) (v := n.size) (by simp [Node.layout]) h.size,
    f8 (s := 24) (v := n.accessTime) (by simp [Node.layout]) h.accessTime,
    f8 (s := 32) (v := n.changeTime) (by simp [Node.layout]) h.changeTime,
    f8 (s := 40) (v := n.dataTime) (by simp [Node.layout]) h.dataTime,
    f8 (s := 48) (v := n.creationTime) (by simp [Node.layout]) h.creationTime,
    f8 (s := 56) (v := n.deletionTime) (by simp [Node.layout]) h.deletionTime,
    f4 (s := 64) (v := n.links) (by simp [Node.layout]) h.links,
    f8 (s := 72) (v := n.blocks) (by simp [Node.layout]) h.blocks,
    f8 (s := 176) (v := n.indirectBlocks) (by simp [Node.layout]) h.indirectBlocks,
    f8 (s := 184) (v := n.dblIndirect) (by simp [Node.layout]) h.dblIndirect,
    f8 (s := 192) (v := n.trplIndirect) (by simp [Node.layout]) h.trplIndirect,
    f4 (s := 200) (v := n.flags) (by simp [Node.layout]) h.flags,
    f4 (s := 204) (v := n.checksum) (by simp [Node.layout]) h.checksum]

theorem decode_fits (f : Mem) : (Node.decode f).Fits := by
  have h4 : ∀ g, leVal 4 g < 2 ^ 32 := leVal_lt 4
  have h8 : ∀ g, leVal 8 g < 2 ^ 64 := leVal_lt 8
  constructor <;> simp only [Node.decode, Vector.getElem_ofFn, h4, h8, implies_true]

/-- The fields most operations change. -/
theorem Node.Fits.touch {n : Node} {s b t u : Nat} (h : n.Fits) (hs : s < 2 ^ 64) (hb : b < 2 ^ 64) (ht : t < 2 ^ 64)
    (hu : u < 2 ^ 64) : ({ n with size := s, blocks := b, dataTime := t, changeTime := u } : Node).Fits :=
  { h with size := hs, blocks := hb, dataTime := ht, changeTime := hu }

theorem decode_congr {f g : Mem} (h : ∀ k < 208, f k = g k) : Node.decode f = Node.decode g := by
  have c : ∀ {w s : Nat}, s + w ≤ 208 → leVal w (fun k => f (s + k)) = leVal w (fun k => g (s + k)) :=
    fun hs => leVal_congr fun k hk => h _ (by omega)
  have hu : leVal 4 f = leVal 4 g := leVal_congr fun k hk => h k (by omega)
  have hd : (Vector.ofFn fun i : Fin 12 => leVal 8 fun k => f (80 + 8 * i + k)) =
      Vector.ofFn fun i : Fin 12 => leVal 8 fun k => g (80 + 8 * i + k) := by
    refine Vector.ext fun i hi => ?_
    rw [Vector.getElem_ofFn, Vector.getElem_ofFn]
    exact c (s := 80 + 8 * i) (by omega)
  unfold Node.decode
  rw [hu, hd, c (s := 4) (by omega), c (s := 8) (by omega), c (s := 16) (by omega), c (s := 24) (by omega),
    c (s := 32) (by omega), c (s := 40) (by omega), c (s := 48) (by omega), c (s := 56) (by omega),
    c (s := 64) (by omega), c (s := 72) (by omega), c (s := 176) (by omega), c (s := 184) (by omega),
    c (s := 192) (by omega), c (s := 200) (by omega), c (s := 204) (by omega)]

theorem nodeAt_fits (m : Mem) (a : Nat) : (nodeAt m a).Fits := decode_fits _

theorem nodeAt_congr {m m' : Mem} {a : Nat} (h : ∀ k < 208, m' (a + k) = m (a + k)) : nodeAt m' a = nodeAt m a :=
  decode_congr h

theorem nodeAt_put {m : Mem} {a : Nat} {n : Node} (h : n.Fits) : nodeAt (put m a 208 n.encode) a = n := by
  rw [nodeAt, decode_congr (g := n.encode) fun k hk => ?_, decode_encode h]
  rw [put_in (by omega) (by omega), Nat.add_sub_cancel_left]

theorem nodeAt_put_out {m f : Mem} {a b w : Nat} (h : a + 208 ≤ b ∨ b + w ≤ a) :
    nodeAt (put m b w f) a = nodeAt m a := nodeAt_congr fun k hk => put_out (by omega)

/-! ## Block numbers as the struct holds them -/

/-- `direct_blocks[i]` -/
def Node.direct (n : Node) (i : Nat) : Nat := if h : i < 12 then n.directBlocks[i] else 0

/-- `direct_blocks[i] = b` -/
def Node.setDirect (n : Node) (i b : Nat) : Node :=
  if h : i < 12 then { n with directBlocks := n.directBlocks.set i b } else n

theorem direct_setDirect (n : Node) {i b j : Nat} (hi : i < 12) :
    (n.setDirect i b).direct j = if j = i then b else n.direct j := by
  simp only [Node.setDirect, hi, dif_pos, Node.direct]
  by_cases hj : j < 12
  · simp only [hj, dif_pos, Vector.getElem_set, eq_comm]
  · rw [dif_neg hj, dif_neg hj, if_neg (by omega)]

theorem setDirect_fits {n : Node} (h : n.Fits) {i b : Nat} (hb : b < 2 ^ 64) : (n.setDirect i b).Fits := by
  unfold Node.setDirect
  split
  · rename_i hi
    refine { h with direct := fun j hj => ?_ }
    simp only [Vector.getElem_set]
    split
    · exact hb
    · exact h.direct j hj
  · exact h

end TyrantFS

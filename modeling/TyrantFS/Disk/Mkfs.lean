/-
  TyrantFS.Disk.Mkfs — the disk `tfs_mkfs` leaves.

  With `ib` inode blocks the data region starts at `B = (ib + 1) * 4096`, and
  `D = 64 * ib - 1` blocks are listed after the first page: page `t` of the free list is
  the block `B + 4096 * 512 * t`, its slot `k` holds `B + 4096 * (512 * t + k + 1)` as
  long as `512 * t + k < D` and is zero from there on. `D` is odd, so the last page is
  never full and its link slot stays zero.

  The loops are followed for every `write` that does inside the device what `write` does
  there: none of them leaves it.
-/
import TyrantFS.Disk.Via
import TyrantFS.Disk.InodeTable
import TyrantFS.Disk.Entry

namespace TyrantFS

open Lib Lib.PageChain

variable {write : Mem → Nat → M Int}

/-! ## Writing on a whole volume -/

/-- The volume with other contents. -/
def Vol.set (v : Vol) (f : Mem) : Vol := { v with bytes := f }

section
variable {v : Vol} {f g : Mem} {p n x : Nat}

@[simp] theorem set_bytes : (v.set f).bytes = f := rfl
@[simp] theorem set_size : (v.set f).size = v.size := rfl
@[simp] theorem set_glob : (v.set f).glob = v.glob := rfl
@[simp] theorem set_env : (v.set f).env = v.env := rfl

theorem write_set (hw : IsWrite write) (h : p + n ≤ v.size) :
    Returns ((View.all (v.set f)).At p) (write g n) n ((View.all (v.set (put f p n g))).At (p + n)) :=
  (hw.at (K := .all (v.set f)) h).post fun _ hs =>
    ⟨⟨hs.1.env, hs.1.glob, hs.1.size, hs.1.ticks, fun y _ => hs.1.bytes y (Or.inl trivial)⟩, hs.2⟩

theorem writeVar_set (hw : IsWrite write) (h : p + 8 ≤ v.size) :
    Returns ((View.all (v.set f)).At p) (writeVarVia write x) 8 ((View.all (v.set (putWord f p x))).At (p + 8)) := write_set hw h

/-! ## Clearing -/

theorem put_zeros_append {a b : Nat} : put (put f p a zeros) (p + a) b zeros = put f p (a + b) zeros := by
  funext y
  by_cases h : p + a ≤ y ∧ y < p + a + b
  · rw [put_in h.1 h.2, put_in (by omega) (by omega)]
    rfl
  · rw [put_out (by omega)]
    by_cases h' : p ≤ y ∧ y < p + a
    · rw [put_in h'.1 h'.2, put_in h'.1 (by omega)]
    · rw [put_out (by omega), put_out (by omega)]

theorem mkfsClear_set (hw : IsWrite write) (h : p + 4096 * n ≤ v.size) :
    Returns ((View.all (v.set f)).At p) (mkfsClearVia write n) () ((View.all (v.set (put f p (4096 * n) zeros))).At (p + 4096 * n)) := by
  induction n generalizing p f with
  | zero =>
    have e : put f p 0 zeros = f := funext fun y => put_out (by omega)
    rw [Nat.mul_zero, e]
    exact Returns.pure _
  | succ n ih =>
    have ih := ih (p := p + 4096) (f := put f p 4096 zeros) (by omega)
    rw [put_zeros_append] at ih
    have hfits : p + 4096 ≤ v.size := by grind
    rw [mkfsClearVia, show 4096 * (n + 1) = 4096 + 4096 * n by omega, ← Nat.add_assoc]
    exact (write_set hw hfits).bind ih

end

/-! ## One page -/

/-- `n` words from `q` on: `a`, `a + 4096`, ... -/
def fillWords (f : Mem) (q a : Nat) : Nat → Mem
  | 0 => f
  | n + 1 => putWord (fillWords f q a n) (q + 8 * n) (a + 4096 * n)

section
variable {v : Vol} {f : Mem} {q a n k x : Nat}

theorem fillWords_out (h : x < q ∨ q + 8 * n ≤ x) : fillWords f q a n x = f x := by
  induction n with
  | zero => rfl
  | succ n ih =>
    rw [fillWords, putWord, put_out (by omega)]
    exact ih (by omega)

theorem fillWords_word (hk : k < n) (h : a + 4096 * n < 2 ^ 64) : word (fillWords f q a n) (q + 8 * k) = a + 4096 * k := by
  induction n with
  | zero => omega
  | succ n ih =>
    rw [fillWords]
    by_cases e : k = n
    · subst e
      exact word_putWord (by omega)
    · rw [word_putWord_ne (by omega)]
      exact ih (by omega) (by omega)

theorem mkfsSlots_set {D left c i : Nat} (hw : IsWrite write) (hn : n = min left (D - c)) (hs : q + 8 * (i + left) ≤ v.size)
    (ha : a + 4096 * (i + n) < 2 ^ 64) :
    Returns ((View.all (v.set (fillWords f q a i))).At (q + 8 * i)) (mkfsSlotsVia write D left c (a + 4096 * i))
      (c + n, a + 4096 * (i + n)) ((View.all (v.set (fillWords f q a (i + n)))).At (q + 8 * (i + n))) := by
  induction left generalizing c i n with
  | zero =>
    obtain rfl : n = 0 := by omega
    exact Returns.pure _
  | succ left ih =>
    rw [mkfsSlotsVia]
    by_cases h : c ≥ D
    · obtain rfl : n = 0 := by omega
      rw [if_pos h]
      exact Returns.pure _
    · rw [if_neg h]
      refine (writeVar_set hw (by omega)).bind ?_
      have hu : u64 ((a + 4096 * i : Nat) + 4096) = a + 4096 * (i + 1) := by unfold u64; omega
      have := ih (c := c + 1) (i := i + 1) (n := n - 1) (by omega) (by omega) (by omega)
      rw [show c + 1 + (n - 1) = c + n by omega, show i + 1 + (n - 1) = i + n by omega] at this
      rw [hu]
      exact this

end

/-! ## All pages -/

/-- What slot `k` of page `t` holds. -/
def listedAddr (B D t k : Nat) : Nat := if 512 * t + k < D then B + 4096 * (512 * t + k + 1) else 0

/-- The pages from number `t` on are written, the rest is as it was. -/
structure Listed (B D t : Nat) (f f' : Mem) : Prop where
  page : ∀ s k, t ≤ s → 512 * s < D → k < 512 → word f' (B + 4096 * (512 * s) + 8 * k) = listedAddr B D s k
  rest : ∀ x, (∀ s, t ≤ s → 512 * s < D → x < B + 4096 * (512 * s) ∨ B + 4096 * (512 * s) + 4096 ≤ x) → f' x = f x

theorem mkfsPages_set {v : Vol} {B D r t c b p : Nat} {f : Mem} (hw : IsWrite write) (hc : c = min (512 * t) D)
    (hp : 512 * t < D → b = B + 4096 * (512 * t)) (hr : D ≤ 512 * (t + r)) (hs : B + 4096 * D ≤ v.size)
    (hB : B + 4096 * (D + 1) < 2 ^ 64) :
    ∃ f', Returns ((View.all (v.set f)).At p) (mkfsPagesVia write B D r c b) () (View.all (v.set f')).Holds ∧
      Listed B D t f f' := by
  induction r generalizing t c b p f with
  | zero =>
    refine ⟨f, Runs.of_at (q := p) (Returns.pure _), fun s k h1 h2 => by omega, fun _ _ => rfl⟩
  | succ r ih =>
    by_cases h : 512 * t < D
    · obtain rfl : c = 512 * t := by omega
      obtain rfl := hp h
      have hu : u64 ((B : Int) + (512 * t : Nat) * 4096 + 4096) = B + 4096 * (512 * t) + 4096 := by unfold u64; omega
      have hn1 : min 512 (D - 512 * t) ≤ 512 := Nat.min_le_left _ _
      have hn2 : min 512 (D - 512 * t) ≤ D - 512 * t := Nat.min_le_right _ _
      generalize hn : min 512 (D - 512 * t) = n at hn1 hn2
      have hu' : u64 ((B + 4096 * (512 * t) + 4096 + 4096 * n : Nat) - 4096) = B + 4096 * (512 * t) + 4096 * n := by
        unfold u64; omega
      have hslots := mkfsSlots_set (v := v) (f := put f (B + 4096 * (512 * t)) 4096 zeros) (q := B + 4096 * (512 * t))
        (a := B + 4096 * (512 * t) + 4096) (i := 0) hw hn.symm (by omega) (by omega)
      simp only [Nat.zero_add, Nat.mul_zero, Nat.add_zero] at hslots
      obtain ⟨f', hrun, hl⟩ := ih (t := t + 1) (c := 512 * t + n) (b := B + 4096 * (512 * t) + 4096 * n)
        (p := B + 4096 * (512 * t) + 8 * n)
        (f := fillWords (put f (B + 4096 * (512 * t)) 4096 zeros) (B + 4096 * (512 * t)) (B + 4096 * (512 * t) + 4096) n)
        (by omega) (fun h' => by omega) (by omega)
      refine ⟨f', ?_, fun s k h1 h2 hk => ?_, fun x hx => ?_⟩
      · rw [mkfsPagesVia, if_pos h]
        refine (lseekSet_from (by rw [all_vol, set_size]; omega)).bind ((write_set hw (by omega)).bind ?_)
        refine (lseekBack_at (by omega)).bind ?_
        rw [Nat.add_sub_cancel, hu]
        refine hslots.bind ?_
        simp only [hu']
        exact hrun
      · by_cases e : s = t
        · subst e
          have hout : ∀ j < 8, f' (B + 4096 * (512 * s) + 8 * k + j) =
              fillWords (put f (B + 4096 * (512 * s)) 4096 zeros) (B + 4096 * (512 * s)) (B + 4096 * (512 * s) + 4096) n
                (B + 4096 * (512 * s) + 8 * k + j) := fun j hj => hl.rest _ fun s' _ _ => by omega
          rw [word_congr hout, listedAddr]
          by_cases hd : 512 * s + k < D
          · rw [if_pos hd, fillWords_word (by omega) (by omega)]
            omega
          · rw [if_neg hd]
            refine word_eq_zero fun j hj => ?_
            rw [fillWords_out (by omega), put_in (by omega) (by omega)]
            rfl
        · exact hl.page s k (by omega) h2 hk
      · rw [hl.rest x fun s h1 h2 => hx s (by omega) h2]
        have := hx t (Nat.le_refl t) h
        rw [fillWords_out (by omega), put_out (by omega)]
    · refine ⟨f, ?_, fun s k h1 h2 => by omega, fun _ _ => rfl⟩
      rw [mkfsPagesVia, if_neg (by omega)]
      exact Runs.of_at (q := p) (Returns.pure _)

/-! ## The free list -/

/-- The pages of a freshly formatted device. -/
def mkfsPageList (B D : Nat) : List Nat := (List.range ((D + 511) / 512)).map fun t => B + 4096 * (512 * t)

section
variable {B D : Nat} {f f' : Mem}

theorem mem_mkfsPageList {p : Nat} : p ∈ mkfsPageList B D ↔ ∃ t, 512 * t < D ∧ p = B + 4096 * (512 * t) := by
  simp only [mkfsPageList, List.mem_map, List.mem_range]
  constructor
  · rintro ⟨t, ht, rfl⟩
    exact ⟨t, by omega, rfl⟩
  · rintro ⟨t, ht, rfl⟩
    exact ⟨t, by omega, rfl⟩

theorem listed_slot (h : Listed B D 0 f f') (hB : B ≠ 0) {t k : Nat} (ht : 512 * t < D) (hk : k < 512) :
    slot f' (B + 4096 * (512 * t)) k = listedAddr B D t k := by
  rw [slot_of_ne (by omega)]
  exact h.page t k (Nat.zero_le t) ht hk

/-- The chain from page `t` on; the last link is zero because `D` is no multiple of 512. -/
theorem listed_linked (h : Listed B D 0 f f') (hB : B ≠ 0) (hD : D % 512 ≠ 0) {n t : Nat} (hn : t + n = (D + 511) / 512) :
    Linked (slot f') 511 (if 512 * t < D then B + 4096 * (512 * t) else 0)
      ((List.range' t n).map fun t => B + 4096 * (512 * t)) := by
  induction n generalizing t with
  | zero =>
    rw [if_neg (by omega)]
    exact .nil
  | succ n ih =>
    have ih := ih (t := t + 1) (by omega)
    rw [if_pos (by omega)]
    refine .cons (by omega) ?_
    rw [listed_slot h hB (by omega) (by decide), listedAddr]
    by_cases hd : 512 * t + 511 < D
    · rw [if_pos hd]
      rw [if_pos (by omega)] at ih
      rwa [show B + 4096 * (512 * t + 511 + 1) = B + 4096 * (512 * (t + 1)) by omega]
    · rw [if_neg hd]
      rwa [if_neg (by omega)] at ih

theorem listed_chain (h : Listed B D 0 f f') (hB : B ≠ 0) (hD : D % 512 ≠ 0) :
    Chain (slot f') 511 B (mkfsPageList B D) := by
  have hl := listed_linked h hB hD (n := (D + 511) / 512) (t := 0) (by omega)
  rw [if_pos (by omega), ← List.range_eq_range'] at hl
  simp only [Nat.mul_zero, Nat.add_zero] at hl
  refine ⟨hl, order_nodup ?_ ?_ ?_⟩
  · exact List.nodup_range.map fun a b (e : B + 4096 * (512 * a) = B + 4096 * (512 * b)) => by omega
  · intro p hp q hq i hi j hj h0 e
    obtain ⟨t, ht, rfl⟩ := mem_mkfsPageList.mp hp
    obtain ⟨s, hs, rfl⟩ := mem_mkfsPageList.mp hq
    rw [listed_slot h hB ht (by omega)] at h0 e
    rw [listed_slot h hB hs (by omega)] at e
    unfold listedAddr at h0 e
    by_cases h1 : 512 * t + i < D
    · rw [if_pos h1] at e
      by_cases h2 : 512 * s + j < D
      · rw [if_pos h2] at e
        obtain rfl : t = s := by omega
        exact ⟨rfl, by omega⟩
      · rw [if_neg h2] at e
        omega
    · exact absurd (if_neg h1) h0
  · intro p hp i hi hm
    obtain ⟨t, ht, rfl⟩ := mem_mkfsPageList.mp hp
    obtain ⟨s, hs, e⟩ := mem_mkfsPageList.mp hm
    rw [listed_slot h hB ht (by omega)] at e
    unfold listedAddr at e
    by_cases h1 : 512 * t + i < D
    · rw [if_pos h1] at e
      omega
    · rw [if_neg h1] at e
      omega

/-- The blocks of the list are those of the data region, in any order. -/
theorem listed_mem (h : Listed B D 0 f f') (hB : B ≠ 0) (hD : D % 512 ≠ 0) {b : Nat} :
    b ∈ order (slot f') 511 (mkfsPageList B D) ↔ ∃ j ≤ D, b = B + 4096 * j := by
  rw [mem_order]
  constructor
  · rintro (hb | ⟨h0, p, hp, k, hk, rfl⟩)
    · obtain ⟨t, ht, rfl⟩ := mem_mkfsPageList.mp hb
      exact ⟨512 * t, by omega, rfl⟩
    · obtain ⟨t, ht, rfl⟩ := mem_mkfsPageList.mp hp
      rw [listed_slot h hB ht (by omega)] at h0 ⊢
      unfold listedAddr at h0 ⊢
      by_cases h1 : 512 * t + k < D
      · rw [if_pos h1]
        exact ⟨512 * t + k + 1, by omega, rfl⟩
      · exact absurd (if_neg h1) h0
  · rintro ⟨j, hj, rfl⟩
    by_cases hm : j % 512 = 0
    · left
      refine mem_mkfsPageList.mpr ⟨j / 512, by omega, by omega⟩
    · right
      refine ⟨by omega, B + 4096 * (512 * (j / 512)), mem_mkfsPageList.mpr ⟨j / 512, by omega, rfl⟩, j % 512 - 1,
        by omega, ?_⟩
      rw [listed_slot h hB (by omega) (by omega), listedAddr, if_pos (by omega)]
      omega

end

/-! ## The root directory -/

/-- The data region of a device: it starts at `B`, and holds `D + 1` blocks of which the
    last may lie past the end. -/
structure Region (v : Vol) (B D : Nat) : Prop where
  aligned : B % 4096 = 0
  low : 8192 ≤ B
  count : 2 ≤ D
  odd : D % 512 ≠ 0
  fits : B + 4096 * D ≤ v.size
  fits64 : B + 4096 * (D + 1) < 2 ^ 64

/-- The disk before the root directory is made. -/
structure Cleared (v : Vol) (B D : Nat) (f : Mem) : Prop extends Region v B D where
  drive : 0 ≤ v.glob.drive
  boundary : v.glob.inodeByteBoundary = B
  super : word v.bytes 0 = B
  table : ∀ x, 8 ≤ x → x < B → v.bytes x = 0
  listed : Listed B D 0 f v.bytes

/-- The inode `tfs_mkfs` gives the root. -/
def rootInode (block accessTime creationTime dataTime : Nat) : Node :=
  { (Node.decode zeros).setDirect 0 block with
    mode := rootMode, accessTime := accessTime, creationTime := creationTime, dataTime := dataTime
    size := 256 * 2, blocks := 1, links := 1 }

theorem rootInode_fits {b t u w : Nat} (hb : b < 2 ^ 64) (ht : t < 2 ^ 64) (hu : u < 2 ^ 64) (hw : w < 2 ^ 64) :
    (rootInode b t u w).Fits := by
  have h := setDirect_fits (decode_fits zeros) (i := 0) hb
  exact { h with
    mode := show rootMode < 2 ^ 32 by decide
    size := show 256 * 2 < 2 ^ 64 by decide
    accessTime := ht
    creationTime := hu
    dataTime := hw
    links := show 1 < 2 ^ 32 by decide
    blocks := show 1 < 2 ^ 64 by decide }

theorem setRootNode_runs {v : Vol} {a : Nat} :
    Runs (.all v) (setRootNode a) () (.all { v with glob := { v.glob with rootNode := a } }) :=
  Returns.modify fun s hs => by
    obtain rfl := holds_all.mp hs
    exact holds_all.mpr rfl

/-- The view `K` with a root directory in the block `b`. -/
def View.rootDir (K : View) (b : Nat) (n : Node) : View :=
  ((K.newDir b 4096).storeWord (b + 504) 4096).tick.store 4096 208 n.encode

@[simp] theorem rootDir_bytes {K : View} {b : Nat} {n : Node} : (K.rootDir b n).vol.bytes =
    put (putWord (newDir K.vol.bytes b 4096) (b + 504) 4096) 4096 208 n.encode := by
  simp only [View.rootDir, store_bytes, tick_bytes, storeWord_bytes, newDir_bytes]

@[simp] theorem rootDir_size {K : View} {b : Nat} {n : Node} : (K.rootDir b n).vol.size = K.vol.size := by
  simp only [View.rootDir, store_size, tick_size, storeWord_size, newDir_size]

@[simp] theorem rootDir_glob {K : View} {b : Nat} {n : Node} : (K.rootDir b n).vol.glob = K.vol.glob := by
  simp only [View.rootDir, store_glob, tick_glob, storeWord_glob, newDir_glob]

@[simp] theorem rootDir_env {K : View} {b : Nat} {n : Node} : (K.rootDir b n).vol.env = K.vol.env := by
  simp only [View.rootDir, store_env, tick_env, storeWord_env, newDir_env]

theorem rootDir_vis {K : View} {b x : Nat} {n : Node} (h : K.vis x) : (K.rootDir b n).vis x :=
  store_vis (storeWord_vis (v := 4096) (newDir_vis h))

/-- The root's inode is the first slot, its block the first of the free list; `K` is the
    disk the block was taken from. -/
theorem mkfsRoot_runs {v : Vol} {B D : Nat} {f : Mem} (hw : IsWrite write) (fd : Int) (h : Cleared v B D f) :
    ∃ (K : View) (n : Node), Runs (.all v) (mkfsRootVia write fd) () (K.rootDir (B + 4096) n) ∧
      n = rootInode (B + 4096) n.accessTime n.creationTime n.dataTime ∧ n.Fits ∧
      K.vol.bytes = putWord v.bytes B 0 ∧ K.vol.glob = { v.glob with rootNode := 4096 } ∧
      K.vol.size = v.size ∧ K.vol.env = v.env ∧ ∀ x, K.vis x := by
  have hfits := h.fits
  have hlow := h.low
  have hal := h.aligned
  have hD := h.count
  have hlt := v.size_lt
  have hbound := h.boundary
  have hzero : nodeAt v.bytes 4096 = Node.decode zeros :=
    nodeAt_zero fun k hk => h.table _ (by omega) (by omega)
  have hslot : slot v.bytes B 0 = B + 4096 := by
    have := listed_slot h.listed (by omega) (t := 0) (k := 0) (by omega) (by decide)
    rw [listedAddr, if_pos (by omega)] at this
    simpa using this
  have htable : Table (.all v) :=
    ⟨h.drive, by rw [all_vol]; omega, by rw [all_vol]; omega, by rw [all_vol]; omega, View.Sees.all _ _ _⟩
  have hfree : ¬ InUse v.bytes 4096 := by
    intro hu
    exact hu (by rw [hzero]; exact decode_zeros_mode)
  have hfirst := allocateInode_some fd htable (a := 4096) ⟨by omega, by rw [all_vol]; omega, by omega⟩ hfree
    fun b hb hlt => absurd hb.low (by omega)
  let v1 : Vol := { v with glob := { v.glob with rootNode := 4096 } }
  let K2 := (View.all v1).tick.tick
  have hhead : HeadPage K2 B :=
    ⟨⟨hal, by omega, show B + 4096 ≤ v.size by omega⟩, h.super, View.Sees.all _ _ _, View.Sees.all _ _ _⟩
  have halloc := allocateBlockVia_first K2.vol.glob.drive hw hhead (by show slot v.bytes B 0 ≠ 0; omega)
  let b := B + 4096
  let K3 := K2.storeWord B 0
  let K4 := (K3.newDir b 4096).storeWord (b + 504) 4096
  let n := rootInode b (v.env.clock v.ticks % 2 ^ 64) (v.env.clock (v.ticks + 1) % 2 ^ 64)
    (v.env.clock (v.ticks + 1 + 1) % 2 ^ 64)
  have hb0 : b ≠ 0 := by show B + 4096 ≠ 0; omega
  have hbin : b + 4096 ≤ v.size := by show B + 4096 + 4096 ≤ v.size; omega
  have hn : n.Fits := rootInode_fits (by omega) (Nat.mod_lt _ (by decide)) (Nat.mod_lt _ (by decide))
    (Nat.mod_lt _ (by decide))
  have hsize : K3.vol.size = v.size := rfl
  have hsees : K4.Sees b 4096 := newDir_sees.storeWord
  refine ⟨K3, n, ?_, rfl, hn, rfl, rfl, rfl, rfl, fun x => Or.inl trivial⟩
  unfold mkfsRootVia
  refine hfirst.bind (setRootNode_runs.bind (environ_runs.bind ?_))
  refine (lseekSet_at (by show 4096 ≤ v.size; omega)).bind ?_
  refine (sysRead_at (by show 4096 + 208 ≤ v.size; omega) (View.Sees.all _ _ _)).bind ?_
  refine Returns.pre (P := (View.all v1).Holds) ?_ fun s hs => hs.1
  have hdec : Node.decode (clip 208 (fun k => v.bytes (4096 + k)) v.env.junk) = Node.decode zeros := by
    rw [← hzero]
    exact decode_congr fun k hk => clip_lt hk
  simp only [all_vol, hdec]
  refine getCurrentTimeInNsec_runs.bind (getCurrentTimeInNsec_runs.bind (globals_runs.bind (halloc.bind ?_)))
  show Runs K3 _ () _
  simp only [show slot K2.vol.bytes B 0 = b from hslot]
  refine (writeBlockVia_fits (o := 0) hw rfl (by omega) (by rw [hsize]; omega)).bind ?_
  refine (writeBlockVia_fits (o := 0) hw rfl (by omega) (by rw [store_size, hsize]; omega)).bind ?_
  refine (writeAddrVia_runs (o := 248) hw rfl (by omega) (by rw [store_size, store_size, hsize]; omega)).bind ?_
  refine (writeBlockVia_fits (o := 256) hw rfl (by omega) (by rw [storeWord_size, store_size, store_size, hsize]; omega)).bind ?_
  refine (writeAddrVia_runs (o := 504) hw rfl (by omega)
    (by rw [store_size, storeWord_size, store_size, store_size, hsize]; omega)).bind ?_
  show Runs K4 _ () _
  refine (readBlock_fits (o := 248) rfl hb0 (by omega) (by show b + 248 + 8 ≤ v.size; omega)
    (hsees.mono (by omega) (by omega))).bind ?_
  refine (readBlock_fits (o := 504) rfl hb0 (by omega) (by show b + 504 + 8 ≤ v.size; omega)
    (hsees.mono (by omega) (by omega))).bind ?_
  refine getCurrentTimeInNsec_runs.bind ?_
  refine (commitInodeVia_runs hw (by show 4096 + 208 ≤ v.size; omega)).bind ?_
  refine (fetchInode_runs (by decide) (by show 4096 + 208 ≤ v.size; omega) fun k hk => Or.inr ⟨by omega, by omega⟩).bind ?_
  exact Runs.pure

/-- The disk `tfs_mkfs` leaves: the blocks of the data region are free but for the
    second, which the root directory owns. -/
structure Formatted (v : Vol) (B D : Nat) (ps : List Nat) : Prop extends Region v B D where
  root : v.glob.rootNode = 4096
  drive : 0 ≤ v.glob.drive
  boundary : v.glob.inodeByteBoundary = B
  chain : Chain (slot v.bytes) 511 (word v.bytes 0) ps
  free : ∀ b, b ∈ order (slot v.bytes) 511 ps ↔ ∃ j ≤ D, j ≠ 1 ∧ b = B + 4096 * j
  node : ∃ t u w, nodeAt v.bytes 4096 = rootInode (B + 4096) t u w
  table : ∀ x, 4096 + 256 ≤ x → x < B → v.bytes x = 0
  dot : entryName v.bytes (B + 4096) = dotName
  dotAddr : entryAddr v.bytes (B + 4096) = 4096
  dotDot : entryName v.bytes (B + 4096 + 256) = dotDotName
  dotDotAddr : entryAddr v.bytes (B + 4096 + 256) = 4096
  rest : ∀ x, B + 4096 + 512 ≤ x → x < B + 4096 + 4096 → v.bytes x = 0

theorem rootDir_formatted {w : Vol} {B D : Nat} {f : Mem} {K : View} {n : Node} (h : Cleared w B D f)
    (hn : n = rootInode (B + 4096) n.accessTime n.creationTime n.dataTime) (hf : n.Fits)
    (hb : K.vol.bytes = putWord w.bytes B 0) (hg : K.vol.glob = { w.glob with rootNode := 4096 })
    (hs : K.vol.size = w.size) : Formatted (K.rootDir (B + 4096) n).vol B D (mkfsPageList B D) := by
  have hal := h.aligned
  have hlow := h.low
  have hD := h.count
  have hfits := h.fits
  have hsz : (K.rootDir (B + 4096) n).vol.size = w.size := rootDir_size.trans hs
  have hgl : (K.rootDir (B + 4096) n).vol.glob = { w.glob with rootNode := 4096 } := rootDir_glob.trans hg
  have hbytes : (K.rootDir (B + 4096) n).vol.bytes =
      put (putWord (newDir (putWord w.bytes B 0) (B + 4096) 4096) (B + 4096 + 504) 4096) 4096 208 n.encode := by
    rw [rootDir_bytes, hb]
  generalize (K.rootDir (B + 4096) n).vol = v at hsz hgl hbytes ⊢
  have hout : ∀ x, (x < 4096 ∨ 4096 + 208 ≤ x) → (x < B + 4096 ∨ B + 4096 + 4096 ≤ x) → v.bytes x = putWord w.bytes B 0 x := by
    intro x h1 h2
    rw [hbytes, put_out (by omega), putWord, put_out (by omega), newDir_out h2]
  have hin : ∀ x, B + 4096 ≤ x → v.bytes x = putWord (newDir (putWord w.bytes B 0) (B + 4096) 4096) (B + 4096 + 504) 4096 x :=
    fun x hx => by rw [hbytes, put_out (by omega)]
  have hB : B ≠ 0 := by omega
  have hc := listed_chain h.listed hB h.odd
  have hpages : mkfsPageList B D = B :: (mkfsPageList B D).tail := by
    cases he : mkfsPageList B D with
    | nil =>
      have hl := hc.linked
      rw [he] at hl
      exact absurd (linked_nil hl) hB
    | cons p ps =>
      have hl := hc.linked
      rw [he] at hl
      rw [(linked_cons hl).1, List.tail_cons]
  have hslot0 : slot w.bytes B 0 = B + 4096 := by
    have := listed_slot h.listed hB (t := 0) (k := 0) (by omega) (by decide)
    rw [listedAddr, if_pos (by omega)] at this
    simpa using this
  have hpal : ∀ q ∈ mkfsPageList B D, q % 4096 = 0 ∧ q ≠ 0 ∧ (q = B ∨ B + 8192 ≤ q) := by
    intro q hq
    obtain ⟨t, ht, rfl⟩ := mem_mkfsPageList.mp hq
    exact ⟨by omega, by omega, by omega⟩
  have hslots : ∀ q ∈ mkfsPageList B D, ∀ k ≤ 511, slot v.bytes q k = if q = B ∧ k = 0 then 0 else slot w.bytes q k := by
    intro q hq k hk
    obtain ⟨hqa, hq0, hqB⟩ := hpal q hq
    rw [slot_congr (fun x h1 h2 => hout x (by omega) (by omega)) (by omega),
      ← slot_putWord hal hqa hq0 (by decide) (by omega) (by decide), Nat.mul_zero, Nat.add_zero]
  rw [hpages] at hc
  obtain ⟨he, hc'⟩ := hc.pop_slot (k := 0) (s := slot v.bytes) (by decide) (by simp) (by rw [hslot0]; omega)
    (fun j hj => by rw [hslots B (by rw [hpages]; simp) j hj]; simp)
    (fun q hq j hj => by
      have hqB : q ≠ B := fun e => hc.page_notMem (e ▸ hq)
      rw [hslots q (by rw [hpages]; simp [hq]) j hj, if_neg fun c => hqB c.1])
  rw [hslot0] at he
  have hnd := hc.nodup
  rw [he] at hnd
  have hnode : nodeAt v.bytes 4096 = n := by
    rw [hbytes]
    exact nodeAt_put hf
  have hsuper : word v.bytes 0 = B := by
    rw [word_congr fun k hk => hout (0 + k) (by omega) (by omega), word_putWord_ne (by omega), h.super]
  have hfree : ∀ b, b ∈ order (slot v.bytes) 511 (mkfsPageList B D) ↔ ∃ j ≤ D, j ≠ 1 ∧ b = B + 4096 * j := by
    intro b
    rw [hpages]
    have hmem := listed_mem h.listed hB h.odd (b := b)
    rw [hpages, he, List.mem_cons] at hmem
    have hne : b ∈ order (slot v.bytes) 511 (B :: (mkfsPageList B D).tail) → b ≠ B + 4096 :=
      fun hm e => (List.nodup_cons.mp hnd).1 (e ▸ hm)
    constructor
    · intro hm
      obtain ⟨j, hj, rfl⟩ := hmem.mp (Or.inr hm)
      exact ⟨j, hj, fun e => hne hm (by rw [e]), rfl⟩
    · rintro ⟨j, hj, hj1, rfl⟩
      rcases hmem.mpr ⟨j, hj, rfl⟩ with e | hm
      · omega
      · exact hm
  exact {
    h.toRegion with
    fits := by rw [hsz]; exact hfits
    root := by rw [hgl]
    drive := by rw [hgl]; exact h.drive
    boundary := by rw [hgl]; exact h.boundary
    chain := by rw [hsuper, hpages]; exact hc'
    free := hfree
    node := ⟨n.accessTime, n.creationTime, n.dataTime, by rw [hnode]; exact hn⟩
    table := fun x h1 h2 => by
      rw [hout x (by omega) (by omega), putWord, put_out (by omega)]
      exact h.table x (by omega) h2
    dot := by
      rw [entryName_congr fun k hk => hin _ (by omega), putWord, entryName_put_out (by omega), newDir_dot]
    dotAddr := by
      rw [entryAddr_congr fun k hk => hin _ (by omega), putWord, entryAddr_put_out (by omega),
        newDir_dot_addr (by decide)]
    dotDot := by
      rw [entryName_congr fun k hk => hin _ (by omega), putWord, entryName_put_out (by omega), newDir_dotDot]
    dotDotAddr := by
      rw [entryAddr_congr fun k hk => hin _ (by omega), show B + 4096 + 504 = B + 4096 + 256 + 248 by omega]
      exact entryAddr_putWord (by decide)
    rest := fun x h1 h2 => by
      rw [hin x (by omega), putWord, put_out (by omega), newDir_rest h1 h2] }

/-! ## tfs_mkfs -/

theorem setBoundaries_runs {v : Vol} {fd : Int} :
    Runs (.all v) (setBoundaries fd) () (.all { v with glob := boundaries v.glob fd v.size }) :=
  Returns.modify fun s hs => by
    obtain rfl := holds_all.mp hs
    exact holds_all.mpr rfl

/-- Where the data region of a device of `size` bytes starts. -/
def regionStart (size : Nat) : Nat := (size / 4096 / 65 + 1) * 4096

/-- How many blocks `tfs_mkfs` lists there. -/
def regionCount (size : Nat) : Nat := 64 * (size / 4096 / 65) - 1

theorem region_of {v : Vol} (h : 65 ≤ v.size / 4096) : Region v (regionStart v.size) (regionCount v.size) := by
  have hlt := v.size_lt
  have hib : 1 ≤ v.size / 4096 / 65 := Nat.div_pos h (by decide)
  have hle : 65 * (v.size / 4096 / 65) ≤ v.size / 4096 := Nat.mul_div_le _ _
  have hle' : 4096 * (v.size / 4096) ≤ v.size := Nat.mul_div_le _ _
  unfold regionStart regionCount
  generalize v.size / 4096 / 65 = ib at hib hle
  refine ⟨?_, ?_, ?_, ?_, ?_, ?_⟩
  · omega
  · lia
  · lia
  · omega
  · lia
  · -- 65 does not divide 2^52 - 1, the largest number of blocks
    have : 65 * ib ≠ 2 ^ 52 - 1 := by omega
    lia

theorem tfsMkfsVia_runs {v : Vol} {fd : Int} (hw : IsWrite write) (hfd : 0 ≤ fd) (h : 65 ≤ v.size / 4096) :
    ∃ w ps, Runs (.all v) (tfsMkfsVia write fd) 0 (.all w) ∧ Formatted w (regionStart v.size) (regionCount v.size) ps ∧
      w.size = v.size ∧ w.env = v.env ∧ w.glob.numBlocks = v.size / 4096 ∧ ∀ x, 8 ≤ x → x < 4096 → w.bytes x = 0 := by
  have hr := region_of h
  have hlow := hr.low
  have hfits := hr.fits
  have hfits64 := hr.fits64
  have hcount := hr.count
  have hbound : u64 ((v.size / 4096 / 65 + 1 : Nat) * 4096) = regionStart v.size :=
    u64_ofNat (x := regionStart v.size) (by omega)
  have hib : 1 ≤ v.size / 4096 / 65 := Nat.div_pos h (by decide)
  have hdata : u64 ((v.size / 4096 / 65 : Nat) * 64 - 1) = regionCount v.size := by
    rw [show ((v.size / 4096 / 65 : Nat) * 64 - 1 : Int) = regionCount v.size by unfold regionCount; omega]
    exact u64_ofNat (by omega)
  let v1 : Vol := { v with glob := boundaries v.glob fd v.size }
  have hg1 : v1.glob.inodeByteBoundary = regionStart v.size := hbound
  have hg2 : v1.glob.dataBlocks = regionCount v.size := hdata
  have hclr : 4096 * (v.size / 4096 / 65 + 1) = regionStart v.size := Nat.mul_comm _ _
  have hclear := mkfsClear_set hw (v := v1) (f := v.bytes) (p := 0) (n := v.size / 4096 / 65 + 1)
    (by rw [Nat.zero_add, hclr]; show regionStart v.size ≤ v.size; omega)
  rw [hclr] at hclear
  have hsuper := writeVar_set hw (v := v1) (f := put v.bytes 0 (regionStart v.size) zeros) (p := 0)
    (x := regionStart v.size) (by show 0 + 8 ≤ v.size; omega)
  obtain ⟨f', hpages, hl⟩ := mkfsPages_set hw (v := v1) (B := regionStart v.size) (D := regionCount v.size)
    (r := regionCount v.size) (t := 0) (c := 0) (b := regionStart v.size) (p := 0 + 8)
    (f := putWord (put v.bytes 0 (regionStart v.size) zeros) 0 (regionStart v.size))
    (by omega) (fun _ => by omega) (by omega) hfits hfits64
  have hrest : ∀ x, x < regionStart v.size →
      f' x = putWord (put v.bytes 0 (regionStart v.size) zeros) 0 (regionStart v.size) x :=
    fun x hx => hl.rest x fun s _ _ => Or.inl (by omega)
  have hc : Cleared (v1.set f') (regionStart v.size) (regionCount v.size)
      (putWord (put v.bytes 0 (regionStart v.size) zeros) 0 (regionStart v.size)) := by
    refine ⟨⟨hr.aligned, hlow, hcount, hr.odd, hfits, hfits64⟩, hfd, hg1, ?_, fun x h1 h2 => ?_, hl⟩
    · rw [set_bytes, word_congr fun k hk => hrest (0 + k) (by omega), word_putWord (by omega)]
    · rw [set_bytes, hrest x h2, putWord, put_out (by omega), put_in (by omega) (by omega)]
      rfl
  obtain ⟨K, n, hroot, hn, hnf, hb, hg, hs, he, hv⟩ := mkfsRoot_runs hw fd hc
  refine ⟨(K.rootDir (regionStart v.size + 4096) n).vol, _, ?_, rootDir_formatted hc hn hnf hb hg hs, ?_, ?_, ?_, fun x h1 h2 => ?_⟩
  · unfold tfsMkfsVia
    rw [if_neg (by omega)]
    refine setBoundaries_runs.bind (globals_runs.bind ?_)
    refine (lseekSet_at (Nat.zero_le _)).bind ?_
    refine (show Returns ((View.all v1).At 0) _ _ _ from hclear).bind ?_
    refine (lseekSet_from (Nat.zero_le _)).bind ?_
    rw [all_vol, hg1, hg2]
    refine hsuper.bind (hpages.bind (Returns.bind hroot ?_))
    exact Returns.post (Returns.pure _) fun s hs => hs.whole fun x => rootDir_vis (hv x)
  · rw [rootDir_size, hs]
    rfl
  · rw [rootDir_env, he]
    rfl
  · rw [rootDir_glob, hg]
    rfl
  · rw [rootDir_bytes, hb, put_out (by omega), putWord, put_out (by omega), newDir_out (by omega), putWord, put_out (by omega)]
    exact hc.table x h1 (by omega)

theorem tfsMkfs_runs {v : Vol} {fd : Int} (hfd : 0 ≤ fd) (h : 65 ≤ v.size / 4096) :
    ∃ w ps, Runs (.all v) (tfsMkfs fd) 0 (.all w) ∧ Formatted w (regionStart v.size) (regionCount v.size) ps ∧
      w.size = v.size ∧ w.env = v.env ∧ w.glob.numBlocks = v.size / 4096 := by
  obtain ⟨w, ps, hrun, hf, hsize, henv, hn, -⟩ := tfsMkfsVia_runs sysWrite_isWrite hfd h
  rw [tfsMkfsVia_sysWrite] at hrun
  exact ⟨w, ps, hrun, hf, hsize, henv, hn⟩

/-! ## Well-formed disks -/

/-- What a freshly formatted disk should be. -/
structure FormatOK (v : Vol) : Prop where
  /-- The chain ends, its non-empty slots are its blocks, and these and the root's block
      are different blocks of the data region that lie wholly on the device. -/
  free : ∃ ps, Chain (slot v.bytes) 511 (word v.bytes 0) ps ∧
    (∀ p ∈ ps, ∀ k < 512, slot v.bytes p k = 0 ∨ slot v.bytes p k ∈ order (slot v.bytes) 511 ps) ∧
    ((nodeAt v.bytes v.glob.rootNode).direct 0 :: order (slot v.bytes) 511 ps).Nodup ∧
    ∀ b ∈ (nodeAt v.bytes v.glob.rootNode).direct 0 :: order (slot v.bytes) 511 ps,
      b % 4096 = 0 ∧ v.glob.inodeByteBoundary ≤ b ∧ b + 4096 ≤ v.glob.numBlocks * 4096
  /-- The root is the only inode in use. -/
  inodes : IsSlot v.glob.inodeByteBoundary v.glob.rootNode ∧
    ∀ a, IsSlot v.glob.inodeByteBoundary a → (InUse v.bytes a ↔ a = v.glob.rootNode)
  mode : (nodeAt v.bytes v.glob.rootNode).mode = rootMode
  size : (nodeAt v.bytes v.glob.rootNode).size = 2 * 256
  blocks : (nodeAt v.bytes v.glob.rootNode).blocks = 1
  dot : entryName v.bytes ((nodeAt v.bytes v.glob.rootNode).direct 0) = dotName ∧
    entryAddr v.bytes ((nodeAt v.bytes v.glob.rootNode).direct 0) = v.glob.rootNode
  dotDot : entryName v.bytes ((nodeAt v.bytes v.glob.rootNode).direct 0 + 256) = dotDotName ∧
    entryAddr v.bytes ((nodeAt v.bytes v.glob.rootNode).direct 0 + 256) = v.glob.rootNode
  rest : ∀ x, (nodeAt v.bytes v.glob.rootNode).direct 0 + 512 ≤ x →
    x < (nodeAt v.bytes v.glob.rootNode).direct 0 + 4096 → v.bytes x = 0

theorem rootInode_direct {b t u w : Nat} : (rootInode b t u w).direct 0 = b :=
  (direct_setDirect (Node.decode zeros) (by decide)).trans (if_pos rfl)

/-- The last block of the list ends where `65 * inode_blocks + 1` blocks end. -/
theorem formatOK_iff {v : Vol} {ps : List Nat} (h : Formatted v (regionStart v.size) (regionCount v.size) ps)
    (hn : v.glob.numBlocks = v.size / 4096) (hs : 65 ≤ v.size / 4096) :
    FormatOK v ↔ v.size / 4096 % 65 ≠ 0 := by
  have hcount := h.count
  have hlow := h.low
  have hal := h.aligned
  have hend : regionStart v.size + 4096 * regionCount v.size = v.size / 4096 / 65 * 65 * 4096 := by
    have hib : 1 ≤ v.size / 4096 / 65 := Nat.div_pos hs (by decide)
    unfold regionStart regionCount
    generalize v.size / 4096 / 65 = ib at hib
    lia
  obtain ⟨t, u, w, hnode⟩ := h.node
  have hmode : (nodeAt v.bytes 4096).mode = rootMode := by rw [hnode]; rfl
  have hdirect : (nodeAt v.bytes 4096).direct 0 = regionStart v.size + 4096 := by rw [hnode]; exact rootInode_direct
  constructor
  · intro hok hdiv
    obtain ⟨ps', hc, _, _, hb⟩ := hok.free
    obtain rfl := linked_unique h.chain.linked hc.linked
    have hlast := (h.free (regionStart v.size + 4096 * regionCount v.size)).mpr ⟨_, Nat.le_refl _, by omega, rfl⟩
    have hin := (hb _ (List.mem_cons_of_mem _ hlast)).2.2
    rw [hn] at hin
    omega
  · intro hdiv
    have hsub : ∀ j ≤ regionCount v.size, regionStart v.size + 4096 * j + 4096 ≤ v.glob.numBlocks * 4096 := by
      intro j hj
      have : v.size / 4096 / 65 * 65 + 1 ≤ v.size / 4096 := by omega
      rw [hn]
      omega
    refine ⟨⟨ps, h.chain, fun p hp k hk => ?_, ?_, fun b hb => ?_⟩, ⟨?_, fun a ha => ?_⟩, ?_, ?_, ?_, ?_, ?_, ?_⟩
    · by_cases h0 : slot v.bytes p k = 0
      · exact Or.inl h0
      · right
        by_cases hk' : k < 511
        · exact mem_order.mpr (Or.inr ⟨h0, p, hp, k, hk', rfl⟩)
        · obtain rfl : k = 511 := by omega
          exact mem_order.mpr (Or.inl (linked_link h.chain.linked hp h0))
    · rw [h.root, hdirect]
      refine List.nodup_cons.mpr ⟨fun hm => ?_, h.chain.nodup⟩
      obtain ⟨j, _, hj1, e⟩ := (h.free _).mp hm
      omega
    · rw [h.boundary]
      rcases List.mem_cons.mp hb with rfl | hb
      · rw [h.root, hdirect]
        exact ⟨by omega, by omega, hsub 1 (by omega)⟩
      · obtain ⟨j, hj, _, rfl⟩ := (h.free b).mp hb
        exact ⟨by omega, by omega, hsub j hj⟩
    · rw [h.root, h.boundary]
      exact ⟨by omega, by omega, by omega⟩
    · rw [h.root]
      constructor
      · intro hu
        by_contra hne
        have hlow' := ha.low
        have hhigh := ha.high
        have hal' := ha.aligned
        rw [h.boundary] at hhigh
        refine hu ?_
        rw [nodeAt_zero fun k hk => h.table _ (by omega) (by omega)]
        exact decode_zeros_mode
      · rintro rfl
        unfold InUse
        rw [hmode]
        decide
    · rw [h.root, hmode]
    · rw [h.root, hnode]
      rfl
    · rw [h.root, hnode]
      rfl
    · rw [h.root, hdirect]
      exact ⟨h.dot, h.dotAddr⟩
    · rw [h.root, hdirect]
      exact ⟨h.dotDot, h.dotDotAddr⟩
    · rw [h.root, hdirect]
      exact h.rest

/-- `tfs_mkfs` returns 0 on every device of at least 65 blocks, and what it leaves is
    well formed exactly when the number of blocks is not a multiple of 65. -/
theorem mkfs_wellFormed_iff {s : Sys} {fd : Int} (hfd : 0 ≤ fd) (h : 65 ≤ s.vol.size / 4096) :
    ∃ s', tfsMkfs fd s = some (0, s') ∧ (FormatOK s'.vol ↔ s.vol.size / 4096 % 65 ≠ 0) := by
  obtain ⟨w, ps, hrun, hf, hsize, _, hn⟩ := tfsMkfs_runs hfd h
  obtain ⟨s', hc, hs'⟩ := hrun.exec (holds_all.mpr rfl)
  obtain rfl := holds_all.mp hs'
  rw [← hsize] at hf hn h ⊢
  exact ⟨s', hc, formatOK_iff hf hn h⟩

/-- The device of 66 blocks. -/
theorem mkfs_wellFormed_66 :
    ∃ s', tfsMkfs 3 ⟨.start .still (66 * 4096) (by decide) zeros, 0⟩ = some (0, s') ∧ FormatOK s'.vol := by
  obtain ⟨s', hc, hiff⟩ := mkfs_wellFormed_iff (s := ⟨.start .still (66 * 4096) (by decide) zeros, 0⟩)
    (show (0 : Int) ≤ 3 by decide) (by decide)
  exact ⟨s', hc, hiff.mpr (by decide)⟩

/-- On the smallest device the code formats, 65 blocks, the last listed block starts at
    the end of the device. -/
theorem mkfs_malformed_65 :
    ∃ s', tfsMkfs 3 ⟨.start .still (65 * 4096) (by decide) zeros, 0⟩ = some (0, s') ∧ ¬ FormatOK s'.vol := by
  obtain ⟨w, ps, hrun, hf, hsize, _, hn⟩ := tfsMkfs_runs (v := .start .still (65 * 4096) (by decide) zeros)
    (show (0 : Int) ≤ 3 by decide) (by decide)
  obtain ⟨s', hc, hs'⟩ := hrun.exec (s := ⟨.start .still (65 * 4096) (by decide) zeros, 0⟩) (holds_all.mpr rfl)
  obtain rfl := holds_all.mp hs'
  have hsize' : s'.vol.size = 65 * 4096 := hsize
  rw [← hsize] at hf hn
  refine ⟨s', hc, fun hok => (formatOK_iff hf hn ?_).mp hok ?_⟩
  · rw [hsize']
  · rw [hsize']

end TyrantFS

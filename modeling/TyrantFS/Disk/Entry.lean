/-
  TyrantFS.Disk.Entry — directory blocks: 16 entries of 256 bytes, a name of 248 bytes
  (a C string) and the address of an inode. An entry whose name is empty is free.
-/
import TyrantFS.Disk.Blocks

namespace TyrantFS

open Lib

/-- The name in the entry at `e`. -/
def entryName (m : Mem) (e : Nat) : List UInt8 := cstr 248 fun k => m (e + k)

/-- The inode address in the entry at `e`. -/
def entryAddr (m : Mem) (e : Nat) : Nat := word m (e + 248)

/-- Names an entry can hold: not empty, room for the final NUL, no NUL inside. -/
structure IsName (name : List UInt8) : Prop where
  nonempty : name ≠ []
  short : name.length < 248
  noNul : ∀ c ∈ name, c ≠ 0

variable {m m' f : Mem} {a b e n : Nat} {name : List UInt8}

theorem entryName_congr {d : Nat} (h : ∀ k < 248, m' (d + k) = m (e + k)) : entryName m' d = entryName m e := cstr_congr h

theorem entryAddr_congr {d : Nat} (h : ∀ k < 256, m' (d + k) = m (e + k)) : entryAddr m' d = entryAddr m e := by
  unfold entryAddr word
  exact leVal_congr fun k hk => by rw [Nat.add_assoc, h _ (by omega), Nat.add_assoc]

theorem entryName_put_out (h : e + 248 ≤ b ∨ b + n ≤ e) : entryName (put m b n f) e = entryName m e :=
  entryName_congr fun k hk => put_out (by omega)

theorem entryAddr_put_out (h : e + 256 ≤ b ∨ b + n ≤ e + 248) : entryAddr (put m b n f) e = entryAddr m e :=
  word_put_out (by omega)

/-- An entry is free when its first byte is 0. -/
theorem entryName_eq_nil : entryName m e = [] ↔ m e = 0 := cstr_eq_nil (by decide)

/-- What `strcpy` put into a buffer, stored with its NUL. -/
theorem entryName_put {old : Mem} (hl : name.length < n) (hn : n ≤ 248) (hc : ∀ c ∈ name, c ≠ 0) :
    entryName (put m e n (strBuf name old)) e = name := by
  refine cstr_of_prefix (by omega) hc (fun k hk => ?_) ?_
  · rw [put_in (by omega) (by omega), Nat.add_sub_cancel_left, strBuf_lt hk]
  · rw [put_in (by omega) (by omega), Nat.add_sub_cancel_left, strBuf_length]

theorem entryAddr_putWord (ha : a < 2 ^ 64) : entryAddr (putWord m (e + 248) a) e = a := word_putWord ha

/-! ## A new directory block -/

/-- A cleared block with the entries "." for the inode `self` and "..", whose address is
    left 0. -/
def newDir (m : Mem) (b self : Nat) : Mem :=
  put (putWord (put (put m b 4096 zeros) b 2 (strBuf dotName zeros)) (b + 248) self) (b + 256) 3 (strBuf dotDotName zeros)

def View.newDir (K : View) (b self : Nat) : View :=
  (((K.store b 4096 zeros).store b 2 (strBuf dotName zeros)).storeWord (b + 248) self).store (b + 256) 3
    (strBuf dotDotName zeros)

section
variable {K : View} {self : Nat}

@[simp] theorem newDir_bytes : (K.newDir b self).vol.bytes = TyrantFS.newDir K.vol.bytes b self := by
  simp only [View.newDir, TyrantFS.newDir, store_bytes, storeWord_bytes]

@[simp] theorem newDir_size : (K.newDir b self).vol.size = K.vol.size := by
  simp only [View.newDir, store_size, storeWord_size]

@[simp] theorem newDir_glob : (K.newDir b self).vol.glob = K.vol.glob := by
  simp only [View.newDir, store_glob, storeWord_glob]

@[simp] theorem newDir_env : (K.newDir b self).vol.env = K.vol.env := by
  simp only [View.newDir, store_env, storeWord_env]

theorem View.Sees.newDir (h : K.Sees a n) : (K.newDir b self).Sees a n := h.store.store.storeWord.store

theorem newDir_vis {x : Nat} (h : K.vis x) : (K.newDir b self).vis x := store_vis (storeWord_vis (store_vis (store_vis h)))

theorem newDir_sees : (K.newDir b self).Sees b 4096 := by
  have h : (K.store b 4096 zeros).Sees b 4096 := fun k hk => Or.inr ⟨by omega, by omega⟩
  exact h.store.storeWord.store

theorem newDir_out {x : Nat} (h : x < b ∨ b + 4096 ≤ x) : newDir m b self x = m x := by
  unfold newDir putWord
  rw [put_out (by omega), put_out (by omega), put_out (by omega), put_out (by omega)]

/-- Behind the two entries the block is clear. -/
theorem newDir_rest {x : Nat} (h1 : b + 512 ≤ x) (h2 : x < b + 4096) : newDir m b self x = 0 := by
  unfold newDir putWord
  rw [put_out (by omega), put_out (by omega), put_out (by omega), put_in (by omega) (by omega)]
  rfl

theorem newDir_dot : entryName (newDir m b self) b = dotName := by
  unfold newDir putWord
  rw [entryName_put_out (by omega), entryName_put_out (by omega)]
  exact entryName_put (by decide) (by decide) (by simp [dotName])

theorem newDir_dot_addr (h : self < 2 ^ 64) : entryAddr (newDir m b self) b = self := by
  unfold newDir
  rw [entryAddr_put_out (by omega)]
  exact entryAddr_putWord h

theorem newDir_dotDot : entryName (newDir m b self) (b + 256) = dotDotName :=
  entryName_put (by decide) (by decide) (by simp [dotDotName])

theorem newDir_dotDot_addr : entryAddr (newDir m b self) (b + 256) = 0 := by
  unfold newDir putWord
  rw [entryAddr_put_out (by omega), entryAddr_put_out (by omega), entryAddr_put_out (by omega)]
  refine word_eq_zero fun k hk => ?_
  rw [put_in (by omega) (by omega)]
  rfl

end

end TyrantFS

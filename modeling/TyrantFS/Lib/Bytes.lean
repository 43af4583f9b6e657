/-
  TyrantFS.Lib.Bytes — byte memories, little-endian words and C strings.

  A memory, and a buffer, is a function from positions to bytes. `put m a n f` is `m`
  with the first `n` bytes of the buffer `f` stored at `a`; `word m a` is the 8-byte
  little-endian word at `a`. `clip` is a buffer of which only the first `n` bytes were
  filled in; `cstr` reads a C string out of a buffer and `strBuf` is the buffer that
  `strcpy` leaves.
-/
import Mathlib.Data.List.Basic
import Mathlib.Tactic.Ring

namespace Lib

abbrev Mem := Nat → UInt8

/-! ## Little-endian values -/

def leVal : Nat → Mem → Nat
  | 0, _ => 0
  | n + 1, f => (f 0).toNat + 256 * leVal n (fun k => f (k + 1))

def leByte (v k : Nat) : UInt8 := UInt8.ofNat (v / 256 ^ k)

theorem leVal_congr : ∀ {n : Nat} {f g : Mem}, (∀ k < n, f k = g k) → leVal n f = leVal n g
  | 0, _, _, _ => rfl
  | n + 1, f, g, h => by
    have h0 : f 0 = g 0 := h 0 (by omega)
    have ht : leVal n (fun k => f (k + 1)) = leVal n (fun k => g (k + 1)) :=
      leVal_congr fun k hk => h (k + 1) (by omega)
    simp only [leVal, h0, ht]

theorem leVal_lt : ∀ (n : Nat) (f : Mem), leVal n f < 256 ^ n
  | 0, _ => by simp [leVal]
  | n + 1, f => by
    have hb := (f 0).toNat_lt
    have ht := leVal_lt n (fun k => f (k + 1))
    simp only [leVal, Nat.pow_succ]
    omega

theorem leByte_succ (v k : Nat) : leByte v (k + 1) = leByte (v / 256) k := by
  simp only [leByte, Nat.pow_succ, Nat.mul_comm (256 ^ k) 256, Nat.div_div_eq_div_mul]

theorem leByte_zero_toNat (v : Nat) : (leByte v 0).toNat = v % 256 := by
  simp [leByte]

theorem leVal_leByte : ∀ (n v : Nat), leVal n (leByte v) = v % 256 ^ n
  | 0, v => by simp [leVal, Nat.mod_one]
  | n + 1, v => by
    have ht : leVal n (fun k => leByte v (k + 1)) = v / 256 % 256 ^ n := by
      rw [← leVal_leByte n (v / 256)]
      exact leVal_congr fun k _ => leByte_succ v k
    simp only [leVal, ht, leByte_zero_toNat, Nat.pow_succ, Nat.mul_comm (256 ^ n) 256, Nat.mod_mul]

theorem leByte_leVal : ∀ {n : Nat} (f : Mem) {k : Nat}, k < n → leByte (leVal n f) k = f k
  | n + 1, f, 0, _ => by
    have hb := (f 0).toNat_lt
    have hm : ((f 0).toNat + 256 * leVal n (fun k => f (k + 1))) % 256 = (f 0).toNat := by omega
    apply UInt8.toNat_inj.mp
    rw [leByte_zero_toNat, leVal, hm]
  | n + 1, f, k + 1, hk => by
    have hb := (f 0).toNat_lt
    have hd : leVal (n + 1) f / 256 = leVal n (fun k => f (k + 1)) := by
      simp only [leVal]; omega
    rw [leByte_succ, hd, leByte_leVal (fun k => f (k + 1)) (by omega)]

theorem leByte_zero (k : Nat) : leByte 0 k = 0 := by simp [leByte]

theorem leVal_zero : ∀ (n : Nat), leVal n (fun _ => 0) = 0
  | 0 => rfl
  | n + 1 => by simp [leVal, leVal_zero n]

/-! ## Stores and words -/

def put (m : Mem) (a n : Nat) (f : Mem) : Mem := fun x => if a ≤ x ∧ x < a + n then f (x - a) else m x

def word (m : Mem) (a : Nat) : Nat := leVal 8 (fun k => m (a + k))

def putWord (m : Mem) (a v : Nat) : Mem := put m a 8 (leByte v)

theorem put_in {m f : Mem} {a n x : Nat} (h1 : a ≤ x) (h2 : x < a + n) : put m a n f x = f (x - a) :=
  if_pos ⟨h1, h2⟩

theorem put_out {m f : Mem} {a n x : Nat} (h : x < a ∨ a + n ≤ x) : put m a n f x = m x :=
  if_neg (by omega)

theorem word_eq (m : Mem) (a : Nat) : leVal 8 (fun k => m (a + k)) = word m a := rfl

theorem word_lt (m : Mem) (a : Nat) : word m a < 2 ^ 64 := by
  have h := leVal_lt 8 (fun k => m (a + k))
  simpa [word] using h

theorem word_mod (m : Mem) (a : Nat) : word m a % 256 = (m a).toNat := by
  have h := (m a).toNat_lt
  rw [← word_eq, leVal, Nat.add_zero]
  omega

theorem word_congr {m m' : Mem} {a : Nat} (h : ∀ k < 8, m' (a + k) = m (a + k)) : word m' a = word m a :=
  leVal_congr h

theorem word_eq_zero {m : Mem} {a : Nat} (h : ∀ k < 8, m (a + k) = 0) : word m a = 0 := by
  rw [word, leVal_congr h, leVal_zero]

theorem byte_eq_zero {m : Mem} {a k : Nat} (h : word m a = 0) (hk : k < 8) : m (a + k) = 0 := by
  rw [← leByte_leVal (n := 8) (fun k => m (a + k)) hk, show leVal 8 (fun k => m (a + k)) = 0 from h, leByte_zero]

theorem word_put_out {m f : Mem} {a n b : Nat} (h : b + 8 ≤ a ∨ a + n ≤ b) : word (put m a n f) b = word m b :=
  word_congr fun k hk => put_out (by omega)

theorem word_put_in {m f : Mem} {a n b : Nat} (h1 : a ≤ b) (h2 : b + 8 ≤ a + n) :
    word (put m a n f) b = leVal 8 (fun k => f (b - a + k)) :=
  leVal_congr fun k hk => by
    rw [put_in (by omega) (by omega), show b + k - a = b - a + k by omega]

theorem word_putWord {m : Mem} {a v : Nat} (h : v < 2 ^ 64) : word (putWord m a v) a = v := by
  have e : leVal 8 (fun k => leByte v (a - a + k)) = leVal 8 (leByte v) :=
    leVal_congr fun k _ => by rw [Nat.sub_self, Nat.zero_add]
  rw [putWord, word_put_in (Nat.le_refl a) (Nat.le_refl _), e, leVal_leByte]
  exact Nat.mod_eq_of_lt (by simpa using h)

theorem word_putWord_ne {m : Mem} {a b v : Nat} (h : b + 8 ≤ a ∨ a + 8 ≤ b) : word (putWord m a v) b = word m b :=
  word_put_out h

/-! ## Buffers -/

/-- A buffer that held `old` and whose first `n` bytes were overwritten by `f`. -/
def clip (n : Nat) (f old : Mem) : Mem := fun k => if k < n then f k else old k

theorem clip_lt {n k : Nat} {f old : Mem} (h : k < n) : clip n f old k = f k := if_pos h

theorem clip_congr {n : Nat} {f g old : Mem} (h : ∀ k < n, f k = g k) : clip n f old = clip n g old := by
  funext k
  simp only [clip]
  split
  · exact h k ‹_›
  · rfl

theorem leVal_clip {n k : Nat} {f old : Mem} (h : k ≤ n) : leVal k (clip n f old) = leVal k f :=
  leVal_congr fun _ hj => clip_lt (by omega)

/-! ## Records

  A record is laid out as a list of fields; bytes that belong to no field are zero. -/

structure Field where
  start : Nat
  width : Nat
  value : Nat

def Field.Covers (f : Field) (k : Nat) : Prop := f.start ≤ k ∧ k < f.start + f.width

instance (f : Field) (k : Nat) : Decidable (f.Covers k) := inferInstanceAs (Decidable (_ ∧ _))

def Field.Apart (f g : Field) : Prop := f.start + f.width ≤ g.start ∨ g.start + g.width ≤ f.start

instance (f g : Field) : Decidable (f.Apart g) := inferInstanceAs (Decidable (_ ∨ _))

def record (fs : List Field) (k : Nat) : UInt8 :=
  match fs.find? (·.Covers k) with
  | some f => leByte f.value (k - f.start)
  | none => 0

theorem find_field {fs : List Field} {f : Field} {k : Nat} (hd : fs.Pairwise Field.Apart) (hf : f ∈ fs)
    (hk : f.Covers k) : fs.find? (·.Covers k) = some f := by
  induction hd with
  | nil => cases hf
  | @cons g gs hg _ ih =>
    rcases List.mem_cons.mp hf with rfl | hm
    · simp [hk]
    · have hn : ¬ g.Covers k := by
        have ha := hg f hm
        unfold Field.Apart at ha
        unfold Field.Covers at hk ⊢
        omega
      simpa [List.find?_cons, hn] using ih hm

theorem record_field {fs : List Field} {f : Field} (hd : fs.Pairwise Field.Apart) (hf : f ∈ fs)
    (hv : f.value < 256 ^ f.width) : leVal f.width (fun k => record fs (f.start + k)) = f.value := by
  have e : leVal f.width (fun k => record fs (f.start + k)) = leVal f.width (leByte f.value) := by
    refine leVal_congr fun k hk => ?_
    have hc : f.Covers (f.start + k) := ⟨by omega, by omega⟩
    simp [record, find_field hd hf hc]
  rw [e, leVal_leByte, Nat.mod_eq_of_lt hv]

/-! ## C strings -/

/-- The C string at the start of a buffer of `n` bytes: the bytes before the first NUL. -/
def cstr : Nat → Mem → List UInt8
  | 0, _ => []
  | n + 1, f => if f 0 = 0 then [] else f 0 :: cstr n (fun k => f (k + 1))

/-- The buffer `strcpy(buf, s)` leaves: `s`, a NUL, and what was there before. -/
def strBuf (s : List UInt8) (old : Mem) : Mem := fun k => if k < s.length then s.getD k 0 else if k = s.length then 0 else old k

theorem cstr_congr : ∀ {n : Nat} {f g : Mem}, (∀ k < n, f k = g k) → cstr n f = cstr n g
  | 0, _, _, _ => rfl
  | n + 1, f, g, h => by
    have ht : cstr n (fun k => f (k + 1)) = cstr n (fun k => g (k + 1)) :=
      cstr_congr fun k hk => h (k + 1) (by omega)
    simp only [cstr, h 0 (by omega), ht]

/-- A buffer that starts with the characters of `s` and a NUL. -/
theorem cstr_of_prefix : ∀ {n : Nat} {s : List UInt8} {f : Mem}, s.length < n → (∀ c ∈ s, c ≠ 0) →
    (∀ k < s.length, f k = s.getD k 0) → f s.length = 0 → cstr n f = s
  | n + 1, [], f, _, _, _, h0 => by rw [cstr, if_pos (by simpa using h0)]
  | n + 1, c :: s, f, hn, hs, hf, h0 => by
    have hc : f 0 = c := by simpa using hf 0 (by simp)
    have ht : cstr n (fun k => f (k + 1)) = s :=
      cstr_of_prefix (by simpa using hn) (fun x hx => hs x (by simp [hx]))
        (fun k hk => by simpa using hf (k + 1) (by simpa using hk)) (by simpa using h0)
    rw [cstr, hc, if_neg (hs c (by simp)), ht]

theorem strBuf_lt {s : List UInt8} {old : Mem} {k : Nat} (h : k < s.length) : strBuf s old k = s.getD k 0 := if_pos h

theorem strBuf_length {s : List UInt8} {old : Mem} : strBuf s old s.length = 0 := by simp [strBuf]

theorem cstr_eq_nil {n : Nat} {f : Mem} (hn : 0 < n) : cstr n f = [] ↔ f 0 = 0 := by
  obtain ⟨n, rfl⟩ := Nat.exists_eq_succ_of_ne_zero (by omega : n ≠ 0)
  simp only [cstr]
  split <;> simp_all

-- Unifying two different words would otherwise unfold both.
attribute [irreducible] leVal word

end Lib

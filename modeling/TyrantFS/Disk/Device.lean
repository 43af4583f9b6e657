/-
  TyrantFS.Disk.Device — the block device and the process around it: `lseek`, `read`,
  `write`, the globals of disk.c, the clock.

  The device is an array of `size` bytes with one file position. `lseek` past the end
  of a block device fails and leaves the position where it was; the code never looks at
  its result. `read` and `write` move as many bytes as there are up to the end; a
  `write` at the end fails (ENOSPC). Offsets are unsigned here, where off_t is signed and
  `lseek` refuses 2^63 and more (EINVAL): the two agree on devices of fewer than 2^63
  bytes, and no larger ones are built, but the size is only bounded by 2^64.

  `Env` is what the process brings along: the clock (the answer to the k-th call of
  `time`), its ids, what an uninitialised local variable holds, and how deep
  `sub_unlink` may nest before the C stack is used up (a computation that exceeds it
  does not return: `none`).

  Constants are written out: BLOCKSIZE 4096, ADDR_LENGTH 8, NAME_BOUNDARY and
  PATH_BOUNDARY 256, MAX_NAME_LENGTH 248, sizeof(node) 208, INODE_SIZE_BOUNDARY 256.

  A `View` is a volume of which the bytes in `vis` are known. `Runs K c a K'`: on every
  volume that agrees with `K` on its known bytes, wherever the file position stands, `c`
  returns `a` and leaves a volume that agrees with `K'`. So `Runs (.all w)` says what
  `c` does to the volume `w`, and `Runs` on a smaller view also says that nothing
  outside the view matters.
-/
import TyrantFS.Lib.Bytes
import TyrantFS.Lib.Returns

namespace TyrantFS

open Lib

structure Env where
  clock : Nat → Nat
  euid : Nat
  egid : Nat
  /-- The bytes of an uninitialised local. -/
  junk : Mem
  stack : Nat

structure Globals where
  rootNode : Nat
  drive : Int
  drivesize : Nat
  numBlocks : Nat
  inodeBlocks : Nat
  dataBlocks : Nat
  inodeByteBoundary : Nat

structure Vol where
  env : Env
  glob : Globals
  size : Nat
  /-- BLKGETSIZE64 reports the size in a uint64_t. -/
  size_lt : size < 2 ^ 64
  bytes : Mem
  /-- How often the clock has been read. -/
  ticks : Nat

structure Sys where
  vol : Vol
  pos : Nat

/-- A process that starts on a device: the globals as disk.c initialises them. -/
def Vol.start (env : Env) (size : Nat) (h : size < 2 ^ 64) (bytes : Mem) : Vol where
  env := env
  glob := ⟨4096, -1, 0, 0, 0, 0, 0⟩
  size := size
  size_lt := h
  bytes := bytes
  ticks := 0

/-- A process with a stopped clock and cleared locals, for witnesses. -/
def Env.still : Env := ⟨fun _ => 0, 0, 0, fun _ => 0, 16⟩

abbrev M := StateT Sys Option

/-! ## System calls -/

/-- `lseek(drive, off, SEEK_SET)` -/
def lseekSet (off : Nat) : M Unit := modify fun s => if off ≤ s.vol.size then { s with pos := off } else s

/-- `lseek(drive, -n, SEEK_CUR)` -/
def lseekBack (n : Nat) : M Unit := modify fun s => if n ≤ s.pos then { s with pos := s.pos - n } else s

/-- `read(drive, buf, n)`, where `buf` holds `old`: the count and the buffer after it. -/
def sysRead (old : Mem) (n : Nat) : M (Nat × Mem) := fun s =>
  let c := min n (s.vol.size - s.pos)
  some ((c, clip c (fun k => s.vol.bytes (s.pos + k)) old), { s with pos := s.pos + c })

/-- `write(drive, buf, n)` -/
def sysWrite (buf : Mem) (n : Nat) : M Int := fun s =>
  let c := min n (s.vol.size - s.pos)
  if n ≠ 0 ∧ c = 0 then some (-1, s)
  else some (c, { vol := { s.vol with bytes := put s.vol.bytes s.pos c buf }, pos := s.pos + c })

/-- `read(drive, &x, 8)` into a uint64_t `x` that holds `old` -/
def readVar (old : Nat) : M Nat := do
  let r ← sysRead (leByte old) 8
  pure (leVal 8 r.2)

/-- `write(drive, &x, 8)` from a uint64_t `x` -/
def writeVar (x : Nat) : M Int := sysWrite (leByte x) 8

/-- A uint64_t local that was never assigned. -/
def junkVar : M Nat := do
  let s ← get
  pure (leVal 8 s.vol.env.junk)

/-- `get_current_time_in_nsec` of tyrant_help.c, and `(uint64_t)time(NULL)` -/
def getCurrentTimeInNsec : M Nat := fun s =>
  some (s.vol.env.clock s.vol.ticks % 2 ^ 64, { s with vol := { s.vol with ticks := s.vol.ticks + 1 } })

def globals : M Globals := do
  let s ← get
  pure s.vol.glob

def environ : M Env := do
  let s ← get
  pure s.vol.env

/-! ## C arithmetic -/

/-- The value of an integer expression stored in a uint64_t. -/
def u64 (x : Int) : Nat := (x % 2 ^ 64).toNat

/-- A uint64_t read as an off_t. -/
def off (x : Nat) : Int := if x < 2 ^ 63 then x else x - 2 ^ 64

/-- A signed 32-bit result, wrapped. -/
def int32 (x : Int) : Int := (x + 2 ^ 31) % 2 ^ 32 - 2 ^ 31

theorem u64_ofNat {x : Nat} (h : x < 2 ^ 64) : u64 x = x := by unfold u64; omega

theorem off_ofNat {x : Nat} (h : x < 2 ^ 63) : off x = x := if_pos h

theorem int32_ofNat {x : Nat} (h : x < 2 ^ 31) : int32 x = x := by unfold int32; omega

/-! ## Views -/

structure View where
  vol : Vol
  vis : Nat → Prop

def View.all (w : Vol) : View := ⟨w, fun _ => True⟩

structure View.Holds (K : View) (s : Sys) : Prop where
  env : s.vol.env = K.vol.env
  glob : s.vol.glob = K.vol.glob
  size : s.vol.size = K.vol.size
  ticks : s.vol.ticks = K.vol.ticks
  bytes : ∀ x, K.vis x → s.vol.bytes x = K.vol.bytes x

/-- The view, with the file position at `p`. -/
def View.At (K : View) (p : Nat) (s : Sys) : Prop := K.Holds s ∧ s.pos = p

/-- The first `n` bytes of `f` stored at `a`. -/
def View.store (K : View) (a n : Nat) (f : Mem) : View :=
  { vol := { K.vol with bytes := put K.vol.bytes a n f }, vis := fun x => K.vis x ∨ a ≤ x ∧ x < a + n }

def View.storeWord (K : View) (a v : Nat) : View := K.store a 8 (leByte v)

def View.tick (K : View) : View := { K with vol := { K.vol with ticks := K.vol.ticks + 1 } }

/-- The `n` bytes at `a` are known. -/
def View.Sees (K : View) (a n : Nat) : Prop := ∀ k < n, K.vis (a + k)

def Runs {α : Type} (K : View) (c : M α) (a : α) (K' : View) : Prop := Returns K.Holds c a K'.Holds

section
variable {K : View} {a n v : Nat} {f : Mem}

@[simp] theorem store_bytes : (K.store a n f).vol.bytes = put K.vol.bytes a n f := rfl
@[simp] theorem store_glob : (K.store a n f).vol.glob = K.vol.glob := rfl
@[simp] theorem store_env : (K.store a n f).vol.env = K.vol.env := rfl
@[simp] theorem store_size : (K.store a n f).vol.size = K.vol.size := rfl
@[simp] theorem storeWord_bytes : (K.storeWord a v).vol.bytes = putWord K.vol.bytes a v := rfl
@[simp] theorem storeWord_glob : (K.storeWord a v).vol.glob = K.vol.glob := rfl
@[simp] theorem storeWord_env : (K.storeWord a v).vol.env = K.vol.env := rfl
@[simp] theorem storeWord_size : (K.storeWord a v).vol.size = K.vol.size := rfl
@[simp] theorem tick_bytes : K.tick.vol.bytes = K.vol.bytes := rfl
@[simp] theorem tick_glob : K.tick.vol.glob = K.vol.glob := rfl
@[simp] theorem tick_env : K.tick.vol.env = K.vol.env := rfl
@[simp] theorem tick_size : K.tick.vol.size = K.vol.size := rfl
@[simp] theorem tick_vis : K.tick.vis = K.vis := rfl
@[simp] theorem all_vol (w : Vol) : (View.all w).vol = w := rfl

theorem store_vis {x : Nat} (h : K.vis x) : (K.store a n f).vis x := Or.inl h

theorem storeWord_vis {x : Nat} (h : K.vis x) : (K.storeWord a v).vis x := Or.inl h

theorem all_vis (w : Vol) (x : Nat) : (View.all w).vis x := trivial

theorem View.Sees.all (w : Vol) (a n : Nat) : (View.all w).Sees a n := fun _ _ => trivial

theorem View.Sees.mono {b m : Nat} (h : K.Sees a n) (h1 : a ≤ b) (h2 : b + m ≤ a + n) : K.Sees b m := by
  intro k hk
  have := h (b - a + k) (by omega)
  rwa [show a + (b - a + k) = b + k by omega] at this

theorem View.Sees.store (h : K.Sees a n) {b m : Nat} {g : Mem} : (K.store b m g).Sees a n := fun k hk => Or.inl (h k hk)

theorem View.Sees.storeWord (h : K.Sees a n) {b w : Nat} : (K.storeWord b w).Sees a n := h.store

end

theorem holds_all {w : Vol} {s : Sys} : (View.all w).Holds s ↔ s.vol = w := by
  constructor
  · rintro ⟨h1, h2, h3, h4, h5⟩
    obtain ⟨⟨e, g, n, hn, b, t⟩, p⟩ := s
    obtain ⟨e', g', n', hn', b', t'⟩ := w
    obtain rfl : b = b' := funext fun x => h5 x trivial
    simp only [View.all] at h1 h2 h3 h4
    subst h1 h2 h3 h4
    rfl
  · rintro rfl
    exact ⟨rfl, rfl, rfl, rfl, fun _ _ => rfl⟩

/-- Where every byte is known the view is the volume. -/
theorem View.Holds.whole {K : View} {s : Sys} (h : K.Holds s) (hv : ∀ x, K.vis x) : (View.all K.vol).Holds s :=
  ⟨h.env, h.glob, h.size, h.ticks, fun x _ => h.bytes x (hv x)⟩

/-! ## Rules -/

section
variable {α β : Type} {K K' K'' : View} {c : M α} {f : α → M β} {a : α} {b : β}

theorem Runs.pure : Runs K (Pure.pure a) a K := Returns.pure a

theorem Runs.bind (hc : Runs K c a K') (hf : Runs K' (f a) b K'') : Runs K (c >>= f) b K'' := Returns.bind hc hf

/-- The file position a computation ends at is no longer needed. -/
theorem Runs.of_at {P : Sys → Prop} {q : Nat} (h : Returns P c a (K'.At q)) : Returns P c a K'.Holds :=
  h.post fun _ h => h.1

/-- On a whole volume: what the computation does there. -/
theorem Runs.exec (h : Runs K c a K') {s : Sys} (hs : K.Holds s) : ∃ s', c s = some (a, s') ∧ K'.Holds s' := h s hs

/-- `c` returns from `K`, and what it returns and leaves satisfies `Q`. -/
def Ends (K : View) (c : M α) (Q : α → View → Prop) : Prop := ∃ a K', Runs K c a K' ∧ Q a K'

theorem Runs.ends {Q : α → View → Prop} (h : Runs K c a K') (hQ : Q a K') : Ends K c Q := ⟨a, K', h, hQ⟩

theorem Ends.pure {Q : α → View → Prop} (h : Q a K) : Ends K (Pure.pure a) Q := Runs.pure.ends h

theorem Ends.bind {Q : α → View → Prop} {R : β → View → Prop} (hc : Ends K c Q)
    (hf : ∀ a K', Q a K' → Ends K' (f a) R) : Ends K (c >>= f) R := by
  obtain ⟨a, K1, h1, hQ⟩ := hc
  obtain ⟨b, K2, h2, hR⟩ := hf a K1 hQ
  exact (h1.bind h2).ends hR

theorem Runs.then {R : β → View → Prop} (hc : Runs K c a K') (hf : Ends K' (f a) R) : Ends K (c >>= f) R := by
  obtain ⟨b, K2, h2, hR⟩ := hf
  exact (hc.bind h2).ends hR

theorem Ends.mono {Q R : α → View → Prop} (h : Ends K c Q) (hQ : ∀ a K', Q a K' → R a K') : Ends K c R := by
  obtain ⟨a, K', hr, h'⟩ := h
  exact hr.ends (hQ a K' h')

end

variable {K : View} {p n a : Nat}

theorem lseekSet_at (h : a ≤ K.vol.size) : Returns K.Holds (lseekSet a) () (K.At a) :=
  Returns.modify fun s hs => by
    rw [if_pos (by rw [hs.size]; exact h)]
    exact ⟨⟨hs.env, hs.glob, hs.size, hs.ticks, hs.bytes⟩, rfl⟩

theorem lseekSet_from (h : a ≤ K.vol.size) : Returns (K.At p) (lseekSet a) () (K.At a) :=
  (lseekSet_at h).pre fun _ hs => hs.1

theorem lseekBack_at (h : n ≤ p) : Returns (K.At p) (lseekBack n) () (K.At (p - n)) :=
  Returns.modify fun s hs => by
    rw [if_pos (by rw [hs.2]; exact h)]
    exact ⟨⟨hs.1.env, hs.1.glob, hs.1.size, hs.1.ticks, hs.1.bytes⟩, by rw [hs.2]⟩

theorem sysRead_at {g : Mem} (hn : p + n ≤ K.vol.size) (hv : K.Sees p n) :
    Returns (K.At p) (sysRead g n) (n, clip n (fun k => K.vol.bytes (p + k)) g) (K.At (p + n)) := by
  rintro s ⟨hs, rfl⟩
  have hc : min n (s.vol.size - s.pos) = n := by rw [hs.size]; omega
  refine ⟨{ s with pos := s.pos + n }, ?_, ⟨hs.env, hs.glob, hs.size, hs.ticks, hs.bytes⟩, rfl⟩
  simp only [sysRead, hc]
  rw [clip_congr fun k hk => hs.bytes _ (hv k hk)]

theorem sysWrite_at {f : Mem} (hn : p + n ≤ K.vol.size) :
    Returns (K.At p) (sysWrite f n) n ((K.store p n f).At (p + n)) := by
  rintro s ⟨hs, rfl⟩
  have hc : min n (s.vol.size - s.pos) = n := by rw [hs.size]; omega
  refine ⟨{ vol := { s.vol with bytes := put s.vol.bytes s.pos n f }, pos := s.pos + n }, ?_,
    ⟨hs.env, hs.glob, hs.size, hs.ticks, ?_⟩, rfl⟩
  · simp only [sysWrite, hc]
    rw [if_neg (by omega)]
  · intro x hx
    show put s.vol.bytes s.pos n f x = put K.vol.bytes s.pos n f x
    by_cases h : s.pos ≤ x ∧ x < s.pos + n
    · rw [put_in h.1 h.2, put_in h.1 h.2]
    · rw [put_out (by omega), put_out (by omega), hs.bytes x (hx.resolve_right h)]

theorem readVar_at {old : Nat} (hn : p + 8 ≤ K.vol.size) (hv : K.Sees p 8) :
    Returns (K.At p) (readVar old) (word K.vol.bytes p) (K.At (p + 8)) := by
  refine (sysRead_at hn hv).bind ?_
  rw [leVal_clip (Nat.le_refl 8), word_eq]
  exact Returns.pure _

theorem writeVar_at {v : Nat} (hn : p + 8 ≤ K.vol.size) :
    Returns (K.At p) (writeVar v) 8 ((K.storeWord p v).At (p + 8)) := sysWrite_at hn

theorem junkVar_runs : Runs K junkVar (leVal 8 K.vol.env.junk) K :=
  Returns.get_bind fun s hs t ht => ⟨s, by subst ht; rw [hs.env]; rfl, hs⟩

theorem globals_runs : Runs K globals K.vol.glob K :=
  Returns.get_bind fun s hs t ht => ⟨s, by subst ht; rw [hs.glob]; rfl, hs⟩

theorem environ_runs : Runs K environ K.vol.env K :=
  Returns.get_bind fun s hs t ht => ⟨s, by subst ht; rw [hs.env]; rfl, hs⟩

theorem getCurrentTimeInNsec_runs :
    Runs K getCurrentTimeInNsec (K.vol.env.clock K.vol.ticks % 2 ^ 64) K.tick := by
  intro s hs
  refine ⟨{ s with vol := { s.vol with ticks := s.vol.ticks + 1 } }, ?_, hs.env, hs.glob, hs.size, ?_, hs.bytes⟩
  · simp only [getCurrentTimeInNsec, hs.env, hs.ticks]
  · show s.vol.ticks + 1 = K.vol.ticks + 1
    rw [hs.ticks]

/-! ## Computations that only read -/

/-- `c` returns from every state, and at most the file position has changed. -/
def Reads {α : Type} (c : M α) : Prop := ∀ s, ∃ a q, c s = some (a, { s with pos := q })

section
variable {α β : Type} {c d : M α} {f : α → M β} {a : α} {K : View} {Q : Vol → Prop}

theorem Reads.pure : Reads (Pure.pure a : M α) := fun s => ⟨a, s.pos, rfl⟩

theorem Reads.bind (hc : Reads c) (hf : ∀ a, Reads (f a)) : Reads (c >>= f) := by
  intro s
  obtain ⟨a, p, e⟩ := hc s
  obtain ⟨b, q, e'⟩ := hf a { s with pos := p }
  exact ⟨b, q, (bind_eq e).trans e'⟩

theorem Reads.ite {p : Prop} [Decidable p] (hc : Reads c) (hd : Reads d) : Reads (if p then c else d) := by
  split
  · exact hc
  · exact hd

theorem lseekSet_reads {o : Nat} : Reads (lseekSet o) := by
  intro s
  by_cases h : o ≤ s.vol.size
  · exact ⟨(), o, by simp only [lseekSet, modify, modifyGet, MonadStateOf.modifyGet, StateT.modifyGet, if_pos h]; rfl⟩
  · exact ⟨(), s.pos, by simp only [lseekSet, modify, modifyGet, MonadStateOf.modifyGet, StateT.modifyGet, if_neg h]; rfl⟩

theorem sysRead_reads {g : Mem} {n : Nat} : Reads (sysRead g n) := fun _ => ⟨_, _, rfl⟩

theorem environ_reads : Reads environ := fun s => ⟨s.vol.env, s.pos, rfl⟩

theorem globals_reads : Reads globals := fun s => ⟨s.vol.glob, s.pos, rfl⟩

theorem junkVar_reads : Reads junkVar := fun s => ⟨leVal 8 s.vol.env.junk, s.pos, rfl⟩

/-- What holds of the volume still does. -/
theorem Reads.keeps (h : Reads c) : Ensures (fun s => Q s.vol) c fun _ s => Q s.vol := by
  intro s hs
  obtain ⟨a, q, e⟩ := h s
  exact ⟨a, _, e, hs⟩

theorem Reads.holds (h : Reads c) : Ensures K.Holds c fun _ => K.Holds := by
  intro s hs
  obtain ⟨a, q, e⟩ := h s
  exact ⟨a, _, e, hs.env, hs.glob, hs.size, hs.ticks, hs.bytes⟩

end

end TyrantFS

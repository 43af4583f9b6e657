/-
  TyrantFS.Disk.InodeSet — the inode table as an exact allocator.

  `Inodes` is what the callers hold: the inode of every slot in use. Requests are an
  `allocate_inode` whose slot is committed at once, a `commit_inode` to a slot in use, and
  a `free_inode` of one. A slot that nobody holds is zero in its first 208 bytes: the
  table starts so, `free_inode` clears all 256 bytes of a slot, and a commit writes no
  other slot. So the mode is a sound mark, and what `allocate_inode` finds reads as an
  empty inode (`table_exact`).
-/
import TyrantFS.Disk.Mkfs

namespace TyrantFS.InodeSet

open Lib

abbrev Inodes := Nat → Option Node

/-- `T` with what the slot `a` holds replaced. -/
def set (T : Inodes) (a : Nat) (n : Option Node) : Inodes := fun b => if b = a then n else T b

theorem set_self {T : Inodes} {a : Nat} {n : Option Node} : set T a n a = n := if_pos rfl

theorem set_ne {T : Inodes} {a b : Nat} {n : Option Node} (h : b ≠ a) : set T a n b = T b := if_neg h

inductive Request where
  | create (n : Node)
  | update (a : Nat) (n : Node)
  | release (a : Nat)

/-- What is asked of the callers: to commit inodes with a mode, to slots that are in use. -/
def Request.Legal (T : Inodes) : Request → Prop
  | .create n => n.Fits ∧ n.mode ≠ 0
  | .update a n => T a ≠ none ∧ n.Fits ∧ n.mode ≠ 0
  | .release a => T a ≠ none

/-- The calls; the result is the new slot, 0 where there is none. -/
def Request.call (fd : Int) : Request → M Nat
  | .create n => do
    let a ← allocateInode fd
    if a ≠ 0 then do
      let _ ← commitInode n a
      pure a
    else pure 0
  | .update a n => do
    let _ ← commitInode n a
    pure 0
  | .release a => do
    let _ ← freeInode a
    pure 0

/-- What the callers hold after a call that returned `x`. -/
def Request.after (T : Inodes) (x : Nat) : Request → Inodes
  | .create n => if x = 0 then T else set T x (some n)
  | .update a n => set T a (some n)
  | .release a => set T a none

/-- The bytes a call that returned `x` may change: those of its slot. -/
def Request.Touches (x y : Nat) : Request → Prop
  | .create _ => x ≠ 0 ∧ x ≤ y ∧ y < x + 256
  | .update a _ => a ≤ y ∧ y < a + 256
  | .release a => a ≤ y ∧ y < a + 256

/-- Legal requests, one after the other. -/
inductive Served (fd : Int) : Inodes → Sys → List (Request × Nat) → Inodes → Sys → Prop
  | nil {T : Inodes} {s : Sys} : Served fd T s [] T s
  | cons {T T' : Inodes} {s s1 s' : Sys} {r : Request} {x : Nat} {t : List (Request × Nat)} : r.Legal T →
      r.call fd s = some (x, s1) → Served fd (r.after T x) s1 t T' s' → Served fd T s ((r, x) :: t) T' s'

/-! ## The table -/

/-- The device holds the inodes `T`, and nothing in the other slots. -/
structure Holds (T : Inodes) (v : Vol) : Prop where
  table : Table (.all v)
  used : ∀ a n, T a = some n → IsSlot v.glob.inodeByteBoundary a ∧ nodeAt v.bytes a = n ∧ n.mode ≠ 0
  free : ∀ a, IsSlot v.glob.inodeByteBoundary a → T a = none → ∀ k < 208, v.bytes (a + k) = 0

variable {T : Inodes} {v : Vol} {s : Sys} {fd : Int} {a b x : Nat} {n : Node} {r : Request}

/-- The mode says which slots are in use. -/
theorem Holds.inUse (h : Holds T v) (ha : IsSlot v.glob.inodeByteBoundary a) : InUse v.bytes a ↔ T a ≠ none := by
  unfold InUse
  cases e : T a with
  | none =>
    rw [nodeAt_zero (h.free a ha e)]
    exact iff_of_false (fun h => h decode_zeros_mode) fun h => h rfl
  | some n =>
    obtain ⟨-, hn, hm⟩ := h.used a n e
    rw [hn]
    exact iff_of_true hm (Option.some_ne_none n)

theorem Holds.slot (h : Holds T v) (ha : T a ≠ none) : IsSlot v.glob.inodeByteBoundary a := by
  obtain ⟨n, e⟩ := Option.ne_none_iff_exists'.mp ha
  exact (h.used a n e).1

theorem Holds.inside (h : Holds T v) (ha : IsSlot v.glob.inodeByteBoundary a) :
    a + 256 ≤ v.glob.inodeByteBoundary ∧ v.glob.inodeByteBoundary ≤ v.size := by
  have h1 := ha.high
  have h2 := ha.aligned
  have h3 : v.glob.inodeByteBoundary % 256 = 0 := h.table.aligned
  exact ⟨by omega, h.table.high⟩

/-- A store into one slot, which leaves the other slots as they are. -/
theorem Holds.store (h : Holds T v) (ha : IsSlot v.glob.inodeByteBoundary a) {w : Nat} {f : Mem} (hw : w ≤ 256) {m : Option Node}
    (hs : ∀ n, m = some n → nodeAt (put v.bytes a w f) a = n ∧ n.mode ≠ 0) (hf : m = none → ∀ k < 208, put v.bytes a w f (a + k) = 0) :
    Holds (set T a m) (v.set (put v.bytes a w f)) := by
  have halow := ha.low
  have hal := ha.aligned
  have hout : ∀ b, IsSlot v.glob.inodeByteBoundary b → b ≠ a → ∀ k < 208, put v.bytes a w f (b + k) = v.bytes (b + k) := by
    intro b hb hne k hk
    have := hb.aligned
    exact put_out (by omega)
  refine ⟨⟨h.table.drive, h.table.low, h.table.aligned, h.table.high, View.Sees.all _ _ _⟩, fun b n hb => ?_, fun b hb hn => ?_⟩
  · by_cases e : b = a
    · subst e
      rw [set_self] at hb
      exact ⟨ha, hs n hb⟩
    · rw [set_ne e] at hb
      obtain ⟨h1, h2, h3⟩ := h.used b n hb
      exact ⟨h1, (nodeAt_congr (hout b h1 e)).trans h2, h3⟩
  · by_cases e : b = a
    · subst e
      rw [set_self] at hn
      exact hf hn
    · rw [set_ne e] at hn
      intro k hk
      exact (hout b hb e k hk).trans (h.free b hb hn k hk)

theorem Holds.commit (h : Holds T v) (ha : IsSlot v.glob.inodeByteBoundary a) (hf : n.Fits) (hm : n.mode ≠ 0) :
    Runs (.all v) (commitInode n a) 208 (.all (v.set (put v.bytes a 208 n.encode))) ∧
      Holds (set T a (some n)) (v.set (put v.bytes a 208 n.encode)) := by
  obtain ⟨h1, h2⟩ := h.inside ha
  refine ⟨Returns.post (commitInode_runs (by rw [all_vol]; omega)) fun s hs => hs.whole fun _ => Or.inl trivial,
    h.store ha (by decide) (fun n' e => ?_) fun e => nomatch e⟩
  obtain rfl := Option.some.inj e
  exact ⟨nodeAt_put hf, hm⟩

theorem Holds.clear (h : Holds T v) (ha : IsSlot v.glob.inodeByteBoundary a) :
    Runs (.all v) (freeInode a) 0 (.all (v.set (put v.bytes a 256 zeros))) ∧
      Holds (set T a none) (v.set (put v.bytes a 256 zeros)) := by
  obtain ⟨h1, h2⟩ := h.inside ha
  have h3 := ha.low
  refine ⟨Returns.post (freeInode_runs (by omega) (by rw [all_vol]; omega)) fun s hs => hs.whole fun _ => Or.inl trivial,
    h.store ha (by decide) (fun n' e => nomatch e) fun _ k hk => ?_⟩
  rw [put_in (by omega) (by omega)]
  rfl

/-! ## One step -/

/-- `allocate_inode` answers with the lowest slot that nobody holds, and changes nothing. -/
theorem Holds.allocate (h : Holds T v) (fd : Int) : ∃ x, Runs (.all v) (allocateInode fd) x (.all v) ∧
    (x = 0 ∧ (∀ a, IsSlot v.glob.inodeByteBoundary a → T a ≠ none) ∨ IsSlot v.glob.inodeByteBoundary x ∧ T x = none ∧
      ∀ a, IsSlot v.glob.inodeByteBoundary a → a < x → T a ≠ none) := by
  rcases first_free v.bytes v.glob.inodeByteBoundary with hall | ⟨a, ha, hf, hlow⟩
  · exact ⟨0, allocateInode_none fd h.table hall, Or.inl ⟨rfl, fun a ha => (h.inUse ha).mp (hall a ha)⟩⟩
  · refine ⟨a, allocateInode_some fd h.table ha hf hlow, Or.inr ⟨ha, ?_, fun b hb hlt => (h.inUse hb).mp (hlow b hb hlt)⟩⟩
    by_contra hc
    exact hf ((h.inUse ha).mpr hc)

/-- An inode is put into the lowest slot that nobody holds. -/
theorem Holds.create (h : Holds T v) (hl : (Request.create n).Legal T) (ha : IsSlot v.glob.inodeByteBoundary a) (hn : T a = none)
    (hlow : ∀ b, IsSlot v.glob.inodeByteBoundary b → b < a → T b ≠ none) :
    Runs (.all v) ((Request.create n).call fd) a (.all (v.set (put v.bytes a 208 n.encode))) ∧
      Holds (set T a (some n)) (v.set (put v.bytes a 208 n.encode)) := by
  obtain ⟨x, halloc, ⟨rfl, hall⟩ | ⟨hx, hxn, hxlow⟩⟩ := h.allocate fd
  · exact absurd hn (hall a ha)
  · obtain rfl : x = a := by
      rcases Nat.lt_trichotomy x a with hlt | rfl | hlt
      · exact absurd hxn (hlow x hx hlt)
      · rfl
      · exact absurd hn (hxlow a ha hlt)
    obtain ⟨hcommit, hnew⟩ := h.commit hx hl.1 hl.2
    refine ⟨halloc.bind ?_, hnew⟩
    have hpos := hx.low
    rw [if_pos (by omega)]
    exact hcommit.bind Runs.pure

theorem Holds.update (h : Holds T v) (hl : (Request.update a n).Legal T) :
    Runs (.all v) ((Request.update a n).call fd) 0 (.all (v.set (put v.bytes a 208 n.encode))) ∧
      Holds (set T a (some n)) (v.set (put v.bytes a 208 n.encode)) := by
  obtain ⟨hcommit, hnew⟩ := h.commit (h.slot hl.1) hl.2.1 hl.2.2
  exact ⟨hcommit.bind Runs.pure, hnew⟩

theorem Holds.release (h : Holds T v) (hl : (Request.release a).Legal T) :
    Runs (.all v) ((Request.release a).call fd) 0 (.all (v.set (put v.bytes a 256 zeros))) ∧
      Holds (set T a none) (v.set (put v.bytes a 256 zeros)) := by
  obtain ⟨hclear, hnew⟩ := h.clear (h.slot hl)
  exact ⟨hclear.bind Runs.pure, hnew⟩

/-- A legal request is served: the table is what the callers hold after it, and nothing
    outside the slot has changed. -/
theorem Holds.step (h : Holds T s.vol) (hr : r.Legal T) : ∃ x s1, r.call fd s = some (x, s1) ∧ Holds (r.after T x) s1.vol ∧
    s1.vol.glob = s.vol.glob ∧ s1.vol.size = s.vol.size ∧ ∀ y, ¬ r.Touches x y → s1.vol.bytes y = s.vol.bytes y := by
  obtain ⟨x, w, hrun, hw, hg, hs, hb⟩ : ∃ (x : Nat) (w : Vol), Runs (.all s.vol) (r.call fd) x (.all w) ∧ Holds (r.after T x) w ∧
      w.glob = s.vol.glob ∧ w.size = s.vol.size ∧ ∀ y, ¬ r.Touches x y → w.bytes y = s.vol.bytes y := by
    cases r with
    | create n =>
      obtain ⟨x, halloc, ⟨rfl, -⟩ | ⟨hx, hn, hmin⟩⟩ := h.allocate fd
      · -- the table is full
        refine ⟨0, s.vol, halloc.bind ?_, h, rfl, rfl, fun _ _ => rfl⟩
        rw [if_neg fun h => h rfl]
        exact Runs.pure
      · have hlow := hx.low
        have h0 : x ≠ 0 := by omega
        obtain ⟨hcall, hnew⟩ := h.create hr hx hn hmin
        refine ⟨x, _, hcall, ?_, rfl, rfl, fun y hy => put_out ?_⟩
        · rw [Request.after, if_neg h0]
          exact hnew
        · have : ¬ (x ≤ y ∧ y < x + 256) := fun hc => hy ⟨h0, hc⟩
          omega
    | update a n =>
      obtain ⟨hcall, hnew⟩ := h.update hr
      refine ⟨0, _, hcall, hnew, rfl, rfl, fun y hy => put_out ?_⟩
      have : ¬ (a ≤ y ∧ y < a + 256) := hy
      omega
    | release a =>
      obtain ⟨hcall, hnew⟩ := h.release hr
      refine ⟨0, _, hcall, hnew, rfl, rfl, fun y hy => put_out ?_⟩
      have : ¬ (a ≤ y ∧ y < a + 256) := hy
      omega
  obtain ⟨s1, hc, hs1⟩ := hrun.exec (holds_all.mpr rfl)
  obtain rfl := holds_all.mp hs1
  exact ⟨x, s1, hc, hw, hg, hs, hb⟩

/-! ## Any run -/

/-- What holds of the table in a state in which the callers hold `T`. -/
structure Exact (fd : Int) (T : Inodes) (s : Sys) : Prop where
  /-- `allocate_inode` returns 0 exactly when every slot is held, else the lowest that is
      not, which reads as an empty inode. -/
  alloc : ∃ x s1, allocateInode fd s = some (x, s1) ∧ s1.vol = s.vol ∧
    (x = 0 ↔ ∀ i < s.vol.glob.inodeBlocks * 16, T (4096 + 256 * i) ≠ none) ∧
    (x ≠ 0 → T x = none ∧ x % 256 = 0 ∧ 4096 ≤ x ∧ x + 256 ≤ s.vol.glob.inodeByteBoundary ∧
      (∀ i < s.vol.glob.inodeBlocks * 16, 4096 + 256 * i < x → T (4096 + 256 * i) ≠ none) ∧
      ∃ s2, fetchNode x s1 = some (Node.decode zeros, s2))
  /-- A slot in use reads as what was committed to it last. -/
  held : ∀ a n, T a = some n → ∃ s1, fetchNode a s = some (n, s1)
  /-- Every legal request is served, and changes no byte outside its slot. -/
  step : ∀ r : Request, r.Legal T → ∃ x s1, r.call fd s = some (x, s1) ∧ ∀ y, ¬ r.Touches x y → s1.vol.bytes y = s.vol.bytes y

theorem isSlot_iff {ib : Nat} : IsSlot ((ib + 1) * 4096) a ↔ ∃ i < ib * 16, a = 4096 + 256 * i := by
  constructor
  · intro h
    have h1 := h.low
    have h2 := h.high
    have h3 := h.aligned
    exact ⟨(a - 4096) / 256, by omega, by omega⟩
  · rintro ⟨i, hi, rfl⟩
    exact ⟨by omega, by omega, by omega⟩

theorem Holds.exact (h : Holds T s.vol) (hb : s.vol.glob.inodeByteBoundary = (s.vol.glob.inodeBlocks + 1) * 4096) : Exact fd T s := by
  have hslot : ∀ i < s.vol.glob.inodeBlocks * 16, IsSlot s.vol.glob.inodeByteBoundary (4096 + 256 * i) := fun i hi => by
    rw [hb]
    exact isSlot_iff.mpr ⟨i, hi, rfl⟩
  have hread : ∀ a, IsSlot s.vol.glob.inodeByteBoundary a → Runs (.all s.vol) (fetchNode a) (nodeAt s.vol.bytes a) (.all s.vol) := by
    intro a ha
    obtain ⟨h1, h2⟩ := h.inside ha
    have := ha.low
    exact fetchNode_runs (by omega) (by rw [all_vol]; omega) fun _ _ => trivial
  refine ⟨?_, fun a n ha => ?_, fun r hr => ?_⟩
  · obtain ⟨x, hrun, hx⟩ := h.allocate fd
    obtain ⟨s1, hc, hs1⟩ := hrun.exec (holds_all.mpr rfl)
    refine ⟨x, s1, hc, holds_all.mp hs1, ?_, fun h0 => ?_⟩
    · rcases hx with ⟨rfl, hall⟩ | ⟨ha, hn, -⟩
      · exact iff_of_true rfl fun i hi => hall _ (hslot i hi)
      · refine iff_of_false (by have := ha.low; omega) fun hall => ?_
        rw [hb] at ha
        obtain ⟨i, hi, rfl⟩ := isSlot_iff.mp ha
        exact hall i hi hn
    · obtain ⟨ha, hn, hlow⟩ := hx.resolve_left fun hc => h0 hc.1
      obtain ⟨s2, hc2, -⟩ := (hread x ha).exec hs1
      rw [nodeAt_zero (h.free x ha hn)] at hc2
      exact ⟨hn, ha.aligned, ha.low, (h.inside ha).1, fun i hi hlt => hlow _ (hslot i hi) hlt, s2, hc2⟩
  · obtain ⟨hslot, hn, -⟩ := h.used a n ha
    obtain ⟨s1, hc, -⟩ := (hread a hslot).exec (holds_all.mpr rfl)
    rw [hn] at hc
    exact ⟨s1, hc⟩
  · obtain ⟨x, s1, hc, -, -, -, hout⟩ := h.step hr
    exact ⟨x, s1, hc, hout⟩

theorem Served.holds {t : List (Request × Nat)} {T' : Inodes} {s' : Sys} (hr : Served fd T s t T' s') (h : Holds T s.vol) :
    Holds T' s'.vol ∧ s'.vol.glob = s.vol.glob := by
  induction hr with
  | nil => exact ⟨h, rfl⟩
  | cons hl hc _ ih =>
    obtain ⟨x, s1, hc', h1, hg, -, -⟩ := h.step hl
    obtain ⟨rfl, rfl⟩ := Prod.mk.inj (Option.some.inj (hc.symm.trans hc'))
    obtain ⟨h2, hg2⟩ := ih h1
    exact ⟨h2, hg2.trans hg⟩

/-- The boundaries of a device of at least 65 blocks, over a zeroed table. -/
structure Zeroed (fd : Int) (s : Sys) : Prop where
  enough : 65 ≤ s.vol.size / 4096
  open_ : 0 ≤ fd
  glob : ∃ g, s.vol.glob = boundaries g fd s.vol.size
  zero : ∀ x, 4096 ≤ x → x < s.vol.glob.inodeByteBoundary → s.vol.bytes x = 0

theorem Zeroed.boundary (h : Zeroed fd s) : s.vol.glob.inodeByteBoundary = regionStart s.vol.size ∧
    s.vol.glob.inodeByteBoundary = (s.vol.glob.inodeBlocks + 1) * 4096 := by
  obtain ⟨g, hg⟩ := h.glob
  have hr := region_of h.enough
  have hfits := hr.fits64
  have hbound : u64 ((s.vol.size / 4096 / 65 + 1 : Nat) * 4096) = regionStart s.vol.size :=
    u64_ofNat (x := regionStart s.vol.size) (by omega)
  rw [hg]
  exact ⟨hbound, hbound⟩

theorem Zeroed.holds (h : Zeroed fd s) : Holds (fun _ => none) s.vol := by
  have hr := region_of h.enough
  have hlow := hr.low
  have hal := hr.aligned
  have hfits := hr.fits
  have hb := h.boundary.1
  have ht : Table (.all s.vol) := by
    refine ⟨?_, ?_, ?_, ?_, View.Sees.all _ _ _⟩
    · obtain ⟨g, hg⟩ := h.glob
      rw [all_vol, hg]
      exact h.open_
    · rw [all_vol, hb]
      omega
    · rw [all_vol, hb]
      omega
    · rw [all_vol, hb]
      omega
  refine ⟨ht, fun a n e => (nomatch e), fun a ha _ k hk => ?_⟩
  have h1 := ha.low
  have h2 := ha.high
  have h3 := ha.aligned
  exact h.zero _ (by omega) (by omega)

/-- The inode table is an exact allocator, after any sequence of legal requests. -/
theorem table_exact {t : List (Request × Nat)} {s' : Sys} (h : Zeroed fd s) (hr : Served fd (fun _ => none) s t T s') :
    Exact fd T s' := by
  obtain ⟨hh, hg⟩ := hr.holds h.holds
  refine hh.exact ?_
  rw [hg]
  exact h.boundary.2

/-- The device of 65 blocks. -/
def smallTable : Sys :=
  ⟨{ Vol.start .still (65 * 4096) (by decide) zeros with glob := boundaries ⟨4096, -1, 0, 0, 0, 0, 0⟩ 3 (65 * 4096) }, 0⟩

theorem smallTable_zeroed : Zeroed 3 smallTable := ⟨by decide, by decide, ⟨_, rfl⟩, fun _ _ _ => rfl⟩

theorem rootInode_legal {T : Inodes} {b : Nat} (hb : b < 2 ^ 64) : (Request.create (rootInode b 0 0 0)).Legal T :=
  ⟨rootInode_fits hb (by decide) (by decide) (by decide), show rootMode ≠ 0 by decide⟩

/-- Two inodes are made, the second is changed, the first is given back, and its slot is
    the next to be used. -/
theorem table_exact_small : ∃ T s', Served 3 (fun _ => none) smallTable [(.create (rootInode 0 0 0 0), 4096),
      (.create (rootInode 0 0 0 0), 4352), (.update 4352 (rootInode 8192 0 0 0), 0), (.release 4096, 0),
      (.create (rootInode 12288 0 0 0), 4096)] T s' ∧
    T 4096 = some (rootInode 12288 0 0 0) ∧ T 4352 = some (rootInode 8192 0 0 0) ∧ Exact 3 T s' := by
  have hslot : IsSlot 8192 4096 ∧ IsSlot 8192 4352 := ⟨⟨by decide, by decide, by decide⟩, by decide, by decide, by decide⟩
  have hfirst : ∀ {T : Inodes} (b : Nat), IsSlot 8192 b → b < 4096 → T b ≠ none := fun b hb hlt => absurd hb.low (Nat.not_le_of_lt hlt)
  obtain ⟨hr1, h1⟩ : Runs _ (Request.call 3 _) 4096 _ ∧ _ :=
    smallTable_zeroed.holds.create (rootInode_legal (b := 0) (by decide)) hslot.1 rfl hfirst
  obtain ⟨hr2, h2⟩ : Runs _ (Request.call 3 _) 4352 _ ∧ _ :=
    h1.create (rootInode_legal (b := 0) (by decide)) hslot.2 rfl fun b hb hlt => by
      -- the slot before it is 4096
      obtain ⟨hlow, -, hal⟩ := hb
      obtain rfl : b = 4096 := by omega
      exact Option.some_ne_none _
  obtain ⟨hr3, h3⟩ : Runs _ (Request.call 3 _) 0 _ ∧ _ :=
    h2.update (a := 4352) ⟨Option.some_ne_none (rootInode 0 0 0 0), rootInode_legal (T := fun _ => none) (b := 8192) (by decide)⟩
  obtain ⟨hr4, h4⟩ : Runs _ (Request.call 3 _) 0 _ ∧ _ := h3.release (a := 4096) (Option.some_ne_none (rootInode 0 0 0 0))
  obtain ⟨hr5, -⟩ : Runs _ (Request.call 3 _) 4096 _ ∧ _ := h4.create (rootInode_legal (b := 12288) (by decide)) hslot.1 rfl hfirst
  obtain ⟨s1, e1, k1⟩ := hr1.exec (holds_all.mpr rfl)
  obtain ⟨s2, e2, k2⟩ := hr2.exec k1
  obtain ⟨s3, e3, k3⟩ := hr3.exec k2
  obtain ⟨s4, e4, k4⟩ := hr4.exec k3
  obtain ⟨s5, e5, -⟩ := hr5.exec k4
  have hr : Served 3 (fun _ => none) smallTable [(.create (rootInode 0 0 0 0), 4096), (.create (rootInode 0 0 0 0), 4352),
      (.update 4352 (rootInode 8192 0 0 0), 0), (.release 4096, 0), (.create (rootInode 12288 0 0 0), 4096)] _ s5 :=
    .cons (rootInode_legal (by decide)) e1 (.cons (rootInode_legal (by decide)) e2
      (.cons ⟨Option.some_ne_none _, rootInode_legal (T := fun _ => none) (by decide)⟩ e3
        (.cons (Option.some_ne_none (rootInode 0 0 0 0)) e4
        (.cons (rootInode_legal (by decide)) e5 .nil))))
  exact ⟨_, s5, hr, rfl, rfl, table_exact smallTable_zeroed hr⟩

end TyrantFS.InodeSet

/-
  TyrantFS.Help.Directory — directories: packed arrays of entries over the blocks of an
  inode, and the functions of tyrant_help.c that search and change them.

  Entry `e` stands in block `e / 16`, at offset `256 * (e % 16)` (`entryAt`). In a packed
  directory the entries in use are the first `size / 256`, and what is left of the last
  block is zero.
-/
import TyrantFS.Help.Frame
import TyrantFS.Disk.Entry

namespace TyrantFS

open Lib Lib.PageTree

/-! ## Packed directories -/

/-- Where entry `e` of the directory `n` stands. -/
def entryAt (m : Mem) (n : Node) (e : Nat) : Nat := addrOf m n (e / 16) + 256 * (e % 16)

def nameOf (m : Mem) (n : Node) (e : Nat) : List UInt8 := entryName m (entryAt m n e)

def childOf (m : Mem) (n : Node) (e : Nat) : Nat := entryAddr m (entryAt m n e)

theorem entryAt_congr {m m' : Mem} {n n' : Node} {e : Nat} (h : addrOf m' n' (e / 16) = addrOf m n (e / 16)) :
    entryAt m' n' e = entryAt m n e := by rw [entryAt, entryAt, h]

/-- Entries in use from the first one on, and nothing behind them. -/
structure Laid (K : View) (n : Node) : Prop where
  whole : n.size % 256 = 0
  sees : ∀ i < n.blocks, K.Sees (addrOf K.vol.bytes n i) 4096
  named : ∀ e < n.size / 256, K.vol.bytes (entryAt K.vol.bytes n e) ≠ 0
  rest : ∀ e, n.size / 256 ≤ e → e < 16 * n.blocks → ∀ k < 256, K.vol.bytes (entryAt K.vol.bytes n e + k) = 0

structure Packed (K : View) (n : Node) : Prop extends Laid K n where
  ceil : n.blocks = (n.size + 4095) / 4096

variable {z : Zone} {K K' : View} {own own' : Nat → Option Pos} {ps ps' : List Nat} {a i e : Nat} {n n' : Node}

/-- The entries in use lie in the directory's blocks. -/
theorem Packed.lt (h : Packed K n) (he : e < n.size / 256) : e / 16 < n.blocks := by
  have := h.ceil
  omega

theorem Laid.sees_entry (h : Laid K n) (he : e / 16 < n.blocks) : K.Sees (entryAt K.vol.bytes n e) 256 := by
  unfold entryAt
  exact (h.sees _ he).mono (by omega) (by omega)

/-- Two entries are the same or apart. -/
theorem MapAt.entry_apart (h : MapAt z K own ps a n) {f : Nat} (he : e / 16 < n.blocks) (hf : f / 16 < n.blocks)
    (hne : e ≠ f) : entryAt K.vol.bytes n e + 256 ≤ entryAt K.vol.bytes n f ∨
      entryAt K.vol.bytes n f + 256 ≤ entryAt K.vol.bytes n e := by
  unfold entryAt
  by_cases hb : e / 16 = f / 16
  · rw [hb]
    omega
  · have h1 := h.maps.data _ he
    have h2 := h.maps.data _ hf
    have hd : addrOf K.vol.bytes n (e / 16) ≠ addrOf K.vol.bytes n (f / 16) := by
      intro heq
      rw [heq, h2] at h1
      injection h1 with h1
      injection h1 with _ h1
      exact hb h1.symm
    have := (h.space.owned _ (by simp [h1])).apart (h.space.owned _ (by simp [h2])) hd
    omega

/-- A directory whose blocks follow each other. -/
theorem plainNode_packed {mode blocks b links : Nat} {es : List (List UInt8 × Nat)} (h12 : blocks ≤ 12)
    (hc : blocks = (256 * es.length + 4095) / 4096) (hv : ∀ x, K.vis x) (hn : ∀ e (h : e < es.length), IsName es[e].1)
    (hm : ∀ x < 4096 * blocks, K.vol.bytes (b + x) = dirBlocks es x) :
    Packed K (plainNode mode (256 * es.length) blocks b links) ∧ ∀ e < 16 * blocks,
      entryAt K.vol.bytes (plainNode mode (256 * es.length) blocks b links) e = b + 256 * e := by
  have hat : ∀ e < 16 * blocks, entryAt K.vol.bytes (plainNode mode (256 * es.length) blocks b links) e = b + 256 * e := by
    intro e he
    rw [entryAt, addrOf_direct (by omega), plainNode_direct (by omega) (by omega)]
    omega
  have hbyte : ∀ {e k : Nat}, e < 16 * blocks → k < 256 →
      K.vol.bytes (entryAt K.vol.bytes (plainNode mode (256 * es.length) blocks b links) e + k) = dirBlocks es (256 * e + k) := by
    intro e k he hk
    rw [hat e he, Nat.add_assoc]
    exact hm _ (by omega)
  have hsz : (plainNode mode (256 * es.length) blocks b links).size / 256 = es.length :=
    Nat.mul_div_cancel_left es.length (by decide)
  refine ⟨⟨⟨Nat.mul_mod_right 256 es.length, fun i _ k _ => hv _, fun e he h0 => ?_, fun e h1 h2 k hk => ?_⟩, hc⟩, hat⟩
  · rw [hsz] at he
    have hname := dirBlocks_name he (hn e he) fun k hk => hbyte (by omega) hk
    rw [entryName_eq_nil.mpr h0] at hname
    exact (hn e he).nonempty hname.symm
  · rw [hsz] at h1
    rw [hbyte h2 hk]
    exact dirBlocks_rest h1 hk

/-! ## Searching for an inode -/

/-- The byte offset of entry `e` is not negative as an int. -/
def Seen (e : Nat) : Prop := 256 * e % 2 ^ 32 < 2 ^ 31

instance : DecidablePred Seen := fun e => inferInstanceAs (Decidable (256 * e % 2 ^ 32 < 2 ^ 31))

theorem entryOffset_seen {e : Nat} (h : Seen e) : entryOffset (e / 16) (256 * (e % 16)) = 256 * e % 2 ^ 32 := by
  unfold Seen at h
  have he : ((256 * (e % 16) : Nat) : Int) + ((e / 16 : Nat) : Int) * 4096 = ((256 * e : Nat) : Int) := by omega
  unfold entryOffset int32 u64
  rw [he]
  omega

theorem entryOffset_unseen {e : Nat} (h : ¬ Seen e) : 2 ^ 63 ≤ entryOffset (e / 16) (256 * (e % 16)) := by
  unfold Seen at h
  have he : ((256 * (e % 16) : Nat) : Int) + ((e / 16 : Nat) : Int) * 4096 = ((256 * e : Nat) : Int) := by omega
  unfold entryOffset int32 u64
  rw [he]
  omega

/-- The entries of one block are all seen, or none is. -/
theorem seen_block {e f : Nat} (h : e / 16 = f / 16) : Seen e ↔ Seen f := by
  unfold Seen
  omega

theorem MapAt.size_lt (h : MapAt z K own ps a n) (hp : Packed K n) : n.size < 2 ^ 40 := by
  have hcap := h.maps.cap
  have hceil := hp.ceil
  unfold capacity at hcap
  omega

section
variable {cur c x t left b : Nat} {act : (block i j : Nat) → M Int} {r : Int}

/-- The address in an entry, as the scan reads it. -/
theorem MapAt.readChild (h : MapAt z K own ps a n) (hp : Packed K n) (hi : i < n.blocks) (ht : t < 16) :
    Runs K (readAddr c (addrOf K.vol.bytes n i) (↑(256 * t) + 256 - 8)) (childOf K.vol.bytes n (16 * i + t)) K := by
  have hb := h.block hi
  have hin := hb.inside
  have hread := readAddr_runs (K := K) (b := addrOf K.vol.bytes n i) (o := 256 * t + 248) (v := c)
    (show (↑(256 * t) + 256 - 8 : Int) = ↑(256 * t + 248) by omega) hb.pos (by omega) (by lia)
    ((hp.sees i hi).mono (by omega) (by lia))
  have he : entryAt K.vol.bytes n (16 * i + t) = addrOf K.vol.bytes n i + 256 * t := by
    rw [entryAt, show (16 * i + t) / 16 = i by omega, show (16 * i + t) % 16 = t by omega]
  rw [childOf, entryAddr, he, Nat.add_assoc]
  exact hread

/-- Behind the entries in use there are only zeros. -/
theorem Packed.child_rest (hp : Packed K n) (h1 : n.size / 256 ≤ e) (h2 : e / 16 < n.blocks) :
    childOf K.vol.bytes n e = 0 :=
  word_eq_zero fun k hk => by
    rw [Nat.add_assoc]
    exact hp.rest e h1 (by omega) (248 + k) (by omega)

/-- No entry of the block from the `t`-th on is `cur`'s. -/
theorem scanEntries_none (h : MapAt z K own ps a n) (hp : Packed K n) (hi : i < n.blocks) (hc : cur ≠ 0)
    (hno : ∀ e, 16 * i + t ≤ e → e < 16 * i + 16 → e < n.size / 256 → Seen e → childOf K.vol.bytes n e ≠ cur)
    (ht : t + left = 16) :
    ∃ x, Runs K (scanEntries cur n act (addrOf K.vol.bytes n i) i left (256 * t) c) (none, x) K := by
  have hsize := h.size_lt hp
  induction left generalizing t c with
  | zero => exact ⟨c, Runs.pure⟩
  | succ left ih =>
    unfold scanEntries
    have hdiv : (16 * i + t) / 16 = i := by omega
    have hmod : (16 * i + t) % 16 = t := by omega
    by_cases hlt : entryOffset i (256 * t) < n.size
    · rw [if_pos hlt]
      have hseen : Seen (16 * i + t) := by
        by_contra hs
        have := entryOffset_unseen hs
        rw [hdiv, hmod] at this
        omega
      have hne : childOf K.vol.bytes n (16 * i + t) ≠ cur := by
        by_cases hu : 16 * i + t < n.size / 256
        · exact hno _ (by omega) (by omega) hu hseen
        · rw [hp.child_rest (by omega) (by rw [hdiv]; exact hi)]
          exact hc.symm
      obtain ⟨x, hx⟩ := ih (c := childOf K.vol.bytes n (16 * i + t)) (t := t + 1)
        (fun e h1 h2 h3 h4 => hno e (by omega) h2 h3 h4) (by omega)
      refine ⟨x, (h.readChild hp hi (by omega)).bind ?_⟩
      rw [if_neg hne]
      exact hx
    · rw [if_neg hlt]
      exact ⟨c, Runs.pure⟩

/-- The first entry of `cur` that the scan sees is in the block. -/
theorem scanEntries_some (h : MapAt z K own ps a n) (hp : Packed K n) (hi : i < n.blocks)
    (he : e < n.size / 256) (hs : Seen e) (h1 : 16 * i + t ≤ e) (h2 : e < 16 * i + 16) (hcur : childOf K.vol.bytes n e = cur)
    (hno : ∀ f, 16 * i + t ≤ f → f < e → childOf K.vol.bytes n f ≠ cur) (ht : t + left = 16)
    (hact : Runs K (act (addrOf K.vol.bytes n i) i (256 * (e % 16))) r K') :
    Runs K (scanEntries cur n act (addrOf K.vol.bytes n i) i left (256 * t) c) (some r, cur) K' := by
  have hwhole := hp.whole
  induction left generalizing t c with
  | zero => omega
  | succ left ih =>
    unfold scanEntries
    have hdiv : (16 * i + t) / 16 = i := by omega
    have hmod : (16 * i + t) % 16 = t := by omega
    have hseen : Seen (16 * i + t) := (seen_block (by omega)).mpr hs
    have hoff := entryOffset_seen hseen
    rw [hdiv, hmod] at hoff
    rw [hoff, if_pos (by omega)]
    refine (h.readChild hp hi (by omega)).bind ?_
    by_cases heq : e = 16 * i + t
    · rw [if_pos (by rw [← heq]; exact hcur), ← heq, hcur, show t = e % 16 by omega]
      exact hact.bind Runs.pure
    · rw [if_neg (hno _ (by omega) (by omega))]
      exact ih (t := t + 1) (by omega) (fun f h3 h4 => hno f (by omega) h4) (by omega)

theorem scanBlocks_none (h : MapAt z K own ps a n) (hp : Packed K n) (hc : cur ≠ 0)
    (hno : ∀ e, 16 * i ≤ e → e < n.size / 256 → Seen e → childOf K.vol.bytes n e ≠ cur) (ht : i + left = n.blocks) :
    Runs K (scanBlocks cur n act left i c) (-1) K := by
  induction left generalizing i c with
  | zero => exact Runs.pure
  | succ left ih =>
    have hi : i < n.blocks := by omega
    obtain ⟨x, hx⟩ : ∃ x, Runs K (scanEntries cur n act (addrOf K.vol.bytes n i) i 16 (256 * 0) c) (none, x) K :=
      scanEntries_none h hp hi hc (fun e h1 _ h3 => hno e h1 h3) (Nat.zero_add 16)
    refine (h.get hi).bind ?_
    rw [if_neg (h.block hi).pos]
    exact hx.bind (ih (i := i + 1) (fun e h1 h3 => hno e (by omega) h3) (by omega))

theorem scanBlocks_some (h : MapAt z K own ps a n) (hp : Packed K n) (hc : cur ≠ 0)
    (he : e < n.size / 256) (hs : Seen e) (h1 : 16 * i ≤ e) (hcur : childOf K.vol.bytes n e = cur)
    (hno : ∀ f, 16 * i ≤ f → f < e → Seen f → childOf K.vol.bytes n f ≠ cur) (ht : i + left = n.blocks)
    (hact : Runs K (act (addrOf K.vol.bytes n (e / 16)) (e / 16) (256 * (e % 16))) r K') :
    Runs K (scanBlocks cur n act left i c) r K' := by
  have hlt := hp.lt he
  induction left generalizing i c with
  | zero => omega
  | succ left ih =>
    have hi : i < n.blocks := by omega
    refine (h.get hi).bind ?_
    rw [if_neg (h.block hi).pos]
    by_cases hin : e / 16 = i
    · rw [hin] at hact
      exact (scanEntries_some (t := 0) h hp hi he hs h1 (by omega) hcur
        (fun f h3 h4 => hno f h3 h4 ((seen_block (by omega)).mpr hs)) (Nat.zero_add 16) hact).bind Runs.pure
    · obtain ⟨x, hx⟩ : ∃ x, Runs K (scanEntries cur n act (addrOf K.vol.bytes n i) i 16 (256 * 0) c) (none, x) K :=
        scanEntries_none h hp hi hc (fun f h3 h4 _ => hno f h3 (by omega)) (Nat.zero_add 16)
      exact hx.bind (ih (i := i + 1) (by omega) (fun f h3 h4 => hno f (by omega) h4) (by omega))

end

/-! ## Searching a block for a name -/

section
variable {m : Mem} {name : List UInt8} {t u left : Nat}

theorem checkSlots_succ : checkSlots m name (left + 1) (256 * u) =
    if entryName m (256 * u) = name then entryAddr m (256 * u) else checkSlots m name left (256 * (u + 1)) := by
  rw [checkSlots, entryName, entryAddr, show 256 * u + 256 - 8 = 256 * u + 248 by omega, Nat.mul_succ]

theorem checkSlots_first (hu : u ≤ t) (ht : t < u + left) (hno : ∀ j, u ≤ j → j < t → entryName m (256 * j) ≠ name)
    (hit : entryName m (256 * t) = name) : checkSlots m name left (256 * u) = entryAddr m (256 * t) := by
  induction left generalizing u with
  | zero => omega
  | succ left ih =>
    rw [checkSlots_succ]
    by_cases h : u = t
    · subst h
      exact if_pos hit
    · rw [if_neg (hno u (Nat.le_refl u) (by omega))]
      exact ih (by omega) (by omega) fun j h1 h2 => hno j (by omega) h2

theorem checkSlots_none (hno : ∀ j, u ≤ j → j < u + left → entryName m (256 * j) ≠ name) :
    checkSlots m name left (256 * u) = 0 := by
  induction left generalizing u with
  | zero => rfl
  | succ left ih =>
    rw [checkSlots_succ, if_neg (hno u (Nat.le_refl u) (by omega))]
    exact ih fun j h1 h2 => hno j (by omega) (by omega)

/-- The first entry of the name counts. -/
theorem checkBlock_first (ht : t < 16) (hno : ∀ j < t, entryName m (256 * j) ≠ name) (hit : entryName m (256 * t) = name) :
    checkBlock m name = entryAddr m (256 * t) :=
  checkSlots_first (Nat.zero_le t) (by omega) (fun j _ => hno j) hit

theorem checkBlock_none (hno : ∀ j < 16, entryName m (256 * j) ≠ name) : checkBlock m name = 0 :=
  checkSlots_none (u := 0) fun j _ hj => hno j (by omega)

/-- The entries of block `i`, as `check_block` sees them. -/
theorem entryAt_slot {n : Node} {i j : Nat} (hj : j < 16) : entryAt m n (16 * i + j) = addrOf m n i + 256 * j := by
  rw [entryAt, show (16 * i + j) / 16 = i by omega, show (16 * i + j) % 16 = j by omega]

theorem slot_name {n : Node} {i j : Nat} (hj : j < 16) :
    entryName (fun k => m (addrOf m n i + k)) (256 * j) = nameOf m n (16 * i + j) := by
  rw [nameOf, entryAt_slot hj]
  exact entryName_congr fun k _ => by rw [Nat.add_assoc]

theorem slot_addr {n : Node} {i j : Nat} (hj : j < 16) :
    entryAddr (fun k => m (addrOf m n i + k)) (256 * j) = childOf m n (16 * i + j) := by
  rw [childOf, entryAt_slot hj]
  exact entryAddr_congr fun k _ => by rw [Nat.add_assoc]

end

/-! ## Removing an entry -/

/-- A byte of entry `e` or of entry `l`. -/
def EntryByte (m : Mem) (n : Node) (e l x : Nat) : Prop :=
  entryAt m n e ≤ x ∧ x < entryAt m n e + 256 ∨ entryAt m n l ≤ x ∧ x < entryAt m n l + 256

/-- Entry `l` has taken the place of entry `e`. -/
structure Moved (K : View) (n : Node) (e l : Nat) (K' : View) : Prop where
  keeps : Keeps (EntryByte K.vol.bytes n e l) K K'
  last : ∀ k < 256, K'.vol.bytes (entryAt K.vol.bytes n l + k) = 0
  moved : e ≠ l → ∀ k < 256, K'.vol.bytes (entryAt K.vol.bytes n e + k) = K.vol.bytes (entryAt K.vol.bytes n l + k)

section
variable {l : Nat}

theorem MapAt.entry_in (h : MapAt z K own ps a n) (he : e / 16 < n.blocks) :
    entryAt K.vol.bytes n e ≠ 0 ∧ entryAt K.vol.bytes n e + 256 ≤ K.vol.size := by
  have hb := h.block he
  have hpos := hb.pos
  have hin := hb.inside
  unfold entryAt
  omega

/-- `moveLast` after the entry was cleared. The last entry takes its place; but when the
    last block is full, and the entry is not known to be the last one, what was in the
    local buffer does. -/
theorem moveLast_runs (h : MapAt z K own ps a n) (hp : Packed K n) (he : e < n.size / 256) (hs : Seen e)
    (hl : l + 1 = n.size / 256) :
    ∃ K', Runs (K.store (entryAt K.vol.bytes n e) 256 zeros)
        (moveLast n (addrOf K.vol.bytes n (e / 16)) (addrOf K.vol.bytes n (n.blocks - 1)) (e / 16) (256 * (e % 16))) () K' ∧
      if n.size % 4096 ≠ 0 ∨ e = l ∧ 256 * e < 2 ^ 31 then Moved K n e l K'
      else K' = (K.store (entryAt K.vol.bytes n e) 256 zeros).store (entryAt K.vol.bytes n e) 256 K.vol.env.junk := by
  have hceil := hp.ceil
  have hwhole := hp.whole
  have heb := hp.lt he
  have hlb : l / 16 < n.blocks := hp.lt (by omega)
  have hlast16 : l / 16 = n.blocks - 1 := by omega
  have hlt := h.size_lt hp
  have hsize : u64 ((n.size : Int) - 256) = 256 * l := by unfold u64; omega
  have hE : entryAt K.vol.bytes n e = addrOf K.vol.bytes n (e / 16) + 256 * (e % 16) := rfl
  have hL : entryAt K.vol.bytes n l = addrOf K.vol.bytes n (n.blocks - 1) + 256 * (l % 16) := by rw [entryAt, hlast16]
  obtain ⟨_, hEin⟩ := h.entry_in heb
  obtain ⟨_, hLin⟩ := h.entry_in hlb
  have hlb0 := (h.block (i := n.blocks - 1) (by omega)).pos
  unfold moveLast
  rw [entryOffset_seen hs, hsize]
  unfold Seen at hs
  by_cases hel : 256 * e % 2 ^ 32 = 256 * l
  · obtain rfl : e = l := by omega
    rw [if_pos hel]
    refine ⟨_, Runs.pure, ?_⟩
    rw [if_pos (Or.inr ⟨rfl, by omega⟩)]
    refine ⟨Keeps.store fun x h1 h2 => Or.inl ⟨h1, h2⟩, fun k hk => ?_, fun hne => absurd rfl hne⟩
    rw [store_bytes, put_in (by omega) (by omega)]
    rfl
  rw [if_neg hel]
  by_cases hmod : n.size % 4096 = 0
  · have hoff : off (u64 ((n.size : Int) % 4096 - 256)) = -256 := by
      rw [show (n.size : Int) % 4096 = 0 by omega]
      rfl
    have hbad : ¬ (n.size % 4096 ≠ 0 ∨ e = l ∧ 256 * e < 2 ^ 31) := by omega
    refine ⟨_, environ_runs.bind ?_, by rw [if_neg hbad]⟩
    rw [hoff]
    have hread : Runs (K.store (entryAt K.vol.bytes n e) 256 zeros)
        (readBlock K.vol.env.junk (addrOf K.vol.bytes n (n.blocks - 1)) (-256) 256) (0, K.vol.env.junk)
        (K.store (entryAt K.vol.bytes n e) 256 zeros) := by
      unfold readBlock
      rw [if_neg hlb0, if_pos (by omega)]
      exact Runs.pure
    refine hread.bind ((writeBlock_fits (o := 256 * (e % 16)) rfl (by omega) (by rw [store_size]; omega)).bind ?_)
    unfold writeBlock
    rw [if_pos (by omega)]
    exact Runs.pure
  · have hoff : off (u64 ((n.size : Int) % 4096 - 256)) = ((256 * (l % 16) : Nat) : Int) := by
      have : (n.size : Int) % 4096 - 256 = ((256 * (l % 16) : Nat) : Int) := by omega
      rw [this, u64_ofNat (by omega), off_ofNat (by omega)]
    have hsee := (hp.sees_entry hlb).store (b := entryAt K.vol.bytes n e) (m := 256) (g := zeros)
    rw [hL] at hsee
    obtain ⟨buf, hread, hbuf⟩ : ∃ buf, Runs (K.store (entryAt K.vol.bytes n e) 256 zeros)
        (readBlock K.vol.env.junk (addrOf K.vol.bytes n (n.blocks - 1)) (256 * (l % 16) : Nat) 256) (256, buf)
        (K.store (entryAt K.vol.bytes n e) 256 zeros) ∧
        (e ≠ l → ∀ k < 256, buf k = K.vol.bytes (entryAt K.vol.bytes n l + k)) := by
      refine ⟨_, readBlock_fits rfl hlb0 (by omega) (by rw [store_size]; omega) hsee, fun hne k hk => ?_⟩
      have hapart := h.entry_apart heb hlb hne
      rw [clip_lt hk, ← hL, store_bytes, put_out (by omega)]
    have hmove : Runs (K.store (entryAt K.vol.bytes n e) 256 zeros)
        (writeBlock buf (addrOf K.vol.bytes n (e / 16)) (256 * (e % 16) : Nat) 256) 256
        ((K.store (entryAt K.vol.bytes n e) 256 zeros).store (entryAt K.vol.bytes n e) 256 buf) :=
      writeBlock_fits rfl (by omega) (by rw [store_size]; omega)
    have hclear : Runs ((K.store (entryAt K.vol.bytes n e) 256 zeros).store (entryAt K.vol.bytes n e) 256 buf)
        (writeBlock zeros (addrOf K.vol.bytes n (n.blocks - 1)) (256 * (l % 16) : Nat) 256) 256
        (((K.store (entryAt K.vol.bytes n e) 256 zeros).store (entryAt K.vol.bytes n e) 256 buf).store
          (entryAt K.vol.bytes n l) 256 zeros) := by
      rw [hL]
      exact writeBlock_fits rfl (by omega) (by rw [store_size, store_size]; omega)
    refine ⟨((K.store (entryAt K.vol.bytes n e) 256 zeros).store (entryAt K.vol.bytes n e) 256 buf).store
      (entryAt K.vol.bytes n l) 256 zeros, environ_runs.bind ?_, ?_⟩
    · rw [hoff]
      exact hread.bind (hmove.bind (hclear.bind Runs.pure))
    rw [if_pos (Or.inl hmod)]
    refine ⟨?_, fun k hk => ?_, fun hne k hk => ?_⟩
    · refine (Keeps.store fun x h1 h2 => ?_).trans ((Keeps.store fun x h1 h2 => ?_).trans (Keeps.store fun x h1 h2 => ?_))
      · exact Or.inl ⟨h1, h2⟩
      · exact Or.inl ⟨h1, h2⟩
      · exact Or.inr ⟨h1, h2⟩
    · rw [store_bytes, put_in (by omega) (by omega)]
      rfl
    · have hapart := h.entry_apart heb hlb hne
      rw [store_bytes, put_out (by omega), store_bytes, put_in (by omega) (by omega), Nat.add_sub_cancel_left,
        hbuf hne k hk]

end

end TyrantFS

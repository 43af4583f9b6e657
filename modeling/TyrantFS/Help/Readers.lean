/-
  TyrantFS.Help.Readers — `fetch_block` against `get_i_block`.

  `get_i_block` divides; `fetch_block` steps through the groups of 512 (and 512 * 512)
  blocks until its offset is below the start of the next one. The start that would end
  the last group is the bound of the loop, so the loops end before the last group of a
  level is found, and `fetch_block` returns NULL for the blocks in it (`LastGroup`).
-/
import TyrantFS.Help.Largest

namespace TyrantFS

open Lib Lib.PageTree

variable {z : Zone} {K : View} {own : Nat → Option Pos} {ps : List Nat} {a d i k o p q t left : Nat} {n : Node} {block : Mem}
  {s : Sys}

/-! ## The steps -/

theorem off_u64 {x : Nat} (h : x < 2 ^ 63) : off (u64 x) = x := by
  rw [u64_ofNat (by omega), off_ofNat h]

/-- The buffer with the block at `p` in it. -/
def filled (K : View) (block : Mem) (p : Nat) : Mem := clip 4096 (fun k => K.vol.bytes (p + k)) block

theorem filled_lt (hk : k < 4096) : filled K block p k = K.vol.bytes (p + k) := clip_lt hk

theorem readWhole_runs (hp : IsBlock K.vol.size p) (hv : ∀ x, K.vis x) : Runs K (readBlock block p 0 4096) (4096, filled K block p) K :=
  readBlock_runs (o := 0) rfl hp.pos (by decide) hp.inside fun _ _ => hv _

theorem fetchAddr_runs (hp : IsBlock K.vol.size p) (hv : ∀ x, K.vis x) : Runs K (fetchAddr block p) (some (filled K block p)) K := by
  unfold fetchAddr
  rw [if_neg hp.pos]
  exact (readWhole_runs hp hv).bind Runs.pure

/-- Reading slot `k` of a page, by an offset computed modulo 2^64. -/
theorem readSlot_u64 {v : Nat} {e : Int} (hp : IsBlock K.vol.size p) (hv : ∀ x, K.vis x) (hk : k < 512) (he : e = ↑(k * 8)) :
    Runs K (readAddr v p (off (u64 e))) (slot K.vol.bytes p k) K := by
  rw [he, off_u64 (by omega)]
  exact readSlot_runs hp hk fun _ _ => hv _

/-! ## Two levels -/

/-- The loop finds every group but the last. -/
theorem fetchDbl_runs (hv : ∀ x, K.vis x) (hp : IsBlock K.vol.size n.dblIndirect) (hq : o / 512 = q) (hq2 : q < 511)
    (hb : IsBlock K.vol.size (slot K.vol.bytes n.dblIndirect q))
    (hd : IsBlock K.vol.size (slot K.vol.bytes (slot K.vol.bytes n.dblIndirect q) (o % 512))) (ht : t ≤ q + 1) (hl : t + left = 512) :
    Runs K (fetchDbl n block left (512 * t) o)
      (some (filled K block (slot K.vol.bytes (slot K.vol.bytes n.dblIndirect q) (o % 512)))) K := by
  induction left generalizing t with
  | zero => omega
  | succ left ih =>
    unfold fetchDbl
    by_cases e : t = q + 1
    · rw [if_pos (by omega)]
      have hread := readBlock_runs (K := K) (g := leByte 0) (n := 8) (b := n.dblIndirect) (o := 8 * q)
        (show off (u64 (((512 * t : Nat) / 512 - 1) * 8)) = (8 * q : Nat) by
          rw [show (((512 * t : Nat) / 512 - 1) * 8 : Int) = (8 * q : Nat) by omega]
          exact off_u64 (by omega)) hp.pos (by omega) (by have := hp.inside; omega) fun _ _ => hv _
      rw [show min 8 (4096 - 8 * q) = 8 by omega] at hread
      refine hread.bind ?_
      have hval : leVal 8 (clip 8 (fun k => K.vol.bytes (n.dblIndirect + 8 * q + k)) (leByte 0)) = slot K.vol.bytes n.dblIndirect q := by
        rw [leVal_clip (Nat.le_refl 8), slot_of_ne hp.pos, word_eq]
      simp only [hval]
      rw [if_neg (by have := hb.pos; omega)]
      have ho : u64 ((o : Int) - ((512 * t : Nat) - 512)) = o % 512 := by
        rw [show ((o : Int) - ((512 * t : Nat) - 512)) = (o % 512 : Nat) by omega]
        exact u64_ofNat (x := o % 512) (by omega)
      rw [ho]
      exact (readSlot_u64 (k := o % 512) hb hv (by omega) (by omega)).bind (fetchAddr_runs hd hv)
    · rw [if_neg (by omega)]
      exact ih (t := t + 1) (by omega) (by omega)

theorem fetchDbl_last (ho : 511 * 512 ≤ o) (hl : t + left = 512) : Runs K (fetchDbl n block left (512 * t) o) none K := by
  induction left generalizing t with
  | zero => exact Runs.pure
  | succ left ih =>
    unfold fetchDbl
    rw [if_neg (by omega)]
    exact ih (t := t + 1) (by omega)

/-! ## Three levels -/

theorem fetchTrplInner_runs (hv : ∀ x, K.vis x) (hp : IsBlock K.vol.size p) (hq : o / 512 = q) (hq2 : q < 511)
    (hb : IsBlock K.vol.size (slot K.vol.bytes p q)) (hd : IsBlock K.vol.size (slot K.vol.bytes (slot K.vol.bytes p q) (o % 512)))
    (ht : t ≤ q + 1) (hl : t + left = 512) : Runs K (fetchTrplInner p block left (512 * t) o)
      (some (some (filled K block (slot K.vol.bytes (slot K.vol.bytes p q) (o % 512))))) K := by
  induction left generalizing t with
  | zero => omega
  | succ left ih =>
    unfold fetchTrplInner
    by_cases e : t = q + 1
    · rw [if_pos (by omega)]
      refine (readSlot_u64 hp hv (show q < 512 by omega) (by omega)).bind ?_
      rw [if_neg hb.pos]
      have ho : u64 ((o : Int) - ((512 * t : Nat) - 512)) = o % 512 := by
        rw [show ((o : Int) - ((512 * t : Nat) - 512)) = (o % 512 : Nat) by omega]
        exact u64_ofNat (x := o % 512) (by omega)
      simp only [ho]
      refine (readSlot_u64 (k := o % 512) hb hv (by omega) (by omega)).bind ?_
      exact (fetchAddr_runs hd hv).bind Runs.pure
    · rw [if_neg (by omega)]
      exact ih (t := t + 1) (by omega) (by omega)

theorem fetchTrplInner_last (ho : 511 * 512 ≤ o) (hl : t + left = 512) : Runs K (fetchTrplInner p block left (512 * t) o) none K := by
  induction left generalizing t with
  | zero => exact Runs.pure
  | succ left ih =>
    unfold fetchTrplInner
    rw [if_neg (by omega)]
    exact ih (t := t + 1) (by omega)

/-- An offset past every start the outer loop tests, as one left by an underflow. -/
theorem fetchTrpl_past (ho : 511 * 512 ^ 2 ≤ o) (hl : t + left = 512) : Runs K (fetchTrpl n block left (512 * 512 * t) o d) none K := by
  induction left generalizing t with
  | zero => exact Runs.pure
  | succ left ih =>
    unfold fetchTrpl
    rw [if_neg (by omega)]
    exact ih (t := t + 1) (by omega)

/-- The round of the outer loop that finds group `q`. -/
theorem fetchTrpl_round {r : Option (Option Mem)} {x : Option Mem} (hv : ∀ x, K.vis x) (hp : IsBlock K.vol.size n.trplIndirect)
    (hq : q < 512) (ho : o < 512 * 512 * (q + 1)) (hs : slot K.vol.bytes n.trplIndirect q ≠ 0)
    (hinner : Runs K (fetchTrplInner (slot K.vol.bytes n.trplIndirect q) block 512 0 (u64 ((o : Int) - (512 * 512 * q : Nat)))) r K)
    (hrest : r = some x ∨ r = none ∧ Runs K (fetchTrpl n block left (512 * 512 * (q + 2)) (u64 ((o : Int) - (512 * 512 * q : Nat)))
      (slot K.vol.bytes n.trplIndirect q)) x K) :
    Runs K (fetchTrpl n block (left + 1) (512 * 512 * (q + 1)) o d) x K := by
  unfold fetchTrpl
  rw [if_pos ho]
  refine (readSlot_u64 hp hv hq (by omega)).bind ?_
  rw [if_neg hs]
  have he : ((o : Int) - ((512 * 512 * (q + 1) : Nat) - 512 * 512)) = (o : Int) - (512 * 512 * q : Nat) := by omega
  simp only [he]
  refine hinner.bind ?_
  obtain rfl | ⟨rfl, hnext⟩ := hrest
  · exact Runs.pure
  · rw [show 512 * 512 * (q + 1) + 512 * 512 = 512 * 512 * (q + 2) by omega]
    exact hnext

/-- The rounds before it. -/
theorem fetchTrpl_skip {x : Option Mem} (hq : o / 512 ^ 2 = q) (ht : t ≤ q + 1) (hl : t + left = 512) (hq2 : q < 511)
    (h : Runs K (fetchTrpl n block (512 - (q + 1)) (512 * 512 * (q + 1)) o d) x K) :
    Runs K (fetchTrpl n block left (512 * 512 * t) o d) x K := by
  induction left generalizing t with
  | zero => omega
  | succ left ih =>
    by_cases e : t = q + 1
    · subst e
      rwa [show 512 - (q + 1) = left + 1 by omega] at h
    · unfold fetchTrpl
      rw [if_neg (by omega)]
      exact ih (t := t + 1) (by omega) (by omega)

theorem fetchTrpl_runs (hv : ∀ x, K.vis x) (hp : IsBlock K.vol.size n.trplIndirect) (hq : o / 512 ^ 2 = q) (hq2 : q < 511)
    (hk : o % 512 ^ 2 / 512 = k) (hk2 : k < 511) (hb : IsBlock K.vol.size (slot K.vol.bytes n.trplIndirect q))
    (hc : IsBlock K.vol.size (slot K.vol.bytes (slot K.vol.bytes n.trplIndirect q) k))
    (hd : IsBlock K.vol.size (slot K.vol.bytes (slot K.vol.bytes (slot K.vol.bytes n.trplIndirect q) k) (o % 512))) :
    Runs K (fetchTrpl n block 512 0 o d)
      (some (filled K block (slot K.vol.bytes (slot K.vol.bytes (slot K.vol.bytes n.trplIndirect q) k) (o % 512)))) K := by
  refine fetchTrpl_skip (t := 0) hq (by omega) (by omega) hq2 ?_
  rw [show 512 - (q + 1) = 510 - q + 1 by omega]
  have ho : u64 ((o : Int) - (512 * 512 * q : Nat)) = o % 512 ^ 2 := by
    rw [show ((o : Int) - (512 * 512 * q : Nat)) = (o % 512 ^ 2 : Nat) by omega]
    exact u64_ofNat (x := o % 512 ^ 2) (by omega)
  have hmod : o % 512 ^ 2 % 512 = o % 512 := by omega
  refine fetchTrpl_round hv hp (by omega) (by omega) hb.pos ?_ (.inl rfl)
  rw [ho, ← hmod]
  exact fetchTrplInner_runs (t := 0) hv hb hk hk2 hc (by rwa [hmod]) (by omega) (by omega)

/-- The last group of a group of 512 * 512 blocks: the inner loop ends without it, and the
    offset it was given steers the next round of the outer one. -/
theorem fetchTrpl_lastInner (hv : ∀ x, K.vis x) (hp : IsBlock K.vol.size n.trplIndirect) (hq : o / 512 ^ 2 = q) (hq2 : q < 511)
    (hk : o % 512 ^ 2 / 512 = 511) (hb : IsBlock K.vol.size (slot K.vol.bytes n.trplIndirect q)) :
    Runs K (fetchTrpl n block 512 0 o d) none K := by
  refine fetchTrpl_skip (t := 0) hq (by omega) (by omega) hq2 ?_
  rw [show 512 - (q + 1) = 510 - q + 1 by omega]
  have ho : u64 ((o : Int) - (512 * 512 * q : Nat)) = o % 512 ^ 2 := by
    rw [show ((o : Int) - (512 * 512 * q : Nat)) = (o % 512 ^ 2 : Nat) by omega]
    exact u64_ofNat (x := o % 512 ^ 2) (by omega)
  have hinner : Runs K (fetchTrplInner (slot K.vol.bytes n.trplIndirect q) block 512 0 (u64 ((o : Int) - (512 * 512 * q : Nat)))) none K := by
    rw [ho]
    exact fetchTrplInner_last (t := 0) (by omega) (by omega)
  refine fetchTrpl_round hv hp (by omega) (by omega) hb.pos hinner (.inr ⟨rfl, ?_⟩)
  rw [ho]
  cases hl : 510 - q with
  | zero => exact Runs.pure
  | succ left =>
    -- the round of the next group, with an offset below it
    by_cases hs : slot K.vol.bytes n.trplIndirect (q + 1) = 0
    · unfold fetchTrpl
      rw [if_pos (by omega)]
      refine (readSlot_u64 (k := q + 1) hp hv (by omega) (by omega)).bind ?_
      rw [if_pos hs]
      exact Runs.pure
    · have hfar : 511 * 512 ^ 2 ≤ u64 ((o % 512 ^ 2 : Nat) - (512 * 512 * (q + 1) : Nat)) := by
        unfold u64
        omega
      refine fetchTrpl_round (q := q + 1) hv hp (by omega) (by omega) hs ?_ (.inr ⟨rfl, ?_⟩)
      · exact fetchTrplInner_last (t := 0) (by omega) (by omega)
      · exact fetchTrpl_past (t := q + 3) hfar (by omega)

/-! ## The two readers -/

/-- The last 512 blocks of a group of 512 * 512, and the last 512 * 512 of the third
    region. -/
def LastGroup (i : Nat) : Prop :=
  (12 + 512 ≤ i ∧ i < 12 + 512 + 512 ^ 2 ∧ (i - 12 - 512) / 512 = 511) ∨
  (12 + 512 + 512 ^ 2 ≤ i ∧ ((i - (12 + 512 + 512 ^ 2)) / 512 ^ 2 = 511 ∨ (i - (12 + 512 + 512 ^ 2)) % 512 ^ 2 / 512 = 511))

instance (i : Nat) : Decidable (LastGroup i) := inferInstanceAs (Decidable (_ ∨ _))

/-- An inode on a volume all of which is known. -/
structure Stored (z : Zone) (K : View) (own : Nat → Option Pos) (ps : List Nat) (a : Nat) (n : Node) : Prop where
  file : FileAt z K own ps a n
  node : nodeAt K.vol.bytes a = n
  vis : ∀ x, K.vis x

theorem Stored.fetchNode (h : Stored z K own ps a n) : Runs K (fetchNode a) n K := by
  have hlow := h.file.low
  have hhigh := h.file.high
  have hin := h.file.inside
  exact (fetchNode_runs (by omega) (by omega) fun _ _ => h.vis _).result h.node

theorem fetchBlock_past (h : Stored z K own ps a n) (hi : n.blocks ≤ i) : Runs K (fetchBlock a i block) none K := by
  unfold fetchBlock
  rw [if_neg (by have := h.file.low; omega)]
  refine h.fetchNode.bind ?_
  rw [if_pos hi]
  exact Runs.pure

/-- The pages on the way to a block are blocks of the disk. -/
theorem FileAt.page_block (h : FileAt z K own ps a n) {l r : List Nat} (hi : i < n.blocks) (e : pathOf i = l ++ k :: r) :
    IsBlock K.vol.size (blockAt K.vol.bytes n (rootOf i) l) := h.space.owned_block (h.used.page i hi l k r e).1

theorem rootOf_dbl (h1 : 12 + 512 ≤ i) (h2 : i < 12 + 512 + 512 ^ 2) : rootOf i = 13 := by
  rw [rootOf, if_neg (by omega), if_neg (by omega), if_pos h2]

theorem pathOf_dbl (h1 : 12 + 512 ≤ i) (h2 : i < 12 + 512 + 512 ^ 2) :
    pathOf i = [(i - 12 - 512) / 512, (i - 12 - 512) % 512] := by
  rw [pathOf, if_neg (by omega), if_neg (by omega), if_pos h2]

theorem fetchBlock_dbl (h : Stored z K own ps a n) (hi : i < n.blocks) (h1 : 12 + 512 ≤ i) (h2 : i < 12 + 512 + 512 ^ 2) :
    Runs K (fetchDbl n block 512 0 (i - 12 - 512)) (if LastGroup i then none else some (filled K block (addrOf K.vol.bytes n i))) K := by
  by_cases hl : (i - 12 - 512) / 512 = 511
  · rw [if_pos (.inl ⟨h1, h2, hl⟩)]
    exact fetchDbl_last (t := 0) (by omega) (by omega)
  · rw [if_neg (by unfold LastGroup; omega)]
    have hpath := pathOf_dbl h1 h2
    have hroot := h.file.page_block (l := []) hi hpath
    have hpage := h.file.page_block (l := [(i - 12 - 512) / 512]) hi hpath
    have hdata := h.file.block hi
    rw [addrOf, hpath] at hdata ⊢
    rw [rootOf_dbl h1 h2] at hroot hpage hdata ⊢
    exact fetchDbl_runs (t := 0) h.vis hroot rfl (by omega) hpage hdata (by omega) (by omega)

theorem fetchBlock_trpl (h : Stored z K own ps a n) (hi : i < n.blocks) (h1 : 12 + 512 + 512 ^ 2 ≤ i) (hc : i < capacity) :
    Runs K (fetchTrpl n block 512 0 (i - (12 + 512 + 512 ^ 2)) 0)
      (if LastGroup i then none else some (filled K block (addrOf K.vol.bytes n i))) K := by
  unfold capacity at hc
  obtain ⟨o, ho⟩ : ∃ o, o = i - (12 + 512 + 512 ^ 2) := ⟨_, rfl⟩
  have hpath := pathOf_trpl h1
  rw [show i - 12 - 512 - 512 * 512 = o by omega] at hpath
  have hroot := h.file.page_block (l := []) hi hpath
  have hpage := h.file.page_block (l := [o / (512 * 512)]) hi hpath
  rw [rootOf_trpl h1] at hroot hpage
  rw [← ho]
  by_cases hg : o / 512 ^ 2 = 511
  · rw [if_pos (.inr ⟨h1, .inl (ho ▸ hg)⟩)]
    exact fetchTrpl_past (t := 0) (by omega) (by omega)
  by_cases hl : o % 512 ^ 2 / 512 = 511
  · rw [if_pos (.inr ⟨h1, .inr (ho ▸ hl)⟩)]
    exact fetchTrpl_lastInner h.vis hroot rfl (by omega) hl hpage
  · rw [if_neg (by unfold LastGroup; omega)]
    have hinner := h.file.page_block (l := [o / (512 * 512), o % (512 * 512) / 512]) hi hpath
    have hdata := h.file.block hi
    rw [addrOf, hpath] at hdata ⊢
    rw [rootOf_trpl h1] at hinner hdata ⊢
    have hmod : o % (512 * 512) % 512 = o % 512 := by omega
    rw [hmod] at hdata ⊢
    exact fetchTrpl_runs h.vis hroot rfl (by omega) rfl (by omega) hpage hinner hdata

/-- What `fetch_block` returns for a block of the file. -/
theorem fetchBlock_runs (h : Stored z K own ps a n) (hi : i < n.blocks) :
    Runs K (fetchBlock a i block) (if LastGroup i then none else some (filled K block (addrOf K.vol.bytes n i))) K := by
  have hc : i < capacity := Nat.lt_of_lt_of_le hi h.file.used.cap
  have hpath := pathOf_isPath hc
  have hdata := h.file.block hi
  unfold fetchBlock
  rw [if_neg (by have := h.file.low; omega)]
  refine h.fetchNode.bind ?_
  rw [if_neg (by omega)]
  by_cases h1 : i < 12
  · rw [if_pos h1, if_neg (by unfold LastGroup; omega)]
    rw [addrOf, blockAt_direct (by unfold rootOf; rw [if_pos h1]; exact h1) hpath, rootOf, if_pos h1] at hdata ⊢
    exact (readWhole_runs hdata h.vis).bind Runs.pure
  rw [if_neg h1]
  by_cases h2 : i < 12 + 512
  · rw [if_pos h2, if_neg (by unfold LastGroup; omega)]
    have hp : pathOf i = [i - 12] := by rw [pathOf, if_neg h1, if_pos h2]
    have hr : rootOf i = 12 := by rw [rootOf, if_neg h1, if_pos h2]
    have hroot := h.file.page_block (l := []) hi hp
    rw [addrOf, hp, hr] at hdata ⊢
    rw [hr] at hroot
    exact (readSlot_u64 (k := i - 12) hroot h.vis (by omega) (by omega)).bind (fetchAddr_runs hdata h.vis)
  rw [if_neg h2]
  by_cases h3 : i < 12 + 512 + 512 ^ 2
  · rw [if_pos h3]
    exact fetchBlock_dbl h hi (by omega) h3
  · rw [if_neg h3, if_pos (by unfold capacity at hc; omega)]
    exact fetchBlock_trpl h hi (by omega) hc

/-- `fetch_block` and `get_i_block` agree on block `i` of the inode at `a`: NULL exactly
    for the address 0, which stands for the blocks the inode does not have; else the bytes
    of the block. -/
def ReadersAgree (a i : Nat) (block : Mem) (s : Sys) : Prop :=
  ∃ x r s1 s2, getIBlock (nodeAt s.vol.bytes a) i s = some (x, s1) ∧ fetchBlock a i block s = some (r, s2) ∧
    s1.vol = s.vol ∧ s2.vol = s.vol ∧ (r = none ↔ x = 0) ∧ (x = 0 ↔ (nodeAt s.vol.bytes a).blocks ≤ i) ∧
    ∀ b, r = some b → ∀ k < 4096, b k = s.vol.bytes (x + k)

theorem Stored.agree (h : Stored z (.all s.vol) own ps a n) {x : Nat} {r : Option Mem} (hget : Runs (.all s.vol) (getIBlock n i) x (.all s.vol))
    (hfetch : Runs (.all s.vol) (fetchBlock a i block) r (.all s.vol)) :
    ReadersAgree a i block s ↔ (r = none ↔ x = 0) ∧ (x = 0 ↔ n.blocks ≤ i) ∧ ∀ b, r = some b → ∀ k < 4096, b k = s.vol.bytes (x + k) := by
  obtain ⟨s1, e1, h1⟩ := hget.exec (holds_all.mpr rfl)
  obtain ⟨s2, e2, h2⟩ := hfetch.exec (holds_all.mpr rfl)
  have hn : nodeAt s.vol.bytes a = n := h.node
  unfold ReadersAgree
  rw [hn]
  constructor
  · rintro ⟨x', r', s1', s2', e1', e2', -, -, hagree⟩
    obtain ⟨rfl, rfl⟩ := Prod.mk.inj (Option.some.inj (e1.symm.trans e1'))
    obtain ⟨rfl, rfl⟩ := Prod.mk.inj (Option.some.inj (e2.symm.trans e2'))
    exact hagree
  · intro hagree
    exact ⟨x, r, s1, s2, e1, e2, holds_all.mp h1, holds_all.mp h2, hagree⟩

theorem Stored.agrees_iff (h : Stored z (.all s.vol) own ps a n) :
    ReadersAgree a i block s ↔ n.blocks ≤ i ∨ ¬ LastGroup i := by
  by_cases hi : n.blocks ≤ i
  · have hget := h.file.used.get (i := i) fun _ _ => h.file.space.owned_block
    rw [if_neg (by omega)] at hget
    rw [h.agree hget (fetchBlock_past h hi)]
    simp [hi]
  · have hpos := (h.file.block (Nat.lt_of_not_le hi)).pos
    rw [h.agree (h.file.get (Nat.lt_of_not_le hi)) (fetchBlock_runs h (Nat.lt_of_not_le hi))]
    by_cases hl : LastGroup i
    · simp [hi, hl]
    · simp only [hi, hl, hpos, if_false, reduceCtorEq, not_false_eq_true, or_true, iff_true, true_and]
      rintro b ⟨⟩ k hk
      exact filled_lt hk

/-- The readers agree exactly outside the last groups. -/
theorem fetchBlock_agrees_iff (h : FileAt z (.all s.vol) own ps a (nodeAt s.vol.bytes a)) :
    ReadersAgree a i block s ↔ (nodeAt s.vol.bytes a).blocks ≤ i ∨ ¬ LastGroup i :=
  Stored.agrees_iff ⟨h, rfl, fun _ => trivial⟩

theorem largest_stored : Stored ⟨8192, 4096 * largestBlocks⟩ (.all (largestSys 0).vol) (spreadOwn 8192 4352) [] 4352 largestNode :=
  ⟨largest_file largest_space_full, largest_node 0, fun _ => trivial⟩

/-- The blocks before the last group of the second region are found. -/
theorem fetchBlock_agrees_iff_largest : ReadersAgree 4352 262155 zeros (largestSys 0) :=
  have h : FileAt ⟨8192, 4096 * largestBlocks⟩ (.all (largestSys 0).vol) (spreadOwn 8192 4352) [] 4352
      (nodeAt (largestSys 0).vol.bytes 4352) := largest_node 0 ▸ largest_file largest_space_full
  (fetchBlock_agrees_iff h).mpr (Or.inr (by unfold LastGroup; omega))

/-- The first block of that group is not. -/
theorem fetchBlock_misses : FileAt ⟨8192, 4096 * largestBlocks⟩ (.all (largestSys 0).vol) (spreadOwn 8192 4352) []
      (4352) (nodeAt (largestSys 0).vol.bytes 4352) ∧ 262156 < (nodeAt (largestSys 0).vol.bytes 4352).blocks ∧
    ¬ ReadersAgree 4352 262156 zeros (largestSys 0) := by
  refine ⟨?_, ?_, ?_⟩
  · rw [largest_node]
    exact largest_file largest_space_full
  · rw [largest_node]
    show 262156 < capacity
    unfold capacity
    omega
  · rw [largest_stored.agrees_iff]
    have hc : largestNode.blocks = capacity := rfl
    rw [hc]
    unfold LastGroup capacity
    omega

end TyrantFS

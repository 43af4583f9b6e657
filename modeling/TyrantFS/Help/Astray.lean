/-
  TyrantFS.Help.Astray — `free_block` of an address that is none of a block.

  On a sound disk the free list leads astray afterwards (`freeBlock_astray`). On a disk of
  which nothing is known there is one way out: the address is the one before a block which
  is itself the head of the list, and whose page is wiped as the next one
  (`freeBlock_before`).
-/
import TyrantFS.Help.Grow

namespace TyrantFS

open Lib Lib.PageChain Lib.PageTree

variable {z : Zone} {N w b p lo : Nat} {fd : Int} {K : View} {own : Nat → Option Pos} {ps : List Nat} {m m' : Mem} {v : Vol} {s s' : Sys}

/-! ## A list that leads astray -/

/-- The head of the free list is no address of a block, or the first page, which is not
    below `lo`, lists or links to such a one. -/
def Astray (lo : Nat) (m : Mem) : Prop := word m 0 % 256 ≠ 0 ∨ lo ≤ word m 0 ∧ ∃ k ≤ 511, slot m (word m 0) k % 256 ≠ 0

theorem Astray.not_freeList (h : Astray lo K.vol.bytes) : ¬ FreeList K ps := by
  intro hl
  have haligned : ∀ b ∈ freeOrder K ps, b % 256 = 0 := fun b hb => by
    have := (hl.block b hb).aligned
    omega
  rcases h with hw | ⟨-, k, hk, hs⟩
  · obtain ⟨qs, rfl, -⟩ := linked_ne hl.chain.linked (show word K.vol.bytes 0 ≠ 0 by omega)
    exact hw (haligned _ (mem_order.mpr (Or.inl (by simp))))
  · have h0 : word K.vol.bytes 0 ≠ 0 := fun h0 => by
      rw [h0, slot, if_pos rfl] at hs
      exact hs rfl
    obtain ⟨qs, rfl, hlink⟩ := linked_ne hl.chain.linked h0
    by_cases hk1 : k = 511
    · subst hk1
      obtain ⟨rs, rfl, -⟩ := linked_ne hlink (show slot K.vol.bytes (word K.vol.bytes 0) 511 ≠ 0 by omega)
      exact hs (haligned _ (mem_order.mpr (Or.inl (by simp))))
    · exact hs (haligned _ (mem_order.mpr (Or.inr ⟨by omega, _, by simp, k, by omega, rfl⟩)))

/-- It stays so where neither the superblock nor what lies behind `lo` is touched. -/
theorem Astray.congr (h : Astray lo m) (h8 : ∀ x < 8, m' x = m x) (hlo : ∀ x, lo ≤ x → m' x = m x) : Astray lo m' := by
  have hw : word m' 0 = word m 0 := word_congr fun k hk => by rw [Nat.zero_add, h8 k hk]
  rw [Astray, hw]
  refine h.imp_right fun hpage => ?_
  obtain ⟨hle, k, hk, hs⟩ := hpage
  refine ⟨hle, k, hk, ?_⟩
  have hslot : slot m' (word m 0) k = slot m (word m 0) k := by
    unfold slot
    split
    · rfl
    · exact word_congr fun i _ => hlo _ (by omega)
  rwa [hslot]

/-- What enters the list and is no address of a block: the head, a slot of the head page, or
    the page that is wiped with it. -/
theorem freeBlock_headPage (h : HeadPage K p) (hfd : 0 ≤ fd) (h8 : 8 ≤ b) (hin : b + 4096 ≤ K.vol.size) (hodd : b % 256 ≠ 0) :
    ∃ K', Runs K (freeBlock fd b) 0 K' ∧ Keeps (fun _ => True) K K' ∧ (word K'.vol.bytes 0 % 256 ≠ 0 ∨ word K'.vol.bytes 0 = p ∧
      ((∃ k ≤ 511, slot K'.vol.bytes p k % 256 ≠ 0) ∨ b ≤ p + 4088 ∧ p + 4088 < b + 4096 ∧
        K' = (K.storeWord (p + 8 * 511) b).store b 4096 zeros)) := by
  have hlt := K.vol.size_lt
  have hp := h.block
  have hp0 := hp.pos
  have hal := hp.aligned
  have hstore : ∀ {K : View} {a n : Nat} {f : Mem}, Keeps (fun _ => True) K (K.store a n f) := Keeps.store fun _ _ _ => trivial
  rcases first_empty K.vol.bytes p 511 with hz | ⟨k, hk, hz, hv⟩
  · by_cases hl : slot K.vol.bytes p 511 = 0
    · -- the address becomes the link, and the next block is wiped from it on
      have hw : word (put (putWord K.vol.bytes (p + 8 * 511) b) b 4096 zeros) 0 = p := by
        rw [word_put_out (by omega), word_putWord_ne (by omega), h.head]
      refine ⟨_, freeBlock_link h hfd (by omega) hin hz hl, hstore.trans hstore, Or.inr ⟨hw, ?_⟩⟩
      by_cases hfar : p + 4088 < b ∨ b + 4096 ≤ p + 4088
      · have hbyte : put (putWord K.vol.bytes (p + 8 * 511) b) b 4096 zeros (p + 8 * 511) = leByte b 0 := by
          rw [put_out hfar, putWord, put_in (Nat.le_refl _) (by omega), Nat.sub_self]
        refine Or.inl ⟨511, Nat.le_refl _, ?_⟩
        rw [store_bytes, storeWord_bytes, slot_of_ne hp0, word_mod, hbyte, leByte_zero_toNat]
        exact hodd
      · exact Or.inr ⟨by omega, by omega, rfl⟩
    · refine ⟨_, freeBlock_full h hfd (by omega) hin fun j hj => ?_, (hstore.trans hstore).trans hstore, Or.inl ?_⟩
      · rcases Nat.lt_succ_iff_lt_or_eq.mp hj with hj | rfl
        · exact hz j hj
        · exact hl
      · rw [storeWord_bytes, word_putWord (by omega)]
        exact hodd
  · have hw : word (putWord K.vol.bytes (p + 8 * k) b) 0 = p := by rw [word_putWord_ne (by omega), h.head]
    refine ⟨_, freeBlock_slot h hfd (by omega) hk hz hv, hstore, Or.inr ⟨hw, Or.inl ⟨k, by omega, ?_⟩⟩⟩
    rw [storeWord_bytes, slot_of_ne hp0, word_putWord (by omega)]
    exact hodd

theorem freeBlock_astray (hsp : Space z K own ps) (hfd : 0 ≤ fd) (h8 : 8 ≤ b) (hin : b + 4096 ≤ K.vol.size)
    (hodd : b % 256 ≠ 0) (hfar : ∀ p ∈ ps, p + 4088 < b ∨ b + 4096 ≤ p + 4088) :
    ∃ K', Runs K (freeBlock fd b) 0 K' ∧ Astray z.lo K'.vol.bytes ∧ Keeps (fun _ => True) K K' := by
  have hlt := K.vol.size_lt
  rcases ps with _ | ⟨p, ps⟩
  · refine ⟨_, freeBlock_empty hsp.list hfd (by omega) hin, Or.inl ?_, (Keeps.store fun _ _ _ => trivial).trans (Keeps.store fun _ _ _ => trivial)⟩
    rw [store_bytes, storeWord_bytes, word_put_out (by omega), word_putWord (by omega)]
    exact hodd
  have hlow : z.lo ≤ p := (hsp.free p (mem_order.mpr (Or.inl (by simp)))).2.low
  obtain ⟨K', hr, hk, hcase⟩ := freeBlock_headPage hsp.list.headPage hfd h8 hin hodd
  refine ⟨K', hr, ?_, hk⟩
  rcases hcase with hw | ⟨hw, hslot | ⟨h1, h2, -⟩⟩
  · exact Or.inl hw
  · unfold Astray
    rw [hw]
    exact Or.inr ⟨hlow, hslot⟩
  · have := hfar p (by simp)
    omega

/-! ## A head that is no address of a block -/

/-- The superblock's word leads nowhere. -/
def Nowhere (N : Nat) (m : Mem) : Prop := word m 0 ≠ 0 ∧ ¬ IsBlock N (word m 0)

/-- The scan stands where a write of a word does not mend the head `w`. -/
def Strays (N w : Nat) (s : Sys) : Prop := Sized N s ∧ word s.vol.bytes 0 = w ∧ 1 ≤ s.pos ∧ (s.pos < 8 → w < 8)

theorem Strays.readVar (hN : 16 ≤ N) {v : Nat} :
    Ensures (Strays N w) (readVar v) fun _ s => Sized N s ∧ word s.vol.bytes 0 = w ∧ 9 ≤ s.pos ∧ (s.pos < 16 → w < 8) := by
  rintro s ⟨hs, hw, h1, h8⟩
  have hs' : s.vol.size = N := hs
  refine ⟨_, _, rfl, hs, hw, ?_, ?_⟩
  · show 9 ≤ s.pos + min 8 (s.vol.size - s.pos)
    omega
  · show s.pos + min 8 (s.vol.size - s.pos) < 16 → w < 8
    omega

theorem Strays.lseekBack : Ensures (fun s => Sized N s ∧ word s.vol.bytes 0 = w ∧ 9 ≤ s.pos ∧ (s.pos < 16 → w < 8)) (lseekBack 8)
    fun _ => Strays N w := by
  rintro s ⟨hs, hw, h1, h8⟩
  refine ⟨(), _, rfl, ?_⟩
  dsimp only
  rw [if_pos (by omega)]
  exact ⟨hs, hw, show 1 ≤ s.pos - 8 by omega, fun hlt => h8 (by have : s.pos - 8 < 8 := hlt; omega)⟩

/-- A write behind the first byte. -/
theorem Strays.sysWrite (hw0 : w ≠ 0) (hwb : ¬ IsBlock N w) {f : Mem} {n : Nat} :
    Ensures (Strays N w) (sysWrite f n) fun _ s => Sized N s ∧ Nowhere N s.vol.bytes := by
  rintro s ⟨hs, hw, h1, h8⟩
  have hnow : Nowhere N s.vol.bytes := by
    unfold Nowhere
    rw [hw]
    exact ⟨hw0, hwb⟩
  unfold TyrantFS.sysWrite
  dsimp only
  split
  · exact ⟨_, _, rfl, hs, hnow⟩
  refine ⟨_, _, rfl, hs, ?_⟩
  dsimp only
  by_cases hpos : s.pos < 8
  · -- the lowest byte stays
    have hmod := word_mod (put s.vol.bytes s.pos (min n (s.vol.size - s.pos)) f) 0
    rw [put_out (Or.inl (by omega)), ← word_mod, hw] at hmod
    have hlt := h8 hpos
    exact ⟨by omega, fun hblk => by have := hblk.aligned; omega⟩
  · unfold Nowhere
    rw [word_put_out (Or.inl (by omega))]
    exact hnow

theorem freeScan_strays (hw0 : w ≠ 0) (hwb : ¬ IsBlock N w) (hN : 16 ≤ N) (hb : b % 4096 ≠ 0) (hb8 : 8 ≤ b) (hin : b + 4096 ≤ N)
    (hlt : b < 2 ^ 64) {left k next fb : Nat} :
    Ensures (Strays N w) (freeScan b left k next fb) fun _ s => Nowhere N s.vol.bytes := by
  have hnb : ¬ IsBlock N b := fun h => hb h.aligned
  have hseek : ∀ {o : Nat} {P : Mem → Prop}, o ≤ N → Ensures (fun s => Sized N s ∧ P s.vol.bytes) (lseekSet o)
      fun _ s => (Sized N s ∧ P s.vol.bytes) ∧ s.pos = o := by
    rintro o P ho s ⟨hs, hP⟩
    refine ⟨(), _, rfl, ?_⟩
    dsimp only
    rw [if_pos (by rw [hs]; exact ho)]
    exact ⟨⟨hs, hP⟩, rfl⟩
  induction left generalizing k next fb with
  | zero =>
    -- the block becomes the head
    unfold freeScan
    have htrue : ∀ {c : M Int}, Ensures (Sized N) c (fun _ => Sized N) →
        Ensures (fun s => Sized N s ∧ True) c fun _ s => Sized N s ∧ True := fun h =>
      h.mono (fun _ hs => hs.1) fun _ _ hs => ⟨hs, trivial⟩
    have hset : ∀ o, Ensures (fun s => Sized N s ∧ True) (lseekSet o) fun _ s => Sized N s ∧ True := fun o =>
      (lseekSet_total N o).mono (fun _ hs => hs.1) fun _ _ hs => ⟨hs, trivial⟩
    refine ((hset _).pre fun s hs => ⟨hs.1, trivial⟩).bind fun _ => (htrue (sysWrite_total N _ _)).bind fun _ =>
      (hset _).bind fun _ => (htrue (sysWrite_total N _ _)).bind fun _ => (hseek (P := fun _ => True) (Nat.zero_le N)).bind fun _ =>
      Ensures.bind (T := fun _ s => Nowhere N s.vol.bytes) ?_ fun _ => Ensures.pure fun _ hs => hs
    rintro s ⟨⟨hs, -⟩, hp⟩
    have hs' : s.vol.size = N := hs
    unfold writeVar sysWrite
    dsimp only
    rw [hp, show min 8 (s.vol.size - 0) = 8 by omega, if_neg (by omega)]
    refine ⟨_, _, rfl, ?_⟩
    dsimp only
    have hword : word (put s.vol.bytes 0 8 (leByte b)) 0 = b := word_putWord hlt
    unfold Nowhere
    rw [hword]
    exact ⟨by omega, hnb⟩
  | succ left ih =>
    unfold freeScan
    refine (Strays.readVar hN).bind fun v => ?_
    split
    · refine Strays.lseekBack.bind fun _ => (Strays.sysWrite hw0 hwb).bind fun _ => ?_
      split
      · refine (hseek (by omega)).bind fun _ => Ensures.bind (T := fun _ s => Nowhere N s.vol.bytes) ?_ fun _ => Ensures.pure fun _ hs => hs
        rintro s ⟨⟨hs, hP⟩, hp⟩
        unfold sysWrite
        dsimp only
        split
        · exact ⟨_, _, rfl, hP⟩
        · refine ⟨_, _, rfl, ?_⟩
          dsimp only
          unfold Nowhere
          rw [word_put_out (Or.inl (by omega))]
          exact hP
      · exact Ensures.pure fun _ hs => hs.2
    · exact ih.pre fun s hs => ⟨hs.1, hs.2.1, by omega, fun h => by omega⟩

/-- Such a head is not mended. -/
theorem freeBlock_strays (hfd : 0 ≤ fd) (hhead : Nowhere s.vol.size s.vol.bytes) (hN : 16 ≤ s.vol.size) (hb : b % 4096 ≠ 0) (hb8 : 8 ≤ b)
    (hin : b + 4096 ≤ s.vol.size) : ∃ r s', freeBlock fd b s = some (r, s') ∧ Nowhere s.vol.size s'.vol.bytes := by
  have hlt := s.vol.size_lt
  have hscan : Ensures ((View.all s.vol).At 8) (do
      lseekSet (word s.vol.bytes 0)
      freeScan b 512 0 (word s.vol.bytes 0) 0) fun _ s' => Nowhere s.vol.size s'.vol.bytes := by
    refine Ensures.bind (T := fun _ => Strays s.vol.size (word s.vol.bytes 0)) ?_ fun _ =>
      freeScan_strays hhead.1 hhead.2 hN hb hb8 hin (by omega)
    rintro s1 ⟨hs1, hp⟩
    obtain hv : s1.vol = s.vol := holds_all.mp hs1
    have h0 := hhead.1
    refine ⟨(), _, rfl, ?_⟩
    dsimp only
    split
    · exact ⟨congrArg Vol.size hv, congrArg (fun v => word v.bytes 0) hv, show 1 ≤ word s.vol.bytes 0 by omega, fun h => h⟩
    · exact ⟨congrArg Vol.size hv, congrArg (fun v => word v.bytes 0) hv, by omega, fun h => by omega⟩
  have hall : Ensures (View.all s.vol).Holds (freeBlock fd b) fun _ s' => Nowhere s.vol.size s'.vol.bytes := by
    unfold freeBlock
    rw [if_neg (by omega)]
    refine (lseekSet_at (Nat.zero_le _)).next ((readVar_at (by rw [all_vol]; omega) (View.Sees.all _ _ _)).next ?_)
    rw [all_vol, if_neg hhead.1]
    exact hscan
  exact hall s (holds_all.mpr rfl)

/-! ## The address before a block -/

/-- On any disk. Where the block itself is the head of the list, its page may be wiped. -/
theorem freeBlock_before {r : Int} (hfd : 0 ≤ fd) (hb : IsBlock s.vol.size b) (hbig : s.vol.size ≤ 2 ^ 56)
    (hrun : freeBlock fd (b - 1) s = some (r, s')) :
    Nowhere s.vol.size s'.vol.bytes ∨ (∃ k ≤ 511, slot s'.vol.bytes (word s'.vol.bytes 0) k % 256 ≠ 0) ∨
      word s.vol.bytes 0 = b ∧ word s'.vol.bytes 0 = b ∧ ∀ k < 4096, s'.vol.bytes (b + k) = 0 := by
  have hal := hb.aligned
  have hpos := hb.pos
  have hin := hb.inside
  have hhold : (View.all s.vol).Holds s := holds_all.mpr rfl
  have hodd : ∀ {w}, w % 256 ≠ 0 → w ≠ 0 ∧ ¬ IsBlock s.vol.size w := fun hw => ⟨by omega, fun h => by have := h.aligned; omega⟩
  by_cases h0 : word s.vol.bytes 0 = 0
  · have hlist : FreeList (.all s.vol) [] := by
      refine ⟨⟨?_, List.nodup_nil⟩, fun _ h => absurd h List.not_mem_nil, View.Sees.all _ _ _, fun _ h => absurd h List.not_mem_nil, ?_⟩
      · rw [all_vol, h0]
        exact .nil
      · show 8 ≤ s.vol.size
        omega
    obtain ⟨s1, e, hs1⟩ := (freeBlock_empty hlist hfd (show b - 1 ≠ 0 by omega) (show b - 1 + 4096 ≤ s.vol.size by omega)).exec hhold
    obtain ⟨-, rfl⟩ := Prod.mk.inj (Option.some.inj (e.symm.trans hrun))
    have hbytes : s1.vol.bytes = put (putWord s.vol.bytes 0 (b - 1)) (b - 1) 4096 zeros := funext fun x => hs1.bytes x (Or.inl (Or.inl trivial))
    refine Or.inl ?_
    unfold Nowhere
    rw [hbytes, word_put_out (by omega), word_putWord (by have := s.vol.size_lt; omega)]
    exact hodd (by omega)
  by_cases hw : IsBlock s.vol.size (word s.vol.bytes 0)
  · have hpage : HeadPage (.all s.vol) (word s.vol.bytes 0) := ⟨hw, rfl, View.Sees.all _ _ _, View.Sees.all _ _ _⟩
    have hwal := hw.aligned
    obtain ⟨K', hr, hk, hcase⟩ := freeBlock_headPage hpage hfd (show 8 ≤ b - 1 by omega) (show b - 1 + 4096 ≤ s.vol.size by omega)
      (show (b - 1) % 256 ≠ 0 by omega)
    obtain ⟨s1, e, hs1⟩ := hr.exec hhold
    obtain ⟨-, rfl⟩ := Prod.mk.inj (Option.some.inj (e.symm.trans hrun))
    obtain rfl := hk.all hs1
    rcases hcase with hc | ⟨hw1, hc | ⟨h1, h2, hc⟩⟩
    · exact Or.inl (hodd hc)
    · refine Or.inr (Or.inl ?_)
      rw [show word s1.vol.bytes 0 = word s.vol.bytes 0 from hw1]
      exact hc
    · have hbw : word s.vol.bytes 0 = b := by omega
      have hbytes := congrArg (fun K => K.vol.bytes) hc
      simp only [all_vol, store_bytes, storeWord_bytes] at hbytes
      refine Or.inr (Or.inr ⟨hbw, hw1.trans hbw, fun k hk => ?_⟩)
      rw [hbytes, hbw]
      by_cases hlast : k = 4095
      · -- the highest byte of the link
        subst hlast
        rw [put_out (by omega), putWord, put_in (by omega) (by omega), show b + 4095 - (b + 8 * 511) = 7 by omega, leByte,
          Nat.div_eq_of_lt (show b - 1 < 256 ^ 7 by omega)]
        rfl
      · rw [put_in (by omega) (by omega)]
        rfl
  · obtain ⟨r1, s1, e, hnow⟩ := freeBlock_strays hfd ⟨h0, hw⟩ (by omega) (show (b - 1) % 4096 ≠ 0 by omega) (show 8 ≤ b - 1 by omega)
      (show b - 1 + 4096 ≤ s.vol.size by omega)
    obtain ⟨-, rfl⟩ := Prod.mk.inj (Option.some.inj (e.symm.trans hrun))
    exact Or.inl hnow

/-- Then there is no free list above `lo`, or nothing but the block is free. -/
theorem FreeList.before {P : Prop} (hl : FreeList (.all v) ps) (hlo : ∀ c ∈ freeOrder (.all v) ps, lo ≤ c) (h8 : ∀ x < 8, v.bytes x = m x)
    (hm : ∀ x, lo ≤ x → v.bytes x = m x) (hb : b ≠ 0) (h : Nowhere v.size m ∨ (∃ k ≤ 511, slot m (word m 0) k % 256 ≠ 0) ∨
      P ∧ word m 0 = b ∧ ∀ k < 4096, m (b + k) = 0) : P ∧ freeOrder (.all v) ps = [b] := by
  have hw : word v.bytes 0 = word m 0 := word_congr fun k hk => by rw [Nat.zero_add, h8 k hk]
  have hhead : word m 0 ≠ 0 → ∃ qs, ps = word m 0 :: qs ∧ Linked (slot v.bytes) 511 (slot v.bytes (word m 0) 511) qs := fun h0 => by
    have hlink := hl.chain.linked
    rw [all_vol, hw] at hlink
    exact linked_ne hlink h0
  rcases h with hnow | ⟨k, hk, hs⟩ | ⟨hP, hb0, hzero⟩
  · obtain ⟨qs, rfl, -⟩ := hhead hnow.1
    exact absurd (hl.block _ (mem_order.mpr (Or.inl (by simp)))) hnow.2
  · have h0 : word m 0 ≠ 0 := fun h0 => by
      rw [h0, slot_zero] at hs
      exact hs rfl
    obtain ⟨qs, rfl, -⟩ := hhead h0
    have hle := hlo (word m 0) (mem_order.mpr (Or.inl (by simp)))
    have hastray : Astray lo m := Or.inr ⟨hle, k, hk, hs⟩
    exact absurd hl (hastray.congr h8 hm).not_freeList
  · obtain ⟨qs, rfl, hlink⟩ := hhead (by omega)
    rw [hb0] at hl hlo hlink ⊢
    have hle := hlo b (mem_order.mpr (Or.inl (by simp)))
    have hslot : ∀ k < 512, slot v.bytes b k = 0 := fun k hk => by
      rw [slot_of_ne hb]
      exact word_eq_zero fun i hi => by
        rw [hm _ (by omega), Nat.add_assoc]
        exact hzero _ (by omega)
    rw [hslot 511 (by decide)] at hlink
    obtain rfl := linked_zero hlink
    refine ⟨hP, ?_⟩
    rw [freeOrder, order_cons, all_vol, nz_eq_nil fun k hk => hslot k (by omega), List.nil_append, order_nil]

end TyrantFS

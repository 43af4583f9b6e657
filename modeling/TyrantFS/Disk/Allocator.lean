/-
  TyrantFS.Disk.Allocator — `allocate_block` and `free_block` keep the free list.

  The superblock's word is the first page of the chain; a page's slots 0..510 list free
  blocks, slot 511 links to the next page (`Lib.PageChain` with 511 slots). `free_block`
  puts a block into the first empty slot of the head page, link slot included: a block
  that enters the link slot is wiped and becomes the next page. When the head page has
  no empty slot the block becomes the head.

  Proved: `allocateBlock_none`, `allocateBlock_some` (the block handed out is the first
  of `order`, and `order` loses it), `freeBlock_runs` (`order` gains the block), each
  with what else stays as it was. Runs of the two, with writes of the clients between
  them, are in `TyrantFS.Disk.FreeSet`.
-/
import TyrantFS.Disk.Blocks
import TyrantFS.Lib.PageChain

namespace TyrantFS

open Lib Lib.PageChain

/-! ## Slots of pages -/

/-- The `k`-th address of page `p`; the superblock is no page. -/
def slot (m : Mem) (p k : Nat) : Nat := if p = 0 then 0 else word m (p + 8 * k)

/-- The block at `b` lies on a device of `size` bytes, and is not the superblock. -/
structure IsBlock (size b : Nat) : Prop where
  aligned : b % 4096 = 0
  pos : b ≠ 0
  inside : b + 4096 ≤ size

section
variable {m : Mem} {p q j k v : Nat}

@[simp] theorem slot_zero : slot m 0 k = 0 := if_pos rfl

theorem slot_of_ne (hp : p ≠ 0) : slot m p k = word m (p + 8 * k) := if_neg hp

theorem slot_lt : slot m p k < 2 ^ 64 := by
  unfold slot
  split
  · decide
  · exact word_lt m _

theorem slot_congr {m' : Mem} (h : ∀ x, p ≤ x → x < p + 4096 → m' x = m x) (hk : k < 512) :
    slot m' p k = slot m p k := by
  unfold slot
  split
  · rfl
  · exact word_congr fun i hi => h _ (by omega) (by omega)

theorem slot_putWord (hp : p % 4096 = 0) (hq : q % 4096 = 0) (hq0 : q ≠ 0) (hk : k < 512) (hj : j < 512)
    (hv : v < 2 ^ 64) : slot (putWord m (p + 8 * k) v) q j = if q = p ∧ j = k then v else slot m q j := by
  rw [slot_of_ne hq0, slot_of_ne hq0]
  by_cases e : q = p ∧ j = k
  · rw [if_pos e, e.1, e.2, word_putWord hv]
  · rw [if_neg e]
    exact word_putWord_ne (by omega)

theorem slot_putSuper (hq : q % 4096 = 0) (hj : j < 512) : slot (putWord m 0 v) q j = slot m q j := by
  by_cases h : q = 0
  · rw [h, slot_zero, slot_zero]
  · exact slot_congr (fun x h1 _ => put_out (by omega)) hj

theorem slot_wipe (hp : p % 4096 = 0) (hq : q % 4096 = 0) (hj : j < 512) :
    slot (put m p 4096 zeros) q j = if q = p then 0 else slot m q j := by
  by_cases e : q = p
  · subst e
    rw [if_pos rfl]
    unfold slot
    split
    · rfl
    · exact word_eq_zero fun i hi => put_in (by omega) (by omega)
  · rw [if_neg e]
    exact slot_congr (fun x h1 h2 => put_out (by omega)) hj

end

/-! ## The free list of a device -/

/-- The pages `ps` of the free list that starts in the superblock. -/
structure FreeList (K : View) (ps : List Nat) : Prop where
  chain : Chain (slot K.vol.bytes) 511 (word K.vol.bytes 0) ps
  block : ∀ b ∈ order (slot K.vol.bytes) 511 ps, IsBlock K.vol.size b
  super : K.Sees 0 8
  sees : ∀ p ∈ ps, K.Sees p 4096
  room : 8 ≤ K.vol.size

/-- The disk says which its pages are. -/
theorem FreeList.unique {K : View} {ps qs : List Nat} (h : FreeList K ps) (h' : FreeList K qs) : ps = qs :=
  linked_unique h.chain.linked h'.chain.linked

/-- The free blocks, in the order in which they are handed out. -/
def freeOrder (K : View) (ps : List Nat) : List Nat := order (slot K.vol.bytes) 511 ps

/-- `K'` differs from `K` at most in the bytes of `S`, and nothing known is forgotten. -/
structure Keeps (S : Nat → Prop) (K K' : View) : Prop where
  env : K'.vol.env = K.vol.env
  glob : K'.vol.glob = K.vol.glob
  size : K'.vol.size = K.vol.size
  bytes : ∀ x, ¬ S x → K'.vol.bytes x = K.vol.bytes x
  vis : ∀ x, K.vis x → K'.vis x

section
variable {S T : Nat → Prop} {K K' K'' : View} {a n v : Nat} {f : Mem}

theorem Keeps.refl : Keeps S K K := ⟨rfl, rfl, rfl, fun _ _ => rfl, fun _ h => h⟩

theorem Keeps.trans (h : Keeps S K K') (h' : Keeps S K' K'') : Keeps S K K'' :=
  ⟨h'.env.trans h.env, h'.glob.trans h.glob, h'.size.trans h.size,
    fun x hx => (h'.bytes x hx).trans (h.bytes x hx), fun x hx => h'.vis x (h.vis x hx)⟩

theorem Keeps.mono (h : Keeps S K K') (hs : ∀ x, S x → T x) : Keeps T K K' :=
  ⟨h.env, h.glob, h.size, fun x hx => h.bytes x fun hS => hx (hs x hS), h.vis⟩

theorem Keeps.store (h : ∀ x, a ≤ x → x < a + n → S x) : Keeps S K (K.store a n f) :=
  ⟨rfl, rfl, rfl, fun x hx => put_out (by by_contra hc; exact hx (h x (by omega) (by omega))), fun _ hv => Or.inl hv⟩

theorem Keeps.storeWord (h : ∀ x, a ≤ x → x < a + 8 → S x) : Keeps S K (K.storeWord a v) := Keeps.store h

/-- From a volume known in full to the one it leaves. -/
theorem Keeps.all {v : Vol} {s : Sys} (h : Keeps S (.all v) K') (hs : K'.Holds s) : K' = .all s.vol := by
  have hv : ∀ x, K'.vis x := fun x => h.vis x trivial
  have e : s.vol = K'.vol := holds_all.mp (hs.whole hv)
  obtain ⟨w, vis⟩ := K'
  obtain rfl : vis = fun _ => True := funext fun x => eq_true (hv x)
  rw [e]
  rfl

/-- What a computation leaves of a volume of which all is known. -/
theorem Keeps.all_vol {v : Vol} (h : Keeps S (.all v) K') : K' = .all K'.vol := by
  obtain ⟨w, vis⟩ := K'
  obtain rfl : vis = fun _ => True := funext fun x => eq_true (h.vis x trivial)
  rfl

theorem Keeps.sees (h : Keeps S K K') (hv : K.Sees a n) : K'.Sees a n := fun k hk => h.vis _ (hv k hk)

end

/-- The free list survives a change outside the superblock's word and its pages. -/
theorem FreeList.keep {K K' : View} {ps : List Nat} (h : FreeList K ps) (hs : K'.vol.size = K.vol.size)
    (h0 : ∀ x < 8, K'.vol.bytes x = K.vol.bytes x)
    (hp : ∀ p ∈ ps, ∀ x, p ≤ x → x < p + 4096 → K'.vol.bytes x = K.vol.bytes x) (hv : ∀ x, K.vis x → K'.vis x) :
    FreeList K' ps ∧ freeOrder K' ps = freeOrder K ps := by
  have hslot : ∀ p ∈ ps, ∀ k ≤ 511, slot K'.vol.bytes p k = slot K.vol.bytes p k :=
    fun p hm k hk => slot_congr (hp p hm) (by omega)
  have ho : freeOrder K' ps = freeOrder K ps := order_congr _ fun p hm k hk => hslot p hm k (by omega)
  refine ⟨⟨?_, fun b hb => ?_, fun k hk => hv _ (h.super k hk), fun p hm k hk => hv _ (h.sees p hm k hk), by rw [hs]; exact h.room⟩, ho⟩
  · rw [word_congr fun k hk => h0 (0 + k) (by omega)]
    exact h.chain.congr hslot
  · have hb' : b ∈ freeOrder K' ps := hb
    rw [ho] at hb'
    rw [hs]
    exact h.block b hb'

/-! ## Taking a block -/

variable {K : View} {ps : List Nat}

/-- The superblock points to page `p`. -/
structure HeadPage (K : View) (p : Nat) : Prop where
  block : IsBlock K.vol.size p
  head : word K.vol.bytes 0 = p
  super : K.Sees 0 8
  sees : K.Sees p 4096

theorem FreeList.headPage {p : Nat} (h : FreeList K (p :: ps)) : HeadPage K p :=
  ⟨h.block p (mem_order.mpr (Or.inl (by simp))), (linked_cons h.chain.linked).1, h.super, h.sees p (by simp)⟩

/-- The scan of `allocate_block` passes over empty slots. -/
theorem allocateScan_skip {p : Nat} {b : Nat} {Q : Sys → Prop} (hp : IsBlock K.vol.size p) (hv : K.Sees p 4096) :
    ∀ {d k n : Nat}, k + n = 512 → d ≤ n → (∀ j, k ≤ j → j < k + d → slot K.vol.bytes p j = 0) →
      Returns (K.At (p + 8 * (k + d))) (allocateScan (n - d) (8 * (k + d)) 0) b Q →
      Returns (K.At (p + 8 * k)) (allocateScan n (8 * k) 0) b Q
  | 0, k, n, _, _, _, h => h
  | d + 1, k, n + 1, hk, hd, hz, h => by
    have hin := hp.inside
    have hz0 : word K.vol.bytes (p + 8 * k) = 0 := by
      have h0 := hz k (by omega) (by omega)
      rwa [slot_of_ne hp.pos] at h0
    have ih := allocateScan_skip hp hv (d := d) (k := k + 1) (n := n) (by omega) (by omega)
      (fun j h1 h2 => hz j (by omega) (by omega))
      (by rw [show k + 1 + d = k + (d + 1) by omega, show n - d = n + 1 - (d + 1) by omega]; exact h)
    rw [allocateScan]
    refine (readVar_at (by omega) (hv.mono (by omega) (by omega))).bind ?_
    rw [hz0, if_neg (by simp)]
    exact ih

/-- The head page lists a block, `slot k` is the first. -/
theorem allocateBlock_slot (fd : Int) {p k : Nat} (h : HeadPage K p) (hk : k < 511)
    (hz : ∀ j < k, slot K.vol.bytes p j = 0) (hv : slot K.vol.bytes p k ≠ 0) :
    Runs K (allocateBlock fd) (slot K.vol.bytes p k) (K.storeWord (p + 8 * k) 0) := by
  have hp : IsBlock K.vol.size p := h.block
  have hsee := h.sees
  have hin := hp.inside
  have hhead : word K.vol.bytes 0 = p := h.head
  have hw : word K.vol.bytes (p + 8 * k) = slot K.vol.bytes p k := (slot_of_ne hp.pos).symm
  refine (lseekSet_at (by omega)).bind ((readVar_at (by omega) h.super).bind ?_)
  rw [hhead, if_neg hp.pos]
  refine (lseekSet_from (by omega)).bind ?_
  refine allocateScan_skip (d := k) (k := 0) (n := 512) hp hsee (by omega) (by omega) (fun j _ hj => hz j (by omega)) ?_
  rw [Nat.zero_add, show 512 - k = 511 - k + 1 by omega, allocateScan]
  refine (readVar_at (by omega) (hsee.mono (by omega) (by omega))).bind ?_
  rw [hw, if_pos hv]
  refine (lseekBack_at (by omega)).bind ?_
  rw [Nat.add_sub_cancel]
  refine Runs.of_at (q := p + 8 * k + 8) ((writeVar_at (by omega)).bind ?_)
  rw [if_neg (by omega)]
  exact Returns.pure _

/-- The head page lists nothing and links to another page. -/
theorem allocateBlock_page (fd : Int) {p : Nat} (h : HeadPage K p) (hz : ∀ j < 511, slot K.vol.bytes p j = 0)
    (hv : slot K.vol.bytes p 511 ≠ 0) :
    Runs K (allocateBlock fd) p ((K.storeWord (p + 8 * 511) 0).storeWord 0 (slot K.vol.bytes p 511)) := by
  have hp : IsBlock K.vol.size p := h.block
  have hsee := h.sees
  have hin := hp.inside
  have hal := hp.aligned
  have hpos := hp.pos
  have hhead : word K.vol.bytes 0 = p := h.head
  have hw : word K.vol.bytes (p + 8 * 511) = slot K.vol.bytes p 511 := (slot_of_ne hp.pos).symm
  have hhead' : word (K.storeWord (p + 8 * 511) 0).vol.bytes 0 = p := by
    rw [storeWord_bytes, word_putWord_ne (by omega), hhead]
  refine (lseekSet_at (by omega)).bind ((readVar_at (by omega) h.super).bind ?_)
  rw [hhead, if_neg hp.pos]
  refine (lseekSet_from (by omega)).bind ?_
  refine allocateScan_skip (d := 511) (k := 0) (n := 512) hp hsee (by omega) (by omega) (fun j _ hj => hz j (by omega)) ?_
  rw [Nat.zero_add, allocateScan]
  refine (readVar_at (by omega) (hsee.mono (by omega) (by omega))).bind ?_
  rw [hw, if_pos hv]
  refine (lseekBack_at (by omega)).bind ?_
  rw [Nat.add_sub_cancel]
  refine (writeVar_at (by omega)).bind ?_
  rw [if_pos (by omega)]
  refine (lseekSet_from (Nat.zero_le _)).bind ?_
  refine (readVar_at (by rw [storeWord_size]; omega) h.super.storeWord).bind ?_
  rw [hhead']
  refine (lseekSet_from (Nat.zero_le _)).bind ?_
  refine Runs.of_at (q := 8) ((writeVar_at (by rw [storeWord_size]; omega)).bind ?_)
  exact Returns.pure _

/-- The head page lists nothing and is the last. -/
theorem allocateBlock_last (fd : Int) {p : Nat} (h : HeadPage K p) (hz : ∀ j < 512, slot K.vol.bytes p j = 0) :
    Runs K (allocateBlock fd) p (K.storeWord 0 0) := by
  have hp : IsBlock K.vol.size p := h.block
  have hsee := h.sees
  have hin := hp.inside
  have hhead : word K.vol.bytes 0 = p := h.head
  refine (lseekSet_at (by omega)).bind ((readVar_at (by omega) h.super).bind ?_)
  rw [hhead, if_neg hp.pos]
  refine (lseekSet_from (by omega)).bind ?_
  refine allocateScan_skip (d := 512) (k := 0) (n := 512) hp hsee (by omega) (by omega) (fun j _ hj => hz j (by omega)) ?_
  rw [allocateScan]
  refine (lseekSet_from (by omega)).bind ?_
  refine (readVar_at (by omega) h.super).bind ?_
  rw [hhead]
  refine (lseekBack_at (by omega)).bind ?_
  exact Runs.of_at (q := 8) ((writeVar_at (by omega)).bind (Returns.pure _))

theorem allocateBlock_none (fd : Int) (h : FreeList K []) : Runs K (allocateBlock fd) 0 K := by
  have hroom := h.room
  have hhead : word K.vol.bytes 0 = 0 := linked_nil h.chain.linked
  refine Runs.of_at (q := 8) ((lseekSet_at (by omega)).bind ((readVar_at (by omega) h.super).bind ?_))
  rw [hhead, if_pos rfl]
  exact Returns.pure _

/-! ## Giving a block back -/

/-- The scan of `free_block` passes over the slots in use. -/
theorem freeScan_skip {p b : Nat} {Q : Sys → Prop} (hp : IsBlock K.vol.size p) (hv : K.Sees p 4096) :
    ∀ {d k n fb : Nat}, k + n = 512 → d ≤ n → (∀ j, k ≤ j → j < k + d → slot K.vol.bytes p j ≠ 0) →
      (∀ fb', Returns (K.At (p + 8 * (k + d))) (freeScan b (n - d) (8 * (k + d)) (p + 8 * (k + d)) fb') 0 Q) →
      Returns (K.At (p + 8 * k)) (freeScan b n (8 * k) (p + 8 * k) fb) 0 Q
  | 0, k, n, fb, _, _, _, h => h fb
  | d + 1, k, n + 1, fb, hk, hd, hz, h => by
    have hin := hp.inside
    have hlt := K.vol.size_lt
    have hz0 : word K.vol.bytes (p + 8 * k) ≠ 0 := by
      have h0 := hz k (by omega) (by omega)
      rwa [slot_of_ne hp.pos] at h0
    have hu : u64 ((p + 8 * k : Nat) + 8) = p + 8 * (k + 1) := by unfold u64; omega
    have ih : ∀ fb', Returns (K.At (p + 8 * (k + 1))) (freeScan b n (8 * (k + 1)) (p + 8 * (k + 1)) fb') 0 Q :=
      fun fb' => freeScan_skip hp hv (d := d) (k := k + 1) (n := n) (by omega) (by omega)
        (fun j h1 h2 => hz j (by omega) (by omega))
        (by rw [show k + 1 + d = k + (d + 1) by omega, show n - d = n + 1 - (d + 1) by omega]; exact h)
    rw [freeScan]
    refine (readVar_at (by omega) (hv.mono (by omega) (by omega))).bind ?_
    rw [if_neg hz0, hu]
    exact ih _

/-- The free list is empty: the block becomes its only page. -/
theorem freeBlock_empty {fd : Int} {b : Nat} (h : FreeList K []) (hfd : 0 ≤ fd) (hb : b ≠ 0) (hin : b + 4096 ≤ K.vol.size) :
    Runs K (freeBlock fd b) 0 ((K.storeWord 0 b).store b 4096 zeros) := by
  have hroom := h.room
  have hhead : word K.vol.bytes 0 = 0 := linked_nil h.chain.linked
  unfold freeBlock
  rw [if_neg (by omega)]
  refine (lseekSet_at (by omega)).bind ((readVar_at (by omega) h.super).bind ?_)
  rw [if_pos hhead]
  refine (lseekSet_from (by omega)).bind ((writeVar_at (by omega)).bind ?_)
  refine (lseekSet_from (by rw [storeWord_size]; omega)).bind ?_
  exact Runs.of_at (q := b + 4096) ((sysWrite_at (by rw [storeWord_size]; omega)).bind (Returns.pure _))

/-- The head page has an empty slot before its link, and any number can enter it. -/
theorem freeBlock_slot {fd : Int} {p k b : Nat} (h : HeadPage K p) (hfd : 0 ≤ fd) (hb : b ≠ 0) (hk : k < 511)
    (hz : ∀ j < k, slot K.vol.bytes p j ≠ 0) (hv : slot K.vol.bytes p k = 0) :
    Runs K (freeBlock fd b) 0 (K.storeWord (p + 8 * k) b) := by
  have hp : IsBlock K.vol.size p := h.block
  have hsee := h.sees
  have hin := hp.inside
  have hhead : word K.vol.bytes 0 = p := h.head
  have hw : word K.vol.bytes (p + 8 * k) = 0 := by rwa [slot_of_ne hp.pos] at hv
  unfold freeBlock
  rw [if_neg (by omega)]
  refine (lseekSet_at (by omega)).bind ((readVar_at (by omega) h.super).bind ?_)
  rw [hhead, if_neg hp.pos]
  refine (lseekSet_from (by omega)).bind ?_
  refine freeScan_skip (d := k) (k := 0) (n := 512) hp hsee (by omega) (by omega) (fun j _ hj => hz j (by omega)) ?_
  intro fb
  rw [Nat.zero_add, show 512 - k = 511 - k + 1 by omega, freeScan]
  refine (readVar_at (by omega) (hsee.mono (by omega) (by omega))).bind ?_
  rw [if_pos hw]
  refine (lseekBack_at (by omega)).bind ?_
  rw [Nat.add_sub_cancel]
  refine Runs.of_at (q := p + 8 * k + 8) ((writeVar_at (by omega)).bind ?_)
  rw [if_neg (by omega)]
  exact Returns.pure _

/-- Only the link slot of the head page is empty: the block becomes the next page. -/
theorem freeBlock_link {fd : Int} {p b : Nat} (h : HeadPage K p) (hfd : 0 ≤ fd) (hb : b ≠ 0) (hbin : b + 4096 ≤ K.vol.size)
    (hz : ∀ j < 511, slot K.vol.bytes p j ≠ 0) (hv : slot K.vol.bytes p 511 = 0) :
    Runs K (freeBlock fd b) 0 ((K.storeWord (p + 8 * 511) b).store b 4096 zeros) := by
  have hp : IsBlock K.vol.size p := h.block
  have hsee := h.sees
  have hin := hp.inside
  have hhead : word K.vol.bytes 0 = p := h.head
  have hw : word K.vol.bytes (p + 8 * 511) = 0 := by rwa [slot_of_ne hp.pos] at hv
  unfold freeBlock
  rw [if_neg (by omega)]
  refine (lseekSet_at (by omega)).bind ((readVar_at (by omega) h.super).bind ?_)
  rw [hhead, if_neg hp.pos]
  refine (lseekSet_from (by omega)).bind ?_
  refine freeScan_skip (d := 511) (k := 0) (n := 512) hp hsee (by omega) (by omega) (fun j _ hj => hz j (by omega)) ?_
  intro fb
  rw [Nat.zero_add, freeScan]
  refine (readVar_at (by omega) (hsee.mono (by omega) (by omega))).bind ?_
  rw [if_pos hw]
  refine (lseekBack_at (by omega)).bind ?_
  rw [Nat.add_sub_cancel]
  refine (writeVar_at (by omega)).bind ?_
  rw [if_pos (by omega)]
  refine (lseekSet_from (by rw [storeWord_size]; omega)).bind ?_
  exact Runs.of_at (q := b + 4096) ((sysWrite_at (by rw [storeWord_size]; omega)).bind (Returns.pure _))

/-- The head page is full: the block becomes the head. -/
theorem freeBlock_full {fd : Int} {p b : Nat} (h : HeadPage K p) (hfd : 0 ≤ fd) (hb : b ≠ 0) (hbin : b + 4096 ≤ K.vol.size)
    (hz : ∀ j < 512, slot K.vol.bytes p j ≠ 0) :
    Runs K (freeBlock fd b) 0 (((K.store b 4096 zeros).storeWord (b + 8 * 511) p).storeWord 0 b) := by
  have hp : IsBlock K.vol.size p := h.block
  have hsee := h.sees
  have hin := hp.inside
  have hlt := K.vol.size_lt
  have hhead : word K.vol.bytes 0 = p := h.head
  have hu : u64 ((p + 8 * (0 + 512) : Nat) - 4096) = p := by unfold u64; omega
  have hu' : u64 ((b : Int) + 4096 - 8) = b + 8 * 511 := by unfold u64; omega
  unfold freeBlock
  rw [if_neg (by omega)]
  refine (lseekSet_at (by omega)).bind ((readVar_at (by omega) h.super).bind ?_)
  rw [hhead, if_neg hp.pos]
  refine (lseekSet_from (by omega)).bind ?_
  refine freeScan_skip (d := 512) (k := 0) (n := 512) hp hsee (by omega) (by omega) (fun j _ hj => hz j (by omega)) ?_
  intro fb
  rw [Nat.sub_self, freeScan, hu, hu']
  refine (lseekSet_from (by omega)).bind ((sysWrite_at (by omega)).bind ?_)
  refine (lseekSet_from (by rw [store_size]; omega)).bind ((writeVar_at (by rw [store_size]; omega)).bind ?_)
  refine (lseekSet_from (Nat.zero_le _)).bind ?_
  exact Runs.of_at (q := 0 + 8) ((writeVar_at (by rw [storeWord_size, store_size]; omega)).bind (Returns.pure _))

/-! ## The allocator as a set -/

/-- A byte of the superblock's word or of a page of the chain. -/
def ChainByte (ps : List Nat) (x : Nat) : Prop := x < 8 ∨ ∃ p ∈ ps, p ≤ x ∧ x < p + 4096

/-- A page whose slots are all zero is zero. -/
theorem zero_of_slots {m : Mem} {p k : Nat} (hp : p ≠ 0) (h : ∀ j < 512, slot m p j = 0) (hk : k < 4096) :
    m (p + k) = 0 := by
  have hw := h (k / 8) (by omega)
  rw [slot_of_ne hp] at hw
  have hb := byte_eq_zero hw (k := k % 8) (Nat.mod_lt _ (by decide))
  rwa [show p + 8 * (k / 8) + k % 8 = p + k by omega] at hb

/-- The first slot below `n` that is in use, if there is one. -/
theorem first_used (m : Mem) (p n : Nat) :
    (∀ j < n, slot m p j = 0) ∨ ∃ k < n, (∀ j < k, slot m p j = 0) ∧ slot m p k ≠ 0 := by
  by_cases h : ∃ k, k < n ∧ slot m p k ≠ 0
  · right
    refine ⟨Nat.find h, (Nat.find_spec h).1, fun j hj => ?_, (Nat.find_spec h).2⟩
    by_contra hc
    exact Nat.find_min h hj ⟨by have := (Nat.find_spec h).1; omega, hc⟩
  · left
    intro j hj
    by_contra hc
    exact h ⟨j, hj, hc⟩

/-- The first empty slot below `n`, if there is one. -/
theorem first_empty (m : Mem) (p n : Nat) :
    (∀ j < n, slot m p j ≠ 0) ∨ ∃ k < n, (∀ j < k, slot m p j ≠ 0) ∧ slot m p k = 0 := by
  by_cases h : ∃ k, k < n ∧ slot m p k = 0
  · right
    refine ⟨Nat.find h, (Nat.find_spec h).1, fun j hj hc => ?_, (Nat.find_spec h).2⟩
    exact Nat.find_min h hj ⟨by have := (Nat.find_spec h).1; omega, hc⟩
  · left
    intro j hj hc
    exact h ⟨j, hj, hc⟩

/-- The slots of the pages behind the head, after a change inside the head page. -/
theorem slot_behind {p q j k v : Nat} (h : FreeList K (p :: ps)) (hq : q ∈ ps) (hj : j ≤ 511) (hk : k < 512)
    (hv : v < 2 ^ 64) : slot (putWord K.vol.bytes (p + 8 * k) v) q j = slot K.vol.bytes q j := by
  have hp := h.block p (mem_order.mpr (Or.inl (by simp)))
  have hqb := h.block q (mem_order.mpr (Or.inl (by simp [hq])))
  have hne : q ≠ p := fun e => h.chain.page_notMem (e ▸ hq)
  rw [slot_putWord hp.aligned hqb.aligned hqb.pos hk (by omega) hv, if_neg fun e => hne e.1]

/-- What a call of `allocate_block` that finds a block leaves. -/
structure Taken (K : View) (ps : List Nat) (b : Nat) (K' : View) (ps' : List Nat) : Prop where
  free : FreeList K' ps'
  order : freeOrder K ps = b :: freeOrder K' ps'
  keeps : Keeps (ChainByte ps) K K'
  pages : ∀ p ∈ ps', p ∈ ps
  stay : ∀ p ∈ ps, p ∈ ps' ∨ p = b
  /-- A page of the chain is handed out empty. -/
  clean : b ∈ ps → ∀ k < 4096, K'.vol.bytes (b + k) = 0

theorem allocateBlock_some (fd : Int) {b : Nat} {rest : List Nat} (h : FreeList K ps) (hb : freeOrder K ps = b :: rest) :
    ∃ K' ps', Runs K (allocateBlock fd) b K' ∧ Taken K ps b K' ps' := by
  rcases ps with _ | ⟨p, ps⟩
  · simp [freeOrder] at hb
  have hp : IsBlock K.vol.size p := h.block p (mem_order.mpr (Or.inl (by simp)))
  have hal := hp.aligned
  have hpos := hp.pos
  have hin := hp.inside
  obtain ⟨hhead, hlink⟩ := linked_cons h.chain.linked
  have hc : Chain (slot K.vol.bytes) 511 p (p :: ps) := by have := h.chain; rwa [hhead] at this
  have hpage : ∀ k v, k < 512 → Keeps (ChainByte (p :: ps)) K (K.storeWord (p + 8 * k) v) := fun k v hk =>
    Keeps.storeWord fun x h1 h2 => Or.inr ⟨p, by simp, by omega, by omega⟩
  rcases first_used K.vol.bytes p 511 with hz | ⟨k, hk, hz, hv⟩
  · by_cases hl : slot K.vol.bytes p 511 = 0
    · -- the head page is empty and the last one
      have hz' : ∀ j < 512, slot K.vol.bytes p j = 0 := fun j hj => by
        rcases Nat.lt_succ_iff_lt_or_eq.mp hj with hj | rfl
        · exact hz j hj
        · exact hl
      have hps : ps = [] := by rw [hl] at hlink; exact linked_zero hlink
      subst hps
      obtain ⟨he, hc'⟩ := hc.pop_page (s := slot (putWord K.vol.bytes 0 0)) hz (by simp)
      have hpb : p = b := by rw [freeOrder, he] at hb; exact (List.cons.inj hb).1
      subst hpb
      refine ⟨K.storeWord 0 0, [], allocateBlock_last fd h.headPage hz', ?_⟩
      refine ⟨⟨?_, by simp, h.super.storeWord, by simp, h.room⟩, he, ?_, by simp, by simp, fun _ k hk => ?_⟩
      · rw [storeWord_bytes, word_putWord (by decide)]
        rwa [hl] at hc'
      · exact Keeps.storeWord fun x _ h2 => Or.inl (by omega)
      · rw [storeWord_bytes, putWord, put_out (by omega)]
        exact zero_of_slots hpos hz' hk
    · -- the head page is empty and links on
      have hs : ∀ q j, q % 4096 = 0 → j < 512 →
          slot (putWord (putWord K.vol.bytes (p + 8 * 511) 0) 0 (slot K.vol.bytes p 511)) q j =
            slot (putWord K.vol.bytes (p + 8 * 511) 0) q j := fun q j hq hj => slot_putSuper hq hj
      obtain ⟨he, hc'⟩ := hc.pop_page
        (s := slot (putWord (putWord K.vol.bytes (p + 8 * 511) 0) 0 (slot K.vol.bytes p 511))) hz
        (fun q hq j hj => by
          have hqb := h.block q (mem_order.mpr (Or.inl (by simp [hq])))
          rw [hs q j hqb.aligned (by omega), slot_behind h hq hj (by decide) (by decide)])
      have hpb : p = b := by rw [freeOrder, he] at hb; exact (List.cons.inj hb).1
      subst hpb
      refine ⟨_, ps, allocateBlock_page fd h.headPage hz hl, ?_⟩
      refine ⟨⟨?_, ?_, h.super.storeWord.storeWord, ?_, h.room⟩, he, ?_, fun q hq => by simp [hq],
        fun q hq => (List.mem_cons.mp hq).symm, fun _ k hk => ?_⟩
      · simp only [storeWord_bytes]
        rw [word_putWord slot_lt]
        exact hc'
      · intro x hx
        exact h.block x (by rw [he]; exact List.mem_cons_of_mem _ hx)
      · intro q hq
        exact (h.sees q (by simp [hq])).storeWord.storeWord
      · exact (hpage 511 0 (by decide)).trans (Keeps.storeWord fun x _ h2 => Or.inl (by omega))
      · refine zero_of_slots hpos (fun j hj => ?_) hk
        simp only [storeWord_bytes]
        rw [hs p j hal hj, slot_putWord hal hal hpos (by decide) hj (by decide)]
        by_cases e : j = 511
        · simp [e]
        · rw [if_neg fun c => e c.2]
          exact hz j (by omega)
  · -- the head page lists a block
    have hp' : ∀ j ≤ 511, slot (putWord K.vol.bytes (p + 8 * k) 0) p j = if j = k then 0 else slot K.vol.bytes p j :=
      fun j hj => by rw [slot_putWord hal hal hpos (by omega) (by omega) (by decide)]; simp
    obtain ⟨he, hc'⟩ := hc.pop_slot hk hz hv hp' fun q hq j hj => slot_behind h hq hj (by omega) (by decide)
    have hpb : slot K.vol.bytes p k = b := by rw [freeOrder, he] at hb; exact (List.cons.inj hb).1
    subst hpb
    refine ⟨_, p :: ps, allocateBlock_slot fd h.headPage hk hz hv, ?_⟩
    refine ⟨⟨?_, ?_, h.super.storeWord, fun q hq => (h.sees q hq).storeWord, h.room⟩, he, hpage k 0 (by omega),
      fun q hq => hq, fun q hq => Or.inl hq, fun hm => ?_⟩
    · rw [storeWord_bytes, word_putWord_ne (by omega), hhead]
      exact hc'
    · intro x hx
      exact h.block x (by rw [he]; exact List.mem_cons_of_mem _ hx)
    · have hn := hc.nodup
      rw [he] at hn
      exact absurd (mem_order.mpr (Or.inl hm)) (List.nodup_cons.mp hn).1

/-- What a call of `free_block` on a block that is not free leaves. -/
structure Given (K : View) (ps : List Nat) (b : Nat) (K' : View) (ps' : List Nat) : Prop where
  free : FreeList K' ps'
  order : (freeOrder K' ps').Perm (b :: freeOrder K ps)
  keeps : Keeps (fun x => ChainByte ps x ∨ b ≤ x ∧ x < b + 4096) K K'
  pages : ∀ p ∈ ps', p ∈ ps ∨ p = b
  /-- Only a block that becomes a page is wiped. -/
  listed : b ∉ ps' → ∀ k < 4096, K'.vol.bytes (b + k) = K.vol.bytes (b + k)

theorem freeBlock_runs {fd : Int} {b : Nat} (h : FreeList K ps) (hfd : 0 ≤ fd) (hb : IsBlock K.vol.size b)
    (hn : b ∉ freeOrder K ps) : ∃ K' ps', Runs K (freeBlock fd b) 0 K' ∧ Given K ps b K' ps' := by
  have hbal := hb.aligned
  have hbpos := hb.pos
  have hbin := hb.inside
  have hlt := K.vol.size_lt
  have hb64 : b < 2 ^ 64 := by omega
  -- the block, where it is wiped, and the rest of the volume
  have hwipe : ∀ {K1 : View}, Keeps (fun x => ChainByte ps x ∨ b ≤ x ∧ x < b + 4096) K1 (K1.store b 4096 zeros) :=
    Keeps.store fun x h1 h2 => Or.inr ⟨h1, h2⟩
  have hsuper : ∀ {K1 : View} {v : Nat}, Keeps (fun x => ChainByte ps x ∨ b ≤ x ∧ x < b + 4096) K1 (K1.storeWord 0 v) :=
    Keeps.storeWord fun x _ h2 => Or.inl (Or.inl (by omega))
  have hblocks : ∀ {K' : View} {ps' : List Nat}, K'.vol.size = K.vol.size →
      (freeOrder K' ps').Perm (b :: freeOrder K ps) → ∀ x ∈ freeOrder K' ps', IsBlock K'.vol.size x := by
    intro K' ps' hs hperm x hx
    rw [hs]
    rcases List.mem_cons.mp (hperm.mem_iff.mp hx) with rfl | hx
    · exact hb
    · exact h.block x hx
  rcases ps with _ | ⟨p, ps⟩
  · have hz : ∀ j ≤ 511, slot (put (putWord K.vol.bytes 0 b) b 4096 zeros) b j = 0 := fun j hj => by
      rw [slot_wipe hbal hbal (by omega), if_pos rfl]
    have hc0 : Chain (slot K.vol.bytes) 511 0 [] := by
      have := h.chain
      rwa [linked_nil h.chain.linked] at this
    obtain ⟨he, hc⟩ := hc0.push_head (s := slot (put (putWord K.vol.bytes 0 b) b 4096 zeros)) hn hbpos
      (hz 511 (by omega)) (fun j hj => hz j (by omega)) (by simp)
    have hperm : (freeOrder ((K.storeWord 0 b).store b 4096 zeros) [b]).Perm (b :: freeOrder K []) := by
      simp only [freeOrder, store_bytes, storeWord_bytes]
      rw [he]
    refine ⟨_, [b], freeBlock_empty h hfd hbpos hbin, ?_⟩
    refine ⟨⟨?_, hblocks (by rfl) hperm, h.super.storeWord.store, ?_, h.room⟩, hperm, hsuper.trans hwipe, by simp, by simp⟩
    · simp only [store_bytes, storeWord_bytes]
      rw [word_put_out (by omega), word_putWord hb64]
      exact hc
    · intro q hq
      obtain rfl := List.mem_singleton.mp hq
      exact fun k hk => Or.inr ⟨by omega, by omega⟩
  have hp : IsBlock K.vol.size p := h.block p (mem_order.mpr (Or.inl (by simp)))
  have hal := hp.aligned
  have hpos := hp.pos
  have hin := hp.inside
  obtain ⟨hhead, hlink⟩ := linked_cons h.chain.linked
  have hc : Chain (slot K.vol.bytes) 511 p (p :: ps) := by have := h.chain; rwa [hhead] at this
  have hpb : p ≠ b := fun e => hn (mem_order.mpr (Or.inl (by simp [e])))
  have hpage : ∀ k, k < 512 → Keeps (fun x => ChainByte (p :: ps) x ∨ b ≤ x ∧ x < b + 4096) K (K.storeWord (p + 8 * k) b) :=
    fun k hk => Keeps.storeWord fun x h1 h2 => Or.inl (Or.inr ⟨p, by simp, by omega, by omega⟩)
  have hslot : ∀ k < 512, ∀ j ≤ 511, slot (putWord K.vol.bytes (p + 8 * k) b) p j = if j = k then b else slot K.vol.bytes p j :=
    fun k hk j hj => by rw [slot_putWord hal hal hpos hk (by omega) hb64]; simp
  rcases first_empty K.vol.bytes p 511 with hz | ⟨k, hk, hz, hv⟩
  · by_cases hl : slot K.vol.bytes p 511 = 0
    · -- only the link slot is empty
      have hps : ps = [] := by rw [hl] at hlink; exact linked_zero hlink
      subst hps
      obtain ⟨he, hc'⟩ := hc.push_link (s := slot (put (putWord K.vol.bytes (p + 8 * 511) b) b 4096 zeros)) hn hbpos
        (fun j hj => by rw [slot_wipe hbal hal (by omega), if_neg hpb, hslot 511 (by decide) j hj])
        (fun j hj => by rw [slot_wipe hbal hbal (by omega), if_pos rfl])
      refine ⟨_, [p, b], freeBlock_link h.headPage hfd hbpos hbin hz hl, ?_⟩
      refine ⟨⟨?_, hblocks (by rfl) he, h.super.storeWord.store, ?_, h.room⟩, he, (hpage 511 (by decide)).trans hwipe,
        by simp, by simp⟩
      · simp only [store_bytes, storeWord_bytes]
        rw [word_put_out (by omega), word_putWord_ne (by omega), hhead]
        exact hc'
      · intro q hq
        rcases List.mem_cons.mp hq with rfl | hq
        · exact (h.sees q (by simp)).storeWord.store
        · obtain rfl := List.mem_singleton.mp hq
          exact fun k hk => Or.inr ⟨by omega, by omega⟩
    · -- the page is full
      have hz' : ∀ j < 512, slot K.vol.bytes p j ≠ 0 := fun j hj => by
        rcases Nat.lt_succ_iff_lt_or_eq.mp hj with hj | rfl
        · exact hz j hj
        · exact hl
      have hs : ∀ q j, q % 4096 = 0 → q ≠ 0 → j < 512 →
          slot (putWord (putWord (put K.vol.bytes b 4096 zeros) (b + 8 * 511) p) 0 b) q j =
            if q = b then if j = 511 then p else 0 else slot K.vol.bytes q j := by
        intro q j hq hq0 hj
        rw [slot_putSuper hq hj, slot_putWord hbal hq hq0 (by decide) hj (by omega), slot_wipe hbal hq hj]
        by_cases e : q = b
        · simp [e]
        · rw [if_neg fun c => e c.1, if_neg e, if_neg e]
      obtain ⟨he, hc'⟩ := hc.push_head
        (s := slot (putWord (putWord (put K.vol.bytes b 4096 zeros) (b + 8 * 511) p) 0 b)) hn hbpos
        (by rw [hs b 511 hbal hbpos (by decide), if_pos rfl, if_pos rfl])
        (fun j hj => by rw [hs b j hbal hbpos (by omega), if_pos rfl, if_neg (by omega)])
        (fun q hq j hj => by
          have hqm := mem_order (r := slot K.vol.bytes) (L := 511).mpr (Or.inl hq)
          have hqb := h.block q hqm
          have hqn : q ≠ b := fun e => hn (e ▸ hqm)
          rw [hs q j hqb.aligned hqb.pos (by omega), if_neg hqn])
      have hperm : (freeOrder (((K.store b 4096 zeros).storeWord (b + 8 * 511) p).storeWord 0 b) (b :: p :: ps)).Perm
          (b :: freeOrder K (p :: ps)) := by
        simp only [freeOrder, store_bytes, storeWord_bytes]
        rw [he]
      refine ⟨_, b :: p :: ps, freeBlock_full h.headPage hfd hbpos hbin hz', ?_⟩
      refine ⟨⟨?_, hblocks (by rfl) hperm, h.super.store.storeWord.storeWord, ?_, h.room⟩, hperm,
        (hwipe.trans (Keeps.storeWord fun x h1 h2 => Or.inr ⟨by omega, by omega⟩)).trans hsuper, ?_, by simp⟩
      · simp only [store_bytes, storeWord_bytes]
        rw [word_putWord hb64]
        exact hc'
      · intro q hq
        rcases List.mem_cons.mp hq with rfl | hq
        · exact View.Sees.storeWord (View.Sees.storeWord fun k hk => Or.inr ⟨by omega, by omega⟩)
        · exact (h.sees q hq).store.storeWord.storeWord
      · intro q hq
        rcases List.mem_cons.mp hq with rfl | hq
        · exact Or.inr rfl
        · exact Or.inl hq
  · -- the head page has a hole
    obtain ⟨he, hc'⟩ := hc.push_slot (s := slot (putWord K.vol.bytes (p + 8 * k) b)) hn hbpos hk hv (hslot k (by omega))
      fun q hq j hj => slot_behind h hq hj (by omega) hb64
    refine ⟨_, p :: ps, freeBlock_slot h.headPage hfd hbpos hk hz hv, ?_⟩
    refine ⟨⟨?_, hblocks (by rfl) he, h.super.storeWord, fun q hq => (h.sees q hq).storeWord, h.room⟩, he, hpage k (by omega),
      fun q hq => Or.inl hq, fun _ j hj => ?_⟩
    · rw [storeWord_bytes, word_putWord_ne (by omega), hhead]
      exact hc'
    · rw [storeWord_bytes, putWord, put_out (by omega)]

/-! ## A small device -/

/-- The blocks behind block 2. -/
def listedBlocks : List Nat := (List.range 14).map fun i => 8192 + 4096 * (i + 1)

/-- The page in block 2 is the free list, and lists them. -/
def listed : Mem := fun x =>
  if x < 8 then leByte 8192 x
  else if 8192 ≤ x ∧ x < 8192 + 8 * 14 then leByte (8192 + 4096 * ((x - 8192) / 8 + 1)) ((x - 8192) % 8)
  else 0

theorem listed_size : 4096 * 17 < 2 ^ 64 := by decide

/-- A device of 17 blocks, opened as file 3. -/
def listedDisk : Sys := ⟨⟨.still, ⟨4096, 3, 0, 0, 0, 0, 8192⟩, 4096 * 17, listed_size, listed, 0⟩, 0⟩

theorem listedDisk_slot {k : Nat} (hk : k < 512) : slot listedDisk.vol.bytes 8192 k = listedBlocks.getD k 0 := by
  rw [slot_of_ne (by decide), listedBlocks]
  by_cases h : k < 14
  · have e : leVal 8 (fun i => listed (8192 + 8 * k + i)) = leVal 8 (leByte (8192 + 4096 * (k + 1))) := leVal_congr fun i hi => by
      rw [listed, if_neg (by omega), if_pos (by omega), show (8192 + 8 * k + i - 8192) / 8 = k by omega,
        show (8192 + 8 * k + i - 8192) % 8 = i by omega]
    rw [List.getD_eq_getElem _ _ (by simpa using h), List.getElem_map, List.getElem_range]
    show word listed (8192 + 8 * k) = _
    rw [word, e, leVal_leByte]
    exact Nat.mod_eq_of_lt (by omega)
  · rw [List.getD_eq_default _ _ (by simpa using h)]
    refine word_eq_zero fun i hi => ?_
    show listed (8192 + 8 * k + i) = 0
    rw [listed, if_neg (by omega), if_neg (by omega)]

theorem mem_listedBlocks {b : Nat} (h : b ∈ listedBlocks ++ [8192]) : b % 4096 = 0 ∧ 8192 ≤ b ∧ b + 4096 ≤ 4096 * 17 := by
  rcases List.mem_append.mp h with h | h
  · obtain ⟨i, hi, rfl⟩ := List.mem_map.mp h
    have hi := List.mem_range.mp hi
    omega
  · obtain rfl := List.mem_singleton.mp h
    decide

theorem listedDisk_order : freeOrder (.all listedDisk.vol) [8192] = listedBlocks ++ [8192] := by
  have hn : nz (slot listedDisk.vol.bytes 8192) 511 = listedBlocks := by
    refine nz_getD (fun k hk => listedDisk_slot (by omega)) (by decide) fun b hb => ?_
    have := (mem_listedBlocks (List.mem_append_left _ hb)).2.1
    omega
  simp only [freeOrder, all_vol, order_cons, order_nil, hn]

theorem listedDisk_list : FreeList (.all listedDisk.vol) [8192] := by
  have hw : word listedDisk.vol.bytes 0 = 8192 := by
    have e : leVal 8 (fun k => listed (0 + k)) = leVal 8 (leByte 8192) := leVal_congr fun k hk => by
      rw [listed, Nat.zero_add, if_pos hk]
    show word listed 0 = 8192
    rw [word, e, leVal_leByte]
    decide
  refine ⟨⟨?_, ?_⟩, fun b hb => ?_, View.Sees.all _ _ _, fun _ _ => View.Sees.all _ _ _, by decide⟩
  · rw [all_vol, hw]
    refine .cons (by decide) ?_
    rw [listedDisk_slot (by decide), List.getD_eq_default _ _ (by decide)]
    exact .nil
  · show (freeOrder (.all listedDisk.vol) [8192]).Nodup
    rw [listedDisk_order]
    decide
  · change b ∈ freeOrder (.all listedDisk.vol) [8192] at hb
    rw [listedDisk_order] at hb
    obtain ⟨h1, h2, h3⟩ := mem_listedBlocks hb
    exact ⟨h1, by omega, h3⟩

end TyrantFS

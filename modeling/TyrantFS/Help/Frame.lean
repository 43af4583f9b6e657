/-
  TyrantFS.Help.Frame — one inode and the rest of the disk.

  `MapAt`: the inode `n`, whose slot is at `a`, has a sound map on the disk; `InodeAt`:
  and it is what the slot holds. Both survive what the functions above do to the inode.

  `Confined A`: between two disks only the inodes in `A` were touched: their slots, the
  blocks they own, the superblock's word and blocks nobody owns. What holds of one inode
  and its blocks holds after a change that is confined to others.
-/
import TyrantFS.Help.BlockMap
import TyrantFS.Disk.Image

namespace TyrantFS

open Lib Lib.PageTree

variable {z : Zone} {K K' K'' : View} {own own' own'' : Nat → Option Pos} {ps ps' : List Nat} {a b i : Nat} {n n' : Node}
  {S : Nat → Prop}

/-! ## The map of one inode -/

structure MapAt (z : Zone) (K : View) (own : Nat → Option Pos) (ps : List Nat) (a : Nat) (n : Node) : Prop where
  space : Space z K own ps
  low : 8 ≤ a
  high : a + 256 ≤ z.lo
  inside : z.lo ≤ K.vol.size
  sees : K.Sees 0 z.lo
  maps : Maps K own a n

structure InodeAt (z : Zone) (K : View) (own : Nat → Option Pos) (ps : List Nat) (a : Nat) (n : Node) : Prop
    extends MapAt z K own ps a n where
  node : nodeAt K.vol.bytes a = n

theorem InodeAt.fits (h : InodeAt z K own ps a n) : n.Fits := h.node ▸ nodeAt_fits _ _

theorem InodeAt.fetch (h : InodeAt z K own ps a n) : Runs K (fetchNode a) n K := by
  have hlow := h.low
  have hhigh := h.high
  have hin := h.inside
  rw [← h.node]
  exact fetchNode_runs (by omega) (by omega) (h.sees.mono (by omega) (by omega))

theorem MapAt.block (h : MapAt z K own ps a n) (hi : i < n.blocks) : IsBlock K.vol.size (addrOf K.vol.bytes n i) :=
  h.space.owned_block (h.maps.data i hi)

theorem MapAt.has (h : MapAt z K own ps a n) (hi : i < n.blocks) : z.Has (addrOf K.vol.bytes n i) :=
  h.space.owned _ (by simp [h.maps.data i hi])

theorem MapAt.get (h : MapAt z K own ps a n) (hi : i < n.blocks) : Runs K (getIBlock n i) (addrOf K.vol.bytes n i) K := by
  have := getIBlock_runs (i := i) h.maps fun _ _ => h.space.owned_block
  rwa [if_pos hi] at this

theorem MapAt.addr_inj (h : MapAt z K own ps a n) {k : Nat} (hi : i < n.blocks) (hk : k < n.blocks)
    (e : addrOf K.vol.bytes n i = addrOf K.vol.bytes n k) : i = k := by
  have h1 := h.maps.data i hi
  rw [e, h.maps.data k hk] at h1
  injection h1 with h1
  injection h1 with _ h1
  exact h1.symm

/-- Two blocks of the map are the same or apart. -/
theorem MapAt.addr_apart (h : MapAt z K own ps a n) {k : Nat} (hi : i < n.blocks) (hk : k < n.blocks) (hne : i ≠ k) :
    addrOf K.vol.bytes n i + 4096 ≤ addrOf K.vol.bytes n k ∨ addrOf K.vol.bytes n k + 4096 ≤ addrOf K.vol.bytes n i :=
  (h.has hi).apart (h.has hk) fun e => hne (h.addr_inj hi hk e)

/-- An inode without index pages. -/
theorem Maps.direct (hb : n.blocks ≤ 12) (hr : ∀ j, 12 ≤ j → n.root j = 0)
    (ho : ∀ i < n.blocks, own (n.direct i) = some (.data a i)) : Maps K own a n := by
  have hat : ∀ j path, 12 ≤ j → blockAt K.vol.bytes n j path = 0 := fun j path hj => by
    rw [blockAt, hr j hj]
    exact walk_zero fun _ => slot_zero
  refine ⟨Nat.le_trans hb (by decide), fun i hi => ?_, fun j path hj _ _ h0 => absurd (hat j path hj) h0,
    fun j path hj _ _ h0 => absurd (hat j path hj) h0, fun i hi path k e => ?_⟩
  · have hp : IsPath i [] := ⟨by omega, Nat.zero_le _, by simp⟩
    rw [addrOf, rootOf, if_pos (by omega), pathOf, if_pos (by omega), blockAt_direct (by omega) hp]
    exact ho i hi
  · rw [pathOf, if_pos (by omega)] at e
    simp at e

theorem addrOf_direct {m : Mem} (hi : i < 12) : addrOf m n i = n.direct i := by
  have hp : IsPath i [] := ⟨by omega, Nat.zero_le _, by simp⟩
  rw [addrOf, rootOf, if_pos hi, pathOf, if_pos hi, blockAt_direct hi hp]

theorem addrOf_root {m : Mem} (h : ∀ j, n'.root j = n.root j) : addrOf m n' i = addrOf m n i := by
  rw [addrOf, addrOf, blockAt, blockAt, h]

/-- The same map: the other fields do not matter. -/
structure SameMap (n n' : Node) : Prop where
  blocks : n'.blocks = n.blocks
  root : ∀ j, n'.root j = n.root j

theorem SameMap.touch {s t u : Nat} : SameMap n { n with size := s, dataTime := t, changeTime := u } := ⟨rfl, fun _ => rfl⟩

/-- The inode with another size, changed at `t`. -/
def Node.stamp (n : Node) (s t : Nat) : Node := { n with size := s, dataTime := t, changeTime := t }

@[simp] theorem stamp_size {s t : Nat} : (n.stamp s t).size = s := rfl

@[simp] theorem stamp_blocks {s t : Nat} : (n.stamp s t).blocks = n.blocks := rfl

theorem SameMap.stamp {s t : Nat} : SameMap n (n.stamp s t) := SameMap.touch

theorem stamp_fits {s t : Nat} (h : n.Fits) (hs : s < 2 ^ 64) (ht : t < 2 ^ 64) : (n.stamp s t).Fits :=
  h.touch hs h.blocks ht ht

theorem SameMap.addr {m : Mem} (h : SameMap n n') : addrOf m n' i = addrOf m n i := addrOf_root h.root

/-- Fewer blocks of the same trees. -/
theorem Maps.shrink (h : Maps K own a n) (hr : ∀ j, n'.root j = n.root j) (hb : n'.blocks ≤ n.blocks)
    (hd : ∀ i < n'.blocks, own' (addrOf K.vol.bytes n i) = own (addrOf K.vol.bytes n i))
    (hp : ∀ c j π, own c = some (.page a j π) → own' c = own c) : Maps K own' a n' := by
  have hat : ∀ {j path}, blockAt K.vol.bytes n' j path = blockAt K.vol.bytes n j path := fun {j path} => by
    rw [blockAt, blockAt, hr]
  refine ⟨Nat.le_trans hb h.cap, fun i hi => ?_, fun j path hj hpa hl h0 => ?_, fun j path hj hpa hl h0 => ?_,
    fun i hi path k e => ?_⟩
  · rw [addrOf, hat]
    exact (hd i hi).trans (h.data i (by omega))
  · rw [hat] at h0 ⊢
    have := h.page j path hj hpa hl h0
    exact (hp _ j path this).trans this
  · rw [hat] at h0 ⊢
    exact h.upper j path hj hpa hl h0
  · rw [hat]
    exact h.leaf i (by omega) path k e

theorem MapAt.sameMap (h : MapAt z K own ps a n) (hs : SameMap n n') : MapAt z K own ps a n' :=
  { h with maps := h.maps.shrink hs.root (Nat.le_of_eq hs.blocks) (fun _ _ => rfl) fun _ _ _ _ => rfl }

theorem MapAt.shrink (h : MapAt z K own ps a n) (hsp : Space z K own' ps) (hr : ∀ j, n'.root j = n.root j)
    (hb : n'.blocks ≤ n.blocks) (hd : ∀ i < n'.blocks, own' (addrOf K.vol.bytes n i) = own (addrOf K.vol.bytes n i))
    (hp : ∀ c j π, own c = some (.page a j π) → own' c = own c) : MapAt z K own' ps a n' :=
  { h with space := hsp, maps := h.maps.shrink hr hb hd hp }

/-- A change inside the blocks of the map, and below the data region but for the
    superblock's word. -/
theorem MapAt.keep (h : MapAt z K own ps a n) (hk : Keeps S K K')
    (hS : ∀ x, S x → 8 ≤ x ∧ x < z.lo ∨ ∃ i < n.blocks, addrOf K.vol.bytes n i ≤ x ∧ x < addrOf K.vol.bytes n i + 4096) :
    MapAt z K' own ps a n ∧ freeOrder K' ps = freeOrder K ps ∧
      ∀ i < n.blocks, addrOf K'.vol.bytes n i = addrOf K.vol.bytes n i := by
  have h8 := h.space.low
  have hfar : ∀ b x, z.Has b → (∀ i < n.blocks, addrOf K.vol.bytes n i ≠ b) → S x → x < b ∨ b + 4096 ≤ x := by
    intro b x hb hne hx
    have hlow := hb.low
    rcases hS x hx with hx | ⟨i, hi, h1, h2⟩
    · omega
    · have := (h.has hi).apart hb (hne i hi)
      omega
  have hpage : ∀ c j π, own c = some (.page a j π) → ∀ x, c ≤ x → x < c + 4096 → K'.vol.bytes x = K.vol.bytes x := by
    intro c j π hc x h1 h2
    refine hk.bytes x fun hx => ?_
    have := hfar c x (h.space.owned c (by simp [hc])) (fun i hi e => by
      have := h.maps.data i hi
      rw [e, hc] at this
      cases this) hx
    omega
  obtain ⟨hsp, hord⟩ := h.space.keep hk
    (fun x hx => by
      rcases hS x hx with hx | ⟨i, hi, h1, _⟩
      · exact hx.1
      · have := (h.has hi).low
        omega)
    (fun x b hx hb => hfar b x (h.space.free b hb).2
      (fun i hi e => h.space.owned_notFree (h.maps.data i hi) (e ▸ hb)) hx)
  refine ⟨⟨hsp, h.low, h.high, by rw [hk.size]; exact h.inside, hk.sees h.sees, h.maps.keep hpage hk.vis fun _ _ => rfl⟩,
    hord, fun i hi => h.maps.addr_frame hpage hi⟩

/-- Committing the inode. -/
theorem MapAt.commit (h : MapAt z K own ps a n) (hf : n.Fits) :
    Runs K (commitInode n a) 208 (K.store a 208 n.encode) ∧ InodeAt z (K.store a 208 n.encode) own ps a n ∧
      freeOrder (K.store a 208 n.encode) ps = freeOrder K ps := by
  have hlow := h.low
  have hhigh := h.high
  have hin := h.inside
  have hk : Keeps (fun x => a ≤ x ∧ x < a + 208) K (K.store a 208 n.encode) := Keeps.store fun x h1 h2 => ⟨h1, h2⟩
  obtain ⟨hm, hord, _⟩ := h.keep hk fun x hx => Or.inl (by omega)
  exact ⟨commitInode_runs (by omega), ⟨hm, nodeAt_put hf⟩, hord⟩

theorem Keeps.tick : Keeps S K K.tick := ⟨rfl, rfl, rfl, fun _ _ => rfl, fun _ h => h⟩

/-- The clock was read. -/
theorem MapAt.tick (h : MapAt z K own ps a n) : MapAt z K.tick own ps a n ∧ freeOrder K.tick ps = freeOrder K ps := by
  obtain ⟨h1, h2, _⟩ := h.keep (S := fun _ => False) Keeps.tick fun x hx => hx.elim
  exact ⟨h1, h2⟩

/-- A block that nobody owns was given back. -/
theorem MapAt.give (h : MapAt z K own ps a n) (hz : z.Has b) (ho : own b = none) (hg : Given K ps b K' ps') :
    MapAt z K' own ps' a n ∧ ∀ i < n.blocks, addrOf K'.vol.bytes n i = addrOf K.vol.bytes n i ∧
      ∀ k < 4096, K'.vol.bytes (addrOf K.vol.bytes n i + k) = K.vol.bytes (addrOf K.vol.bytes n i + k) := by
  have hbytes : ∀ c p, own c = some p → ∀ x, c ≤ x → x < c + 4096 → K'.vol.bytes x = K.vol.bytes x := by
    intro c p hc x h1 h2
    refine hg.keeps.bytes x ?_
    rintro (hx | hx)
    · exact h.space.chainByte hc h1 h2 hx
    · have hne : c ≠ b := fun e => by rw [e, ho] at hc; cases hc
      have := (h.space.owned c (by simp [hc])).apart hz hne
      omega
  refine ⟨⟨h.space.give hz ho hg, h.low, h.high, by rw [hg.keeps.size]; exact h.inside, hg.keeps.sees h.sees,
    h.maps.keep (fun c j π hc => hbytes c _ hc) hg.keeps.vis fun _ _ => rfl⟩, fun i hi => ⟨?_, fun k hk => ?_⟩⟩
  · exact h.maps.addr_frame (fun c j π hc => hbytes c _ hc) hi
  · exact hbytes _ _ (h.maps.data i hi) _ (by omega) (by omega)

/-- Adding a block leaves the inode's data alone. -/
theorem MapAt.growByte_data (h : MapAt z K own ps a n) (hi : i < n.blocks) {x : Nat} (h1 : addrOf K.vol.bytes n i ≤ x)
    (h2 : x < addrOf K.vol.bytes n i + 4096) : ¬ GrowByte K own ps a x := by
  have hown := h.maps.data i hi
  have hhas := h.has hi
  have hlow := hhas.low
  have h8 := h.space.low
  have hhigh := h.high
  rintro (hx | hx | ⟨b, hb, hx⟩ | ⟨b, j, π, hb, hx⟩)
  · omega
  · omega
  · have := hhas.apart (h.space.free b hb).2 fun e => h.space.owned_notFree hown (e ▸ hb)
    omega
  · have := hhas.apart (h.space.owned b (by simp [hb])) fun e => by
      rw [e, hb] at hown
      cases hown
    omega

/-- `c` is another inode's slot. -/
structure Beside (z : Zone) (a c : Nat) : Prop where
  low : 8 ≤ c
  high : c + 256 ≤ z.lo
  apart : c + 256 ≤ a ∨ a + 256 ≤ c

/-! ## The rest of the disk -/

/-- The inode a position belongs to. -/
def Pos.inode : Pos → Nat
  | .data a _ => a
  | .page a _ _ => a

/-- The bytes a change that is confined to the inodes in `A` may touch. -/
def Touch (z : Zone) (A : Nat → Prop) (own : Nat → Option Pos) (x : Nat) : Prop :=
  x < 8 ∨ (∃ a, A a ∧ a ≤ x ∧ x < a + 256) ∨
    ∃ b, z.Has b ∧ (∀ p, own b = some p → A p.inode) ∧ b ≤ x ∧ x < b + 4096

structure Confined (z : Zone) (A : Nat → Prop) (K : View) (own : Nat → Option Pos) (K' : View) (own' : Nat → Option Pos) : Prop where
  keeps : Keeps (Touch z A own) K K'
  owner : ∀ b p, own b = some p → ¬ A p.inode → own' b = some p

section
variable {A : Nat → Prop}

theorem Confined.refl : Confined z A K own K own := ⟨Keeps.refl, fun _ _ h _ => h⟩

theorem Touch.back {x : Nat} (hx : Touch z A own' x) (h : Confined z A K own K' own') : Touch z A own x := by
  rcases hx with hx | hx | ⟨b, hz, hb, hx⟩
  · exact Or.inl hx
  · exact Or.inr (Or.inl hx)
  · refine Or.inr (Or.inr ⟨b, hz, fun p hp => ?_, hx⟩)
    by_contra hA
    exact hA (hb p (h.owner b p hp hA))

theorem Confined.trans (h : Confined z A K own K' own') (h' : Confined z A K' own' K'' own'') :
    Confined z A K own K'' own'' :=
  ⟨h.keeps.trans (h'.keeps.mono fun _ hx => hx.back h), fun b p hb hp => h'.owner b p (h.owner b p hb hp) hp⟩

theorem Confined.mono {B : Nat → Prop} (h : Confined z A K own K' own') (hAB : ∀ a, A a → B a) :
    Confined z B K own K' own' := by
  refine ⟨h.keeps.mono fun x hx => ?_, fun b p hb hp => h.owner b p hb fun hA => hp (hAB _ hA)⟩
  rcases hx with hx | ⟨a, ha, hx⟩ | ⟨b, hz, hb, hx⟩
  · exact Or.inl hx
  · exact Or.inr (Or.inl ⟨a, hAB a ha, hx⟩)
  · exact Or.inr (Or.inr ⟨b, hz, fun p hp => hAB _ (hb p hp), hx⟩)

/-- A change of bytes only. -/
theorem Confined.bytes (hk : Keeps S K K') (hS : ∀ x, S x → Touch z A own x) : Confined z A K own K' own :=
  ⟨hk.mono hS, fun _ _ h _ => h⟩

/-- Blocks change hands. -/
theorem Confined.owners (ho : ∀ b p, own b = some p → ¬ A p.inode → own' b = some p) : Confined z A K own K own' :=
  ⟨Keeps.refl, ho⟩

theorem touch_slot {x : Nat} (ha : A a) (h1 : a ≤ x) (h2 : x < a + 256) : Touch z A own x := Or.inr (Or.inl ⟨a, ha, h1, h2⟩)

theorem touch_free {x : Nat} (hz : z.Has b) (ho : own b = none) (h1 : b ≤ x) (h2 : x < b + 4096) : Touch z A own x :=
  Or.inr (Or.inr ⟨b, hz, fun p hp => by simp [ho] at hp, h1, h2⟩)

theorem touch_owned {x : Nat} {p : Pos} (hz : z.Has b) (hb : own b = some p) (hp : A p.inode) (h1 : b ≤ x)
    (h2 : x < b + 4096) : Touch z A own x :=
  Or.inr (Or.inr ⟨b, hz, fun q hq => by rw [hb] at hq; injection hq with e; exact e ▸ hp, h1, h2⟩)

theorem MapAt.touch {x : Nat} (h : MapAt z K own ps a n) (ha : A a) (hi : i < n.blocks)
    (h1 : addrOf K.vol.bytes n i ≤ x) (h2 : x < addrOf K.vol.bytes n i + 4096) : Touch z A own x :=
  touch_owned (h.has hi) (h.maps.data i hi) ha h1 h2

/-- The free list touches nobody's blocks. -/
theorem Space.touch_chain {x : Nat} (h : Space z K own ps) (hx : ChainByte ps x) : Touch z A own x := by
  rcases hx with hx | ⟨p, hp, h1, h2⟩
  · exact Or.inl hx
  · have hf := h.free p (PageChain.mem_order.mpr (Or.inl hp))
    exact touch_free hf.2 hf.1 h1 h2

theorem Space.take_confined (h : Space z K own ps) (ht : Taken K ps b K' ps') : Confined z A K own K' own :=
  Confined.bytes ht.keeps fun _ => h.touch_chain

theorem Space.give_confined (h : Space z K own ps) (hz : z.Has b) (ho : own b = none) (hg : Given K ps b K' ps') :
    Confined z A K own K' own :=
  Confined.bytes hg.keeps fun x hx => by
    rcases hx with hx | ⟨h1, h2⟩
    · exact h.touch_chain hx
    · exact touch_free hz ho h1 h2

theorem Added.confined {K0 : View} {own0 : Nat → Option Pos} {ps0 : List Nat} {n0 : Node} {r : Nat × Node}
    (h : Added z a K0 own0 ps0 n0 r K own ps) (h0 : Space z K0 own0 ps0) (ha : A a) : Confined z A K0 own0 K own := by
  refine ⟨h.keeps.mono fun x hx => ?_, fun b p hb hp => ?_⟩
  · rcases hx with hx | ⟨h1, h2⟩ | ⟨b, hb, hx⟩ | ⟨b, j, π, hb, hx⟩
    · exact Or.inl hx
    · exact touch_slot ha h1 (by omega)
    · have hf := h0.free b hb
      exact touch_free hf.2 hf.1 hx.1 hx.2
    · exact touch_owned (h0.owned b (by simp [hb])) hb ha hx.1 hx.2
  · rcases h.owner b with e | ⟨hf, _⟩
    · rw [e, hb]
    · rw [(h0.free b hf).1] at hb
      cases hb

/-- The blocks of the other inodes are not touched. -/
theorem Space.not_touch (hsp : Space z K own ps) {p : Pos} (hb : own b = some p) (hA : ¬ A p.inode)
    (hsl : ∀ a, A a → a + 256 ≤ z.lo) {x : Nat} (h1 : b ≤ x) (h2 : x < b + 4096) : ¬ Touch z A own x := by
  have hz := hsp.owned b (by simp [hb])
  have hlow := hz.low
  have h8 := hsp.low
  rintro (hx | ⟨a, ha, h3, h4⟩ | ⟨c, hc, ho, h3, h4⟩)
  · omega
  · have := hsl a ha
    omega
  · have hne : b ≠ c := fun e => hA (ho p (e ▸ hb))
    have := hz.apart hc hne
    omega

/-- What a confined change leaves of an inode outside `A`. -/
theorem Confined.block (h : Confined z A K own K' own') (hsp : Space z K own ps) {p : Pos} (hb : own b = some p)
    (hA : ¬ A p.inode) (hsl : ∀ a, A a → a + 256 ≤ z.lo) :
    own' b = some p ∧ ∀ x, b ≤ x → x < b + 4096 → K'.vol.bytes x = K.vol.bytes x :=
  ⟨h.owner b p hb hA, fun x h1 h2 => h.keeps.bytes x (hsp.not_touch hb hA hsl h1 h2)⟩

theorem Confined.slot (h : Confined z A K own K' own') (ha8 : 8 ≤ a) (ha : a + 256 ≤ z.lo)
    (hap : ∀ c, A c → c + 256 ≤ a ∨ a + 256 ≤ c) {x : Nat} (h1 : a ≤ x) (h2 : x < a + 256) :
    K'.vol.bytes x = K.vol.bytes x := by
  refine h.keeps.bytes x ?_
  rintro (hx | ⟨c, hc, h3, h4⟩ | ⟨c, hc, _, h3, h4⟩)
  · omega
  · have := hap c hc
    omega
  · have := hc.low
    omega

/-- Clearing a slot of the inode table. -/
theorem Space.clear (h : Space z K own ps) (ha8 : 8 ≤ a) (ha : a + 256 ≤ z.lo) (hin : z.lo ≤ K.vol.size) :
    Runs K (freeInode a) 0 (K.store a 256 zeros) ∧ ¬ InUse (K.store a 256 zeros).vol.bytes a ∧
      Space z (K.store a 256 zeros) own ps ∧ freeOrder (K.store a 256 zeros) ps = freeOrder K ps ∧
      Confined z (· = a) K own (K.store a 256 zeros) own := by
  have hk : Keeps (fun x => a ≤ x ∧ x < a + 256) K (K.store a 256 zeros) := Keeps.store fun x h1 h2 => ⟨h1, h2⟩
  obtain ⟨hsp, hord⟩ := h.keep hk (fun x hx => by omega) fun x b hx hb => by
    have := (h.free b hb).2.low
    omega
  refine ⟨freeInode_runs (by omega) (by omega), ?_, hsp, hord, Confined.bytes hk fun x hx => touch_slot rfl hx.1 hx.2⟩
  have hzero : nodeAt (K.store a 256 zeros).vol.bytes a = Node.decode zeros :=
    nodeAt_zero fun k hk => by rw [store_bytes, put_in (by omega) (by omega)]; rfl
  unfold InUse
  rw [hzero, decode_zeros_mode]
  exact fun h => h rfl

/-- An inode outside `A`, after the change. -/
theorem InodeAt.other (h : InodeAt z K own ps a n) (hc : Confined z A K own K' own') (hsp : Space z K' own' ps')
    (hA : ∀ c, A c → Beside z a c) : InodeAt z K' own' ps' a n ∧
      ∀ i < n.blocks, addrOf K'.vol.bytes n i = addrOf K.vol.bytes n i ∧
        ∀ k < 4096, K'.vol.bytes (addrOf K.vol.bytes n i + k) = K.vol.bytes (addrOf K.vol.bytes n i + k) := by
  have hself : ¬ A a := fun ha => by
    have := (hA a ha).apart
    omega
  have hsl : ∀ c, A c → c + 256 ≤ z.lo := fun c hc => (hA c hc).high
  have hpage : ∀ c j π, own c = some (.page a j π) → own' c = own c ∧ ∀ x, c ≤ x → x < c + 4096 → K'.vol.bytes x = K.vol.bytes x := by
    intro c j π hown
    obtain ⟨h1, h2⟩ := hc.block h.space hown hself hsl
    exact ⟨h1.trans hown.symm, h2⟩
  have hdata : ∀ i < n.blocks, own' (addrOf K.vol.bytes n i) = own (addrOf K.vol.bytes n i) ∧
      ∀ k < 4096, K'.vol.bytes (addrOf K.vol.bytes n i + k) = K.vol.bytes (addrOf K.vol.bytes n i + k) := by
    intro i hi
    obtain ⟨h1, h2⟩ := hc.block h.space (h.maps.data i hi) hself hsl
    exact ⟨h1.trans (h.maps.data i hi).symm, fun k hk => h2 _ (by omega) (by omega)⟩
  have haddr : ∀ i < n.blocks, addrOf K'.vol.bytes n i = addrOf K.vol.bytes n i := fun i hi =>
    h.maps.addr_frame (fun c j π hown => (hpage c j π hown).2) hi
  have hmaps : Maps K' own a n := h.maps.keep (fun c j π hown => (hpage c j π hown).2) hc.keeps.vis fun _ _ => rfl
  refine ⟨⟨⟨hsp, h.low, h.high, by rw [hc.keeps.size]; exact h.inside, hc.keeps.sees h.sees, ?_⟩, ?_⟩,
    fun i hi => ⟨haddr i hi, (hdata i hi).2⟩⟩
  · exact hmaps.shrink (fun _ => rfl) (Nat.le_refl _) (fun i hi => by rw [haddr i hi]; exact (hdata i hi).1)
      fun c j π hown => (hpage c j π hown).1
  · rw [← h.node]
    refine decode_congr fun k hk => hc.slot h.low h.high (fun c hc => ?_) (by omega) (by omega)
    have := (hA c hc).apart
    omega

end

/-! ## Disks put together -/

section
variable {blocks head links mode size : Nat} {h : blocks < 2 ^ 52} {table : Nat → Option Node} {data junk : Mem}

/-- No block is free. -/
theorem Space.full {v : Vol} (hw : word v.bytes 0 = 0) (h8 : 8 ≤ z.lo) (hhi : z.hi ≤ v.size) (h8' : 8 ≤ v.size)
    (hd : 0 ≤ v.glob.drive) (ho : ∀ b, own b ≠ none → z.Has b) : Space z (.all v) own [] := by
  refine ⟨⟨⟨?_, List.nodup_nil⟩, fun b h => absurd h List.not_mem_nil, View.Sees.all _ _ _,
    fun _ h => absurd h List.not_mem_nil, h8'⟩, fun b h => absurd h List.not_mem_nil, ho, h8, hhi, hd⟩
  rw [all_vol, hw]
  exact .nil

/-- The free list is the page `q`, with the blocks `es` in its first slots. -/
theorem Space.page {v : Vol} {q : Nat} (es : List Nat) (hw : word v.bytes 0 = q) (hs : ∀ k < 512, slot v.bytes q k = es.getD k 0)
    (hlen : es.length ≤ 511) (hes : ∀ b ∈ es ++ [q], z.Has b ∧ own b = none) (hnd : (es ++ [q]).Nodup)
    (h8 : 8 ≤ z.lo) (hhi : z.hi ≤ v.size) (hd : 0 ≤ v.glob.drive) (ho : ∀ b, own b ≠ none → z.Has b) :
    Space z (.all v) own [q] ∧ freeOrder (.all v) [q] = es ++ [q] := by
  have hq := (hes q (by simp)).1
  have hql := hq.low
  have hqh := hq.high
  have hne : ∀ b ∈ es, b ≠ 0 := fun b hb => by
    have := (hes b (List.mem_append_left _ hb)).1.low
    omega
  have horder : freeOrder (.all v) [q] = es ++ [q] := by
    have hnz : PageChain.nz (slot v.bytes q) 511 = es := PageChain.nz_getD (fun k hk => hs k (by omega)) hlen hne
    simp only [freeOrder, all_vol, PageChain.order_cons, PageChain.order_nil, hnz]
  refine ⟨⟨⟨⟨?_, ?_⟩, fun x hx => ?_, View.Sees.all _ _ _, fun _ _ => View.Sees.all _ _ _, ?_⟩, fun x hx => ?_, ho, h8, hhi, hd⟩, horder⟩
  · rw [all_vol, hw]
    refine .cons (by omega) ?_
    rw [hs 511 (by decide), List.getD_eq_default _ _ hlen]
    exact .nil
  · show (freeOrder (.all v) [q]).Nodup
    rw [horder]
    exact hnd
  · have hx' : x ∈ freeOrder (.all v) [q] := hx
    rw [horder] at hx'
    have hb := (hes x hx').1
    have := hb.low
    have := hb.high
    exact ⟨hb.aligned, by omega, by rw [all_vol]; omega⟩
  · rw [all_vol]
    omega
  · rw [horder] at hx
    exact (hes x hx).symm

/-- Two blocks are free: the page `q`, and the block `b` in its first slot. -/
theorem Space.pair {v : Vol} {q : Nat} (hw : word v.bytes 0 = q) (h0 : slot v.bytes q 0 = b)
    (hz : ∀ k < 512, k ≠ 0 → slot v.bytes q k = 0) (hq : z.Has q) (hb : z.Has b) (hne : b ≠ q) (hoq : own q = none) (hob : own b = none)
    (h8 : 8 ≤ z.lo) (hhi : z.hi ≤ v.size) (hd : 0 ≤ v.glob.drive) (ho : ∀ b, own b ≠ none → z.Has b) :
    Space z (.all v) own [q] ∧ freeOrder (.all v) [q] = [b, q] := by
  refine Space.page [b] hw (fun k hk => ?_) (by simp) (fun x hx => ?_) (by simpa using hne) h8 hhi hd ho
  · cases k with
    | zero => exact h0
    | succ k => exact hz _ hk (Nat.succ_ne_zero k)
  · rcases List.mem_cons.mp hx with rfl | hx
    · exact ⟨hb, hob⟩
    · obtain rfl := List.mem_singleton.mp hx
      exact ⟨hq, hoq⟩

theorem image_space (h2 : 2 ≤ blocks) (ho : ∀ b, own b ≠ none → Zone.Has ⟨8192, 4096 * blocks⟩ b) :
    Space ⟨8192, 4096 * blocks⟩ (.all (imageSys blocks h 0 table data junk).vol) own [] := by
  refine Space.full (image_super (by decide)) (show 8 ≤ 8192 by decide) (Nat.le_refl _) ?_ ?_ ho
  · show 8 ≤ 4096 * blocks
    omega
  · show (0 : Int) ≤ 3
    decide

/-- One block is free, and it is clear. -/
theorem image_space_one {p : Nat} (hp : Zone.Has ⟨8192, 4096 * blocks⟩ p) (hclear : ∀ k < 4096, data (p + k) = 0)
    (ho : ∀ b, own b ≠ none → Zone.Has ⟨8192, 4096 * blocks⟩ b) (hn : own p = none) :
    Space ⟨8192, 4096 * blocks⟩ (.all (imageSys blocks h p table data junk).vol) own [p] ∧
      freeOrder (.all (imageSys blocks h p table data junk).vol) [p] = [p] := by
  have hlow : 8192 ≤ p := hp.low
  have hhigh : p + 4096 ≤ 4096 * blocks := hp.high
  refine Space.page [] (image_super (by omega)) (fun k hk => ?_) (by decide) (fun b hb => ?_) (List.nodup_singleton p)
    (show 8 ≤ 8192 by decide) (Nat.le_refl _) (show (0 : Int) ≤ 3 by decide) ho
  · rw [slot_of_ne (by omega)]
    refine word_eq_zero fun i hi => ?_
    rw [Nat.add_assoc, imageSys_bytes, image_data (by omega)]
    exact hclear _ (by omega)
  · obtain rfl := List.mem_singleton.mp hb
    exact ⟨hp, hn⟩

theorem plainNode_maps {b : Nat} (h12 : blocks ≤ 12) (ho : ∀ i < blocks, own (b + 4096 * i) = some (.data a i)) :
    Maps K own a (plainNode mode size blocks b links) := by
  refine Maps.direct h12 (fun j hj => ?_) fun i hi => ?_
  · obtain ⟨h1, h2, h3⟩ := plainNode_indirect mode size blocks b links
    rw [Node.root, if_neg (by omega)]
    split
    · exact h1
    split
    · exact h2
    · exact h3
  · have hi' : i < blocks := hi
    rw [plainNode_direct (by omega) hi']
    exact ho i hi

/-- The inode of a table whose blocks follow each other. -/
theorem image_inode {b : Nat} (hsp : Space ⟨8192, 4096 * blocks⟩ (.all (imageSys blocks h head table data junk).vol) own ps)
    (h2 : 2 ≤ blocks) {t : Nat} (ht : t ≤ 12) (hot : ∀ i < t, own (b + 4096 * i) = some (.data a i)) (ha : IsSlot 8192 a)
    (hn : table a = some (plainNode mode size t b links)) (hf : (plainNode mode size t b links).Fits) :
    InodeAt ⟨8192, 4096 * blocks⟩ (.all (imageSys blocks h head table data junk).vol) own ps a
      (plainNode mode size t b links) := by
  have hlow := ha.low
  have hhigh := ha.high
  have hal := ha.aligned
  have hsize : (imageSys blocks h head table data junk).vol.size = 4096 * blocks := rfl
  refine ⟨⟨hsp, by omega, ?_, ?_, View.Sees.all _ _ _, plainNode_maps ht hot⟩, image_node hlow hhigh hal hn hf⟩
  · show a + 256 ≤ 8192
    omega
  · rw [all_vol, hsize]
    show 8192 ≤ 4096 * blocks
    omega

end

end TyrantFS

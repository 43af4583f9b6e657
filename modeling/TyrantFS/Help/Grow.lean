/-
  TyrantFS.Help.Grow — `add_block_to_node` on a disk where nothing is known of the pages
  it takes.

  A fresh page of pages is read before anything is written to it, so what a successful
  call does depends on what the block held before. `FileAt` is what an inode needs to be
  read and written all the same: the pages on the way to its blocks. A call that fails
  keeps it (`addBlockToNode_ends`), whatever the free blocks hold, and then at most one
  block is free.
-/
import TyrantFS.Help.Filled

namespace TyrantFS

open Lib Lib.PageTree

variable {z : Zone} {K K' K0 : View} {own own' own0 : Nat → Option Pos} {ps ps' ps0 : List Nat} {a b i j p q : Nat}
  {n n' n0 : Node} {S : Nat → Prop} {m m' : Mem}

/-! ## An inode whose blocks can be reached -/

structure FileAt (z : Zone) (K : View) (own : Nat → Option Pos) (ps : List Nat) (a : Nat) (n : Node) : Prop where
  space : Space z K own ps
  low : 8 ≤ a
  high : a + 256 ≤ z.lo
  inside : z.lo ≤ K.vol.size
  sees : K.Sees 0 z.lo
  fits : n.Fits
  used : Used K own a n
  roots : ∀ j, 12 ≤ j → j < 15 → n.root j ≠ 0 → own (n.root j) = some (.page a j [])

theorem MapAt.file (h : MapAt z K own ps a n) (hf : n.Fits) : FileAt z K own ps a n := by
  refine ⟨h.space, h.low, h.high, h.inside, h.sees, hf, h.maps.used fun _ _ => h.space.owned_block, fun j hj hj2 h0 => ?_⟩
  refine h.maps.page j [] hj ⟨hj2, Nat.zero_le _, by simp⟩ ?_ h0
  show 0 < j - 11
  omega

/-- A file of the greatest size has all the roots. -/
theorem FileAt.root_ne (h : FileAt z K own ps a n) (hc : n.blocks = capacity) (hj : 12 ≤ j) (hj2 : j < 15) : n.root j ≠ 0 := by
  have hroot : ∀ i < n.blocks, n.root (rootOf i) ≠ 0 := by
    intro i hi h0
    have hne := (h.space.owned_block (h.used.data i hi)).pos
    rw [addrOf, blockAt, h0, walk_zero fun _ => slot_zero] at hne
    exact hne rfl
  -- the first block below each root
  have h12 := hroot 12 (by rw [hc]; decide +kernel)
  have h13 := hroot 524 (by rw [hc]; decide +kernel)
  have h14 := hroot 262668 (by rw [hc]; decide +kernel)
  simp only [rootOf, Nat.reduceLT, if_true, if_false, Nat.reduceAdd] at h12 h13 h14
  rcases (by omega : j = 12 ∨ j = 13 ∨ j = 14) with rfl | rfl | rfl
  · exact h12
  · exact h13
  · exact h14

/-- What a call that appends a block needs of the inode. -/
structure Base (z : Zone) (K : View) (own : Nat → Option Pos) (ps : List Nat) (a : Nat) (n : Node) : Prop where
  space : Space z K own ps
  low : 8 ≤ a
  high : a + 256 ≤ z.lo
  inside : z.lo ≤ K.vol.size
  sees : K.Sees 0 z.lo
  fits : n.Fits
  roots : ∀ j, 12 ≤ j → j < 15 → n.root j ≠ 0 → own (n.root j) = some (.page a j [])
  full : capacity ≤ n.blocks → n.root 14 ≠ 0

theorem FileAt.base (h : FileAt z K own ps a n) : Base z K own ps a n :=
  ⟨h.space, h.low, h.high, h.inside, h.sees, h.fits, h.roots, fun hc =>
    h.root_ne (Nat.le_antisymm h.used.cap hc) (by decide) (by decide)⟩

theorem FileAt.has (h : FileAt z K own ps a n) (hi : i < n.blocks) : z.Has (addrOf K.vol.bytes n i) :=
  h.space.owned _ (by simp [h.used.data i hi])

theorem FileAt.block (h : FileAt z K own ps a n) (hi : i < n.blocks) : IsBlock K.vol.size (addrOf K.vol.bytes n i) :=
  h.space.owned_block (h.used.data i hi)

theorem FileAt.get (h : FileAt z K own ps a n) (hi : i < n.blocks) : Runs K (getIBlock n i) (addrOf K.vol.bytes n i) K := by
  have := h.used.get (i := i) fun _ _ => h.space.owned_block
  rwa [if_pos hi] at this

/-- Two blocks of the file are the same or apart. -/
theorem FileAt.addr_apart (h : FileAt z K own ps a n) {k : Nat} (hi : i < n.blocks) (hk : k < n.blocks) (hne : i ≠ k) :
    addrOf K.vol.bytes n i + 4096 ≤ addrOf K.vol.bytes n k ∨ addrOf K.vol.bytes n k + 4096 ≤ addrOf K.vol.bytes n i := by
  refine (h.has hi).apart (h.has hk) fun e => ?_
  have h1 := h.used.data i hi
  rw [e, h.used.data k hk] at h1
  injection h1 with h1
  injection h1 with _ h1
  exact hne h1.symm

/-- The slots on the way to the blocks in use decide. -/
theorem Used.keep (h : Used K own a n) (hb : n'.blocks = n.blocks) (hr : ∀ i < n.blocks, n'.root (rootOf i) = n.root (rootOf i))
    (hs : ∀ i < n.blocks, ∀ π k ρ, pathOf i = π ++ k :: ρ → slot K.vol.bytes (blockAt K.vol.bytes n (rootOf i) π) k ≠ 0 →
      slot K'.vol.bytes (blockAt K.vol.bytes n (rootOf i) π) k = slot K.vol.bytes (blockAt K.vol.bytes n (rootOf i) π) k)
    (h0 : ∀ b p, own b = some p → b ≠ 0) (hv : ∀ x, K.vis x → K'.vis x)
    (ho : ∀ b p, own b = some p → p.inode = a → own' b = some p) :
    Used K' own' a n' ∧ ∀ i < n.blocks, addrOf K'.vol.bytes n' i = addrOf K.vol.bytes n i := by
  -- every place on the way to a block in use
  have hat : ∀ i < n.blocks, ∀ π ρ, pathOf i = π ++ ρ → blockAt K'.vol.bytes n' (rootOf i) π = blockAt K.vol.bytes n (rootOf i) π := by
    intro i hi π ρ e
    rw [blockAt, hr i hi]
    refine walk_congr fun σ k τ e' => hs i hi σ k (τ ++ ρ) ?_ ?_
    · rw [e, e']
      simp
    · have hne := h0 _ _ (h.data i hi)
      unfold addrOf at hne
      rw [e, e', List.append_assoc, List.cons_append, blockAt_append, walk_cons] at hne
      intro hz
      rw [hz, walk_zero fun _ => slot_zero] at hne
      exact hne rfl
  have haddr : ∀ i < n.blocks, addrOf K'.vol.bytes n' i = addrOf K.vol.bytes n i := fun i hi =>
    hat i hi (pathOf i) [] (List.append_nil _).symm
  refine ⟨⟨by rw [hb]; exact h.cap, fun i hi => ?_, fun i hi π k ρ e => ?_⟩, haddr⟩
  · rw [hb] at hi
    rw [haddr i hi]
    exact ho _ _ (h.data i hi) rfl
  · rw [hb] at hi
    rw [hat i hi π _ e]
    obtain ⟨h1, h2⟩ := h.page i hi π k ρ e
    exact ⟨ho _ _ h1 rfl, fun x hx => hv _ (h2 x hx)⟩

/-- A change inside the blocks of the file, and below the data region but for the
    superblock's word. -/
theorem FileAt.keep (h : FileAt z K own ps a n) (hk : Keeps S K K')
    (hS : ∀ x, S x → 8 ≤ x ∧ x < z.lo ∨ ∃ i < n.blocks, addrOf K.vol.bytes n i ≤ x ∧ x < addrOf K.vol.bytes n i + 4096) :
    FileAt z K' own ps a n ∧ freeOrder K' ps = freeOrder K ps ∧
      ∀ i < n.blocks, addrOf K'.vol.bytes n i = addrOf K.vol.bytes n i := by
  have h8 := h.space.low
  have hfar : ∀ b x, z.Has b → (∀ i < n.blocks, addrOf K.vol.bytes n i ≠ b) → S x → x < b ∨ b + 4096 ≤ x := by
    intro b x hb hne hx
    have hlow := hb.low
    rcases hS x hx with hx | ⟨i, hi, h1, h2⟩
    · omega
    · have := (h.has hi).apart hb (hne i hi)
      omega
  have hpage : ∀ c j π, own c = some (.page a j π) → ∀ x, c ≤ x → x < c + 4096 → K'.vol.bytes x = K.vol.bytes x := by
    intro c j π hc x h1 h2
    refine hk.bytes x fun hx => ?_
    have := hfar c x (h.space.owned c (by simp [hc])) (fun i hi e => by
      have := h.used.data i hi
      rw [e, hc] at this
      cases this) hx
    omega
  obtain ⟨hsp, hord⟩ := h.space.keep hk
    (fun x hx => by
      rcases hS x hx with hx | ⟨i, hi, h1, _⟩
      · exact hx.1
      · have := (h.has hi).low
        omega)
    (fun x b hx hb => hfar b x (h.space.free b hb).2
      (fun i hi e => h.space.owned_notFree (h.used.data i hi) (e ▸ hb)) hx)
  obtain ⟨hu, haddr⟩ : Used K' own a n ∧ _ := h.used.keep rfl (fun _ _ => rfl) (fun i hi π k ρ e _ =>
    slot_congr (hpage _ _ _ (h.used.page i hi π k ρ e).1) ((pathOf_isPath (Nat.lt_of_lt_of_le hi h.used.cap)).slots k (by rw [e]; simp)))
    (fun b p hb => (h.space.owned_block hb).pos) hk.vis fun _ _ hb _ => hb
  exact ⟨⟨hsp, h.low, h.high, by rw [hk.size]; exact h.inside, hk.sees h.sees, h.fits, hu, h.roots⟩, hord, haddr⟩

theorem FileAt.sameMap (h : FileAt z K own ps a n) (hs : SameMap n n') (hf : n'.Fits) : FileAt z K own ps a n' := by
  refine { h with fits := hf, used := ?_, roots := fun j hj hj2 h0 => ?_ }
  · exact (h.used.keep hs.blocks (fun _ _ => hs.root _) (fun _ _ _ _ _ _ _ => rfl) (fun b p hb => (h.space.owned_block hb).pos)
      (fun _ hx => hx) fun _ _ hb _ => hb).1
  · rw [hs.root] at h0 ⊢
    exact h.roots j hj hj2 h0

theorem FileAt.tick (h : FileAt z K own ps a n) : FileAt z K.tick own ps a n ∧ freeOrder K.tick ps = freeOrder K ps := by
  obtain ⟨h1, h2, _⟩ := h.keep (S := fun _ => False) Keeps.tick fun x hx => hx.elim
  exact ⟨h1, h2⟩

theorem FileAt.commit (h : FileAt z K own ps a n) :
    Runs K (commitInode n a) 208 (K.store a 208 n.encode) ∧ FileAt z (K.store a 208 n.encode) own ps a n ∧
      nodeAt (K.store a 208 n.encode).vol.bytes a = n ∧ freeOrder (K.store a 208 n.encode) ps = freeOrder K ps ∧
      ∀ i < n.blocks, addrOf (K.store a 208 n.encode).vol.bytes n i = addrOf K.vol.bytes n i := by
  have hlow := h.low
  have hhigh := h.high
  have hin := h.inside
  have hk : Keeps (fun x => a ≤ x ∧ x < a + 208) K (K.store a 208 n.encode) := Keeps.store fun x h1 h2 => ⟨h1, h2⟩
  obtain ⟨hm, hord, haddr⟩ := h.keep hk fun x hx => Or.inl (by omega)
  exact ⟨commitInode_runs (by omega), hm, nodeAt_put h.fits, hord, haddr⟩

/-- The file after a change that is confined to other inodes. -/
theorem FileAt.other {A : Nat → Prop} (h : FileAt z K own ps a n) (hc : Confined z A K own K' own') (hsp : Space z K' own' ps')
    (hA : ∀ c, A c → Beside z a c) : FileAt z K' own' ps' a n ∧
      (∀ c p, own c = some p → p.inode = a → ∀ x, c ≤ x → x < c + 4096 → K'.vol.bytes x = K.vol.bytes x) ∧
      ∀ i < n.blocks, addrOf K'.vol.bytes n i = addrOf K.vol.bytes n i := by
  have hself : ¬ A a := fun ha => by
    have := (hA a ha).apart
    omega
  have hblock : ∀ c p, own c = some p → p.inode = a →
      own' c = some p ∧ ∀ x, c ≤ x → x < c + 4096 → K'.vol.bytes x = K.vol.bytes x := fun c p hown e =>
    hc.block h.space hown (by rw [e]; exact hself) fun c hc => (hA c hc).high
  obtain ⟨hu, haddr⟩ : Used K' own' a n ∧ _ := h.used.keep rfl (fun _ _ => rfl) (fun i hi π k ρ e _ =>
    slot_congr (hblock _ _ (h.used.page i hi π k ρ e).1 rfl).2 ((pathOf_isPath (Nat.lt_of_lt_of_le hi h.used.cap)).slots k (by rw [e]; simp)))
    (fun b p hb => (h.space.owned_block hb).pos) hc.keeps.vis fun b p hb e => (hblock b p hb e).1
  exact ⟨⟨hsp, h.low, h.high, by rw [hc.keeps.size]; exact h.inside, hc.keeps.sees h.sees, h.fits, hu,
    fun j hj hj2 h0 => (hblock _ _ (h.roots j hj hj2 h0) rfl).1⟩, fun c p hown e => (hblock c p hown e).2, haddr⟩

/-! ## Accesses whatever the address -/

/-- The volume has `N` bytes. -/
def Sized (N : Nat) (s : Sys) : Prop := s.vol.size = N

theorem sysWrite_total (N : Nat) (f : Mem) (c : Nat) : Ensures (Sized N) (sysWrite f c) fun _ => Sized N := by
  intro s hs
  unfold sysWrite
  simp only
  split
  · exact ⟨_, _, rfl, hs⟩
  · exact ⟨_, _, rfl, hs⟩

theorem lseekSet_total (N o : Nat) : Ensures (Sized N) (lseekSet o) fun _ => Sized N :=
  lseekSet_reads.keeps (Q := fun v => v.size = N)

theorem writeAddr_total (N v b : Nat) (o : Int) : Ensures (Sized N) (writeAddr v b o) fun _ => Sized N := by
  unfold writeAddr writeBlock
  split
  · exact Ensures.pure fun _ hs => hs
  · refine (lseekSet_total N _).bind fun _ => ?_
    dsimp only
    split
    · exact sysWrite_total N _ _
    · exact sysWrite_total N _ _

theorem commitInode_total (N : Nat) (n : Node) (a : Nat) : Ensures (Sized N) (commitInode n a) fun _ => Sized N :=
  (lseekSet_total N a).bind fun _ => sysWrite_total N _ _

theorem storeChild_total (N : Nat) (n : Node) (a u : Nat) (o : Int) (p : Nat) :
    Ensures (Sized N) (storeChild n a u o p) fun _ => Sized N :=
  (writeAddr_total N _ _ _).bind fun _ => (commitInode_total N _ _).bind fun _ => Ensures.pure fun _ hs => hs

/-- The last lines always return the block. -/
theorem addLeaf_total (N : Nat) (n : Node) (a b u : Nat) (o : Int) :
    Ensures (Sized N) (addLeaf n a b u o) fun r s => r.1 = b ∧ Sized N s :=
  (writeAddr_total N _ _ _).bind fun _ => (commitInode_total N _ _).bind fun _ => Ensures.pure fun _ hs => ⟨rfl, hs⟩

/-! ## Calls that fail -/

/-- The bytes a call that fails may change: the superblock's word, the inode, the free
    blocks, and empty slots of the inode's pages. -/
def TryByte (K : View) (own : Nat → Option Pos) (ps : List Nat) (a x : Nat) : Prop :=
  x < 8 ∨ a ≤ x ∧ x < a + 208 ∨ (∃ b ∈ freeOrder K ps, b ≤ x ∧ x < b + 4096) ∨
    ∃ c j π k, own c = some (.page a j π) ∧ k < 512 ∧ slot K.vol.bytes c k = 0 ∧ c + 8 * k ≤ x ∧ x < c + 8 * k + 8

/-- The page `p` is on the way to block `i`: it is the root, or hangs from the slot of the
    root where the call that appends block `i` looks. -/
def Hangs (m : Mem) (n : Node) (i p : Nat) : Prop :=
  ∃ k ρ, pathOf i = k :: ρ ∧ (n.root (rootOf i) = p ∨ k < 512 ∧ slot m (n.root (rootOf i)) k = p)

theorem not_hangs (h : n.root (rootOf i) = 0) (hp : p ≠ 0) : ¬ Hangs m n i p := by
  rintro ⟨k, ρ, -, e | ⟨-, e⟩⟩
  · exact hp (e.symm.trans h)
  · rw [h, slot_zero] at e
    exact hp e.symm

/-- What a call on the inode `n0` at `a` has done that took the pages `L`, none of which
    was there before. -/
structure Tried (z : Zone) (a : Nat) (K0 : View) (own0 : Nat → Option Pos) (ps0 : List Nat) (n0 : Node) (L : List Nat)
    (K : View) (own : Nat → Option Pos) (ps : List Nat) (n : Node) : Prop where
  space : Space z K own ps
  fits : n.Fits
  attrs : n = n0.withMap n
  blocks : n.blocks = n0.blocks
  old : ∀ j < 15, n0.root j ≠ 0 → n.root j = n0.root j
  roots : ∀ j, 12 ≤ j → j < 15 → n.root j ≠ 0 → own (n.root j) = some (.page a j [])
  keeps : Keeps (TryByte K0 own0 ps0 a) K0 K
  owner : ∀ c p, own0 c = some p → own c = some p
  unowned : ∀ c, own0 c = none → c ∉ L → own c = none
  taken : ∀ c ∈ L, c ∈ freeOrder K0 ps0
  /-- A page that is taken can be reached, but for the one behind the last slot. -/
  hangs : ∀ c ∈ L, Hangs K.vol.bytes n n0.blocks c ∨ capacity ≤ n0.blocks
  new : ∀ c ∈ L, ¬ Hangs K0.vol.bytes n0 n0.blocks c
  few : capacity ≤ n0.blocks → L.length ≤ 1
  disk : nodeAt K.vol.bytes a = n ∨ n = n0 ∧ ∀ x, a ≤ x → x < a + 208 → K.vol.bytes x = K0.vol.bytes x

/-- While the block `b` is out. -/
structure Trying (z : Zone) (a : Nat) (K0 : View) (own0 : Nat → Option Pos) (ps0 : List Nat) (n0 : Node) (b : Nat) (L : List Nat)
    (K : View) (own : Nat → Option Pos) (ps : List Nat) (n : Node) : Prop extends Tried z a K0 own0 ps0 n0 L K own ps n where
  block : z.Has b
  notFree : b ∉ freeOrder K ps
  noOwner : own b = none
  wasFree : b ∈ freeOrder K0 ps0
  order : (b :: (L ++ freeOrder K ps)).Perm (freeOrder K0 ps0)
  /-- The last block of the list is a page of the chain, and handed out empty: when the
      list has run out, nothing hangs there that was not taken. -/
  linked : freeOrder K ps = [] → ∀ c, c ≠ 0 → Hangs K.vol.bytes n n0.blocks c → Hangs K0.vol.bytes n0 n0.blocks c ∨ c ∈ L

/-- What a call leaves that fails. -/
structure Failed (z : Zone) (a : Nat) (K0 : View) (own0 : Nat → Option Pos) (ps0 : List Nat) (n0 : Node) (L : List Nat)
    (K : View) (own : Nat → Option Pos) (ps : List Nat) (n : Node) : Prop extends Tried z a K0 own0 ps0 n0 L K own ps n where
  order : (L ++ freeOrder K ps).Perm (freeOrder K0 ps0)
  short : (freeOrder K ps).length ≤ 1
  some : freeOrder K0 ps0 ≠ [] → freeOrder K ps ≠ []
  linked : ∀ c, c ≠ 0 → Hangs K.vol.bytes n n0.blocks c → Hangs K0.vol.bytes n0 n0.blocks c ∨ c ∈ L

section
variable {L : List Nat} {drive : Int}

/-- What a failed call does not touch. -/
theorem tryByte_data (h : Base z K0 own0 ps0 a n0) {c : Nat} {p : Pos} (hc : own0 c = some p) {x : Nat} (h1 : c ≤ x) (h2 : x < c + 4096)
    (hp : ∀ j π k, p = .page a j π → k < 512 → c + 8 * k ≤ x → x < c + 8 * k + 8 → slot K0.vol.bytes c k ≠ 0) :
    ¬ TryByte K0 own0 ps0 a x := by
  have hz := h.space.owned c (by simp [hc])
  have hlow := hz.low
  have h8 := h.space.low
  have hhigh := h.high
  rintro (hx | hx | ⟨b, hb, hx⟩ | ⟨d, j, π, k, hd, hk, h0, hx⟩)
  · omega
  · omega
  · have := hz.apart (h.space.free b hb).2 fun e => h.space.owned_notFree hc (e ▸ hb)
    omega
  · by_cases e : c = d
    · subst e
      rw [hc] at hd
      exact hp j π k (Option.some.inj hd) hk hx.1 hx.2 h0
    · have := hz.apart (h.space.owned d (by simp [hd])) e
      omega

/-- The file can still be read and written, and holds what it did. -/
theorem Tried.file (ht : Tried z a K0 own0 ps0 n0 L K own ps n) (h : FileAt z K0 own0 ps0 a n0) :
    FileAt z K own ps a n ∧ ∀ i < n0.blocks, addrOf K.vol.bytes n i = addrOf K0.vol.bytes n0 i ∧
      ∀ k < 4096, K.vol.bytes (addrOf K0.vol.bytes n0 i + k) = K0.vol.bytes (addrOf K0.vol.bytes n0 i + k) := by
  have hroot : ∀ i < n0.blocks, n.root (rootOf i) = n0.root (rootOf i) := by
    intro i hi
    refine ht.old _ (pathOf_isPath (Nat.lt_of_lt_of_le hi h.used.cap)).root fun h0 => ?_
    have hne := (h.space.owned_block (h.used.data i hi)).pos
    rw [addrOf, blockAt, h0, walk_zero fun _ => slot_zero] at hne
    exact hne rfl
  obtain ⟨hu, haddr⟩ := h.used.keep ht.blocks hroot (fun i hi π k ρ e hne => by
    have hown := (h.used.page i hi π k ρ e).1
    have hb := h.space.owned_block hown
    have hk := (pathOf_isPath (Nat.lt_of_lt_of_le hi h.used.cap)).slots k (by rw [e]; simp)
    rw [slot_of_ne hb.pos, slot_of_ne hb.pos]
    refine word_congr fun x hx => ht.keeps.bytes _ (tryByte_data h.base hown (by omega) (by omega) ?_)
    intro j' π' k' _ _ h3 h4
    rwa [show k' = k by omega]) (fun b p hb => (h.space.owned_block hb).pos) ht.keeps.vis fun b p hb _ => ht.owner b p hb
  refine ⟨⟨ht.space, h.low, h.high, by rw [ht.keeps.size]; exact h.inside, ht.keeps.sees h.sees, ht.fits, hu, ht.roots⟩,
    fun i hi => ⟨haddr i hi, fun k hk => ht.keeps.bytes _ (tryByte_data h.base (h.used.data i hi) (by omega) (by omega) ?_)⟩⟩
  intro j π k' hp
  cases hp

theorem Tried.confined (ht : Tried z a K0 own0 ps0 n0 L K own ps n) (h : Base z K0 own0 ps0 a n0) :
    Confined z (· = a) K0 own0 K own := by
  refine ⟨ht.keeps.mono fun x hx => ?_, fun c p hc _ => ht.owner c p hc⟩
  rcases hx with hx | hx | ⟨b, hb, hx⟩ | ⟨c, j, π, k, hc, hk, -, h1, h2⟩
  · exact Or.inl hx
  · exact touch_slot rfl hx.1 (by omega)
  · have hf := h.space.free b hb
    exact touch_free hf.2 hf.1 hx.1 hx.2
  · exact touch_owned (h.space.owned c (by simp [hc])) hc rfl (by omega) (by omega)

/-- What hangs below a root that was there is what its bytes say. -/
theorem Base.hangs_congr (h : Base z K0 own0 ps0 a n0) (hu : ∀ c p, own0 c = some p → ∀ x, c ≤ x → x < c + 4096 → m x = K0.vol.bytes x)
    (hc : Hangs m n0 i p) : Hangs K0.vol.bytes n0 i p := by
  obtain ⟨k, ρ, hp, hr | ⟨hk, e⟩⟩ := hc
  · exact ⟨k, ρ, hp, Or.inl hr⟩
  · have hj := rootOf_page (by rw [hp]; exact List.cons_ne_nil _ _)
    refine ⟨k, ρ, hp, Or.inr ⟨hk, ?_⟩⟩
    rw [← e]
    by_cases h0 : n0.root (rootOf i) = 0
    · rw [h0, slot_zero, slot_zero]
    · exact (slot_congr (hu _ _ (h.roots _ hj.1 hj.2 h0)) hk).symm

/-- The first block is taken. Nothing that is owned is touched. -/
theorem Trying.start (h : Base z K0 own0 ps0 a n0) (hk : Taken K0 ps0 b K ps) :
    Trying z a K0 own0 ps0 n0 b [] K own0 ps n0 ∧
      ∀ c p, own0 c = some p → ∀ x, c ≤ x → x < c + 4096 → K.vol.bytes x = K0.vol.bytes x := by
  obtain ⟨hsp, hbn, hbo, hbz⟩ := h.space.take hk
  have hpages : ∀ p ∈ ps0, p ∈ freeOrder K0 ps0 := fun p hp => PageChain.mem_order.mpr (Or.inl hp)
  have hlow := h.low
  have hhigh := h.high
  have hown : ∀ c p, own0 c = some p → ∀ x, c ≤ x → x < c + 4096 → K.vol.bytes x = K0.vol.bytes x := fun c p hc x h1 h2 =>
    hk.keeps.bytes x (h.space.chainByte hc h1 h2)
  refine ⟨⟨⟨hsp, h.fits, rfl, rfl, fun _ _ _ => rfl, h.roots, hk.keeps.mono fun x hx => ?_, fun _ _ hc => hc, fun _ hc _ => hc,
    fun _ hc => absurd hc List.not_mem_nil, fun _ hc => absurd hc List.not_mem_nil, fun _ hc => absurd hc List.not_mem_nil,
    fun _ => Nat.zero_le 1, Or.inr ⟨rfl, fun x h1 h2 => hk.keeps.bytes x ?_⟩⟩, hbz, hbn, hbo, ?_, ?_,
    fun _ c _ hc => Or.inl (h.hangs_congr hown hc)⟩, hown⟩
  · rcases hx with hx | ⟨p, hp, h1, h2⟩
    · exact Or.inl hx
    · exact Or.inr (Or.inr (Or.inl ⟨p, hpages p hp, h1, h2⟩))
  · rintro (hx | ⟨p, hp, h3, _⟩)
    · omega
    · have := (h.space.free p (hpages p hp)).2.low
      omega
  · rw [hk.order]
    exact List.mem_cons_self
  · rw [hk.order, List.nil_append]

/-- The list is empty: the block goes back. -/
theorem Trying.fail (ht : Trying z a K0 own0 ps0 n0 b L K own ps n) (h : Base z K0 own0 ps0 a n0) (hd : 0 ≤ drive)
    (he : freeOrder K ps = []) : ∃ K' ps', Runs K (freeBlock drive b) 0 K' ∧ Failed z a K0 own0 ps0 n0 L K' own ps' n := by
  obtain rfl : ps = [] := nil_of_freeOrder he
  obtain ⟨K', ps', hrun, hgv⟩ := freeBlock_runs ht.space.list hd (ht.space.block ht.block) ht.notFree
  have hlow := h.low
  have hhigh := h.high
  have hbl := ht.block.low
  have horder : (freeOrder K' ps').Perm [b] := by
    have := hgv.order
    rwa [he] at this
  have hbyte : ∀ x, 8 ≤ x → x < b ∨ b + 4096 ≤ x → K'.vol.bytes x = K.vol.bytes x := by
    intro x h1 h2
    refine hgv.keeps.bytes x ?_
    rintro ((hx | ⟨p, hp, _⟩) | hx)
    · omega
    · exact absurd hp List.not_mem_nil
    · omega
  have hslot : ∀ x, a ≤ x → x < a + 208 → K'.vol.bytes x = K.vol.bytes x := fun x h1 h2 => hbyte x (by omega) (by omega)
  have hlast : ∀ j, 12 ≤ j → j < 15 → ∀ k < 512, slot K'.vol.bytes (n.root j) k = slot K.vol.bytes (n.root j) k := by
    intro j hj hj2 k hk
    by_cases h0 : n.root j = 0
    · rw [h0, slot_zero, slot_zero]
    · have hown := ht.roots j hj hj2 h0
      have hz := ht.space.owned (n.root j) (by simp [hown])
      have hzl := hz.low
      have h8 := ht.space.low
      have := hz.apart ht.block fun e => by rw [e, ht.noOwner] at hown; cases hown
      exact slot_congr (fun x h1 h2 => hbyte x (by omega) (by omega)) hk
  have hhangs : ∀ c, Hangs K'.vol.bytes n n0.blocks c ↔ Hangs K.vol.bytes n n0.blocks c := by
    intro c
    refine exists_congr fun k => exists_congr fun ρ => and_congr_right fun hp => or_congr_right (and_congr_right fun hk => ?_)
    have hj := rootOf_page (by rw [hp]; exact List.cons_ne_nil _ _)
    rw [hlast _ hj.1 hj.2 k hk]
  refine ⟨K', ps', hrun, ⟨ht.space.give ht.block ht.noOwner hgv, ht.fits, ht.attrs, ht.blocks, ht.old, ht.roots,
    ht.keeps.trans (hgv.keeps.mono fun x hx => ?_), ht.owner, ht.unowned, ht.taken, fun c hc => ?_, ht.new, ht.few, ?_⟩,
    ?_, ?_, fun _ h0 => ?_, fun c h0 hc => ht.linked he c h0 ((hhangs c).mp hc)⟩
  · rcases hx with (hx | ⟨p, hp, _⟩) | hx
    · exact Or.inl hx
    · exact absurd hp List.not_mem_nil
    · exact Or.inr (Or.inr (Or.inl ⟨b, ht.wasFree, hx⟩))
  · exact (ht.hangs c hc).imp_left (hhangs c).mpr
  · rcases ht.disk with hd | ⟨e, hd⟩
    · exact Or.inl ((nodeAt_congr fun k hk => hslot (a + k) (by omega) (by omega)).trans hd)
    · exact Or.inr ⟨e, fun x h1 h2 => (hslot x h1 h2).trans (hd x h1 h2)⟩
  · refine ((horder.append_left L).trans ?_).trans ht.order
    rw [he, List.append_nil]
    exact List.perm_append_singleton b L
  · rw [horder.length_eq]
    exact Nat.le_refl 1
  · rw [h0] at horder
    exact absurd horder.symm (List.cons_ne_nil _ _ ∘ List.perm_nil.mp)

/-- No block at all. -/
theorem Failed.none (h : Base z K0 own0 [] a n0) : Failed z a K0 own0 [] n0 [] K0 own0 [] n0 :=
  ⟨⟨h.space, h.fits, rfl, rfl, fun _ _ _ => rfl, h.roots, Keeps.refl, fun _ _ hc => hc, fun _ hc _ => hc,
    fun _ hc => absurd hc List.not_mem_nil, fun _ hc => absurd hc List.not_mem_nil, fun _ hc => absurd hc List.not_mem_nil,
    fun _ => Nat.zero_le 1, Or.inr ⟨rfl, fun _ _ _ => rfl⟩⟩, .refl _, Nat.zero_le _,
    fun h0 => h0, fun _ _ hc => Or.inl hc⟩

/-- A page is taken, and entered by a change of `S`. -/
theorem Trying.link {K1 K2 : View} {ps1 : List Nat} {π : List Nat} (ht : Trying z a K0 own0 ps0 n0 b L K own ps n)
    (hk : Taken K ps q K1 ps1) (hs : Keeps S K1 K2) (hT : ∀ x, S x → TryByte K0 own0 ps0 a x)
    (hF : ∀ x, S x → 8 ≤ x ∧ x < z.lo ∨ ∃ c p, own c = some p ∧ c ≤ x ∧ x < c + 4096)
    (hfits : n'.Fits) (hattrs : n' = n0.withMap n') (hblocks : n'.blocks = n.blocks)
    (hold : ∀ j < 15, n.root j ≠ 0 → n'.root j = n.root j)
    (hroots : ∀ j, 12 ≤ j → j < 15 → n'.root j ≠ 0 → assign own q (some (.page a i π)) (n'.root j) = some (.page a j []))
    (hhangs : ∀ c ∈ q :: L, Hangs K2.vol.bytes n' n0.blocks c ∨ capacity ≤ n0.blocks)
    (hnew : ¬ Hangs K0.vol.bytes n0 n0.blocks q) (hfew : capacity ≤ n0.blocks → L = []) (hdisk : nodeAt K2.vol.bytes a = n')
    (hlinked : freeOrder K1 ps1 = [] → ∀ c, c ≠ 0 → Hangs K2.vol.bytes n' n0.blocks c → Hangs K0.vol.bytes n0 n0.blocks c ∨ c ∈ q :: L) :
    Trying z a K0 own0 ps0 n0 b (q :: L) K2 (assign own q (some (.page a i π))) ps1 n' := by
  obtain ⟨hsp1, hqn1, hqo, hqz⟩ := ht.space.take hk
  have h8 := ht.space.low
  have hqm : q ∈ freeOrder K ps := by
    rw [hk.order]
    exact List.mem_cons_self
  have hsub : ∀ x ∈ freeOrder K ps, x ∈ freeOrder K0 ps0 := fun x hx =>
    ht.order.mem_iff.mp (List.mem_cons_of_mem _ (List.mem_append_right _ hx))
  have hbq : b ≠ q := fun e => ht.notFree (e ▸ hqm)
  obtain ⟨hsp2, hord⟩ := hsp1.keep hs (fun x hx => by
    rcases hF x hx with hx | ⟨c, p, hc, h1, _⟩
    · exact hx.1
    · have := (ht.space.owned c (by simp [hc])).low
      omega) fun x c hx hc => by
    have hf := hsp1.free c hc
    have hlow := hf.2.low
    rcases hF x hx with hx | ⟨d, p, hd, h1, h2⟩
    · omega
    · have := hf.2.apart (ht.space.owned d (by simp [hd])) fun e => by
        rw [e, hd] at hf
        cases hf.1
      omega
  refine ⟨⟨hsp2.assign hqz (by rw [hord]; exact hqn1), hfits, hattrs, hblocks.trans ht.blocks, fun j hj h0 => ?_, hroots,
    (ht.keeps.trans (hk.keeps.mono fun x hx => ?_)).trans (hs.mono hT), fun c p hc => ?_, fun c hc hn => ?_, fun c hc => ?_, hhangs,
    List.forall_mem_cons.mpr ⟨hnew, ht.new⟩, fun hcap => ?_, Or.inl hdisk⟩,
    ht.block, fun hm => ?_, (assign_ne hbq).trans ht.noOwner, ht.wasFree, ?_, fun he => hlinked (hord ▸ he)⟩
  · have e := ht.old j hj h0
    exact (hold j hj (by rwa [e])).trans e
  · rcases hx with hx | ⟨p, hp, h1, h2⟩
    · exact Or.inl hx
    · exact Or.inr (Or.inr (Or.inl ⟨p, hsub p (PageChain.mem_order.mpr (Or.inl hp)), h1, h2⟩))
  · have hc' := ht.owner c p hc
    rw [assign_ne fun e => by rw [e, hqo] at hc'; cases hc']
    exact hc'
  · rw [List.mem_cons, not_or] at hn
    exact (assign_ne hn.1).trans (ht.unowned c hc hn.2)
  · rcases List.mem_cons.mp hc with rfl | hc
    · exact hsub _ hqm
    · exact ht.taken c hc
  · rw [hfew hcap]
    exact Nat.le_refl 1
  · rw [hord] at hm
    exact ht.notFree (by rw [hk.order]; exact List.mem_cons_of_mem _ hm)
  · have h1 := ht.order
    rw [hk.order] at h1
    rw [hord]
    exact (List.Perm.cons b (List.perm_middle.symm)).trans h1

/-- The page `r` is root `j`, and its empty slots are free to be filled. -/
structure Rooted (a j r : Nat) (K0 : View) (own0 : Nat → Option Pos) (ps0 : List Nat) (n0 : Node) (L : List Nat) (K : View)
    (own : Nat → Option Pos) (n : Node) : Prop where
  taken : ∀ c ∈ L, c = r
  origin : n0.root j = r ∨ r ∈ L
  root : n.root j = r
  owner : own r = some (.page a j [])
  slots : ∀ k < 512, slot K.vol.bytes r k = 0 → ∀ x, r + 8 * k ≤ x → x < r + 8 * k + 8 → TryByte K0 own0 ps0 a x

/-- The call has failed. -/
def Fails (z : Zone) (a : Nat) (K0 : View) (own0 : Nat → Option Pos) (ps0 : List Nat) (n0 n : Node) (s : Sys) : Prop :=
  ∃ L K own ps, K.Holds s ∧ Failed z a K0 own0 ps0 n0 L K own ps n

/-- `linkPage`, whatever its `store` does with a page it takes. -/
theorem Trying.linkPage {store : Nat → M Unit} {T : Nat → Sys → Prop} (ht : Trying z a K0 own0 ps0 n0 b L K own ps n)
    (h : Base z K0 own0 ps0 a n0) (hd : 0 ≤ drive)
    (hstore : p = 0 → ∀ q K1 ps1, Taken K ps q K1 ps1 → Ensures K1.Holds (store q) fun _ => T q) :
    Ensures K.Holds (linkPage drive b p store) fun r s =>
      r = 0 ∧ Fails z a K0 own0 ps0 n0 n s ∨ r ≠ 0 ∧ (p ≠ 0 ∧ r = p ∧ K.Holds s ∨ p = 0 ∧ T r s) := by
  unfold TyrantFS.linkPage
  by_cases h0 : p = 0
  · subst h0
    rw [if_neg (fun h => h rfl)]
    rcases hfo : freeOrder K ps with _ | ⟨q, rest⟩
    · obtain rfl : ps = [] := nil_of_freeOrder hfo
      obtain ⟨K', ps', hrun, hf⟩ := ht.fail h hd hfo
      refine (allocateBlock_none drive ht.space.list).next ?_
      rw [if_pos rfl]
      exact hrun.next (Ensures.pure fun s hs => Or.inl ⟨rfl, L, K', own, ps', hs, hf⟩)
    · obtain ⟨K1, ps1, hrun, hk⟩ := allocateBlock_some drive ht.space.list hfo
      have hq0 := (ht.space.list.block q (by show q ∈ freeOrder K ps; rw [hfo]; exact List.mem_cons_self)).pos
      refine hrun.next ?_
      rw [if_neg hq0]
      exact (hstore rfl q K1 ps1 hk).bind fun _ => Ensures.pure fun s hs => Or.inr ⟨hq0, Or.inr ⟨rfl, hs⟩⟩
  · rw [if_pos h0]
    exact Ensures.pure fun s hs => Or.inr ⟨h0, Or.inl ⟨h0, rfl, hs⟩⟩

/-- The root page. -/
theorem Trying.linkRoot (ht : Trying z a K0 own0 ps0 n0 b [] K own0 ps n0) (h : Base z K0 own0 ps0 a n0) (hd : 0 ≤ drive)
    (hu : ∀ c p, own0 c = some p → ∀ x, c ≤ x → x < c + 4096 → K.vol.bytes x = K0.vol.bytes x) (hj : 12 ≤ j) (hj2 : j < 15)
    (hi : rootOf n0.blocks = j) (hp : n0.root j = p) :
    Ensures K.Holds (TyrantFS.linkPage drive b p fun q => do
        let _ ← commitInode (n0.setRoot j q) a
        Pure.pure ()) fun r s =>
      r = 0 ∧ Fails z a K0 own0 ps0 n0 n0 s ∨
        r ≠ 0 ∧ ∃ L K' own' ps', K'.Holds s ∧ Trying z a K0 own0 ps0 n0 b L K' own' ps' (n0.setRoot j r) ∧
          Rooted a j r K0 own0 ps0 n0 L K' own' (n0.setRoot j r) := by
  have hlow := h.low
  have hhigh := h.high
  have hin := h.inside
  refine (ht.linkPage (T := fun r s => ∃ L K' own' ps', K'.Holds s ∧ Trying z a K0 own0 ps0 n0 b L K' own' ps' (n0.setRoot j r) ∧
    Rooted a j r K0 own0 ps0 n0 L K' own' (n0.setRoot j r)) h hd fun h0 q K1 ps1 hk => ?_).post fun r s hr => ?_
  · -- a new root
    have hqm : q ∈ freeOrder K ps := by
      rw [hk.order]
      exact List.mem_cons_self
    have hq := ht.space.list.block q hqm
    have hqin := hq.inside
    have hlt := K.vol.size_lt
    have hqo := (ht.space.free q hqm).1
    have hroot : ∀ j' < 15, (n0.setRoot j q).root j' = if j' = j then q else n0.root j' := fun j' hj' => root_setRoot hj hj2 hj'
    have hself : (n0.setRoot j q).root j = q := by rw [hroot j hj2, if_pos rfl]
    have hstore : Keeps (fun x => a ≤ x ∧ x < a + 208) K1 (K1.store a 208 (n0.setRoot j q).encode) :=
      Keeps.store fun x h1 h2 => ⟨h1, h2⟩
    have hnext : Trying z a K0 own0 ps0 n0 b [q] (K1.store a 208 (n0.setRoot j q).encode) (assign own0 q (some (.page a j []))) ps1
        (n0.setRoot j q) := ht.link hk hstore (fun x hx => Or.inr (Or.inl hx))
      (fun x hx => Or.inl (by omega)) (setRoot_fits h.fits (by omega)) setRoot_withMap setRoot_blocks (fun j' hj' hne => by
        rw [hroot j' hj']
        split
        · rename_i e
          rw [e, hp] at hne
          exact absurd h0 hne
        · rfl) (fun j' hj' hj'2 hne => by
        rw [hroot j' hj'2] at hne ⊢
        split
        · rename_i e
          rw [e, assign_self]
        · rename_i e
          rw [if_neg e] at hne
          have := h.roots j' hj' hj'2 hne
          rwa [assign_ne fun e' => by rw [e', hqo] at this; cases this]) (fun c hc => ?_) (not_hangs (hi.symm ▸ hp.trans h0) hq.pos)
        (fun _ => rfl) (nodeAt_put (setRoot_fits h.fits (by omega))) (fun he c hc0 hc => ?_)
    · refine (commitInode_runs ?_).next (Ensures.pure fun s hs => ⟨[q], _, _, ps1, hs, hnext, ?_⟩)
      · rw [hk.keeps.size, ht.keeps.size]
        omega
      · refine ⟨fun c hc => List.mem_singleton.mp hc, Or.inr List.mem_cons_self, hself, assign_self, fun k hk' _ x h1 h2 => ?_⟩
        exact Or.inr (Or.inr (Or.inl ⟨q, hnext.taken q (by simp), by omega, by omega⟩))
    · obtain rfl := List.mem_singleton.mp hc
      obtain ⟨k, ρ, e⟩ := List.exists_cons_of_ne_nil (pathOf_ne_nil (i := n0.blocks) (by omega))
      exact Or.inl ⟨k, ρ, e, Or.inl (by rw [hi]; exact hself)⟩
    · -- the last block of the list, so a page of the chain
      obtain ⟨k, ρ, -, e | ⟨hk', e⟩⟩ := hc
      · rw [hi, hself] at e
        exact Or.inr (List.mem_singleton.mpr e.symm)
      · have hclean : Clear K1 q := hk.clear ht.space fun hn => absurd (hk.last he) hn
        have hlow' := (ht.space.free q hqm).2.low
        have hslot : slot (K1.store a 208 (n0.setRoot j q).encode).vol.bytes q k = 0 := by
          rw [store_bytes, slot_congr (fun x h1 _ => put_out (by omega)) hk']
          exact hclean.slot hk'
        rw [hi, hself, hslot] at e
        exact absurd e.symm hc0
  · rcases hr with hr | ⟨h0, ⟨hp0, rfl, hs⟩ | ⟨-, hT⟩⟩
    · exact Or.inl hr
    · -- the root there was
      have e : n0.setRoot j r = n0 := by
        rw [← hp]
        exact setRoot_root hj hj2
      have hown : own0 r = some (.page a j []) := by
        rw [← hp] at h0 ⊢
        exact h.roots j hj hj2 h0
      refine Or.inr ⟨h0, [], K, own0, ps, hs, by rw [e]; exact ht, fun c hc => absurd hc List.not_mem_nil, Or.inl hp, by rw [e]; exact hp, hown,
        fun k hk hz x h1 h2 => Or.inr (Or.inr (Or.inr ⟨r, j, [], k, hown, hk, ?_, h1, h2⟩))⟩
      rw [← hz]
      exact slot_congr (fun x h3 h4 => (hu r _ hown x h3 h4).symm) hk
    · exact Or.inr ⟨h0, hT⟩

/-- Reading the root page, also behind its last slot, where nothing is read. -/
theorem readRoot_runs {r k : Nat} (hb : IsBlock K.vol.size r) (hv : ∀ x, K.vis x) :
    Runs K (readAddr 0 r ↑(k * 8)) (if k < 512 then slot K.vol.bytes r k else 0) K := by
  have hzero : leVal 8 (leByte 0) = 0 := (leVal_congr fun k _ => leByte_zero k).trans (leVal_zero 8)
  by_cases h : k < 512
  · rw [if_pos h]
    exact readSlot_runs hb h fun x _ => hv _
  rw [if_neg h]
  by_cases h' : k = 512
  · subst h'
    have hin := hb.inside
    have hread := readBlock_runs (K := K) (g := leByte 0) (n := 8) (show (↑(512 * 8) : Int) = (4096 : Nat) by omega) hb.pos (Nat.le_refl 4096) hin
      fun x _ => hv _
    exact hread.bind (Runs.pure.result hzero)
  · have hread : Runs K (readBlock (leByte 0) r ↑(k * 8) 8) (0, leByte 0) K := by
      unfold readBlock
      rw [if_neg hb.pos, if_pos (Or.inl (by omega))]
      exact Runs.pure
    exact hread.bind (Runs.pure.result hzero)

/-- Writing it. -/
theorem writeRoot_runs {r k : Nat} (hb : IsBlock K.vol.size r) (hq : q < 2 ^ 64) :
    ∃ x K', Runs K (writeAddr q r ↑(k * 8)) x K' ∧ Keeps (fun x => k < 512 ∧ r + 8 * k ≤ x ∧ x < r + 8 * k + 8) K K' ∧
      (k < 512 → slot K'.vol.bytes r k = q) := by
  have hin := hb.inside
  by_cases h : k < 512
  · refine ⟨_, _, writeSlot_runs hb h, Keeps.storeWord fun x h1 h2 => ⟨h, h1, h2⟩, fun _ => ?_⟩
    rw [storeWord_bytes, slot_putWord hb.aligned hb.aligned hb.pos h h hq, if_pos ⟨rfl, rfl⟩]
  by_cases h' : k = 512
  · have hw := writeBlock_runs (K := K) (f := leByte q) (b := r) (n := 8) (show (↑(k * 8) : Int) = (4096 : Nat) by omega)
      (Nat.le_refl 4096) (by omega)
    exact ⟨_, _, hw, Keeps.store fun x h1 h2 => by omega, fun hlt => absurd hlt h⟩
  · have hw : Runs K (writeAddr q r ↑(k * 8)) 0 K := by
      unfold writeAddr writeBlock
      rw [if_pos (Or.inl (by omega))]
      exact Runs.pure
    exact ⟨0, K, hw, Keeps.refl, fun hlt => absurd hlt h⟩

/-- The page in the middle of the three levels. -/
theorem Trying.linkChild {r k : Nat} {ρ : List Nat} (ht : Trying z a K0 own0 ps0 n0 b L K own ps n) (h : Base z K0 own0 ps0 a n0)
    (hd : 0 ≤ drive) (hr : Rooted a 14 r K0 own0 ps0 n0 L K own n) (hi : rootOf n0.blocks = 14) (hw : pathOf n0.blocks = k :: ρ)
    (hcap : 512 ≤ k → capacity ≤ n0.blocks)
    (hp : (if k < 512 then slot K.vol.bytes r k else 0) = p) :
    Ensures K.Holds (TyrantFS.linkPage drive b p (storeChild n a r ↑(k * 8))) fun r' s =>
      r' = 0 ∧ Fails z a K0 own0 ps0 n0 n s ∨
        r' ≠ 0 ∧ ∃ L' K' own' ps', K'.Holds s ∧ Trying z a K0 own0 ps0 n0 b L' K' own' ps' n := by
  have hlow := h.low
  have hhigh := h.high
  have hin := h.inside
  have hrb := ht.space.owned_block hr.owner
  have hrz := ht.space.owned r (by simp [hr.owner])
  have hrl := hrz.low
  have h8 := ht.space.low
  refine (ht.linkPage (T := fun _ s => ∃ L' K' own' ps', K'.Holds s ∧ Trying z a K0 own0 ps0 n0 b L' K' own' ps' n) h hd
    fun h0 q K1 ps1 hq => ?_).post fun r' s hs => ?_
  · have hqm : q ∈ freeOrder K ps := by
      rw [hq.order]
      exact List.mem_cons_self
    have hqb := ht.space.list.block q hqm
    have hqin := hqb.inside
    have hlt := K.vol.size_lt
    have hqo := (ht.space.free q hqm).1
    have hbefore : ∀ x ∈ freeOrder K ps, x ∈ freeOrder K0 ps0 := fun x hx =>
      ht.order.mem_iff.mp (List.mem_cons_of_mem _ (List.mem_append_right _ hx))
    have hsize : K1.vol.size = K0.vol.size := hq.keeps.size.trans ht.keeps.size
    have hrin := hrb.inside
    rw [ht.keeps.size] at hrin
    -- what the two writes leave
    obtain ⟨K2, hrun, hstore, hentered, hdisk⟩ : ∃ K2, Runs K1 (storeChild n a r ↑(k * 8) q) () K2 ∧
        Keeps (fun x => a ≤ x ∧ x < a + 208 ∨ k < 512 ∧ r + 8 * k ≤ x ∧ x < r + 8 * k + 8) K1 K2 ∧
        (k < 512 → slot K2.vol.bytes r k = q) ∧ nodeAt K2.vol.bytes a = n := by
      have hb1 : IsBlock K1.vol.size r := ⟨hrb.aligned, hrb.pos, by omega⟩
      obtain ⟨x, K2, hw, hk2, hself⟩ := writeRoot_runs (k := k) hb1 (show q < 2 ^ 64 by omega)
      have hcommit : Runs K2 (commitInode n a) 208 (K2.store a 208 n.encode) := commitInode_runs (by rw [hk2.size]; omega)
      refine ⟨_, hw.bind (hcommit.bind Runs.pure), (hk2.mono fun x hx => Or.inr hx).trans (Keeps.store fun x h1 h2 => Or.inl ⟨h1, h2⟩),
        fun hlt => ?_, nodeAt_put ht.fits⟩
      rw [store_bytes, slot_congr (fun x h1 _ => put_out (by omega)) hlt, hself hlt]
    have hnext : Trying z a K0 own0 ps0 n0 b (q :: L) K2 (assign own q (some (.page a 14 [k]))) ps1 n := by
      refine ht.link hq hstore (fun x hx => ?_) (fun x hx => ?_) ht.fits ht.attrs rfl (fun _ _ _ => rfl)
        (fun j hj hj2 hne => ?_) (fun c hc => ?_) ?_ (fun hcap => ?_) hdisk (fun _ c _ hc => ?_)
      · rcases hx with hx | ⟨hlt, h1, h2⟩
        · exact Or.inr (Or.inl hx)
        · rw [if_pos hlt] at hp
          exact hr.slots k hlt (hp.trans h0) x h1 h2
      · rcases hx with hx | ⟨hlt, h1, h2⟩
        · exact Or.inl (by omega)
        · exact Or.inr ⟨r, _, hr.owner, by omega, by omega⟩
      · have := ht.roots j hj hj2 hne
        rwa [assign_ne fun e => by rw [e, hqo] at this; cases this]
      · rcases List.mem_cons.mp hc with rfl | hc
        · by_cases hlt : k < 512
          · refine Or.inl ⟨k, ρ, hw, Or.inr ⟨hlt, ?_⟩⟩
            rw [hi, hr.root]
            exact hentered hlt
          · exact Or.inr (hcap (by omega))
        · refine Or.inl ⟨k, ρ, hw, Or.inl ?_⟩
          rw [hi]
          exact hr.root.trans (hr.taken c hc).symm
      · -- the slot was empty
        by_cases hr0 : n0.root 14 = 0
        · exact not_hangs (by rw [hi]; exact hr0) hqb.pos
        have hroot : n0.root 14 = r := (ht.old 14 (by decide) hr0).symm.trans hr.root
        have hown := h.roots 14 (by decide) (by decide) hr0
        rintro ⟨k', ρ', hw', e | ⟨hk', e⟩⟩
        · rw [hi] at e
          rw [e] at hown
          exact h.space.owned_notFree hown (hbefore q hqm)
        · rw [hw] at hw'
          injection hw' with hkk
          subst hkk
          rw [hi, hroot] at e
          rw [hroot] at hown
          rw [if_pos hk'] at hp
          have hsame : slot K.vol.bytes r k = slot K0.vol.bytes r k := by
            rw [slot_of_ne hrb.pos, slot_of_ne hrb.pos]
            refine word_congr fun x hx => ht.keeps.bytes _ (tryByte_data h hown (by omega) (by omega) fun j' π' k'' _ _ h3 h4 => ?_)
            rw [show k'' = k by omega, e]
            exact hqb.pos
          rw [hsame, e] at hp
          exact hqb.pos (hp.trans h0)
      · -- the root was there before
        refine List.eq_nil_iff_forall_not_mem.mpr fun c hc => ?_
        have hr0 := h.full hcap
        have e : c = n0.root 14 := (hr.taken c hc).trans (hr.root.symm.trans (ht.old 14 (by decide) hr0))
        exact h.space.owned_notFree (h.roots 14 (by decide) (by decide) hr0) (e ▸ ht.taken c hc)
      · -- it hangs from the root, or is the page that was entered
        obtain ⟨k', ρ', hw', e | ⟨hlt, e⟩⟩ := hc
        · rw [hi, hr.root] at e
          subst e
          refine hr.origin.imp (fun e => ⟨k, ρ, hw, Or.inl (by rw [hi]; exact e)⟩) (List.mem_cons_of_mem q)
        · rw [hw] at hw'
          injection hw' with hkk
          subst hkk
          rw [hi, hr.root, hentered hlt] at e
          exact Or.inr (e ▸ List.mem_cons_self)
    exact Returns.ensures hrun fun s hs => ⟨_, _, _, _, hs, hnext⟩
  · rcases hs with hs | ⟨h0, ⟨-, -, hs⟩ | ⟨-, hT⟩⟩
    · exact Or.inl hs
    · exact Or.inr ⟨h0, L, K, own, ps, hs, ht⟩
    · exact Or.inr ⟨h0, hT⟩

/-- What a call that took the block `b` leaves: it returns it, or it has failed. -/
def Ended (z : Zone) (a : Nat) (K0 : View) (own0 : Nat → Option Pos) (ps0 : List Nat) (n0 : Node) (b : Nat) (r : Nat × Node)
    (s : Sys) : Prop := r.1 = b ∧ Sized K0.vol.size s ∨ r.1 = 0 ∧ Fails z a K0 own0 ps0 n0 r.2 s

/-- The `if` behind every page: without one the call has failed. -/
theorem Ended.page {r : Nat} {n : Node} {Q : Sys → Prop} {c : M (Nat × Node)}
    (h : r ≠ 0 → Ensures Q c (Ended z a K0 own0 ps0 n0 b)) :
    Ensures (fun s => r = 0 ∧ Fails z a K0 own0 ps0 n0 n s ∨ r ≠ 0 ∧ Q s) (if r = 0 then Pure.pure (0, n) else c)
      (Ended z a K0 own0 ps0 n0 b) := by
  by_cases h0 : r = 0
  · rw [if_pos h0]
    refine Ensures.pure fun s hs => ?_
    rcases hs with ⟨-, hs⟩ | ⟨hne, -⟩
    · exact Or.inr ⟨rfl, hs⟩
    · exact absurd h0 hne
  · rw [if_neg h0]
    refine (h h0).pre fun s hs => ?_
    rcases hs with ⟨e, -⟩ | ⟨-, hs⟩
    · exact absurd e h0
    · exact hs

theorem Ended.leaf {n : Node} {u : Nat} {o : Int} : Ensures (Sized K0.vol.size) (TyrantFS.addLeaf n a b u o) (Ended z a K0 own0 ps0 n0 b) :=
  (addLeaf_total _ _ _ _ _ _).post fun _ _ => Or.inl

/-- The last page, which is read before anything is known of it: what is read decides
    whether a page is taken, nothing else. -/
theorem Trying.last {u : Nat} {o o' : Int} (ht : Trying z a K0 own0 ps0 n0 b L K own ps n) (h : Base z K0 own0 ps0 a n0) (hd : 0 ≤ drive) :
    Ensures K.Holds (do
      let p ← readAddr 0 u o
      let q ← TyrantFS.linkPage drive b p (storeChild n a u o)
      if q = 0 then Pure.pure (0, n) else TyrantFS.addLeaf n a b q o') (Ended z a K0 own0 ps0 n0 b) := by
  have hsize : K.vol.size = K0.vol.size := ht.keeps.size
  have hsized : ∀ s, K.Holds s → Sized K0.vol.size s := fun s hs => hs.size.trans hsize
  refine readAddr_reads.holds.bind fun p => (ht.linkPage (T := fun _ => Sized K0.vol.size) h hd fun _ q K2 ps2 hk =>
    (storeChild_total _ _ _ _ _ _).mono (fun s hs => ?_) fun _ _ hs => hs).bind fun q => ?_
  · exact hs.size.trans (hk.keeps.size.trans hsize)
  · refine (Ended.page fun _ => Ended.leaf).pre fun s hs => ?_
    rcases hs with hs | ⟨h0, ⟨-, -, hs⟩ | ⟨-, hs⟩⟩
    · exact Or.inl hs
    · exact Or.inr ⟨h0, hsized s hs⟩
    · exact Or.inr ⟨h0, hs⟩

section
variable (ht : Trying z a K0 own0 ps0 n0 b [] K own0 ps n0) (h : Base z K0 own0 ps0 a n0) (hd : 0 ≤ drive)
  (hu : ∀ c p, own0 c = some p → ∀ x, c ≤ x → x < c + 4096 → K.vol.bytes x = K0.vol.bytes x)

include ht h hd hu

theorem addBlockIndirect_ends (hi : rootOf n0.blocks = 12) : Ensures K.Holds (addBlockIndirect drive n0 a b) (Ended z a K0 own0 ps0 n0 b) := by
  unfold addBlockIndirect
  refine (ht.linkRoot (j := 12) h hd hu (Nat.le_refl 12) (by decide) hi rfl).bind fun r => Ended.page fun _ => ?_
  refine Ended.leaf.pre fun s hs => ?_
  obtain ⟨L, K1, own1, ps1, hs, ht1, -⟩ := hs
  exact hs.size.trans ht1.keeps.size

theorem addBlockDbl_ends (hi : rootOf n0.blocks = 13) : Ensures K.Holds (addBlockDbl drive n0 a b) (Ended z a K0 own0 ps0 n0 b) := by
  unfold addBlockDbl
  refine (ht.linkRoot (j := 13) h hd hu (by decide) (by decide) hi rfl).bind fun r => Ended.page fun _ => ?_
  rintro s ⟨L, K1, own1, ps1, hs, ht1, -⟩
  exact ht1.last h hd s hs

theorem addBlockTrpl_ends (hv : ∀ x, K0.vis x) (hi : 12 + 512 + 512 ^ 2 ≤ n0.blocks) :
    Ensures K.Holds (addBlockTrpl drive n0 a b) (Ended z a K0 own0 ps0 n0 b) := by
  unfold addBlockTrpl
  refine (ht.linkRoot (j := 14) h hd hu (by decide) (by decide) (rootOf_trpl hi) rfl).bind fun r => Ended.page fun _ => ?_
  rintro s ⟨L, K1, own1, ps1, hs, ht1, hr⟩
  have hcap : 512 ≤ (n0.blocks - 12 - 512 - 512 * 512) / (512 * 512) → capacity ≤ n0.blocks := by
    unfold capacity
    omega
  refine ((readRoot_runs (ht1.space.owned_block hr.owner) (fun x => ht1.keeps.vis x (hv x))).next
    ((ht1.linkChild h hd hr (rootOf_trpl hi) (pathOf_trpl hi) hcap rfl).bind fun r' => Ended.page fun _ => ?_)) s hs
  rintro s ⟨L2, K2, own2, ps2, hs, ht2⟩
  exact ht2.last h hd s hs

end

/-- A call returns. One that returns no block leaves the file as it was. -/
theorem addBlockToNode_tries (h : Base z K0 own0 ps0 a n0) (hv : ∀ x, K0.vis x) (hmax : n0.blocks ≠ 2 ^ 64 - 1) :
    Ensures K0.Holds (addBlockToNode n0 a) fun r s =>
      r.1 ∈ freeOrder K0 ps0 ∧ Sized K0.vol.size s ∨ r.1 = 0 ∧ Fails z a K0 own0 ps0 n0 r.2 s := by
  have hlow := h.low
  have hd := h.space.drive
  unfold addBlockToNode
  rw [if_neg (by omega)]
  refine globals_runs.next ?_
  rcases hfo : freeOrder K0 ps0 with _ | ⟨b, rest⟩
  · obtain rfl : ps0 = [] := nil_of_freeOrder hfo
    refine (allocateBlock_none _ h.space.list).next ?_
    rw [if_pos rfl]
    exact Ensures.pure fun s hs => Or.inr ⟨rfl, [], K0, own0, [], hs, Failed.none h⟩
  obtain ⟨K, ps, hrun, hk⟩ := allocateBlock_some K0.vol.glob.drive h.space.list hfo
  obtain ⟨ht, hu⟩ := Trying.start h hk
  have hb := (ht.space.block ht.block).pos
  have hended : ∀ (r : Nat × Node) s, Ended z a K0 own0 ps0 n0 b r s →
      r.1 ∈ b :: rest ∧ Sized K0.vol.size s ∨ r.1 = 0 ∧ Fails z a K0 own0 ps0 n0 r.2 s := by
    rintro r s (⟨e, hs⟩ | hs)
    · exact Or.inl ⟨by rw [e]; exact List.mem_cons_self, hs⟩
    · exact Or.inr hs
  refine hrun.next ?_
  rw [if_neg hb, if_neg hmax]
  dsimp only
  split
  · refine ((commitInode_total K0.vol.size _ _).mono (fun s hs => hs.size.trans ht.keeps.size) fun _ _ hs => hs).bind fun _ => ?_
    exact Ensures.pure fun s hs => Or.inl ⟨List.mem_cons_self, hs⟩
  rename_i h12
  split
  · rename_i h1
    exact (addBlockIndirect_ends ht h hd hu (by rw [rootOf, if_neg h12, if_pos h1])).post hended
  rename_i h1
  split
  · rename_i h2
    exact (addBlockDbl_ends ht h hd hu (by rw [rootOf, if_neg h12, if_neg h1, if_pos h2])).post hended
  · rename_i h2
    exact (addBlockTrpl_ends ht h hd hu hv (by omega)).post hended

theorem addBlockToNode_ends (h : FileAt z K0 own0 ps0 a n0) (hv : ∀ x, K0.vis x) :
    Ensures K0.Holds (addBlockToNode n0 a) fun r s =>
      r.1 ∈ freeOrder K0 ps0 ∧ Sized K0.vol.size s ∨ r.1 = 0 ∧ Fails z a K0 own0 ps0 n0 r.2 s := by
  have hc := h.used.cap
  unfold capacity at hc
  exact addBlockToNode_tries h.base hv (by omega)

end

/-! ## Nothing is left of a failed call -/

/-- What a call that returns 0 leaves: the inode with its blocks, and the free blocks but
    for `L`, which are exactly the pages that hang on the way to the next block now and did
    not before. (The page behind the last level is only taken by calls that succeed.) -/
structure Undone (own : Nat → Option Pos) (ps : List Nat) (a : Nat) (n : Node) (v : Vol) (n' : Node) (v' : Vol) : Prop where
  caller : n'.blocks = n.blocks
  disk : (nodeAt v'.bytes a).blocks = n.blocks
  node : nodeAt v'.bytes a = n'
  get : ∀ j < n.blocks, ∃ b, Runs (.all v) (getIBlock n j) b (.all v) ∧ Runs (.all v') (getIBlock n' j) b (.all v')
  free : ∃ ps' L, FreeList (.all v') ps' ∧ (L ++ freeOrder (.all v') ps').Perm (freeOrder (.all v) ps) ∧
    (∀ c ∈ L, own c = none ∧ c ∉ freeOrder (.all v') ps') ∧
    ∀ c, c ∈ L ↔ c ≠ 0 ∧ ¬ Hangs v.bytes n n.blocks c ∧ Hangs v'.bytes n' n.blocks c

theorem Failed.undone {v : Vol} {s : Sys} {L : List Nat} (h : FileAt z (.all v) own0 ps0 a n0) (hn : nodeAt v.bytes a = n0)
    (hc : n0.blocks < capacity) (hf : Failed z a (.all v) own0 ps0 n0 L K own ps n) (hs : K.Holds s) :
    Undone own0 ps0 a n0 v n s.vol := by
  obtain rfl : K = .all s.vol := hf.keeps.all hs
  obtain ⟨hfile, hkept⟩ := hf.file h
  have hnode : nodeAt s.vol.bytes a = n := by
    rcases hf.disk with hd | ⟨e, hd⟩
    · exact hd
    · rw [e, ← hn]
      exact nodeAt_congr fun k hk => hd _ (by omega) (by omega)
  refine ⟨hf.blocks, ?_, hnode, fun j hj => ⟨_, h.get hj, ?_⟩, ps, L, hfile.space.list, hf.order, fun c hc' => ⟨?_, fun hm => ?_⟩,
    fun c => ⟨fun hc' => ?_, fun ⟨h0, hold, hnow⟩ => (hf.linked c h0 hnow).resolve_left hold⟩⟩
  · rw [hnode]
    exact hf.blocks
  · have hget := hfile.get (i := j) (by rw [hf.blocks]; exact hj)
    rwa [(hkept j hj).1] at hget
  · exact (h.space.free c (hf.taken c hc')).1
  · have hnd : (L ++ freeOrder (.all s.vol) ps).Nodup := hf.order.nodup_iff.mpr h.space.list.chain.nodup
    exact (List.nodup_append.mp hnd).2.2 c hc' c hm rfl
  · exact ⟨(h.space.list.block c (hf.taken c hc')).pos, hf.new c hc', (hf.hangs c hc').resolve_right (by omega)⟩

/-- A failed growth step is undone, on any free list and whatever the free blocks hold. -/
theorem addBlockToNode_undone {s : Sys} (h : FileAt z (.all s.vol) own ps a n) (hn : nodeAt s.vol.bytes a = n) (hc : n.blocks < capacity) :
    ∃ r n' s', addBlockToNode n a s = some ((r, n'), s') ∧ (r = 0 → Undone own ps a n s.vol n' s'.vol) := by
  obtain ⟨⟨r, n'⟩, s', hrun, hends⟩ := addBlockToNode_ends h (fun _ => trivial) s (holds_all.mpr rfl)
  refine ⟨r, n', s', hrun, fun h0 => ?_⟩
  rcases hends with ⟨hm, -⟩ | ⟨-, L, K, own', ps', hs, hf⟩
  · exact absurd h0 (h.space.list.block r hm).pos
  · exact hf.undone h hn hc hs

/-- A file of 524 blocks, on a disk with two free ones: one for the data, the other for the
    root of the double tree, none for the page below it. -/
def shortDisk : Sys :=
  imageSys 529 (by decide) (8192 + 4096 * 525) (fun a => if a = 4096 then some (filledNode 0x8000 (4096 * 524) 8192) else none)
    (filledData 8192 zeros [8192 + 4096 * 526] 0) zeros

theorem shortDisk_pages : FilledPages 8192 [8192 + 4096 * 526] 0 shortDisk.vol.bytes :=
  filledData_pages (by decide) (by decide) (by simp) (by decide) fun x hx => by
    rw [shortDisk, imageSys_bytes]
    exact image_data (by omega)

theorem shortDisk_space : Space ⟨8192, 4096 * 529⟩ (.all shortDisk.vol) (filledOwn 8192 4096) [8192 + 4096 * 525] ∧
    freeOrder (.all shortDisk.vol) [8192 + 4096 * 525] = [8192 + 4096 * 526, 8192 + 4096 * 525] := by
  have hsuper : word shortDisk.vol.bytes 0 = 8192 + 4096 * 525 := by
    rw [shortDisk, imageSys_bytes]
    exact image_super (by decide)
  refine filled_space shortDisk_pages (by decide) (by decide) hsuper (by decide) (fun b hb => ?_) (List.nodup_singleton _)
    (filledOwn_free (by decide)) (by decide) (Nat.le_refl _) (by decide) (Nat.le_refl _) (show (0 : Int) ≤ 3 by decide)
    fun b => filledOwn_has (by decide) (Nat.le_refl _) (by decide)
  obtain rfl := List.mem_singleton.mp hb
  exact ⟨by decide, by decide, by decide, filledOwn_free (by decide)⟩

theorem shortNode_fits : (filledNode 0x8000 (4096 * 524) 8192).Fits := filledNode_fits (by decide) (by decide) (by decide)

theorem shortDisk_inode : InodeAt ⟨8192, 4096 * 529⟩ (.all shortDisk.vol) (filledOwn 8192 4096) [8192 + 4096 * 525] 4096
    (filledNode 0x8000 (4096 * 524) 8192) := by
  have hnode : nodeAt shortDisk.vol.bytes 4096 = filledNode 0x8000 (4096 * 524) 8192 := by
    rw [shortDisk, imageSys_bytes]
    exact image_node (by decide) (by decide) (by decide) rfl shortNode_fits
  refine ⟨⟨shortDisk_space.1, by decide, by decide, by decide, View.Sees.all _ _ _, ?_⟩, hnode⟩
  exact filledNode_maps shortDisk_pages (by decide) (fun _ => trivial) (fun i hi => filledOwn_data (by decide) hi) filledOwn_page

/-- One of the two blocks is gone, the other is free again. -/
theorem addBlockToNode_undone_short : ∃ n' s',
    addBlockToNode (filledNode 0x8000 (4096 * 524) 8192) 4096 shortDisk = some ((0, n'), s') ∧
      Undone (filledOwn 8192 4096) [8192 + 4096 * 525] 4096 (filledNode 0x8000 (4096 * 524) 8192) shortDisk.vol n' s'.vol ∧
      ∃ ps', FreeList (.all s'.vol) ps' ∧ (freeOrder (.all s'.vol) ps').length = 1 := by
  obtain ⟨hsp, hord⟩ := shortDisk_space
  have hi := shortDisk_inode
  have hfile := hi.toMapAt.file shortNode_fits
  obtain ⟨r, n', s', hrun, hundone⟩ := addBlockToNode_undone hfile hi.node (by decide +kernel)
  -- three blocks are needed
  have hneeds : ∀ l, missing shortDisk.vol.bytes (filledNode 0x8000 (4096 * 524) 8192) 13 [0, 0] 0 l = l := by
    refine fun l => missing_all fun t => ?_
    rw [blockAt, filledNode_root (by decide)]
    exact walk_zero fun _ => slot_zero
  have hclear : PagesClear (.all shortDisk.vol) [8192 + 4096 * 525] (filledNode 0x8000 (4096 * 524) 8192) := by
    intro k hk q hq hn
    have hk1 : k < 1 := (hneeds 1) ▸ hk
    obtain rfl : k = 0 := by omega
    rw [hord] at hq
    exact absurd (List.mem_singleton.mpr (Option.some.inj hq).symm) hn
  obtain ⟨⟨r', n1⟩, K', hruns, own', ps', hadd⟩ :=
    addBlockToNode_runs hsp hi.maps shortNode_fits hi.low hi.high (by decide +kernel) hclear
  obtain ⟨s1, hcall, hs1⟩ := hruns.exec (holds_all.mpr rfl : (View.all shortDisk.vol).Holds shortDisk)
  obtain ⟨⟨rfl, rfl⟩, rfl⟩ : (r' = r ∧ n1 = n') ∧ s1 = s' := by
    have := hcall.symm.trans hrun
    simpa using this
  have h0 : r' = 0 := by
    by_contra hne
    have hcount := hadd.count hne
    have hmiss : missing shortDisk.vol.bytes (filledNode 0x8000 (4096 * 524) 8192) (rootOf (filledNode 0x8000 (4096 * 524) 8192).blocks)
        (pathOf (filledNode 0x8000 (4096 * 524) 8192).blocks) 0 (depth (rootOf (filledNode 0x8000 (4096 * 524) 8192).blocks)) = 2 := hneeds 2
    rw [hord, all_vol, hmiss, List.length_cons, List.length_singleton] at hcount
    omega
  subst h0
  -- and the call gives one of the two back
  obtain ⟨⟨r2, n2⟩, s2, hrun2, hends⟩ := addBlockToNode_ends hfile (fun _ => trivial) shortDisk (holds_all.mpr rfl)
  obtain ⟨⟨rfl, rfl⟩, rfl⟩ : (r2 = 0 ∧ n2 = n1) ∧ s2 = s1 := by
    have := hrun2.symm.trans hrun
    simpa using this
  rcases hends with ⟨hm, -⟩ | ⟨-, L, K, own2, ps2, hs2, hf⟩
  · exact absurd rfl (hsp.list.block 0 hm).pos
  · obtain rfl : K = .all s2.vol := hf.keeps.all hs2
    refine ⟨n2, s2, hrun, hundone rfl, ps2, hf.space.list, Nat.le_antisymm hf.short (List.length_pos_of_ne_nil (hf.some ?_))⟩
    rw [hord]
    exact List.cons_ne_nil _ _

end TyrantFS

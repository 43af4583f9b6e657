/-
  TyrantFS.Help.Removal — `remove_link_from_parent` on a packed directory.

  Its last entry takes the place of the one removed, and a block that becomes empty goes
  back to the free list. `Shrunk` is what every removal leaves, `Removed` what it should
  leave: the directory is packed again and holds the other entries.

  The code gets the place of the last entry from `size % BLOCKSIZE - NAME_BOUNDARY`,
  which is -256 when the last block is full, and reads and writes nothing there; and it
  counts bytes in an int. `removeLinkFromParent_iff`: exactly when the removal is right.
-/
import TyrantFS.Help.Directory
import TyrantFS.Disk.Mkfs
import Mathlib.Data.List.Perm.Basic

namespace TyrantFS

open Lib Lib.PageTree

variable {z : Zone} {K K' : View} {own own' : Nat → Option Pos} {ps ps' : List Nat} {a e l : Nat} {n n' : Node}

/-- The entries of a directory: names and inode addresses. -/
def entries (m : Mem) (n : Node) : List (List UInt8 × Nat) :=
  (List.range (n.size / 256)).map fun e => (nameOf m n e, childOf m n e)

/-! ## The inode afterwards -/

/-- The directory `n` lost an entry's room: what the last statements of
    `remove_link_from_parent` leave. -/
structure Shrunk (z : Zone) (a : Nat) (K : View) (own : Nat → Option Pos) (ps : List Nat) (n : Node)
    (K' : View) (own' : Nat → Option Pos) (ps' : List Nat) (n' : Node) : Prop where
  inode : InodeAt z K' own' ps' a n'
  node : n' = { n with
    size := n.size - 256, blocks := n'.blocks, dataTime := n'.dataTime, changeTime := n'.changeTime }
  ceil : n'.blocks = (n'.size + 4095) / 4096
  free : (freeOrder K' ps').Perm
    (if n.size % 4096 = 256 then addrOf K.vol.bytes n (n.blocks - 1) :: freeOrder K ps else freeOrder K ps)
  addr : ∀ i < n'.blocks, addrOf K'.vol.bytes n' i = addrOf K.vol.bytes n i
  confined : Confined z (· = a) K own K' own'

theorem Shrunk.size (h : Shrunk z a K own ps n K' own' ps' n') : n'.size = n.size - 256 := by rw [h.node]

/-- The last block goes back when it is empty. -/
theorem dropLast_runs (h : MapAt z K own ps a n) (hw : n.size % 256 = 0) (hc : n.blocks = (n.size + 4095) / 4096)
    (h1 : 256 ≤ n.size) :
    ∃ K' own' ps' n', Runs K (dropLast K.vol.glob.drive { n with size := n.size - 256 } (addrOf K.vol.bytes n (n.blocks - 1)))
        n' K' ∧ MapAt z K' own' ps' a n' ∧ n' = { n with size := n.size - 256, blocks := n'.blocks } ∧
      n'.blocks = (n'.size + 4095) / 4096 ∧
      (freeOrder K' ps').Perm
        (if n.size % 4096 = 256 then addrOf K.vol.bytes n (n.blocks - 1) :: freeOrder K ps else freeOrder K ps) ∧
      (∀ i < n'.blocks, addrOf K'.vol.bytes n' i = addrOf K.vol.bytes n i ∧
        ∀ k < 4096, K'.vol.bytes (addrOf K.vol.bytes n i + k) = K.vol.bytes (addrOf K.vol.bytes n i + k)) ∧
      Confined z (· = a) K own K' own' := by
  have hsame : SameMap n { n with size := n.size - 256 } := SameMap.touch
  unfold dropLast
  by_cases hmod : n.size % 4096 = 256
  · have hlast : n.blocks - 1 < n.blocks := by omega
    have hb := h.block hlast
    have hhas := h.has hlast
    have hown := h.maps.data _ hlast
    have hnf := h.space.owned_notFree hown
    have hsp := h.space.assign (p := none) hhas hnf
    have hlt : n.blocks < 2 ^ 64 := Nat.lt_of_le_of_lt h.maps.cap (by decide +kernel)
    have hu : u64 ((n.blocks : Int) - 1) = n.blocks - 1 := by
      rw [show (n.blocks : Int) - 1 = (n.blocks - 1 : Nat) by omega, u64_ofNat (by omega)]
    have hkeep : ∀ {c : Nat} {p : Pos}, own c = some p → p ≠ .data a (n.blocks - 1) →
        assign own (addrOf K.vol.bytes n (n.blocks - 1)) none c = own c := by
      intro c p hc hp
      refine assign_ne fun e => hp ?_
      rw [e, hown] at hc
      injection hc with hc
      exact hc.symm
    have hmap : MapAt z K (assign own (addrOf K.vol.bytes n (n.blocks - 1)) none) ps a
        { n with size := n.size - 256, blocks := n.blocks - 1 } := by
      refine h.shrink hsp hsame.root (Nat.sub_le _ _) (fun i (hi : i < n.blocks - 1) => ?_) fun c j π hc => ?_
      · refine hkeep (h.maps.data i (by omega)) fun e => ?_
        injection e with _ e
        omega
      · exact hkeep hc fun e => by cases e
    obtain ⟨K1, ps1, hr, hg⟩ := freeBlock_runs h.space.list h.space.drive hb hnf
    obtain ⟨hm1, hb1⟩ := hmap.give hhas assign_self hg
    have haddr : ∀ i, addrOf K.vol.bytes { n with size := n.size - 256, blocks := n.blocks - 1 } i = addrOf K.vol.bytes n i :=
      fun i => addrOf_root hsame.root
    simp only [haddr] at hb1
    rw [if_pos (show (n.size - 256) % 4096 = 0 by omega)]
    refine ⟨K1, _, ps1, { n with size := n.size - 256, blocks := n.blocks - 1 }, hr.bind ?_, hm1, rfl, ?_, ?_, hb1, ?_⟩
    · simp only [hu]
      exact Runs.pure
    · show n.blocks - 1 = (n.size - 256 + 4095) / 4096
      omega
    · rw [if_pos hmod]
      exact hg.order
    · refine (Confined.owners fun b p hb hp => ?_).trans (hsp.give_confined hhas assign_self hg)
      rw [hkeep hb fun e => hp (by rw [e]; rfl), hb]
  · rw [if_neg (show ¬ (n.size - 256) % 4096 = 0 by omega)]
    refine ⟨K, own, ps, { n with size := n.size - 256 }, Runs.pure, h.sameMap hsame, rfl, ?_, ?_,
      fun i _ => ⟨hsame.addr, fun _ _ => rfl⟩, Confined.refl⟩
    · show n.blocks = (n.size - 256 + 4095) / 4096
      omega
    · rw [if_neg hmod]

/-- The last statements: the block count, the times, the commit. -/
theorem shrink_runs (h : MapAt z K own ps a n) (hf : n.Fits) (hw : n.size % 256 = 0)
    (hc : n.blocks = (n.size + 4095) / 4096) (h1 : 256 ≤ n.size) :
    ∃ K' own' ps' n', Runs K (do
        let parentNode ← dropLast K.vol.glob.drive { n with size := u64 (n.size - 256) } (addrOf K.vol.bytes n (n.blocks - 1))
        let t ← getCurrentTimeInNsec
        let parentNode := { parentNode with dataTime := t, changeTime := t }
        let _ ← commitInode parentNode a
        pure (0 : Int)) 0 K' ∧ Shrunk z a K own ps n K' own' ps' n' ∧
      ∀ i < n'.blocks, ∀ k < 4096, K'.vol.bytes (addrOf K.vol.bytes n i + k) = K.vol.bytes (addrOf K.vol.bytes n i + k) := by
  have hsz := hf.size
  have hu : u64 ((n.size : Int) - 256) = n.size - 256 := by unfold u64; omega
  obtain ⟨K1, own1, ps1, n1, hr1, hm1, hn1, hc1, ho1, hb1, hcf1⟩ := dropLast_runs h hw hc h1
  obtain ⟨hm2, ho2⟩ := hm1.tick
  have hbl : n1.blocks ≤ n.blocks := by
    rw [hn1] at hc1
    change n1.blocks = (n.size - 256 + 4095) / 4096 at hc1
    omega
  generalize ht : K1.vol.env.clock K1.vol.ticks % 2 ^ 64 = t
  have hlt : t < 2 ^ 64 := by omega
  have hf1 : ({ n1 with dataTime := t, changeTime := t } : Node).Fits := by
    have hb := hf.blocks
    rw [hn1]
    exact hf.touch (s := n.size - 256) (b := n1.blocks) (by omega) (by omega) hlt hlt
  have hm3 : MapAt z K1.tick own1 ps1 a { n1 with dataTime := t, changeTime := t } := hm2.sameMap ⟨rfl, fun _ => rfl⟩
  obtain ⟨hr4, hi4, ho4⟩ := hm3.commit hf1
  have hk4 : Keeps (fun x => a ≤ x ∧ x < a + 208) K1.tick (K1.tick.store a 208 ({ n1 with dataTime := t, changeTime := t } : Node).encode) :=
    Keeps.store fun x h1 h2 => ⟨h1, h2⟩
  have hslot : ∀ i < n1.blocks, ∀ k < 4096, ¬ (a ≤ addrOf K.vol.bytes n i + k ∧ addrOf K.vol.bytes n i + k < a + 208) := by
    intro i hi k hk
    have := (h.has (i := i) (by omega)).low
    have := h.high
    omega
  refine ⟨_, own1, ps1, { n1 with dataTime := t, changeTime := t }, ?_, ⟨hi4, ?_, hc1, ?_, fun i hi => ?_, ?_⟩, fun i hi k hk => ?_⟩
  · rw [hu]
    refine hr1.bind (getCurrentTimeInNsec_runs.bind ?_)
    rw [ht]
    exact hr4.bind Runs.pure
  · rw [hn1]
  · rw [ho4, ho2]
    exact ho1
  · rw [← (hb1 i hi).1]
    exact hm3.maps.addr_frame (fun c j π hc x h1 _ => commit_frame hm3.space h.high hc h1) hi
  · exact hcf1.trans ((Confined.bytes (S := fun _ => False) Keeps.tick fun x hx => hx.elim).trans
      (Confined.bytes hk4 fun x hx => touch_slot rfl hx.1 (by omega)))
  · rw [hk4.bytes _ (hslot i hi k hk), tick_bytes]
    exact (hb1 i hi).2 k hk

/-! ## The entries afterwards -/

/-- The entry's bytes lie in the directory's blocks. -/
theorem EntryByte.block {x : Nat} (h : EntryByte K.vol.bytes n e l x) (he : e / 16 < n.blocks) (hl : l / 16 < n.blocks) :
    ∃ i < n.blocks, addrOf K.vol.bytes n i ≤ x ∧ x < addrOf K.vol.bytes n i + 4096 := by
  unfold EntryByte entryAt at h
  rcases h with h | h
  · exact ⟨e / 16, he, by omega⟩
  · exact ⟨l / 16, hl, by omega⟩

/-- The last entry is moved as the code can, or what was in the local buffer is. -/
def Settled (K : View) (n : Node) (e l : Nat) (K' : View) : Prop :=
  if n.size % 4096 ≠ 0 ∨ e = l ∧ 256 * e < 2 ^ 31 then Moved K n e l K'
  else K' = (K.store (entryAt K.vol.bytes n e) 256 zeros).store (entryAt K.vol.bytes n e) 256 K.vol.env.junk

theorem Settled.keeps (h : Settled K n e l K') : Keeps (EntryByte K.vol.bytes n e l) K K' := by
  unfold Settled at h
  split at h
  · exact h.keeps
  · rw [h]
    exact (Keeps.store fun x h1 h2 => Or.inl ⟨h1, h2⟩).trans (Keeps.store fun x h1 h2 => Or.inl ⟨h1, h2⟩)

theorem removeEntry_runs (h : InodeAt z K own ps a n) (hp : Packed K n) (he : e < n.size / 256) (hs : Seen e)
    (hl : l + 1 = n.size / 256) :
    ∃ K1 K' own' ps' n', Runs K (removeEntry a n (addrOf K.vol.bytes n (e / 16)) (e / 16) (256 * (e % 16))) 0 K' ∧
      Shrunk z a K own ps n K' own' ps' n' ∧ Settled K n e l K1 ∧
      ∀ i < n'.blocks, ∀ k < 4096, K'.vol.bytes (addrOf K.vol.bytes n i + k) = K1.vol.bytes (addrOf K.vol.bytes n i + k) := by
  have hwhole := hp.whole
  have hceil := hp.ceil
  have heb := hp.lt he
  have hlb := hp.lt (e := l) (by omega)
  have hlt : n.blocks < 2 ^ 64 := h.fits.blocks
  have hu : u64 ((n.blocks : Int) - 1) = n.blocks - 1 := by
    rw [show (n.blocks : Int) - 1 = (n.blocks - 1 : Nat) by omega, u64_ofNat (by omega)]
  have hE : entryAt K.vol.bytes n e = addrOf K.vol.bytes n (e / 16) + 256 * (e % 16) := rfl
  obtain ⟨_, hEin⟩ := h.entry_in heb
  have hwrite : Runs K (writeBlock zeros (addrOf K.vol.bytes n (e / 16)) (256 * (e % 16) : Nat) 256) 256
      (K.store (entryAt K.vol.bytes n e) 256 zeros) := writeBlock_fits rfl (by omega) (by omega)
  have hk0 : Keeps (EntryByte K.vol.bytes n e l) K (K.store (entryAt K.vol.bytes n e) 256 zeros) :=
    Keeps.store fun x h1 h2 => Or.inl ⟨h1, h2⟩
  obtain ⟨hm0, _, ha0⟩ := h.toMapAt.keep hk0 fun x hx => Or.inr (hx.block heb hlb)
  have hget := hm0.get (i := n.blocks - 1) (by omega)
  rw [ha0 _ (by omega)] at hget
  obtain ⟨K1, hmove, hset⟩ := moveLast_runs h.toMapAt hp he hs hl
  have hk1 : Keeps (EntryByte K.vol.bytes n e l) K K1 := Settled.keeps hset
  obtain ⟨hm1, ho1, ha1⟩ := h.toMapAt.keep hk1 fun x hx => Or.inr (hx.block heb hlb)
  obtain ⟨K', own', ps', n', htail, hsh, hb⟩ := shrink_runs hm1 h.fits hwhole hceil (by omega)
  rw [ha1 _ (by omega)] at htail
  have hbl : n'.blocks ≤ n.blocks := by
    have := hsh.ceil
    have := hsh.size
    omega
  refine ⟨K1, K', own', ps', n', ?_, ⟨hsh.inode, hsh.node, hsh.ceil, ?_, fun i hi => ?_, ?_⟩, hset, fun i hi k hk => ?_⟩
  · refine globals_runs.bind (hwrite.bind ?_)
    rw [hu]
    refine hget.bind ?_
    rw [if_neg (h.block (i := n.blocks - 1) (by omega)).pos]
    refine hmove.bind ?_
    rw [← hk1.glob]
    exact htail
  · have := hsh.free
    rwa [ho1, ha1 _ (by omega)] at this
  · rw [hsh.addr i hi, ha1 i (by omega)]
  · refine (Confined.bytes hk1 fun x hx => ?_).trans hsh.confined
    obtain ⟨i, hi, h1, h2⟩ := hx.block heb hlb
    exact h.touch rfl hi h1 h2
  · rw [← ha1 i (by omega)]
    exact hb i hi k hk

/-- What the removal of entry `e` should leave. -/
structure Removed (z : Zone) (a : Nat) (K : View) (own : Nat → Option Pos) (ps : List Nat) (n : Node) (e : Nat)
    (K' : View) (own' : Nat → Option Pos) (ps' : List Nat) (n' : Node) : Prop
    extends Shrunk z a K own ps n K' own' ps' n' where
  packed : Packed K' n'
  entries : ((nameOf K.vol.bytes n e, childOf K.vol.bytes n e) :: entries K'.vol.bytes n').Perm (entries K.vol.bytes n)

/-- One element of a list gives way to the last one. -/
theorem perm_set_last {α : Type} (xs : List α) (x : α) {e : Nat} (he : e < xs.length) :
    (xs[e] :: xs.set e x).Perm (xs ++ [x]) := by
  have h1 := (List.set_perm_cons_eraseIdx he x).cons xs[e]
  have h2 := (List.getElem_cons_eraseIdx_perm he).cons x
  exact h1.trans ((List.Perm.swap _ _ _).trans (h2.trans (List.perm_append_singleton x xs).symm))

theorem Shrunk.entryAt (h : Shrunk z a K own ps n K' own' ps' n') {f : Nat} (hf : f / 16 < n'.blocks) :
    entryAt K'.vol.bytes n' f = entryAt K.vol.bytes n f := by
  rw [TyrantFS.entryAt, TyrantFS.entryAt, h.addr _ hf]

/-- The entry that stands where entry `f` stood. -/
theorem Moved.entry {K1 : View} (hm : Moved K n e l K1) (h : MapAt z K own ps a n) (heb : e / 16 < n.blocks)
    (hlb : l / 16 < n.blocks) {f : Nat} (hf : f / 16 < n.blocks) (hfl : f ≠ l) {k : Nat} (hk : k < 256) :
    K1.vol.bytes (TyrantFS.entryAt K.vol.bytes n f + k) =
      K.vol.bytes (TyrantFS.entryAt K.vol.bytes n (if f = e then l else f) + k) := by
  split
  · rename_i hfe
    subst hfe
    exact hm.moved hfl k hk
  · rename_i hfe
    refine hm.keeps.bytes _ fun hx => ?_
    have h1 := h.entry_apart hf heb hfe
    have h2 := h.entry_apart hf hlb hfl
    unfold EntryByte at hx
    omega

/-- What stands in the slots that are left. -/
theorem Shrunk.moved_bytes {K1 : View} (hsh : Shrunk z a K own ps n K' own' ps' n') (h : MapAt z K own ps a n) (hp : Packed K n)
    (he : e < n.size / 256) (hl : l + 1 = n.size / 256) (hm : Moved K n e l K1)
    (hb : ∀ i < n'.blocks, ∀ k < 4096, K'.vol.bytes (addrOf K.vol.bytes n i + k) = K1.vol.bytes (addrOf K.vol.bytes n i + k))
    {f k : Nat} (hf : f / 16 < n'.blocks) (hfl : f ≠ l) (hk : k < 256) : K'.vol.bytes (TyrantFS.entryAt K'.vol.bytes n' f + k) =
      K.vol.bytes (TyrantFS.entryAt K.vol.bytes n (if f = e then l else f) + k) := by
  have hceil := hp.ceil
  have hceil' := hsh.ceil
  have hsize := hsh.size
  rw [hsh.entryAt hf, ← hm.entry h (hp.lt he) (hp.lt (e := l) (by omega)) (by omega) hfl hk, TyrantFS.entryAt, Nat.add_assoc]
  exact hb _ hf _ (by omega)

theorem Shrunk.moved_child {K1 : View} (hsh : Shrunk z a K own ps n K' own' ps' n') (h : MapAt z K own ps a n) (hp : Packed K n)
    (he : e < n.size / 256) (hl : l + 1 = n.size / 256) (hm : Moved K n e l K1)
    (hb : ∀ i < n'.blocks, ∀ k < 4096, K'.vol.bytes (addrOf K.vol.bytes n i + k) = K1.vol.bytes (addrOf K.vol.bytes n i + k))
    {f : Nat} (hf : f < l) : childOf K'.vol.bytes n' f = childOf K.vol.bytes n (if f = e then l else f) := by
  have hwhole := hp.whole
  have hceil' := hsh.ceil
  have hsize := hsh.size
  exact entryAddr_congr fun k hk => hsh.moved_bytes h hp he hl hm hb (by omega) (by omega) hk

theorem Shrunk.removed {K1 : View} (hsh : Shrunk z a K own ps n K' own' ps' n') (h : MapAt z K own ps a n) (hp : Packed K n)
    (he : e < n.size / 256) (hl : l + 1 = n.size / 256) (hm : Moved K n e l K1)
    (hb : ∀ i < n'.blocks, ∀ k < 4096, K'.vol.bytes (addrOf K.vol.bytes n i + k) = K1.vol.bytes (addrOf K.vol.bytes n i + k)) :
    Removed z a K own ps n e K' own' ps' n' := by
  have hwhole := hp.whole
  have hceil := hp.ceil
  have hceil' := hsh.ceil
  have hsize := hsh.size
  have hbytes : ∀ {f k : Nat}, f / 16 < n'.blocks → f ≠ l → k < 256 → K'.vol.bytes (TyrantFS.entryAt K'.vol.bytes n' f + k) =
      K.vol.bytes (TyrantFS.entryAt K.vol.bytes n (if f = e then l else f) + k) := hsh.moved_bytes h hp he hl hm hb
  have hmoved : ∀ {f : Nat}, f < l → (if f = e then l else f) < n.size / 256 := by
    intro f hf
    split <;> omega
  refine ⟨hsh, ⟨⟨by omega, fun i hi => ?_, fun f hf => ?_, fun f hf hf' k hk => ?_⟩, hceil'⟩, ?_⟩
  · rw [hsh.addr i hi]
    exact hsh.confined.keeps.sees (hp.sees i (by omega))
  · have := hbytes (f := f) (k := 0) (by omega) (by omega) (by decide)
    rw [Nat.add_zero, Nat.add_zero] at this
    rw [this]
    exact hp.named _ (hmoved (by omega))
  · by_cases hfl : f = l
    · subst hfl
      rw [hsh.entryAt (by omega), ← hm.last k hk, TyrantFS.entryAt, Nat.add_assoc]
      exact hb _ (by omega) _ (by omega)
    · rw [hbytes (by omega) hfl hk, if_neg (by omega)]
      exact hp.rest f (by omega) (by omega) k hk
  · have hname : ∀ f < l, nameOf K'.vol.bytes n' f = nameOf K.vol.bytes n (if f = e then l else f) := fun f hf =>
      entryName_congr fun k hk => hbytes (by omega) (by omega) (by omega)
    have hchild : ∀ f < l, childOf K'.vol.bytes n' f = childOf K.vol.bytes n (if f = e then l else f) := fun f hf =>
      hsh.moved_child h hp he hl hm hb hf
    unfold TyrantFS.entries
    rw [show n'.size / 256 = l by omega, ← hl, List.range_succ, List.map_append, List.map_singleton]
    by_cases hel : e = l
    · subst hel
      rw [List.map_congr_left (g := fun f => (nameOf K.vol.bytes n f, childOf K.vol.bytes n f)) fun f hf => ?_]
      · exact (List.perm_append_singleton _ _).symm
      · have hf' := List.mem_range.mp hf
        rw [hname f hf', hchild f hf', if_neg (by omega)]
    · have hset : (List.range l).map (fun f => (nameOf K'.vol.bytes n' f, childOf K'.vol.bytes n' f)) =
          ((List.range l).map fun f => (nameOf K.vol.bytes n f, childOf K.vol.bytes n f)).set e
            (nameOf K.vol.bytes n l, childOf K.vol.bytes n l) := by
        refine List.ext_getElem (by simp) fun f h1 h2 => ?_
        have hf : f < l := by simpa using h1
        simp only [List.getElem_map, List.getElem_range, List.getElem_set, hname f hf, hchild f hf, eq_comm (a := e)]
        split <;> rfl
      rw [hset]
      have := perm_set_last ((List.range l).map fun f => (nameOf K.vol.bytes n f, childOf K.vol.bytes n f))
        (nameOf K.vol.bytes n l, childOf K.vol.bytes n l) (e := e) (by simp; omega)
      simpa using this

/-! ## `remove_link_from_parent` -/

section
variable {cur : Nat}

/-- The entry is out of the int's reach: nothing happens. -/
theorem removeLink_unseen (h : InodeAt z K own ps a n) (hp : Packed K n) (hc : cur ≠ 0)
    (hno : ∀ f < n.size / 256, Seen f → childOf K.vol.bytes n f ≠ cur) : Runs K (removeLinkFromParent a cur) (-1) K := by
  have hlow := h.low
  unfold removeLinkFromParent
  rw [if_neg (by omega), if_neg hc]
  exact h.fetch.bind (scanBlocks_none h.toMapAt hp hc (fun f _ => hno f) (Nat.zero_add _))

theorem removeLink_seen (h : InodeAt z K own ps a n) (hp : Packed K n) (he : e < n.size / 256) (hs : Seen e)
    (hcur : childOf K.vol.bytes n e = cur) (hc : cur ≠ 0) (hu : ∀ f < n.size / 256, childOf K.vol.bytes n f = cur → f = e)
    (hl : l + 1 = n.size / 256) :
    ∃ K1 K' own' ps' n', Runs K (removeLinkFromParent a cur) 0 K' ∧
      Shrunk z a K own ps n K' own' ps' n' ∧ Settled K n e l K1 ∧
      ∀ i < n'.blocks, ∀ k < 4096, K'.vol.bytes (addrOf K.vol.bytes n i + k) = K1.vol.bytes (addrOf K.vol.bytes n i + k) := by
  have hlow := h.low
  obtain ⟨K1, K', own', ps', n', hr, hrest⟩ := removeEntry_runs h hp he hs hl
  refine ⟨K1, K', own', ps', n', ?_, hrest⟩
  unfold removeLinkFromParent
  rw [if_neg (by omega), if_neg hc]
  refine h.fetch.bind (scanBlocks_some h.toMapAt hp hc he hs (Nat.zero_le _) hcur (fun f _ hf _ hf' => ?_) (Nat.zero_add _) hr)
  have := hu f (by omega) hf'
  omega

/-- The first entry of the inode that is seen goes, or nothing does. -/
theorem removeLink_first (h : InodeAt z K own ps a n) (hp : Packed K n) (hc : cur ≠ 0) :
    (∀ f < n.size / 256, Seen f → childOf K.vol.bytes n f ≠ cur) ∧ Runs K (removeLinkFromParent a cur) (-1) K ∨
      ∃ e l K1 K' own' ps' n', e < n.size / 256 ∧ l + 1 = n.size / 256 ∧ Runs K (removeLinkFromParent a cur) 0 K' ∧
        Shrunk z a K own ps n K' own' ps' n' ∧ Settled K n e l K1 ∧
        ∀ i < n'.blocks, ∀ k < 4096, K'.vol.bytes (addrOf K.vol.bytes n i + k) = K1.vol.bytes (addrOf K.vol.bytes n i + k) := by
  have hlow := h.low
  by_cases hex : ∃ f, f < n.size / 256 ∧ Seen f ∧ childOf K.vol.bytes n f = cur
  · obtain ⟨he, hs, hcur⟩ := Nat.find_spec hex
    obtain ⟨l, hl⟩ : ∃ l, l + 1 = n.size / 256 := ⟨n.size / 256 - 1, by omega⟩
    obtain ⟨K1, K', own', ps', n', hr, hrest⟩ := removeEntry_runs h hp he hs hl
    refine Or.inr ⟨Nat.find hex, l, K1, K', own', ps', n', he, hl, ?_, hrest⟩
    unfold removeLinkFromParent
    rw [if_neg (by omega), if_neg hc]
    refine h.fetch.bind (scanBlocks_some h.toMapAt hp hc he hs (Nat.zero_le _) hcur (fun f _ hf hseen hf' => ?_) (Nat.zero_add _) hr)
    exact Nat.find_min hex hf ⟨by omega, hseen, hf'⟩
  · have hno : ∀ f < n.size / 256, Seen f → childOf K.vol.bytes n f ≠ cur := fun f hf hs hf' => hex ⟨f, hf, hs, hf'⟩
    exact Or.inl ⟨hno, removeLink_unseen h hp hc hno⟩

theorem removeLink_cases (h : InodeAt z K own ps a n) (hp : Packed K n) (hc : cur ≠ 0) :
    (∀ f < n.size / 256, Seen f → childOf K.vol.bytes n f ≠ cur) ∧ Runs K (removeLinkFromParent a cur) (-1) K ∨
      ∃ K' own' ps' n', Runs K (removeLinkFromParent a cur) 0 K' ∧ Shrunk z a K own ps n K' own' ps' n' := by
  rcases removeLink_first h hp hc with hno | ⟨e, l, K1, K', own', ps', n', -, -, hr, hsh, -⟩
  · exact Or.inl hno
  · exact Or.inr ⟨K', own', ps', n', hr, hsh⟩

/-- In a directory whose last block is not full the last entry takes its place. -/
theorem removeLink_moves (h : InodeAt z K own ps a n) (hp : Packed K n) (hc : cur ≠ 0) (hm : n.size % 4096 ≠ 0) :
    Runs K (removeLinkFromParent a cur) (-1) K ∨ ∃ e l K' own' ps' n', Runs K (removeLinkFromParent a cur) 0 K' ∧
      l + 1 = n.size / 256 ∧ Removed z a K own ps n e K' own' ps' n' ∧
      ∀ f < l, childOf K'.vol.bytes n' f = childOf K.vol.bytes n (if f = e then l else f) := by
  rcases removeLink_first h hp hc with ⟨-, hr⟩ | ⟨e, l, K1, K', own', ps', n', he, hl, hr, hsh, hset, hb⟩
  · exact Or.inl hr
  · have hmoved : Moved K n e l K1 := by
      unfold Settled at hset
      rwa [if_pos (Or.inl hm)] at hset
    exact Or.inr ⟨e, l, K', own', ps', n', hr, hl, hsh.removed h.toMapAt hp he hl hmoved hb,
      fun f hf => hsh.moved_child h.toMapAt hp he hl hmoved hb hf⟩

end

/-- The entry `e` is in reach, and the code finds the place of the last one, or the local
    buffer happened to be clear. -/
def RemovalOK (v : Vol) (n : Node) (e : Nat) : Prop :=
  Seen e ∧ (n.size % 4096 ≠ 0 ∨ e + 1 = n.size / 256 ∧ (256 * e < 2 ^ 31 ∨ ∀ k < 256, v.env.junk k = 0))

theorem settled_moved (h : MapAt z K own ps a n) (he : e / 16 < n.blocks) (hl : l + 1 = n.size / 256)
    (hok : RemovalOK K.vol n e) {K1 : View} (hs : Settled K n e l K1) : Moved K n e l K1 := by
  have hin := h.entry_in he
  unfold Settled at hs
  split at hs
  · exact hs
  rename_i hbad
  obtain ⟨-, hok⟩ := hok
  obtain ⟨rfl, hjunk⟩ : e = l ∧ ∀ k < 256, K.vol.env.junk k = 0 := by
    rcases hok with hok | ⟨hel, hok | hok⟩
    · exact absurd (Or.inl hok) hbad
    · exact absurd (Or.inr ⟨by omega, hok⟩) hbad
    · exact ⟨by omega, hok⟩
  subst hs
  refine ⟨?_, fun k hk => ?_, fun hne => absurd rfl hne⟩
  · exact (Keeps.store fun x h1 h2 => Or.inl ⟨h1, h2⟩).trans (Keeps.store fun x h1 h2 => Or.inl ⟨h1, h2⟩)
  · rw [store_bytes, put_in (by omega) (by omega), Nat.add_sub_cancel_left]
    exact hjunk k hk

/-- Otherwise what stood in the last entry, or the local buffer, is left behind the end
    of the directory. -/
theorem settled_rest (h : MapAt z K own ps a n) (hp : Packed K n) (he : e < n.size / 256) (hl : l + 1 = n.size / 256)
    (hseen : Seen e) {K1 : View} (hs : Settled K n e l K1)
    (hrest : ∀ k < 256, K1.vol.bytes (entryAt K.vol.bytes n l + k) = 0) : RemovalOK K.vol n e := by
  have heb := hp.lt he
  have hlb := hp.lt (e := l) (by omega)
  unfold Settled at hs
  split at hs
  · rename_i hgood
    exact ⟨hseen, hgood.imp_right fun hg => ⟨by omega, Or.inl hg.2⟩⟩
  rename_i hbad
  subst hs
  by_cases hel : e = l
  · subst hel
    refine ⟨hseen, Or.inr ⟨hl, Or.inr fun k hk => ?_⟩⟩
    have := hrest k hk
    rwa [store_bytes, put_in (by omega) (by omega), Nat.add_sub_cancel_left] at this
  · have hapart := h.entry_apart heb hlb hel
    have := hrest 0 (by decide)
    rw [Nat.add_zero, store_bytes, put_out (by omega), store_bytes, put_out (by omega)] at this
    exact absurd this (hp.named l (by omega))

section
variable {s : Sys}

theorem RemovalOK.of_removed (h : InodeAt z (.all s.vol) own ps a n) (hp : Packed (.all s.vol) n)
    (he : e < n.size / 256) (hc : childOf s.vol.bytes n e ≠ 0)
    (hu : ∀ f < n.size / 256, childOf s.vol.bytes n f = childOf s.vol.bytes n e → f = e) {s' : Sys}
    (hs' : removeLinkFromParent a (childOf s.vol.bytes n e) s = some (0, s'))
    (hrem : Removed z a (.all s.vol) own ps n e (.all s'.vol) own' ps' n') : RemovalOK s.vol n e := by
  obtain ⟨l, hl⟩ : ∃ l, l + 1 = n.size / 256 := ⟨n.size / 256 - 1, by omega⟩
  have hhold : (View.all s.vol).Holds s := holds_all.mpr rfl
  by_cases hseen : Seen e
  · obtain ⟨K1, K', own1, ps1, n1, hr, hsh, hset, hb⟩ := removeLink_seen h hp he hseen rfl hc hu hl
    obtain ⟨s1, hs1, hK'⟩ := hr.exec hhold
    obtain rfl := hsh.confined.keeps.all hK'
    obtain ⟨-, rfl⟩ := Prod.mk.inj (Option.some.inj (hs1.symm.trans hs'))
    obtain rfl : n1 = n' := hsh.inode.node.symm.trans hrem.inode.node
    have hceil := hsh.ceil
    have hsize := hsh.size
    have hwhole := hp.whole
    by_cases hmod : n.size % 4096 = 0
    · have hlb : l / 16 < n1.blocks := by omega
      refine settled_rest h.toMapAt hp he hl hseen hset fun k hk => ?_
      rw [← hrem.packed.rest l (by omega) (by omega) k hk, hsh.entryAt hlb, entryAt, Nat.add_assoc]
      exact (hb _ hlb _ (by omega)).symm
    · exact ⟨hseen, Or.inl hmod⟩
  · have hr := removeLink_unseen h hp hc fun f hf hf' hfe => hseen (hu f hf hfe ▸ hf')
    obtain ⟨s1, hs1, -⟩ := hr.exec hhold
    have := (Prod.mk.inj (Option.some.inj (hs1.symm.trans hs'))).1
    omega

/-- The removal is right exactly when `RemovalOK`. -/
theorem removeLinkFromParent_iff (h : InodeAt z (.all s.vol) own ps a n) (hp : Packed (.all s.vol) n)
    (he : e < n.size / 256) (hc : childOf s.vol.bytes n e ≠ 0)
    (hu : ∀ f < n.size / 256, childOf s.vol.bytes n f = childOf s.vol.bytes n e → f = e) :
    (∃ s' own' ps' n', removeLinkFromParent a (childOf s.vol.bytes n e) s = some (0, s') ∧
      Removed z a (.all s.vol) own ps n e (.all s'.vol) own' ps' n') ↔ RemovalOK s.vol n e := by
  constructor
  · rintro ⟨s', own', ps', n', hs', hrem⟩
    exact RemovalOK.of_removed h hp he hc hu hs' hrem
  · intro hok
    obtain ⟨l, hl⟩ : ∃ l, l + 1 = n.size / 256 := ⟨n.size / 256 - 1, by omega⟩
    obtain ⟨K1, K', own', ps', n', hr, hsh, hset, hb⟩ := removeLink_seen h hp he hok.1 rfl hc hu hl
    obtain ⟨s', hs', hK'⟩ := hr.exec (holds_all.mpr rfl)
    obtain rfl := hsh.confined.keeps.all hK'
    have hm := settled_moved h.toMapAt (hp.lt he) hl hok hset
    exact ⟨s', own', ps', n', hs', hsh.removed h.toMapAt hp he hl hm hb⟩

end

/-! ## A block full of entries -/

/-- The entries A, B, C, ..., for the slots of the inode table from the first one on. -/
def letters (t : Nat) : List (List UInt8 × Nat) := (List.range t).map fun e => ([UInt8.ofNat (65 + e)], 4096 + 256 * e)

def lettersDir (t : Nat) : Node := plainNode rootMode (256 * (letters t).length) 1 8192 1

/-- A disk with the root directory, of `t` entries, in the block behind the inode table,
    and empty files. -/
def lettersSys (blocks : Nat) (h : blocks < 2 ^ 52) (head t : Nat) : Sys :=
  imageSys blocks h head (fun a => if a = 4096 then some (lettersDir t) else some (plainNode 0x81A4 0 0 0 1))
    (fun x => dirBlocks (letters t) (x - 8192)) zeros

def lettersOwn (c : Nat) : Option Pos := if c = 8192 then some (.data 4096 0) else none

section
variable {blocks head t : Nat} {h : blocks < 2 ^ 52}

@[simp] theorem letters_length : (letters t).length = t := by simp [letters]

theorem letters_name (he : e < (letters t).length) (ht : t ≤ 16) : IsName (letters t)[e].1 := by
  have h : (letters t)[e].1 = [UInt8.ofNat (65 + e)] := by simp [letters]
  rw [letters_length] at he
  rw [h]
  refine ⟨List.cons_ne_nil _ _, by simp, fun c hc h0 => ?_⟩
  obtain rfl := List.mem_singleton.mp hc
  have := congrArg UInt8.toNat h0
  simp at this
  omega

theorem lettersOwn_has (h3 : 3 ≤ blocks) : ∀ c, lettersOwn c ≠ none → Zone.Has ⟨8192, 4096 * blocks⟩ c := by
  intro c hc
  unfold lettersOwn at hc
  split at hc
  · rename_i h
    subst h
    exact ⟨by decide, Nat.le_refl _, by show 8192 + 4096 ≤ 4096 * blocks; omega⟩
  · exact absurd rfl hc

/-- The directory is as it should be. -/
theorem letters_wf (hsp : Space ⟨8192, 4096 * blocks⟩ (.all (lettersSys blocks h head t).vol) lettersOwn ps) (h3 : 3 ≤ blocks)
    (h1 : 1 ≤ t) (h16 : t ≤ 16) :
    InodeAt ⟨8192, 4096 * blocks⟩ (.all (lettersSys blocks h head t).vol) lettersOwn ps 4096 (lettersDir t) ∧
      Packed (.all (lettersSys blocks h head t).vol) (lettersDir t) ∧ (lettersDir t).size = 256 * t ∧
      ∀ e < t, nameOf (lettersSys blocks h head t).vol.bytes (lettersDir t) e = [UInt8.ofNat (65 + e)] ∧
        childOf (lettersSys blocks h head t).vol.bytes (lettersDir t) e = 4096 + 256 * e := by
  have hf : (lettersDir t).Fits := by
    refine plainNode_fits (by decide) ?_ (by decide) (by decide) (by decide)
    rw [letters_length]
    omega
  have hi := image_inode (b := 8192) (t := 1) hsp (by omega) (by decide)
    (fun i hi => by cases i with | zero => exact if_pos rfl | succ i => omega)
    ⟨by decide, by decide, by decide⟩ (if_pos rfl) hf
  have hbyte : ∀ x < 4096, (lettersSys blocks h head t).vol.bytes (8192 + x) = dirBlocks (letters t) x := by
    intro x _
    have h' : (lettersSys blocks h head t).vol.bytes (8192 + x) = dirBlocks (letters t) (8192 + x - 8192) :=
      (congrFun imageSys_bytes _).trans (image_data (by omega))
    rwa [Nat.add_sub_cancel_left] at h'
  obtain ⟨hp, hat⟩ : Packed (.all (lettersSys blocks h head t).vol) (lettersDir t) ∧ ∀ e < 16 * 1,
      entryAt (lettersSys blocks h head t).vol.bytes (lettersDir t) e = 8192 + 256 * e :=
    plainNode_packed (by decide) (by rw [letters_length]; omega) (all_vis _) (fun e he => letters_name he h16) hbyte
  refine ⟨hi, hp, ?_, fun e he => ?_⟩
  · show 256 * (letters t).length = 256 * t
    rw [letters_length]
  · have hlen : e < (letters t).length := by rwa [letters_length]
    have he1 : (letters t)[e].1 = [UInt8.ofNat (65 + e)] := by simp [letters]
    have he2 : (letters t)[e].2 = 4096 + 256 * e := by simp [letters]
    have hb : ∀ k < 256, (lettersSys blocks h head t).vol.bytes (8192 + 256 * e + k) = dirBlocks (letters t) (256 * e + k) := by
      intro k hk
      rw [Nat.add_assoc]
      exact hbyte _ (by omega)
    have hname := dirBlocks_name hlen (letters_name hlen h16) hb
    have hchild := dirBlocks_addr hlen (by rw [he2]; omega) hb
    rw [nameOf, childOf, ← he2, ← hchild, ← he1, ← hname]
    exact ⟨congrArg _ (hat e (by omega)), congrArg _ (hat e (by omega))⟩

theorem letters_unique (hsp : Space ⟨8192, 4096 * blocks⟩ (.all (lettersSys blocks h head t).vol) lettersOwn ps)
    (h3 : 3 ≤ blocks) (h1 : 1 ≤ t) (h16 : t ≤ 16) (he : e < t) : ∀ f < (lettersDir t).size / 256,
    childOf (lettersSys blocks h head t).vol.bytes (lettersDir t) f =
      childOf (lettersSys blocks h head t).vol.bytes (lettersDir t) e → f = e := by
  obtain ⟨-, -, hs, hchild⟩ := letters_wf hsp h3 h1 h16
  intro f hf heq
  rw [(hchild f (by omega)).2, (hchild e he).2] at heq
  omega

/-- Without a free block. -/
theorem letters_full : Space ⟨8192, 4096 * 3⟩ (.all (lettersSys 3 (by decide) 0 t).vol) lettersOwn [] :=
  image_space (by decide : 2 ≤ 3) (lettersOwn_has (Nat.le_refl 3))

end

/-- Removing B from A, B, C works: C is moved to its place. -/
theorem removeLinkFromParent_three : ∃ s' own' ps' n', removeLinkFromParent 4096 4352 (lettersSys 3 (by decide) 0 3) = some (0, s') ∧
    Removed ⟨8192, 4096 * 3⟩ 4096 (.all (lettersSys 3 (by decide) 0 3).vol) lettersOwn [] (lettersDir 3) 1 (.all s'.vol)
      own' ps' n' := by
  obtain ⟨hi, hp, hs, hchild⟩ := letters_wf (t := 3) letters_full (by decide) (by decide) (by decide)
  have h1 := (hchild 1 (by decide)).2
  have hiff := removeLinkFromParent_iff hi hp (e := 1) (by rw [hs]; decide) (by rw [h1]; decide)
    (letters_unique letters_full (by decide) (by decide) (by decide) (by decide))
  rw [h1] at hiff
  exact hiff.mpr ⟨by decide, Or.inl (by rw [hs]; decide)⟩

/-- Removing B from A, ..., P goes wrong. -/
theorem removeLinkFromParent_sixteen :
    InodeAt ⟨8192, 4096 * 3⟩ (.all (lettersSys 3 (by decide) 0 16).vol) lettersOwn [] 4096 (lettersDir 16) ∧
      Packed (.all (lettersSys 3 (by decide) 0 16).vol) (lettersDir 16) ∧
      childOf (lettersSys 3 (by decide) 0 16).vol.bytes (lettersDir 16) 1 = 4352 ∧
      (∀ f < (lettersDir 16).size / 256,
        childOf (lettersSys 3 (by decide) 0 16).vol.bytes (lettersDir 16) f = 4352 → f = 1) ∧
      ¬ ∃ s' own' ps' n', removeLinkFromParent 4096 4352 (lettersSys 3 (by decide) 0 16) = some (0, s') ∧
        Removed ⟨8192, 4096 * 3⟩ 4096 (.all (lettersSys 3 (by decide) 0 16).vol) lettersOwn [] (lettersDir 16) 1 (.all s'.vol)
          own' ps' n' := by
  obtain ⟨hi, hp, hs, hchild⟩ := letters_wf (t := 16) letters_full (by decide) (by decide) (by decide)
  have h1 := (hchild 1 (by decide)).2
  have hu := letters_unique (t := 16) (e := 1) letters_full (by decide) (by decide) (by decide) (by decide)
  refine ⟨hi, hp, h1, by rwa [h1] at hu, ?_⟩
  rintro ⟨s', own', ps', n', hs', hrem⟩
  have hok := RemovalOK.of_removed hi hp (e := 1) (by rw [hs]; decide) (by rw [h1]; decide) hu (by rwa [h1]) hrem
  rw [RemovalOK, hs] at hok
  omega

end TyrantFS

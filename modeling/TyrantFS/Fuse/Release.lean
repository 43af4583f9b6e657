/-
  TyrantFS.Fuse.Release — the loops that give the blocks of an inode back.

  `Released F`: since the disk `K0` the blocks `F`, all of them data of inodes, went to
  the free list, and nothing else changed. No index page is among them, so the inode's
  map can still be read while its blocks are given back one by one.
-/
import TyrantFS.Fuse.Sound

namespace TyrantFS

open Lib Lib.PageTree

variable {z : Zone} {K0 K : View} {own : Nat → Option Pos} {ps0 ps : List Nat} {a b i left B : Nat} {n : Node} {F : List Nat}
  {drive : Int}

/-- The owners, without those of the blocks `F`. -/
def release (own : Nat → Option Pos) (F : List Nat) : Nat → Option Pos := fun c => if c ∈ F then none else own c

theorem release_nil : release own [] = own := funext fun _ => if_neg List.not_mem_nil

theorem release_cons : release own (b :: F) = assign (release own F) b none := by
  funext c
  unfold release assign
  by_cases hc : c = b
  · rw [if_pos hc, if_pos (by simp [hc])]
  · rw [if_neg hc]
    simp [hc]

theorem release_of_notMem {c : Nat} (h : c ∉ F) : release own F c = own c := if_neg h

/-- The inode with another block count. -/
def Node.cut (n : Node) (B : Nat) : Node := { n with blocks := B }

structure Released (z : Zone) (K0 : View) (own : Nat → Option Pos) (ps0 F : List Nat) (K : View) (ps : List Nat) : Prop where
  space : Space z K (release own F) ps
  free : (freeOrder K ps).Perm (F ++ freeOrder K0 ps0)
  keeps : Keeps (fun x => x < 8 ∨ ∃ b, (b ∈ F ∨ b ∈ freeOrder K0 ps0) ∧ b ≤ x ∧ x < b + 4096) K0 K
  data : ∀ b ∈ F, ∃ a i, own b = some (.data a i)

theorem Released.refl (h : Space z K0 own ps0) : Released z K0 own ps0 [] K0 ps0 :=
  ⟨release_nil.symm ▸ h, .refl _, Keeps.refl, fun _ hb => absurd hb List.not_mem_nil⟩

/-- One more block is given back. -/
theorem Released.step (h : Released z K0 own ps0 F K ps) (hd : 0 ≤ drive) (hb : own b = some (.data a i)) (hn : b ∉ F) :
    ∃ K' ps', Runs K (freeBlock drive b) 0 K' ∧ Released z K0 own ps0 (b :: F) K' ps' := by
  have hown : release own F b = some (.data a i) := (release_of_notMem hn).trans hb
  have hhas := h.space.owned b (by simp [hown])
  have hnf := h.space.owned_notFree hown
  obtain ⟨K', ps', hr, hg⟩ := freeBlock_runs h.space.list hd (h.space.owned_block hown) hnf
  refine ⟨K', ps', hr, ?_, hg.order.trans (h.free.cons b), ?_, fun c hc => ?_⟩
  · rw [release_cons]
    exact (h.space.assign hhas hnf).give hhas assign_self hg
  · refine (h.keeps.mono fun x hx => ?_).trans (hg.keeps.mono fun x hx => ?_)
    · rcases hx with hx | ⟨c, hc, hx⟩
      · exact Or.inl hx
      · exact Or.inr ⟨c, hc.imp_left (List.mem_cons_of_mem b), hx⟩
    · rcases hx with (hx | ⟨p, hp, hx⟩) | hx
      · exact Or.inl hx
      · have hm := h.free.mem_iff.mp (PageChain.mem_order.mpr (Or.inl hp))
        rcases List.mem_append.mp hm with hm | hm
        · exact Or.inr ⟨p, Or.inl (List.mem_cons_of_mem b hm), hx⟩
        · exact Or.inr ⟨p, Or.inr hm, hx⟩
      · exact Or.inr ⟨b, Or.inl List.mem_cons_self, hx⟩
  · rcases List.mem_cons.mp hc with rfl | hc
    · exact ⟨a, i, hb⟩
    · exact h.data c hc

/-- Bytes of a block that is neither free nor given back stay. -/
theorem Released.block (h : Released z K0 own ps0 F K ps) (h0 : Space z K0 own ps0) {p : Pos} (hb : own b = some p) (hn : b ∉ F)
    {x : Nat} (h1 : b ≤ x) (h2 : x < b + 4096) : K.vol.bytes x = K0.vol.bytes x := by
  have hhas := h0.owned b (by simp [hb])
  have hlow := hhas.low
  have h8 := h0.low
  refine h.keeps.bytes x ?_
  rintro (hx | ⟨c, hc | hc, hx⟩)
  · omega
  · obtain ⟨a', i', hown⟩ := h.data c hc
    have := hhas.apart (h0.owned c (by simp [hown])) fun e => hn (e ▸ hc)
    omega
  · have := hhas.apart (h0.free c hc).2 fun e => h0.owned_notFree hb (e ▸ hc)
    omega

theorem Released.maps (h : Released z K0 own ps0 F K ps) (h0 : Space z K0 own ps0) (hm : Maps K0 own a n) :
    Maps K own a n ∧ ∀ i < n.blocks, addrOf K.vol.bytes n i = addrOf K0.vol.bytes n i := by
  have hpage : ∀ c j π, own c = some (.page a j π) → ∀ x, c ≤ x → x < c + 4096 → K.vol.bytes x = K0.vol.bytes x := by
    intro c j π hc x h1 h2
    refine h.block h0 hc (fun hF => ?_) h1 h2
    obtain ⟨a', i', hown⟩ := h.data c hF
    rw [hc] at hown
    cases hown
  exact ⟨hm.keep hpage h.keeps.vis fun _ _ => rfl, fun i hi => hm.addr_frame hpage hi⟩

/-- The blocks in front of those given back are still an inode's map. -/
theorem Released.cut (h : Released z K0 own ps0 F K ps) (h0 : MapAt z K0 own ps0 a n) (hB : B ≤ n.blocks)
    (hF : ∀ i < B, addrOf K0.vol.bytes n i ∉ F) : MapAt z K (release own F) ps a (n.cut B) := by
  obtain ⟨hm, ha⟩ := h.maps h0.space h0.maps
  refine ⟨h.space, h0.low, h0.high, by rw [h.keeps.size]; exact h0.inside, h.keeps.sees h0.sees,
    hm.shrink (fun _ => rfl) hB (fun i hi => ?_) fun c j π hc => ?_⟩
  · have hi' : i < B := hi
    rw [ha i (by omega)]
    exact release_of_notMem (hF i hi')
  · refine release_of_notMem fun hcF => ?_
    obtain ⟨a', i', hown⟩ := h.data c hcF
    rw [hc] at hown
    cases hown

/-- Only the inodes whose blocks went back are touched. -/
theorem Released.confined {A : Nat → Prop} (h : Released z K0 own ps0 F K ps) (h0 : Space z K0 own ps0)
    (hA : ∀ b ∈ F, ∀ p, own b = some p → A p.inode) : Confined z A K0 own K (release own F) := by
  refine ⟨h.keeps.mono fun x hx => ?_, fun b p hb hp => (release_of_notMem fun hF => hp (hA b hF p hb)).trans hb⟩
  rcases hx with hx | ⟨b, hb | hb, h1, h2⟩
  · exact Or.inl hx
  · obtain ⟨a', i', hown⟩ := h.data b hb
    exact touch_owned (h0.owned b (by simp [hown])) hown (hA b hb _ hown) h1 h2
  · exact touch_free (h0.free b hb).2 (h0.free b hb).1 h1 h2

/-- The map can be read, also with a smaller block count. -/
theorem Released.get (h : Released z K0 own ps0 F K ps) (h0 : Space z K0 own ps0) (hm : Maps K0 own a n) (hB : B ≤ n.blocks) :
    Runs K (getIBlock (n.cut B) i) (if i < B then addrOf K0.vol.bytes n i else 0) K := by
  obtain ⟨hm', ha⟩ := h.maps h0 hm
  have hcut : Maps K own a (n.cut B) := hm'.shrink (fun _ => rfl) hB (fun _ _ => rfl) fun _ _ _ _ => rfl
  refine (getIBlock_runs hcut fun b p hb => ?_).result ?_
  · rw [h.keeps.size]
    exact h0.owned_block hb
  · show (if i < B then _ else _) = _
    by_cases hi : i < B
    · rw [if_pos hi, if_pos hi]
      exact (addrOf_root fun _ => rfl).trans (ha i (by omega))
    · rw [if_neg hi, if_neg hi]

/-! ## The loops -/

/-- Two blocks of an inode have two addresses. -/
theorem addr_ne (hm : Maps K0 own a n) {j k : Nat} (hj : j < n.blocks) (hk : k < n.blocks) (hne : j ≠ k) : addrOf K0.vol.bytes n j ≠ addrOf K0.vol.bytes n k := by
  intro e
  have h1 := hm.data j hj
  rw [e, hm.data k hk] at h1
  injection h1 with h1
  injection h1 with _ h1
  exact hne h1.symm

section
variable (h0 : Space z K0 own ps0) (hm : Maps K0 own a n) (hd : 0 ≤ drive)

include h0 hm hd

theorem freeBlocksUp_runs (h : Released z K0 own ps0 F K ps) (hl : i + left = n.blocks)
    (hF : ∀ k < n.blocks, i ≤ k → addrOf K0.vol.bytes n k ∉ F) :
    ∃ K' ps', Runs K (freeBlocksUp drive n left i) () K' ∧
      Released z K0 own ps0 (((List.range' i left).map (addrOf K0.vol.bytes n)).reverse ++ F) K' ps' := by
  induction left generalizing i F K ps with
  | zero => exact ⟨K, ps, Runs.pure, h⟩
  | succ left ih =>
    have hi : i < n.blocks := by omega
    have hget := h.get (i := i) h0 hm (Nat.le_refl _)
    rw [if_pos hi] at hget
    obtain ⟨K1, ps1, hr, h1⟩ := h.step hd (hm.data i hi) (hF i hi (Nat.le_refl i))
    obtain ⟨K2, ps2, hr2, h2⟩ := ih (i := i + 1) h1 (by omega) fun k hk hik hmem => by
      rcases List.mem_cons.mp hmem with e | hmem
      · exact addr_ne hm hk hi (by omega) e
      · exact hF k hk (by omega) hmem
    refine ⟨K2, ps2, hget.bind (hr.bind hr2), ?_⟩
    rwa [List.range'_succ, List.map_cons, List.reverse_cons, List.append_assoc]

theorem freeBlocksDown_runs (h : Released z K0 own ps0 F K ps) (hi : i ≤ n.blocks)
    (hF : ∀ k < i, addrOf K0.vol.bytes n k ∉ F) :
    ∃ K' ps', Runs K (freeBlocksDown drive n i) () K' ∧
      Released z K0 own ps0 ((List.range i).map (addrOf K0.vol.bytes n) ++ F) K' ps' := by
  induction i generalizing F K ps with
  | zero => exact ⟨K, ps, Runs.pure, h⟩
  | succ i ih =>
    have hget := h.get (i := i) h0 hm (Nat.le_refl _)
    rw [if_pos (by omega)] at hget
    obtain ⟨K1, ps1, hr, h1⟩ := h.step hd (hm.data i (by omega)) (hF i (Nat.lt_succ_self i))
    obtain ⟨K2, ps2, hr2, h2⟩ := ih h1 (by omega) fun k hk hmem => by
      rcases List.mem_cons.mp hmem with e | hmem
      · exact addr_ne hm (by omega) (by omega) (by omega) e
      · exact hF k (by omega) hmem
    refine ⟨K2, ps2, hget.bind (hr.bind hr2), ?_⟩
    rwa [List.range_succ, List.map_append, List.append_assoc]

/-- Block count and index meet halfway: only every other block is given back. -/
theorem truncateLoop_runs (h : Released z K0 own ps0 F K ps) (hB : B ≤ n.blocks) (hl : left ≤ B)
    (hF : ∀ k < n.blocks, i ≤ k → addrOf K0.vol.bytes n k ∉ F) :
    ∃ K' ps', Runs K (truncateLoop drive left i (n.cut B)) (n.cut (B - left)) K' ∧
      Released z K0 own ps0 (((List.range' i (min left ((B - i + 1) / 2))).map (addrOf K0.vol.bytes n)).reverse ++ F) K' ps' := by
  have hlt : n.blocks < 2 ^ 64 := Nat.lt_of_le_of_lt hm.cap (by decide +kernel)
  induction left generalizing i B F K ps with
  | zero =>
    refine ⟨K, ps, Runs.pure, ?_⟩
    rw [Nat.zero_min]
    exact h
  | succ left ih =>
    have hget := h.get (i := i) h0 hm hB
    have hu : u64 (((n.cut B).blocks : Int) - 1) = B - 1 := by
      show u64 ((B : Int) - 1) = B - 1
      rw [show (B : Int) - 1 = (B - 1 : Nat) by omega, u64_ofNat (by omega)]
    have hnext : B - 1 - left = B - (left + 1) := by omega
    unfold truncateLoop
    rw [hu]
    by_cases hi : i < B
    · rw [if_pos hi] at hget
      obtain ⟨K1, ps1, hr, h1⟩ := h.step hd (hm.data i (by omega)) (hF i (by omega) (Nat.le_refl i))
      obtain ⟨K2, ps2, hr2, h2⟩ := ih (i := i + 1) (B := B - 1) h1 (by omega) (by omega) fun k hk hik hmem => by
        rcases List.mem_cons.mp hmem with e | hmem
        · exact addr_ne hm hk (by omega) (by omega) e
        · exact hF k hk (by omega) hmem
      refine ⟨K2, ps2, hget.bind (hr.bind ?_), ?_⟩
      · rw [← hnext]
        exact hr2
      · rw [show min (left + 1) ((B - i + 1) / 2) = min left ((B - 1 - (i + 1) + 1) / 2) + 1 by omega, List.range'_succ,
          List.map_cons, List.reverse_cons, List.append_assoc]
        exact h2
    · rw [if_neg hi] at hget
      have hskip : Runs K (freeBlock drive 0) (-1) K := by
        unfold freeBlock
        rw [if_pos (Or.inr rfl)]
        exact Runs.pure
      obtain ⟨K2, ps2, hr2, h2⟩ := ih (i := i + 1) (B := B - 1) h (by omega) (by omega) fun k hk hik => hF k hk (by omega)
      refine ⟨K2, ps2, hget.bind (hskip.bind ?_), ?_⟩
      · rw [← hnext]
        exact hr2
      · -- past the last block there is nothing left to give back
        have e1 : min (left + 1) ((B - i + 1) / 2) = 0 := by omega
        have e2 : min left ((B - 1 - (i + 1) + 1) / 2) = 0 := by omega
        rw [e2] at h2
        rw [e1]
        exact h2

end

end TyrantFS

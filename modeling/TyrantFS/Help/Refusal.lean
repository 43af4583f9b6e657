/-
  TyrantFS.Help.Refusal — `add_to_directory`, when it does not add.

  A call that does not return 0 has changed nothing, or `add_block_to_node` has failed
  in it (`addToDirectory_ends`). What the block held that the directory got does not
  matter: it is wiped before the entry is put there.
-/
import TyrantFS.Help.Insertion
import TyrantFS.Help.Grow

namespace TyrantFS

open Lib Lib.PageTree

variable {z : Zone} {K : View} {own : Nat → Option Pos} {ps : List Nat} {a b c left u : Nat} {n p q : Node} {name : List UInt8}
  {temp : Mem}

/-! ## The scan -/

theorem addAddrScan_full (hb : IsBlock K.vol.size b) (hv : K.Sees b 4096) (hl : u + left = 16)
    (hused : ∀ j < 16, K.vol.bytes (b + 256 * j) ≠ 0) {x : UInt8} :
    Runs K (addAddrScan a b c p q temp left (256 * u) x) (-1) K := by
  have hin := hb.inside
  induction left generalizing u x with
  | zero => exact Runs.pure
  | succ left ih =>
    unfold addAddrScan
    refine (readBlock_fits (o := 256 * u) rfl hb.pos (by omega) (by omega) (hv.mono (by omega) (by omega))).bind ?_
    simp only [clip_lt (Nat.zero_lt_one), Nat.add_zero]
    rw [if_neg (hused u (by omega))]
    exact ih (u := u + 1) (by omega)

/-- The scan of a block finds a slot, or nothing changes. -/
theorem addAddrScan_ends (hb : IsBlock K.vol.size b) (hv : K.Sees b 4096) (ha : a + 256 ≤ K.vol.size) (hc : c + 256 ≤ K.vol.size) :
    Ensures K.Holds (addAddrScan a b c p q temp 16 0 0) fun r s => r = 0 ∨ r ≠ 0 ∧ K.Holds s := by
  by_cases h : ∃ t < 16, K.vol.bytes (b + 256 * t) = 0
  · classical
    obtain ⟨ht, hfree⟩ := Nat.find_spec h
    have hrun : Runs K (addAddrScan a b c p q temp 16 (256 * 0) 0) 0 _ :=
      addAddrScan_runs hb hv ha hc (Nat.zero_le (Nat.find h)) ht (Nat.zero_add 16)
        (fun j _ hj h0 => Nat.find_min h hj ⟨by omega, h0⟩) hfree
    exact Returns.ensures hrun fun s _ => Or.inl rfl
  · have hrun : Runs K (addAddrScan a b c p q temp 16 (256 * 0) 0) (-1) K :=
      addAddrScan_full hb hv (Nat.zero_add 16) fun j hj h0 => h ⟨j, hj, h0⟩
    exact Returns.ensures hrun fun s hs => Or.inr ⟨by decide, hs⟩

theorem addAddr_ends (hv : ∀ x, K.vis x) (ha0 : a ≠ 0) (hc0 : c ≠ 0) (ha : a + 256 ≤ K.vol.size) (hc : c + 256 ≤ K.vol.size)
    (hb : b = 0 ∨ IsBlock K.vol.size b) : Ensures K.Holds (addAddr a b c name) fun r s => r = 0 ∨ r ≠ 0 ∧ K.Holds s := by
  unfold addAddr
  by_cases h0 : b = 0
  · rw [if_pos (Or.inl h0)]
    exact Ensures.pure fun s hs => Or.inr ⟨by decide, hs⟩
  · rw [if_neg (by omega)]
    refine environ_runs.next ((fetchNode_runs ha0 (by omega) fun x _ => hv _).next ((fetchNode_runs hc0 (by omega) fun x _ => hv _).next ?_))
    exact addAddrScan_ends (hb.resolve_left h0) (fun x _ => hv _) ha hc

/-- Into a block that is wiped first the entry always goes, whatever the disk holds. -/
theorem addAddr_wiped {N : Nat} (name : List UInt8) (hb : IsBlock N b) (ha0 : a ≠ 0) (hc0 : c ≠ 0) (ha : a + 256 ≤ N) (hc : c + 256 ≤ N) :
    Ensures (Sized N) (do
      let _ ← writeBlock zeros b 0 4096
      addAddr a b c name) fun r _ => r = 0 := by
  intro s hs
  have hin := hb.inside
  have hsize : s.vol.size = N := hs
  have hwipe : Runs (.all s.vol) (writeBlock zeros b 0 4096) 4096 ((View.all s.vol).store (b + 0) 4096 zeros) :=
    writeBlock_fits (o := 0) rfl (by decide) (by rw [all_vol, hsize]; exact hin)
  rw [Nat.add_zero] at hwipe
  have hb' : IsBlock ((View.all s.vol).store b 4096 zeros).vol.size b := by rwa [store_size, all_vol, hsize]
  have hvis : ∀ x, ((View.all s.vol).store b 4096 zeros).vis x := fun x => Or.inl (all_vis _ _)
  have hscan : ∀ p q temp, Runs ((View.all s.vol).store b 4096 zeros) (addAddrScan a b c p q temp 16 (256 * 0) 0) 0 _ := fun p q temp =>
    addAddrScan_runs hb' (fun x _ => hvis _) (by rw [store_size, all_vol, hsize]; exact ha) (by rw [store_size, all_vol, hsize]; exact hc)
      (Nat.le_refl 0) (by decide) (Nat.zero_add 16) (fun j _ hj => absurd hj (Nat.not_lt_zero j))
      (by rw [store_bytes, put_in (by omega) (by omega)]; rfl)
  have hadd : Ensures ((View.all s.vol).store b 4096 zeros).Holds (addAddr a b c name) fun r _ => r = 0 := by
    unfold addAddr
    have hb0 := hb.pos
    rw [if_neg (by omega)]
    refine environ_runs.next ((fetchNode_runs ha0 (by rw [store_size, all_vol]; omega) fun x _ => hvis _).next
      ((fetchNode_runs hc0 (by rw [store_size, all_vol]; omega) fun x _ => hvis _).next ?_))
    exact Returns.ensures (hscan _ _ _) fun _ _ => rfl
  exact hwipe.next hadd s (holds_all.mpr rfl)

/-! ## An inode with all the blocks the map can hold -/

theorem linkPage_there {drive : Int} {store : Nat → M Unit} {p : Nat} (h : p ≠ 0) : Runs K (linkPage drive b p store) p K := by
  unfold linkPage
  rw [if_pos h]
  exact Runs.pure

/-- No block is free for a page. -/
theorem linkPage_none {drive : Int} (store : Nat → M Unit) (hl : FreeList K []) (hd : 0 ≤ drive) (hb : IsBlock K.vol.size b) :
    ∃ K' ps', Runs K (linkPage drive b 0 store) 0 K' ∧ Given K [] b K' ps' := by
  obtain ⟨K', ps', hgive, hg⟩ := freeBlock_runs hl hd hb List.not_mem_nil
  refine ⟨K', ps', ?_, hg⟩
  unfold linkPage
  rw [if_neg fun h => h rfl]
  refine (allocateBlock_none _ hl).bind ?_
  rw [if_pos rfl]
  exact hgive.bind Runs.pure

/-- With two free blocks: the second one, which is clear, becomes a page that is not
    entered, and then there is none for the next page. -/
theorem Base.last_fails (h : Base z K own ps a n) (hv : ∀ x, K.vis x) (hc : n.blocks = capacity) (h2 : (freeOrder K ps).length = 2) :
    Ensures K.Holds (addBlockToNode n a) fun r _ => r.1 = 0 := by
  have hlow := h.low
  have hhigh := h.high
  have hin := h.inside
  have hd := h.space.drive
  -- the slot of the root is the one behind the last, the slot below it the first
  have hcap : n.blocks - 12 - 512 - 512 * 512 = 512 ^ 3 := by
    unfold capacity at hc
    omega
  obtain ⟨k, hk⟩ : ∃ k, k = (n.blocks - 12 - 512 - 512 * 512) / (512 * 512) := ⟨_, rfl⟩
  obtain ⟨l, hl⟩ : ∃ l, l = (n.blocks - 12 - 512 - 512 * 512) % (512 * 512) / 512 := ⟨_, rfl⟩
  have hk512 : ¬ k < 512 := by rw [hk, hcap]; decide
  have hl0 : l = 0 := by rw [hl, hcap]; rfl
  have h14 : n.trplIndirect ≠ 0 := h.full (by omega)
  have hroot : own n.trplIndirect = some (.page a 14 []) := h.roots 14 (by decide) (by decide) h14
  obtain ⟨b, q, hfo⟩ := List.length_eq_two.mp h2
  obtain ⟨K1, ps1, halloc, hk1⟩ := allocateBlock_some K.vol.glob.drive h.space.list hfo
  obtain ⟨hsp1, hbn, -, hbz⟩ := h.space.take hk1
  have hfo1 : freeOrder K1 ps1 = [q] := by
    have := hk1.order
    rw [hfo] at this
    exact (List.cons.inj this).2.symm
  obtain ⟨K2, ps2, hpage, hk2⟩ := allocateBlock_some K.vol.glob.drive hsp1.list hfo1
  obtain ⟨hsp2, hqn, -, hqz⟩ := hsp1.take hk2
  obtain rfl : ps2 = [] := by
    have := hk2.order
    rw [hfo1] at this
    exact nil_of_freeOrder (K := K2) (List.cons.inj this).2.symm
  -- the last free block is a page of the chain
  have hq1 : q ∈ ps1 := by
    obtain ⟨x, hx⟩ := List.exists_mem_of_ne_nil ps1 fun e => by
      rw [e] at hfo1
      cases hfo1
    have : x ∈ freeOrder K1 ps1 := PageChain.mem_order.mpr (Or.inl hx)
    rw [hfo1, List.mem_singleton] at this
    exact this ▸ hx
  have hs1 : K1.vol.size = K.vol.size := hk1.keeps.size
  have hs2 : K2.vol.size = K.vol.size := hk2.keeps.size.trans hs1
  have hv1 : ∀ x, K1.vis x := fun x => hk1.keeps.vis x (hv x)
  have hqb := hsp2.block hqz
  have hqin := hqb.inside
  have hlt := K2.vol.size_lt
  have hread := readRoot_runs (k := k) (hsp1.owned_block hroot) hv1
  rw [if_neg hk512] at hread
  obtain ⟨x, K3, hwrite, hk3, -⟩ := writeRoot_runs (k := k) (hsp2.owned_block hroot) (show q < 2 ^ 64 by omega)
  have hs3 : K3.vol.size = K.vol.size := hk3.size.trans hs2
  have hstore : Runs K2 (storeChild n a n.trplIndirect ↑(k * 8) q) () (K3.store a 208 n.encode) :=
    hwrite.bind ((commitInode_runs (by rw [hs3]; omega)).bind Runs.pure)
  have hk4 : Keeps (fun x => a ≤ x ∧ x < a + 208) K2 (K3.store a 208 n.encode) :=
    (hk3.mono fun x hx => absurd hx.1 hk512).trans (Keeps.store fun x h1 h2 => ⟨h1, h2⟩)
  obtain ⟨hsp4, -⟩ := hsp2.keep hk4 (fun x hx => by omega) fun x d _ hd => absurd hd List.not_mem_nil
  have hqlow := hqz.low
  have hclear : slot (K3.store a 208 n.encode).vol.bytes q l = 0 := by
    rw [slot_of_ne hqb.pos]
    refine word_eq_zero fun k hk => ?_
    rw [hk4.bytes _ (by omega), hl0, Nat.mul_zero, Nat.add_zero]
    exact hk2.clean hq1 k (by omega)
  have hleaf : Runs (K3.store a 208 n.encode) (readAddr 0 q ↑(l * 8)) (slot (K3.store a 208 n.encode).vol.bytes q l)
      (K3.store a 208 n.encode) := readSlot_runs (hsp4.block hqz) (by omega) fun x _ => hk4.vis _ (hk2.keeps.vis _ (hv1 _))
  rw [hclear] at hleaf
  obtain ⟨K5, ps5, hnone, -⟩ := linkPage_none (storeChild n a q ↑(l * 8)) hsp4.list hd (hsp4.block hbz)
  have hlink : Runs K1 (linkPage K.vol.glob.drive b 0 (storeChild n a n.trplIndirect ↑(k * 8))) q (K3.store a 208 n.encode) := by
    unfold linkPage
    rw [if_neg fun h => h rfl]
    refine hpage.bind ?_
    rw [if_neg hqb.pos]
    exact hstore.bind Runs.pure
  have hpos := (hsp1.block hbz).pos
  have hrun : Runs K (addBlockToNode n a) (0, n) K5 := by
    unfold addBlockToNode
    rw [if_neg (by omega)]
    refine globals_runs.bind (halloc.bind ?_)
    rw [if_neg hpos, if_neg (by omega)]
    dsimp only
    rw [if_neg (by omega), if_neg (by omega), if_neg (by omega)]
    unfold addBlockTrpl
    subst hk hl
    refine (linkPage_there h14).bind ?_
    rw [if_neg h14]
    refine hread.bind (hlink.bind ?_)
    rw [if_neg hqb.pos]
    refine hleaf.bind (hnone.bind ?_)
    rw [if_pos rfl]
    exact Runs.pure
  exact Returns.ensures hrun fun _ _ => rfl

/-! ## The call -/

theorem addToDirectory_ends (h : FileAt z K own ps a n) (hv : ∀ x, K.vis x) (hn : nodeAt K.vol.bytes a = n) (hc0 : c ≠ 0)
    (hc : c + 256 ≤ K.vol.size) : Ensures K.Holds (addToDirectory a c name) fun r s =>
      r = 0 ∨ r ≠ 0 ∧ (n.size % 4096 ≠ 0 ∧ K.Holds s ∨ n.size % 4096 = 0 ∧ ∃ n', Fails z a K own ps n n' s) := by
  have hlow := h.low
  have hhigh := h.high
  have hin := h.inside
  have hfetch : Runs K (fetchNode a) n K := by
    rw [← hn]
    exact fetchNode_runs (by omega) (by omega) fun x _ => hv _
  unfold addToDirectory
  rw [if_neg (by omega)]
  refine hfetch.next ((fetchNode_runs hc0 (by omega) fun x _ => hv _).next ?_)
  by_cases hm : n.size % 4096 = 0
  · rw [if_pos hm]
    refine (addBlockToNode_ends h hv).bind fun ⟨b, n'⟩ => ?_
    dsimp only
    by_cases h0 : b = 0
    · rw [if_pos h0]
      refine Ensures.pure fun s hs => Or.inr ⟨by decide, Or.inr ⟨hm, n', ?_⟩⟩
      rcases hs with ⟨hs, -⟩ | ⟨-, hs⟩
      · exact absurd h0 (h.space.list.block b hs).pos
      · exact hs
    · rw [if_neg h0]
      rintro s (⟨hmem, hs⟩ | ⟨e, -⟩)
      · have hadd := addAddr_wiped (a := a) name (h.space.list.block b hmem) (by omega) hc0 (by omega) hc
        exact (hadd.post fun _ _ => Or.inl) s hs
      · exact absurd e h0
  · rw [if_neg hm]
    have hcap : n.blocks < 2 ^ 32 := Nat.lt_of_le_of_lt h.used.cap (by decide +kernel)
    have hget := h.used.get (i := u64 (n.blocks - 1)) fun _ _ => h.space.owned_block
    refine hget.next ((addAddr_ends hv (by omega) hc0 (by omega) hc ?_).post fun r s hs => ?_)
    · split
      · exact Or.inr (h.block ‹_›)
      · exact Or.inl rfl
    · exact hs.imp_right fun hs => ⟨hs.1, Or.inl ⟨hm, hs.2⟩⟩

/-- Two free blocks are no use to a directory of the greatest size whose blocks are full. -/
theorem addToDirectory_last_fails (h : FileAt z K own ps a n) (hv : ∀ x, K.vis x) (hn : nodeAt K.vol.bytes a = n) (hc0 : c ≠ 0)
    (hc : c + 256 ≤ K.vol.size) (hm : n.size % 4096 = 0) (hfull : n.blocks = capacity) (h2 : (freeOrder K ps).length = 2) :
    Ensures K.Holds (addToDirectory a c name) fun r _ => r ≠ 0 := by
  have hlow := h.low
  have hhigh := h.high
  have hin := h.inside
  have hfetch : Runs K (fetchNode a) n K := by
    rw [← hn]
    exact fetchNode_runs (by omega) (by omega) fun x _ => hv _
  unfold addToDirectory
  rw [if_neg (by omega)]
  refine hfetch.next ((fetchNode_runs hc0 (by omega) fun x _ => hv _).next ?_)
  rw [if_pos hm]
  refine (h.base.last_fails hv hfull h2).bind fun ⟨b, n'⟩ => ?_
  by_cases h0 : b = 0
  · dsimp only
    rw [if_pos h0]
    exact Ensures.pure fun _ _ => by decide
  · exact fun s hs => absurd hs h0

end TyrantFS

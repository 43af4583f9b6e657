/-
  TyrantFS.Help.Limit — `add_block_to_node` on an inode that has all the blocks the map
  can hold.

  There is no test for it. The slot of the third tree's root would be number 512, behind
  the page: reading it reads nothing, so a page is taken, and entering that page writes
  nothing. With a second free block the call takes it (`Base.takes_two`), so it refuses
  only as long as at most one is free.
-/
import TyrantFS.Help.Largest

namespace TyrantFS

open Lib Lib.PageTree

variable {z : Zone} {K K' : View} {own : Nat → Option Pos} {ps ps' : List Nat} {a b q : Nat} {n : Node} {s : Sys} {v v' : Vol}

/-- A well-formed inode with at least as many blocks as the map can hold. -/
structure AtLimit (z : Zone) (v : Vol) (own : Nat → Option Pos) (ps : List Nat) (a : Nat) (n : Node) : Prop where
  file : FileAt z (.all v) own ps a { n with blocks := capacity }
  fits : n.Fits
  blocks : capacity ≤ n.blocks
  node : nodeAt v.bytes a = n

/-- The inode, its index pages and the free blocks are the same. -/
structure LeftAlone (own : Nat → Option Pos) (ps : List Nat) (a : Nat) (v v' : Vol) : Prop where
  slot : ∀ x, a ≤ x → x < a + 256 → v'.bytes x = v.bytes x
  pages : ∀ c j π, own c = some (.page a j π) → ∀ x, c ≤ x → x < c + 4096 → v'.bytes x = v.bytes x
  free : ∃ ps', FreeList (.all v') ps' ∧ (freeOrder (.all v') ps').Perm (freeOrder (.all v) ps)

/-- The call returns 0 and changes nothing. -/
def RefusesToGrow (own : Nat → Option Pos) (ps : List Nat) (a : Nat) (n : Node) (s : Sys) : Prop :=
  ∃ s', addBlockToNode n a s = some ((0, n), s') ∧ LeftAlone own ps a s.vol s'.vol

theorem AtLimit.base (h : AtLimit z v own ps a n) : Base z (.all v) own ps a n :=
  ⟨h.file.space, h.file.low, h.file.high, h.file.inside, h.file.sees, h.fits, h.file.roots,
    fun _ => h.file.root_ne rfl (by decide) (by decide)⟩

/-- It is no use that a call finds a block, and not that it finds two. -/
theorem Base.takes_two (h : Base z (.all s.vol) own ps a n) (hmax : n.blocks ≠ 2 ^ 64 - 1)
    (h2 : 2 ≤ (freeOrder (.all s.vol) ps).length) : ¬ RefusesToGrow own ps a n s := by
  rintro ⟨s', hrun, hleft⟩
  obtain ⟨r, s1, hrun', hends⟩ := addBlockToNode_tries h (fun _ => trivial) hmax s (holds_all.mpr rfl)
  rw [hrun] at hrun'
  obtain ⟨rfl, rfl⟩ : ((0 : Nat), n) = r ∧ s' = s1 := by simpa using hrun'
  rcases hends with ⟨hm, -⟩ | ⟨-, L, K, own', ps', hs, hf⟩
  · exact (h.space.list.block 0 hm).pos rfl
  · -- one block is left, the others are in `L`
    obtain rfl : K = .all s'.vol := hf.keeps.all hs
    obtain ⟨ps1, hlist, hperm⟩ := hleft.free
    obtain rfl := hlist.unique hf.space.list
    have hshort := hf.short
    rw [hperm.length_eq] at hshort
    omega

theorem LeftAlone.of_confined (h : Base z (.all v) own ps a n) (hc : Confined z (fun _ => False) (.all v) own (.all v') own)
    (hl : FreeList (.all v') ps') (hp : (freeOrder (.all v') ps').Perm (freeOrder (.all v) ps)) : LeftAlone own ps a v v' :=
  ⟨fun _ h1 h2 => hc.slot h.low h.high (fun _ hA => hA.elim) h1 h2,
    fun _ _ _ hown => (hc.block h.space hown (fun hA => hA) fun _ hA => hA.elim).2, ps', hl, hp⟩

/-- A block that was taken and goes back at once leaves nothing. -/
theorem Base.giveBack (h : Base z (.all v) own ps a n) (hk : Taken (.all v) ps b K ps') :
    ∃ K', Runs K (freeBlock v.glob.drive b) 0 K' ∧ ∀ s, K'.Holds s → LeftAlone own ps a v s.vol := by
  obtain ⟨hsp, hn, ho, hz⟩ := h.space.take hk
  obtain ⟨K', ps1, hrun, hg⟩ := freeBlock_runs hsp.list h.space.drive (hsp.block hz) hn
  refine ⟨K', hrun, fun s hs => ?_⟩
  have hc : Confined z (fun _ => False) (.all v) own K' own := (h.space.take_confined hk).trans (hsp.give_confined hz ho hg)
  obtain rfl : K' = .all s.vol := hc.keeps.all hs
  refine .of_confined h hc hg.free ?_
  rw [hk.order]
  exact hg.order

/-- With one free block the call finds no page for it. -/
theorem Base.trpl_fails (h : Base z (.all v) own ps a n) (hc : capacity ≤ n.blocks) (hk : Taken (.all v) ps b K []) :
    ∃ K', Runs K (addBlockTrpl v.glob.drive n a b) (0, n) K' ∧ ∀ s, K'.Holds s → LeftAlone own ps a v s.vol := by
  obtain ⟨K', hgive, hleft⟩ := h.giveBack hk
  obtain ⟨hsp, -, -, -⟩ := h.space.take hk
  have h0 := h.full hc
  have hroot := h.roots 14 (by decide) (by decide) h0
  have hread := readRoot_runs (K := K) (k := (n.blocks - 12 - 512 - 512 * 512) / (512 * 512)) (hsp.owned_block hroot)
    fun x => hk.keeps.vis x trivial
  unfold capacity at hc
  rw [if_neg (by omega)] at hread
  refine ⟨K', ?_, hleft⟩
  have hlink : Runs K (linkPage v.glob.drive b n.trplIndirect fun p => do
      let _ ← commitInode { n with trplIndirect := p } a
      Pure.pure ()) n.trplIndirect K := by
    unfold linkPage
    rw [if_pos (show n.trplIndirect ≠ 0 from h0)]
    exact Runs.pure
  have hnone : ∀ store, Runs K (linkPage v.glob.drive b 0 store) 0 K' := by
    intro store
    unfold linkPage
    rw [if_neg fun h => h rfl]
    refine (allocateBlock_none _ hsp.list).bind ?_
    rw [if_pos rfl]
    exact hgive.bind Runs.pure
  unfold addBlockTrpl
  refine hlink.bind ?_
  rw [if_neg (show n.trplIndirect ≠ 0 from h0)]
  refine hread.bind ((hnone _).bind ?_)
  rw [if_pos rfl]
  exact Runs.pure

theorem Base.refuses (h : Base z (.all s.vol) own ps a n) (hc : capacity ≤ n.blocks)
    (hcond : (freeOrder (.all s.vol) ps).length ≤ 1 ∨ n.blocks = 2 ^ 64 - 1) : RefusesToGrow own ps a n s := by
  have hlow := h.low
  obtain ⟨K', hrun, hleft⟩ : ∃ K', Runs (.all s.vol) (addBlockToNode n a) (0, n) K' ∧ ∀ s', K'.Holds s' →
      LeftAlone own ps a s.vol s'.vol := by
    unfold addBlockToNode
    rw [if_neg (by omega)]
    rcases hfo : freeOrder (.all s.vol) ps with _ | ⟨b, rest⟩
    · obtain rfl : ps = [] := nil_of_freeOrder hfo
      refine ⟨.all s.vol, globals_runs.bind ((allocateBlock_none _ h.space.list).bind Runs.pure), fun s' hs => ?_⟩
      rw [holds_all.mp hs]
      exact .of_confined h Confined.refl h.space.list (.refl _)
    obtain ⟨K, ps1, halloc, hk⟩ := allocateBlock_some s.vol.glob.drive h.space.list hfo
    have hpos := (h.space.list.block b (show b ∈ freeOrder (.all s.vol) ps by rw [hfo]; exact List.mem_cons_self)).pos
    by_cases hmax : n.blocks = 2 ^ 64 - 1
    · obtain ⟨K', hgive, hleft⟩ := h.giveBack hk
      refine ⟨K', globals_runs.bind (halloc.bind ?_), hleft⟩
      rw [if_neg hpos, if_pos hmax]
      exact hgive.bind Runs.pure
    · have hlen := congrArg List.length hk.order
      rw [hfo, List.length_cons, List.length_cons] at hlen
      rw [hfo, List.length_cons] at hcond
      obtain rfl : ps1 = [] := nil_of_freeOrder (K := K) (List.eq_nil_of_length_eq_zero (by omega))
      obtain ⟨K', htrpl, hleft⟩ := h.trpl_fails hc hk
      refine ⟨K', globals_runs.bind (halloc.bind ?_), hleft⟩
      unfold capacity at hc
      rw [if_neg hpos, if_neg hmax]
      dsimp only
      rw [if_neg (by omega), if_neg (by omega), if_neg (by omega)]
      exact htrpl
  obtain ⟨s', hs', hK⟩ := hrun.exec (holds_all.mpr rfl)
  exact ⟨s', hs', hleft s' hK⟩

/-- The call refuses to grow an inode of the greatest size exactly when at most one block
    is free (or `blocks` is UINT64_MAX, which is tested for). -/
theorem addBlockToNode_refuses_iff (h : AtLimit z s.vol own ps a n) :
    RefusesToGrow own ps a n s ↔ (freeOrder (.all s.vol) ps).length ≤ 1 ∨ n.blocks = 2 ^ 64 - 1 := by
  constructor
  · intro hr
    by_contra hno
    rw [not_or] at hno
    exact h.base.takes_two hno.2 (by omega) hr
  · exact h.base.refuses h.blocks

theorem largest_atLimit {head : Nat} {ps : List Nat}
    (hsp : Space ⟨8192, 4096 * largestBlocks⟩ (.all (largestSys head).vol) (spreadOwn 8192 4352) ps) :
    AtLimit ⟨8192, 4096 * largestBlocks⟩ (largestSys head).vol (spreadOwn 8192 4352) ps 4352 largestNode :=
  ⟨largest_file hsp, largestNode_fits, Nat.le_refl _, largest_node head⟩

/-- Without a free block nothing happens. -/
theorem addBlockToNode_refuses_full : RefusesToGrow (spreadOwn 8192 4352) [] 4352 largestNode (largestSys 0) :=
  (addBlockToNode_refuses_iff (largest_atLimit largest_space_full)).mpr (Or.inl (Nat.zero_le 1))

/-- With two free blocks the call does not refuse. -/
theorem addBlockToNode_takes_two :
    AtLimit ⟨8192, 4096 * largestBlocks⟩ (largestSys largestFree).vol (spreadOwn 8192 4352) [largestFree] 4352 largestNode ∧
      ¬ RefusesToGrow (spreadOwn 8192 4352) [largestFree] 4352 largestNode (largestSys largestFree) := by
  have h := largest_atLimit largest_space
  refine ⟨h, h.base.takes_two ?_ ?_⟩
  · show capacity ≠ 2 ^ 64 - 1
    unfold capacity
    omega
  · rw [largest_order]
    decide

end TyrantFS

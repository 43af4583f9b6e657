/-
  TyrantFS.Fuse.Truncate — `tfs_truncate`.

  Making a file of `n.blocks` blocks shorter should give back the blocks behind the one
  that holds the new end, those from index `length / 4096 + 1` on. The loop counts its
  index up and the inode's blocks down at once, and `get_i_block` finds nothing at an
  index past the count: of the blocks to give back only the first half is, the others
  are lost (`tfsTruncate_runs`). So the call is right when there is at most one
  (`tfsTruncate_iff`).
-/
import TyrantFS.Fuse.Release

namespace TyrantFS

open Lib Lib.PageTree

variable {z : Zone} {K K' : View} {own own' : Nat → Option Pos} {ps ps' F : List Nat} {a i length : Nat} {n n' : Node}
  {path : List UInt8} {P : Sys → Prop}

/-- The addresses of the inode's blocks from index `i` on. -/
def blocksFrom (m : Mem) (n : Node) (i : Nat) : List Nat := (List.range' i (n.blocks - i)).map (addrOf m n)

/-- What cutting the file down to `length` bytes should leave. -/
structure Cut (z : Zone) (a length : Nat) (K : View) (ps : List Nat) (n : Node) (K' : View) (own' : Nat → Option Pos)
    (ps' : List Nat) (n' : Node) : Prop where
  inode : InodeAt z K' own' ps' a n'
  size : n'.size = length
  addr : ∀ i < n'.blocks, addrOf K'.vol.bytes n' i = addrOf K.vol.bytes n i
  free : (freeOrder K' ps').Perm (blocksFrom K.vol.bytes n (length / 4096 + 1) ++ freeOrder K ps)
  whole : (blocksFrom K'.vol.bytes n' 0 ++ blocksFrom K.vol.bytes n (length / 4096 + 1)).Perm (blocksFrom K.vol.bytes n 0)

/-- What it leaves, when the blocks `F` go back to the free list. -/
structure Trimmed (z : Zone) (a length : Nat) (K : View) (own : Nat → Option Pos) (ps : List Nat) (n : Node) (F : List Nat)
    (K' : View) (ps' : List Nat) (n' : Node) : Prop where
  inode : InodeAt z K' (release own F) ps' a n'
  size : n'.size = length
  blocks : n'.blocks = length / 4096 + 1
  mode : n'.mode = n.mode
  addr : ∀ i < n'.blocks, addrOf K'.vol.bytes n' i = addrOf K.vol.bytes n i
  data : ∀ i < n'.blocks, ∀ k < 4096, K'.vol.bytes (addrOf K.vol.bytes n i + k) = K.vol.bytes (addrOf K.vol.bytes n i + k)
  free : (freeOrder K' ps').Perm (F ++ freeOrder K ps)
  confined : Confined z (· = a) K own K' (release own F)

/-- Of the blocks to give back the first half, rounded up. -/
def firstHalf (m : Mem) (n : Node) (i : Nat) : List Nat := (List.range' i ((n.blocks - i + 1) / 2)).map (addrOf m n)

theorem tfsTruncate_trims (hfind : Returns P (findPathNode path) a K.Holds) (h : InodeAt z K own ps a n)
    (hsize : n.size ≤ 4096 * n.blocks) (hlen : length < n.size) :
    ∃ K' ps' t, Returns P (tfsTruncate path length) 0 K'.Holds ∧
      Trimmed z a length K own ps n (firstHalf K.vol.bytes n (length / 4096 + 1)).reverse K' ps'
        ((n.cut (length / 4096 + 1)).stamp length t) := by
  have hlow := h.low
  have hhigh := h.high
  have hcap : n.blocks < 2 ^ 32 := Nat.lt_of_le_of_lt h.maps.cap (by decide +kernel)
  have hn64 := h.fits.size
  have hu : u64 (length : Int) = length := u64_ofNat (by omega)
  have hno : ((length : Int) / 4096).toNat = length / 4096 := by omega
  have hmod : (length / 4096 + 1) % 2 ^ 32 = length / 4096 + 1 := Nat.mod_eq_of_lt (by omega)
  -- the loop
  obtain ⟨K1, ps1, hloop, hrel⟩ := truncateLoop_runs (i := length / 4096 + 1) h.space h.maps h.space.drive (.refl h.space)
    (Nat.le_refl n.blocks) (Nat.sub_le n.blocks (length / 4096 + 1)) fun _ _ _ => List.not_mem_nil
  have hcount : min (n.blocks - (length / 4096 + 1)) ((n.blocks - (length / 4096 + 1) + 1) / 2) =
      (n.blocks - (length / 4096 + 1) + 1) / 2 := by omega
  rw [show n.blocks - (n.blocks - (length / 4096 + 1)) = length / 4096 + 1 by omega] at hloop
  rw [hcount, List.append_nil] at hrel
  have hmem : ∀ k < length / 4096 + 1, addrOf K.vol.bytes n k ∉ (firstHalf K.vol.bytes n (length / 4096 + 1)).reverse := by
    intro k hk hm
    obtain ⟨j, hj, e⟩ := List.mem_map.mp (List.mem_reverse.mp hm)
    rw [List.mem_range'_1] at hj
    exact addr_ne h.maps (by omega) (by omega) (by omega) e
  have hcut := hrel.cut h.toMapAt (by omega) hmem
  have hkept : ∀ i < length / 4096 + 1, addrOf K1.vol.bytes n i = addrOf K.vol.bytes n i ∧
      ∀ k < 4096, K1.vol.bytes (addrOf K.vol.bytes n i + k) = K.vol.bytes (addrOf K.vol.bytes n i + k) := fun i hi =>
    ⟨(hrel.maps h.space h.maps).2 i (by omega), fun k hk =>
      hrel.block h.space (h.maps.data i (by omega)) (hmem i hi) (by omega) (by omega)⟩
  -- the inode goes back to the disk
  obtain ⟨hticked, htick⟩ := hcut.tick
  have hfits : ((n.cut (length / 4096 + 1)).stamp length (K1.vol.env.clock K1.vol.ticks % 2 ^ 64)).Fits :=
    h.fits.touch (by omega) (by show length / 4096 + 1 < 2 ^ 64; omega) (Nat.mod_lt _ (by decide)) (Nat.mod_lt _ (by decide))
  obtain ⟨hcommit, hinode, hord⟩ := (hticked.sameMap SameMap.stamp).commit hfits
  have hstore : Keeps (fun x => a ≤ x ∧ x < a + 208) K1.tick (K1.tick.store a 208
      ((n.cut (length / 4096 + 1)).stamp length (K1.vol.env.clock K1.vol.ticks % 2 ^ 64)).encode) :=
    Keeps.store fun x h1 h2 => ⟨h1, h2⟩
  obtain ⟨-, -, haddr⟩ := hcut.keep (Keeps.tick.trans hstore) fun x hx => Or.inl (by omega)
  refine ⟨_, ps1, _, hfind.bind ?_, hinode, rfl, rfl, rfl, fun i hi => ?_, fun i hi k hk => ?_, ?_, ?_⟩
  · rw [if_neg (by omega)]
    refine h.fetch.bind ?_
    rw [hu, if_neg (by omega)]
    refine globals_runs.bind ?_
    rw [hno]
    refine (h.get (i := length / 4096) (by omega)).bind ?_
    simp only [hmod]
    rw [if_neg (by omega)]
    exact hloop.bind (getCurrentTimeInNsec_runs.bind (hcommit.bind Runs.pure))
  · have hi' : i < length / 4096 + 1 := hi
    rw [SameMap.stamp.addr, haddr i hi']
    exact (addrOf_root fun _ => rfl).trans (hkept i hi').1
  · have hi' : i < length / 4096 + 1 := hi
    have := (h.has (i := i) (by omega)).low
    rw [hstore.bytes _ (by omega), tick_bytes]
    exact (hkept i hi').2 k hk
  · rw [hord, htick]
    exact hrel.free
  · refine (hrel.confined h.space fun b hb p hp => ?_).trans (Confined.bytes (Keeps.tick.trans hstore) fun x hx => ?_)
    · obtain ⟨j, hj, rfl⟩ := List.mem_map.mp (List.mem_reverse.mp hb)
      rw [List.mem_range'_1] at hj
      rw [h.maps.data j (by omega)] at hp
      injection hp with hp
      exact hp ▸ rfl
    · exact touch_slot rfl hx.1 (by omega)

theorem tfsTruncate_runs (hfind : Returns P (findPathNode path) a K.Holds) (h : InodeAt z K own ps a n)
    (hsize : n.size ≤ 4096 * n.blocks) (hlen : length < n.size) :
    ∃ K' ps' n', Returns P (tfsTruncate path length) 0 K'.Holds ∧
      Trimmed z a length K own ps n (firstHalf K.vol.bytes n (length / 4096 + 1)).reverse K' ps' n' := by
  obtain ⟨K', ps', _, hrun⟩ := tfsTruncate_trims hfind h hsize hlen
  exact ⟨K', ps', _, hrun⟩

/-- Half of at most one block is all of it. -/
theorem firstHalf_eq {m : Mem} (h : n.blocks ≤ i + 1) : firstHalf m n i = blocksFrom m n i := by
  rw [firstHalf, blocksFrom, show (n.blocks - i + 1) / 2 = n.blocks - i by omega]

/-- The last of two blocks or more is not in the first half. -/
theorem last_notMem_firstHalf (h : InodeAt z K own ps a n) (hb : i + 2 ≤ n.blocks) :
    addrOf K.vol.bytes n (n.blocks - 1) ∉ firstHalf K.vol.bytes n i := by
  intro hm
  obtain ⟨j, hj, e⟩ := List.mem_map.mp hm
  rw [List.mem_range'_1] at hj
  exact addr_ne h.maps (by omega) (by omega) (by omega) e

theorem Trimmed.cut (h : Trimmed z a length K own ps n F K' ps' n') (hB : length / 4096 < n.blocks)
    (hF : F.Perm (blocksFrom K.vol.bytes n (length / 4096 + 1))) : Cut z a length K ps n K' (release own F) ps' n' := by
  refine ⟨h.inode, h.size, h.addr, h.free.trans (hF.append_right _), ?_⟩
  have hkept : blocksFrom K'.vol.bytes n' 0 = (List.range' 0 (length / 4096 + 1)).map (addrOf K.vol.bytes n) := by
    rw [blocksFrom, Nat.sub_zero, h.blocks]
    refine List.map_congr_left fun j hj => h.addr j ?_
    rw [List.mem_range'_1] at hj
    rw [h.blocks]
    omega
  have hsplit : List.range' 0 (length / 4096 + 1) ++ List.range' (length / 4096 + 1) (n.blocks - (length / 4096 + 1)) =
      List.range' 0 n.blocks := by
    have := List.range'_append_1 (s := 0) (m := length / 4096 + 1) (n := n.blocks - (length / 4096 + 1))
    rwa [Nat.zero_add, show length / 4096 + 1 + (n.blocks - (length / 4096 + 1)) = n.blocks by omega] at this
  rw [hkept, blocksFrom, ← List.map_append, hsplit, blocksFrom, Nat.sub_zero]

section
variable {s0 s : Sys} (hfind : findPathNode path s0 = some (a, s)) (h : InodeAt z (.all s.vol) own ps a n)
  (hsize : n.size ≤ 4096 * n.blocks) (hlen : length < n.size)

include hfind h hsize hlen

/-- With two blocks to give back or more, the last one is not. -/
theorem tfsTruncate_lost {s' : Sys} (hs' : tfsTruncate path length s0 = some (0, s'))
    (hcut : Cut z a length (.all s.vol) ps n (.all s'.vol) own' ps' n') : n.blocks ≤ length / 4096 + 2 := by
  obtain ⟨K', ps1, n1, hruns, htrim⟩ := tfsTruncate_runs (Returns.of_some hfind (holds_all.mpr rfl)) h hsize hlen
  obtain ⟨s1, hs1, hK⟩ := hruns s0 rfl
  obtain rfl := htrim.confined.keeps.all hK
  obtain ⟨-, rfl⟩ := Prod.mk.inj (Option.some.inj (hs1.symm.trans hs'))
  obtain rfl := hcut.inode.space.list.unique htrim.inode.space.list
  by_contra hb
  have hlast : addrOf s.vol.bytes n (n.blocks - 1) ∈ blocksFrom s.vol.bytes n (length / 4096 + 1) :=
    List.mem_map_of_mem (List.mem_range'_1.mpr (by omega))
  have hfree := htrim.free.mem_iff.mp (hcut.free.mem_iff.mpr (List.mem_append_left _ hlast))
  rcases List.mem_append.mp hfree with hF | hold
  · exact last_notMem_firstHalf h (by omega) (List.mem_reverse.mp hF)
  · exact h.space.owned_notFree (h.maps.data (n.blocks - 1) (by omega)) hold

/-- Cutting a file down is right when at most one block is to be given back. `s` is the
    state that the lookup of the path leaves. -/
theorem tfsTruncate_iff : (∃ s' own' ps' n', tfsTruncate path length s0 = some (0, s') ∧
    Cut z a length (.all s.vol) ps n (.all s'.vol) own' ps' n') ↔ n.blocks ≤ length / 4096 + 2 := by
  constructor
  · rintro ⟨s', own', ps', n', hs', hcut⟩
    exact tfsTruncate_lost hfind h hsize hlen hs' hcut
  · intro hb
    obtain ⟨K', ps', n', hruns, htrim⟩ := tfsTruncate_runs (Returns.of_some hfind (holds_all.mpr rfl)) h hsize hlen
    obtain ⟨s', hs', hK⟩ := hruns s0 rfl
    obtain rfl := htrim.confined.keeps.all hK
    refine ⟨s', _, ps', n', hs', htrim.cut (by omega) ?_⟩
    rw [firstHalf_eq (by omega)]
    exact List.reverse_perm _

end

/-- Cutting a file of two blocks down to nothing. -/
theorem tfsTruncate_two : ∃ s' own' ps' n', tfsTruncate [47, 70] (0 : Nat) (fullSys 2 (by decide)) = some (0, s') ∧
    Cut ⟨8192, 4096 * (3 + 2)⟩ 4352 0 (.all (fullSys 2 (by decide)).vol) [] (fullNode 2) (.all s'.vol) own' ps' n' := by
  obtain ⟨s, hs, hf, hi⟩ := fullSys_find (t := 2) (h := by decide) (by decide)
  have hiff := tfsTruncate_iff hf hi (Nat.le_refl _) (show 0 < 4096 * 2 by decide)
  rw [hs] at hiff
  exact hiff.mpr (show 2 ≤ 0 / 4096 + 2 by decide)

/-- Cutting a file of three blocks down to nothing loses one. -/
theorem tfsTruncate_three : Sound ⟨8192, 4096 * (3 + 3)⟩ (fullSys 3 (by decide)).vol (fileOwn 3) [] ∧
    (∃ s, s.vol = (fullSys 3 (by decide)).vol ∧ findPathNode [47, 70] (fullSys 3 (by decide)) = some (4352, s)) ∧
    nodeAt (fullSys 3 (by decide)).vol.bytes 4352 = fullNode 3 ∧
    ¬ ∃ s' own' ps' n', tfsTruncate [47, 70] (0 : Nat) (fullSys 3 (by decide)) = some (0, s') ∧
      Cut ⟨8192, 4096 * (3 + 3)⟩ 4352 0 (.all (fullSys 3 (by decide)).vol) [] (fullNode 3) (.all s'.vol) own' ps' n' := by
  obtain ⟨s, hs, hf, hi⟩ := fullSys_find (t := 3) (h := by decide) (by decide)
  refine ⟨(fullSys_sound (by decide)).1, ⟨s, hs, hf⟩, fileSys_node (fullNode_fits (by decide)), ?_⟩
  rintro ⟨s', own', ps', n', hs', hcut⟩
  rw [← hs] at hcut
  exact absurd (tfsTruncate_lost hf hi (Nat.le_refl _) (show 0 < 4096 * 3 by decide) hs' hcut) (show ¬ 3 ≤ 0 / 4096 + 2 by decide)

end TyrantFS

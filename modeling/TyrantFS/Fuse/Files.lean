/-
  TyrantFS.Fuse.Files — writing and truncating a file of the tree.

  A file that is written again with its attributes keeps the disk, and only the bytes of
  its object are new (`Kept.refile`). As long as a file needs no double indirect block,
  `tfs_write` puts the bytes over the old ones, all of them unless the disk is full
  (`tfsWrite_yields`), and `tfs_truncate` cuts the file off (`tfsTruncate_yields`).
-/
import TyrantFS.Fuse.Attr
import TyrantFS.Fuse.Truncate

namespace TyrantFS

open Lib Lib.PageTree Lib.Store

variable {z : Zone} {v v' : Vol} {own own' : Nat → Option Pos} {ps ps' : List Nat} {a left length offset size : Nat} {n n' : Node}
  {path : List UInt8} {s : Sys} {buff : Mem} {w : Attrs} {bs : List UInt8}

/-- The index page that a file without one may need. -/
def fresh (n : Node) : Nat := if n.root 12 = 0 then 1 else 0

theorem missing_fresh {m : Mem} {i : Nat} (hi : i < 12 + 512) : missing m n (rootOf i) (pathOf i) 0 (depth (rootOf i)) ≤ fresh n := by
  unfold rootOf
  split
  · rw [depth, show i - 11 = 0 by omega]
    exact Nat.zero_le _
  · exact Nat.le_refl _

theorem Added.fresh {K K0 : View} {r : Nat × Node} (h : Added z a K0 own ps n r K own' ps') (h0 : r.1 ≠ 0) (hb : n.blocks < 12 + 512) :
    TyrantFS.fresh r.2 + missing K0.vol.bytes n (rootOf n.blocks) (pathOf n.blocks) 0 (depth (rootOf n.blocks)) ≤ TyrantFS.fresh n := by
  have hold := h.old 12 [] (Nat.le_refl _) ⟨by decide, by decide, fun _ hk => absurd hk List.not_mem_nil⟩ (by decide)
  have hroot : ∀ {m : Mem} {n : Node}, blockAt m n 12 [] = n.root 12 := rfl
  have hmiss := missing_fresh (m := K0.vol.bytes) (n := n) hb
  by_cases h12 : rootOf n.blocks = 12
  · have hpres := h.present h0 0 (by rw [h12]; decide)
    rw [h12, List.take_zero, hroot] at hpres
    rw [TyrantFS.fresh, if_neg hpres, Nat.zero_add]
    exact hmiss
  · have hlt : n.blocks < 12 := by
      by_contra hge
      exact h12 (by rw [rootOf, if_neg hge, if_pos hb])
    have hdep : depth (rootOf n.blocks) = 0 := by
      rw [rootOf, if_pos hlt, depth]
      omega
    rw [hdep]
    rcases hold with hold | ⟨hne, -⟩
    · rw [hroot, hroot] at hold
      rw [TyrantFS.fresh, TyrantFS.fresh, hold]
      exact Nat.le_refl _
    · exact absurd hne.symm h12

theorem Added.page_kept {K K0 : View} {r : Nat × Node} (h : Added z a K0 own ps n r K own' ps') (hr : n.root 12 ≠ 0) :
    r.2.root 12 = n.root 12 := by
  rcases h.old 12 [] (Nat.le_refl _) ⟨by decide, by decide, fun _ hk => absurd hk List.not_mem_nil⟩ (by decide) with hold | ⟨-, -, hold, -⟩
  · exact hold
  · exact absurd hold hr

section
variable {K K0 : View} {r : Nat × Node} (h : Added z a K0 own ps n r K own' ps') (h0 : r.1 ≠ 0) (hb : n.blocks < 12 + 512)

include h h0

theorem Added.owns : own' r.1 = some (.data a n.blocks) := by
  have hown := h.maps.data n.blocks (by rw [h.blocks h0]; omega)
  rwa [h.entered h0] at hown

include hb

/-- A free block is still free, or it is the block that was added, or its index page. -/
theorem Added.covers (hex : 12 ≤ n.blocks → n.root 12 = 0 → ∀ b, own b ≠ some (.page a 12 [])) :
    ∀ b ∈ freeOrder K0 ps, b ∈ freeOrder K ps' ∨ b = r.1 ∨ b = r.2.root 12 ∧ b ≠ 0 := by
  have hcount := h.count h0
  have hout : ∀ {b p}, own' b = some p → b ∉ freeOrder K ps' := fun hb hf => by
    rw [(h.space.free _ hf).1] at hb
    cases hb
  have hfree := hout (h.owns h0)
  -- the blocks that were taken are as many as are missing
  by_cases hm : missing K0.vol.bytes n (rootOf n.blocks) (pathOf n.blocks) 0 (depth (rootOf n.blocks)) = 0
  · have hperm : (r.1 :: freeOrder K ps').Perm (freeOrder K0 ps) := by
      refine (List.subperm_of_subset (List.nodup_cons.mpr ⟨hfree, h.space.list.chain.nodup⟩) fun b hb => ?_).perm_of_length_le
        (by rw [List.length_cons]; omega)
      rcases List.mem_cons.mp hb with rfl | hb
      · exact h.wasFree h0
      · exact h.sub b hb
    intro b hb
    rcases List.mem_cons.mp (hperm.mem_iff.mpr hb) with hb | hb
    · exact Or.inr (Or.inl hb)
    · exact Or.inl hb
  · have hge : 12 ≤ n.blocks := by
      by_contra hlt
      apply hm
      rw [show rootOf n.blocks = n.blocks from if_pos (by omega), show depth n.blocks = 0 by rw [depth]; omega]
      rfl
    have hroot : rootOf n.blocks = 12 := by rw [rootOf, if_neg (by omega), if_pos hb]
    have hr0 : n.root 12 = 0 := by
      by_contra hne
      refine hm (Nat.le_zero.mp ((missing_fresh hb).trans (Nat.le_of_eq ?_)))
      rw [TyrantFS.fresh, if_neg hne]
    have hmiss : missing K0.vol.bytes n (rootOf n.blocks) (pathOf n.blocks) 0 (depth (rootOf n.blocks)) ≤ 1 :=
      (missing_fresh hb).trans (by unfold TyrantFS.fresh; split <;> omega)
    have hpath : IsPath 12 [] := ⟨by decide, by decide, fun _ hk => absurd hk List.not_mem_nil⟩
    have hpage : r.2.root 12 ≠ 0 := by
      have hpres := h.present h0 0 (by rw [hroot]; decide)
      rwa [hroot] at hpres
    have hown : own' (r.2.root 12) = some (.page a 12 []) := h.maps.page 12 [] (Nat.le_refl _) hpath (by decide) hpage
    have hne : r.2.root 12 ≠ r.1 := fun e => by
      rw [e, h.owns h0] at hown
      cases hown
    have hin : r.2.root 12 ∈ freeOrder K0 ps := by
      rcases h.owner (r.2.root 12) with he | ⟨hf, -⟩
      · exact absurd (he.symm.trans hown) (hex hge hr0 _)
      · exact hf
    have hperm : (r.2.root 12 :: r.1 :: freeOrder K ps').Perm (freeOrder K0 ps) := by
      refine (List.subperm_of_subset (List.nodup_cons.mpr ⟨fun hb => ?_, List.nodup_cons.mpr ⟨hfree, h.space.list.chain.nodup⟩⟩)
        fun b hb => ?_).perm_of_length_le (by rw [List.length_cons, List.length_cons]; omega)
      · exact (List.mem_cons.mp hb).elim hne (hout hown)
      · rcases List.mem_cons.mp hb with rfl | hb
        · exact hin
        rcases List.mem_cons.mp hb with rfl | hb
        · exact h.wasFree h0
        · exact h.sub b hb
    intro b hb
    rcases List.mem_cons.mp (hperm.mem_iff.mpr hb) with rfl | hb
    · exact Or.inr (Or.inr ⟨rfl, hpage⟩)
    rcases List.mem_cons.mp hb with hb | hb
    · exact Or.inr (Or.inl hb)
    · exact Or.inl hb

end

/-- What growing the file to `F` blocks leaves, where the single indirect block is enough. -/
structure Stretched (z : Zone) (a F : Nat) (v : Vol) (ps : List Nat) (n : Node) (v' : Vol) (own' : Nat → Option Pos) (ps' : List Nat)
    (n' : Node) : Prop where
  map : MapAt z (.all v') own' ps' a n'
  attrs : n' = n.withMap n'
  /-- It is short only for want of blocks. -/
  short : n'.blocks < F → (freeOrder (.all v) ps).length < F - n.blocks + fresh n
  blocks : n.blocks ≤ n'.blocks
  addr : ∀ i < n.blocks, addrOf v'.bytes n' i = addrOf v.bytes n i
  page : n.root 12 ≠ 0 → n'.root 12 = n.root 12
  free : ∀ b ∈ freeOrder (.all v) ps, b ∈ freeOrder (.all v') ps' ∨ Uses v'.bytes n' b

theorem Stretched.refl {F : Nat} (h : MapAt z (.all v) own ps a n) (hF : F ≤ n.blocks) : Stretched z a F v ps n v own ps n :=
  ⟨h, rfl, fun hlt => absurd hF (Nat.not_le_of_lt hlt), Nat.le_refl _, fun _ _ => rfl, fun _ => rfl, fun _ hb => Or.inl hb⟩

/-- The loop that grows a file, as long as the single indirect block is enough. -/
theorem growLoop_maps (h : MapAt z (.all s.vol) own ps a n) (hf : n.Fits) (hl : n.blocks + left ≤ 12 + 512)
    (hex : n.root 12 = 0 → ∀ b, own b ≠ some (.page a 12 [])) :
    ∃ n' s' own' ps', growLoop a left n s = some (n', s') ∧ Grew z a s.vol own n left s'.vol own' ps' n' ∧
      Stretched z a (n.blocks + left) s.vol ps n s'.vol own' ps' n' := by
  induction left generalizing s n own ps with
  | zero => exact ⟨n, s, own, ps, rfl, Grew.refl (h.file hf), .refl h (Nat.le_refl _)⟩
  | succ left ih =>
    have hdepth : depth (rootOf n.blocks) - 1 = 0 := by
      unfold depth rootOf
      split
      · omega
      · rw [if_pos (by omega)]
    have hclear : PagesClear (.all s.vol) ps n := by
      intro k hk
      rw [hdepth] at hk
      exact absurd hk (Nat.not_lt_zero k)
    have hcap : n.blocks < capacity := Nat.lt_of_lt_of_le (show n.blocks < 12 + 512 by omega) (by decide +kernel)
    obtain ⟨r, K1, hrun, own1, ps1, had⟩ := addBlockToNode_runs h.space h.maps hf h.low h.high hcap hclear
    obtain ⟨s1, hcall, hs1⟩ := hrun.exec (holds_all.mpr rfl)
    obtain rfl := had.keeps.all hs1
    unfold growLoop
    rw [bind_eq hcall]
    have hin := h.inside
    have hsize : s1.vol.size = s.vol.size := had.keeps.size
    have hmap : MapAt z (.all s1.vol) own1 ps1 a r.2 :=
      ⟨had.space, h.low, h.high, by rw [all_vol, hsize]; exact hin, View.Sees.all _ _ _, had.maps⟩
    have hmiss := missing_fresh (m := (View.all s.vol).vol.bytes) (n := n) (i := n.blocks) (by omega)
    have hone : fresh n ≤ 1 := by
      unfold fresh
      split <;> omega
    by_cases hb : r.1 = 0
    · -- the disk is full
      rw [if_pos hb]
      obtain ⟨r', s1', hcall', hres⟩ := addBlockToNode_ends (h.file hf) (all_vis _) s (holds_all.mpr rfl)
      obtain ⟨rfl, rfl⟩ := Prod.mk.inj (Option.some.inj (hcall.symm.trans hcall'))
      obtain ⟨-, L, K2, own2, ps2, hK2, hfail⟩ := hres.resolve_left fun hne => (h.space.list.block r.1 hne.1).pos hb
      obtain rfl := hfail.keeps.all hK2
      obtain rfl := hfail.space.list.unique had.space.list
      have hblocks : r.2.blocks = n.blocks := hfail.blocks
      have hfew := (had.failed hb).2
      have hkept := (hfail.file (h.file hf)).2
      -- and no page was taken
      have hL : L = [] := by
        have hlen := hfail.order.length_eq
        rw [List.length_append] at hlen
        rw [← List.length_eq_zero_iff]
        by_cases hnil : freeOrder (.all s.vol) ps = []
        · rw [hnil, List.length_nil] at hlen
          omega
        · have := List.length_pos_of_ne_nil (hfail.some hnil)
          omega
      refine ⟨r.2, s1, own1, ps2, rfl, ⟨hmap.file had.fits, Nat.le_of_eq hblocks.symm, hkept,
        had.confined h.space rfl, Or.inr ⟨by omega, hfail.short⟩⟩, hmap, had.attrs, fun _ => by omega, Nat.le_of_eq hblocks.symm,
        fun i hi => (hkept i hi).1, hfail.old 12 (by decide), fun b hb => Or.inl ?_⟩
      have := hfail.order.mem_iff.mpr hb
      rwa [hL, List.nil_append] at this
    · rw [if_neg hb]
      have hlt : n.blocks < 12 + 512 := by omega
      obtain ⟨happ, -⟩ := had.appends h hb
      have hblocks := happ.blocks
      have hcov := had.covers hb hlt fun _ => hex
      have hpage := fun hne => had.page_kept hne
      obtain ⟨n2, s2, own2, ps2, hrest, hgrew, hst⟩ := ih hmap had.fits (by omega) fun hr b hown => by
        -- a page would be the index page
        have hr0 : n.root 12 = 0 := by
          by_contra hne
          exact hne ((hpage hne).symm.trans hr)
        rcases had.owner b with he | ⟨hf, -⟩
        · exact hex hr0 b (he.symm.trans hown)
        rcases hcov b hf with hf' | rfl | ⟨rfl, h0⟩
        · rw [(had.space.free b hf').1] at hown
          cases hown
        · rw [had.owns hb] at hown
          cases hown
        · exact h0 hr
      have hle := hgrew.blocks
      refine ⟨n2, s2, own2, ps2, hrest, ⟨hgrew.file, by omega, fun i hi => ?_, happ.confined.trans hgrew.confined, ?_⟩,
        ⟨hst.map, ?_, fun hlt => ?_, by omega, fun i hi => ?_, fun hne => ?_, fun b hb' => ?_⟩⟩
      · obtain ⟨h1, h2⟩ := happ.earlier i hi
        obtain ⟨h3, h4⟩ := hgrew.kept i (by omega)
        rw [h1] at h3 h4
        exact ⟨h3, fun k hk => (h4 k hk).trans (h2 k hk)⟩
      · rcases hgrew.rounds with hr | ⟨hr, hshort⟩
        · exact Or.inl (by omega)
        · exact Or.inr ⟨by omega, hshort⟩
      · calc n2 = r.2.withMap n2 := hst.attrs
          _ = (n.withMap r.2).withMap n2 := by rw [← had.attrs]
          _ = n.withMap n2 := rfl
      · -- a round takes a block, and the page when it is missing
        have := hst.short (by omega)
        have := had.count hb
        have := had.fresh hb (by omega)
        omega
      · exact (hst.addr i (by omega)).trans (happ.earlier i hi).1
      · have hne1 : r.2.root 12 ≠ 0 := by rwa [hpage hne]
        exact (hst.page hne1).trans (hpage hne)
      · rcases hcov b hb' with hf' | rfl | hu
        · exact hst.free b hf'
        · refine Or.inr (Uses.keep (Or.inl ⟨n.blocks, by omega, had.entered hb⟩) hst.blocks hst.addr hst.page)
        · exact Or.inr (Uses.keep (Or.inr hu) hst.blocks hst.addr hst.page)

/-- The call, where the single indirect block is enough. -/
theorem tfsWrite_stretches (hfind : Runs (.all s.vol) (findPathNode path) a (.all s.vol)) (h : InodeAt z (.all s.vol) own ps a n)
    (hs : n.size ≤ 4096 * n.blocks) (hsize : size < 2 ^ 31) (hmax : offset + size ≤ 4096 * (12 + 512))
    (hex : n.root 12 = 0 → ∀ b, own b ≠ some (.page a 12 [])) :
    ∃ (k : Nat) (s' : Sys) (own' : Nat → Option Pos) (ps' : List Nat) (n' : Node), tfsWrite path buff size offset s = some ((k : Int), s') ∧
      Wrote z a s.vol own n buff size offset k s'.vol own' ps' n' ∧ InodeAt z (.all s'.vol) own' ps' a n' ∧ n'.attrs = n.attrs ∧
      n'.links = n.links ∧
      (∀ b, b ∈ freeOrder (.all s.vol) ps ∨ Uses s.vol.bytes n b → b ∈ freeOrder (.all s'.vol) ps' ∨ Uses s'.vol.bytes n' b) ∧
      (n'.blocks < finalBlocks size offset → (freeOrder (.all s.vol) ps).length ≤ finalBlocks size offset - n.blocks) := by
  have hfinal : finalBlocks size offset ≤ 12 + 512 := by
    unfold finalBlocks
    rw [Nat.mod_eq_of_lt (by omega)]
    split <;> omega
  have hfits := stamp_fits h.fits h.fits.size s.vol.now_lt
  obtain ⟨v1, hv1⟩ : ∃ v1, v1 = ((View.all s.vol).touch a n).vol := ⟨_, rfl⟩
  obtain ⟨hmap1, hord1, -, haddr1⟩ := h.touched (show (⟨v1, 0⟩ : Sys).vol = _ from hv1)
  obtain ⟨k, s', own', ps', n', n4, v4, hrun, hw, hst, hn, hk, -⟩ :
      ∃ k s' own' ps' n' n4 v4, tfsWrite path buff size offset s = some (_, s') ∧ _ := tfsWrite_fills
    (Q := fun m u o p => Stretched z a (finalBlocks size offset) v1 ps (n.stamp n.size s.vol.now) u o p m)
    hfind h hs hsize (by omega) (fun hle s1 hs1 => by
      rw [← hv1] at hs1
      rw [hs1]
      refine .refl hmap1 ?_
      show finalBlocks size offset ≤ n.blocks
      unfold finalBlocks
      rw [Nat.mod_eq_of_lt (by omega)]
      split <;> omega) fun s1 hs1 => by
      rw [← hv1] at hs1
      by_cases hle : n.blocks ≤ finalBlocks size offset
      · have hmap : MapAt z (.all s1.vol) own ps a (n.stamp n.size s.vol.now) := by
          rw [hs1]
          exact hmap1
        obtain ⟨m, s', own', ps', e, hgrew, hst⟩ := growLoop_maps hmap hfits
          (show n.blocks + (finalBlocks size offset - n.blocks) ≤ 12 + 512 by omega) hex
        rw [show (n.stamp n.size s.vol.now).blocks + (finalBlocks size offset - n.blocks) = finalBlocks size offset from
          Nat.add_sub_cancel' hle, hs1] at hst
        exact ⟨m, s', own', ps', e, hgrew, hst⟩
      · rw [show finalBlocks size offset - n.blocks = 0 by omega]
        refine ⟨_, s1, own, ps, rfl, ?_, ?_⟩
        · rw [hs1]
          exact Grew.refl (hmap1.file hfits)
        · rw [hs1]
          exact .refl hmap1 (Nat.le_of_not_le hle)
  -- the map is that of the grown file
  have hlow := h.low
  have hhigh := h.high
  have hn4 : nodeAt s'.vol.bytes a = n' := hw.node
  obtain ⟨hmap4, hord4, haddr4⟩ := hst.map.keep hk fun x hx => by
    rcases hx with hx | hx
    · exact Or.inr hx
    · exact Or.inl ⟨by omega, by omega⟩
  have hsized : SameMap n4 n' := hn ▸ SameMap.sized
  have hgrown : ∀ {b}, Uses v4.bytes n4 b → Uses s'.vol.bytes n' b := fun hb =>
    hb.keep (Nat.le_of_eq hsized.blocks.symm) (fun i hi => hsized.addr.trans (haddr4 i hi)) fun _ => hsized.root 12
  refine ⟨k, s', own', ps', n', hrun, hw, ⟨hmap4.sameMap hsized, hn4⟩, by rw [hn, hst.attrs]; rfl, by rw [hn, hst.attrs]; rfl,
    fun b hb => ?_, fun hlt => ?_⟩
  · rcases hb with hb | hb
    · rcases hst.free b (by rw [hord1]; exact hb) with hb | hb
      · exact Or.inl (by rw [hord4]; exact hb)
      · exact Or.inr (hgrown hb)
    · have hb1 : Uses v1.bytes (n.stamp n.size s.vol.now) b := hb.keep (Nat.le_refl _) haddr1 fun _ => rfl
      exact Or.inr (hgrown (hb1.keep hst.blocks hst.addr hst.page))
  · have hst' := hst.short (by rw [← hsized.blocks]; exact hlt)
    rw [hord1] at hst'
    have hone : fresh (n.stamp n.size s.vol.now) ≤ 1 := by
      unfold fresh
      split <;> omega
    have hblk : (n.stamp n.size s.vol.now).blocks = n.blocks := rfl
    omega

/-- A file that is written again keeps the disk: its bytes are new, and nothing else. -/
theorem Kept.refile (h : Kept z v own ps) (ha : IsSlot z.lo a) (hu : InUse v.bytes a) (hd : isDir (nodeAt v.bytes a).mode = false)
    (hc : Confined z (· = a) (.all v) own (.all v') own') (hi : InodeAt z (.all v') own' ps' a n')
    (hw : n'.attrs = (nodeAt v.bytes a).attrs) (hl : n'.links = (nodeAt v.bytes a).links) (hs : n'.size ≤ 4096 * n'.blocks) :
    Kept z v' own' ps' ∧ v'.tree = v.tree.setBody a (.file (contents v'.bytes n')) := by
  have hn : nodeAt v'.bytes a = n' := hi.node
  have hA : ∀ c, c = a → IsSlot z.lo c := fun c e => e ▸ ha
  have hmode : n'.mode = (nodeAt v.bytes a).mode := congrArg Attrs.mode hw
  have ht : v'.tree = v.tree.setBody a (.file (contents v'.bytes n')) := by
    funext b
    by_cases hb : b = a
    · subst hb
      have hglob : v'.glob = v.glob := hc.keeps.glob
      have huse : v'.tree b = some (objOf v'.bytes (nodeAt v'.bytes b)) :=
        if_pos ⟨by rw [hglob, h.boundary]; exact ha, by rw [InUse, hn, hmode]; exact hu⟩
      rw [huse, hn, objOf, hmode, if_neg (by rw [hd]; decide), setBody_self, h.tree_some ha hu, hw]
      rfl
    · rw [setBody_ne hb]
      exact h.tree_other hc hi.space hA hb
  refine ⟨h.frame hc hi.space hA (fun b hb _ => ?_) (fun b hb hub => absurd ?_ hub) ?_, ht⟩
  · subst hb
    refine ⟨by rw [hn]; exact hi.maps, ?_, fun hdir => ?_, fun _ => by rw [hn]; exact hs⟩
    · rw [hn, hl]
      exact (h.good b ha hu).links
    · rw [hn, hmode, hd] at hdir
      exact absurd hdir (by decide)
  · rw [hb, InUse, hn, hmode]
    exact hu
  · rw [ht]
    exact h.tree.step (.write a _ ⟨_, _, h.file_tree ha hu hd⟩)

/-- It loses no block where its map takes up those that are not free. -/
theorem Kept.refile_whole (h : Kept z v own ps) (ha : IsSlot z.lo a) (hu : InUse v.bytes a)
    (hc : Confined z (· = a) (.all v) own (.all v') own') (hi : InodeAt z (.all v') own' ps' a n')
    (hmode : n'.mode = (nodeAt v.bytes a).mode)
    (hfree : ∀ b, b ∈ freeOrder (.all v) ps ∨ Uses v.bytes (nodeAt v.bytes a) b → b ∈ freeOrder (.all v') ps' ∨ Uses v'.bytes n' b) :
    Whole z v → Whole z v' := by
  have hn : nodeAt v'.bytes a = n' := hi.node
  have huse : InUse v'.bytes a := by
    rw [InUse, hn, hmode]
    exact hu
  have hplace : ∀ b, b ∈ freeOrder (.all v) ps ∨ Uses v.bytes (nodeAt v.bytes a) b → Accounted z v' b := fun b hb =>
    (hfree b hb).imp hi.space.hasFree.mpr fun hb => ⟨a, ha, huse, by rwa [hn]⟩
  exact h.whole hc hi.space (fun c e => e ▸ ha) (fun b hb => hplace b (Or.inl hb)) fun c hca _ b hb => hplace b (Or.inr (hca ▸ hb))

/-- The owners may forget an index page that a file has not. -/
theorem Kept.tidy (h : Kept z v own ps) :
    ∃ own', Kept z v own' ps ∧ ∀ a, (nodeAt v.bytes a).root 12 = 0 → ∀ b, own' b ≠ some (.page a 12 []) := by
  classical
  refine ⟨fun b => if ∃ a, own b = some (.page a 12 []) ∧ (nodeAt v.bytes a).root 12 = 0 then none else own b,
    ⟨h.boundary, h.low, h.aligned, h.high, ⟨h.space.list, fun b hb => ⟨?_, (h.space.free b hb).2⟩, fun b hb => h.space.owned b fun h0 => hb ?_,
      h.space.low, h.space.high, h.space.drive⟩, h.root, fun a ha hu => ?_, h.blank, h.tree⟩, fun a hr b hb => ?_⟩
  · split
    · rfl
    · exact (h.space.free b hb).1
  · simp only [h0]
    exact ite_self _
  · have hg := h.good a ha hu
    have hm := hg.maps
    refine ⟨⟨hm.cap, fun i hi => ?_, fun j π hj hπ hd h0 => ?_, hm.upper, hm.leaf⟩, hg.links, hg.dir, hg.file⟩
    · have hown := hm.data i hi
      rw [if_neg ?_]
      · exact hown
      · intro hex
        obtain ⟨c, hc, -⟩ := hex
        rw [hown] at hc
        cases hc
    · have hown := hm.page j π hj hπ hd h0
      rw [if_neg ?_]
      · exact hown
      · intro hex
        obtain ⟨c, hc, hr⟩ := hex
        rw [hown] at hc
        obtain ⟨rfl, rfl, rfl⟩ := Pos.page.inj (Option.some.inj hc)
        exact h0 hr
  · dsimp only at hb
    split at hb
    · cases hb
    · rename_i hno
      exact hno ⟨a, hb, hr⟩

section
variable (h : Kept z s.vol own ps) (ha : IsSlot z.lo a) (hu : InUse s.vol.bytes a)
  (hfind : Runs (.all s.vol) (findPathNode path) a (.all s.vol)) (hf : s.vol.tree a = some ⟨w, .file bs⟩)

include h ha hu hfind hf

/-- A write within the file. It is short only when the disk is full, and then it ends where
    the last block of the file does. -/
theorem tfsWrite_yields (hoff : offset ≤ bs.length) (hsize : size < 2 ^ 31) (hmax : offset + size ≤ 4096 * (12 + 512)) :
    ∃ k ≤ size, Yields z (tfsWrite path buff size offset) s (k : Nat)
        (s.vol.tree.setBody a (.file (overlay bs offset ((List.range k).map buff)))) ∧
      ∀ r s', tfsWrite path buff size offset s = some (r, s') → (nodeAt s'.vol.bytes a).size = max bs.length (offset + k) ∧
        (nodeAt s'.vol.bytes a).size ≤ 4096 * (nodeAt s'.vol.bytes a).blocks ∧
        (k < size → offset + k = 4096 * (nodeAt s'.vol.bytes a).blocks ∧ (∃ j ≤ 1, Free s'.vol j) ∧
          (freeOrder (.all s.vol) ps).length ≤ finalBlocks size offset - (bs.length + 4095) / 4096) := by
  obtain ⟨own, h, hex⟩ := h.tidy
  have hd := (h.file_of_tree ⟨w, bs, hf⟩).2.2
  have hs := (h.good a ha hu).file hd
  obtain rfl : contents s.vol.bytes (nodeAt s.vol.bytes a) = bs := h.file_contents ha hu hf
  rw [length_contents] at hoff ⊢
  obtain ⟨k, s', own', ps', n', hrun, hw, hi, hattrs, hlinks, hplace, hshort⟩ :
      ∃ k s' own' ps' n', tfsWrite path buff size offset s = some _ ∧ _ := tfsWrite_stretches hfind (h.inode ha hu) hs hsize hmax (hex a)
  obtain ⟨hcont, hs'⟩ := hw.contents hs hoff
  have hcount := hw.count
  obtain ⟨hkept, ht⟩ := h.refile ha hu hd hw.confined hi hattrs hlinks hs'
  rw [hcont] at ht
  refine ⟨k, by omega, ⟨s', own', ps', hrun, hkept, hw.confined.keeps.stays, ht,
    fun _ => h.refile_whole ha hu hw.confined hi (congrArg Attrs.mode hattrs) hplace⟩, fun r s2 hrun2 => ?_⟩
  obtain ⟨-, rfl⟩ := Prod.mk.inj (Option.some.inj (hrun.symm.trans hrun2))
  rw [show nodeAt s'.vol.bytes a = n' from hw.node]
  refine ⟨hw.size, hs', fun hlt => ?_⟩
  have henough : offset + size ≤ 4096 * finalBlocks size offset := finalBlocks_enough (by omega)
  have hmore := hw.blocks
  have hlack := hshort (by omega)
  rcases hw.rounds with hr | hr
  · omega
  · exact ⟨by omega, ⟨_, hr, hkept.space.free_iff.mpr rfl⟩, by omega⟩

/-- The bytes in front of the new end. With one block to give back at most, no block is lost. -/
theorem tfsTruncate_yields (hlen : length < bs.length) :
    Yields z (tfsTruncate path length) s 0 (s.vol.tree.setBody a (.file (bs.take length)))
      ((nodeAt s.vol.bytes a).blocks ≤ length / 4096 + 2) := by
  have hin := h.inode ha hu
  have hd := (h.file_of_tree ⟨w, bs, hf⟩).2.2
  obtain rfl : contents s.vol.bytes (nodeAt s.vol.bytes a) = bs := h.file_contents ha hu hf
  rw [length_contents] at hlen
  obtain ⟨K', ps', t, hrun, htrim⟩ := tfsTruncate_trims hfind hin ((h.good a ha hu).file hd) hlen
  obtain ⟨s', he, hs'⟩ := Runs.exec hrun (holds_all.mpr rfl)
  obtain rfl : K' = .all s'.vol := htrim.confined.keeps.all hs'
  obtain ⟨hkept, ht⟩ := h.refile ha hu hd htrim.confined htrim.inode rfl rfl
    (by show length ≤ 4096 * (length / 4096 + 1); omega)
  have hcont : contents s'.vol.bytes (((nodeAt s.vol.bytes a).cut (length / 4096 + 1)).stamp length t) =
      (contents s.vol.bytes (nodeAt s.vol.bytes a)).take length := by
    rw [contents, contents, ← List.map_take, List.take_range, Nat.min_eq_left (Nat.le_of_lt hlen)]
    refine List.map_congr_left fun x hx => ?_
    have hx : x < length := List.mem_range.mp hx
    have hi : x / 4096 < length / 4096 + 1 := by omega
    exact fileByte_congr (htrim.addr _ hi) fun k hk => htrim.data _ hi k hk
  rw [hcont] at ht
  refine ⟨s', _, ps', he, hkept, htrim.confined.keeps.stays, ht, fun hb => h.refile_whole ha hu htrim.confined htrim.inode rfl ?_⟩
  intro b hb
  rcases hb with hb' | ⟨i, hi, rfl⟩ | ⟨rfl, h0⟩
  · exact Or.inl (htrim.free.mem_iff.mpr (List.mem_append_right _ hb'))
  · by_cases hle : i < length / 4096 + 1
    · exact Or.inr (Or.inl ⟨i, hle, htrim.addr i hle⟩)
    · -- the block behind the new end
      refine Or.inl (htrim.free.mem_iff.mpr (List.mem_append_left _ (List.mem_reverse.mpr ?_)))
      rw [firstHalf_eq (by omega)]
      exact List.mem_map_of_mem (List.mem_range'_1.mpr (by omega))
  · exact Or.inr (Or.inr ⟨rfl, h0⟩)

/-- A file is never made longer. -/
theorem tfsTruncate_yields_short (hlen : bs.length ≤ length) (hmax : length < 2 ^ 64) :
    Yields z (tfsTruncate path length) s 0 s.vol.tree := by
  rw [← h.file_contents ha hu hf, length_contents] at hlen
  refine h.yields_same (h.find_fetch ha hu hfind ?_)
  rw [u64_ofNat hmax, if_pos hlen]
  exact Runs.pure

end

end TyrantFS

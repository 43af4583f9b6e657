/-
  TyrantFS.Fuse.Names — renaming an entry of the tree, and unlinking a file.

  `tfs_rename` to another name in the same directory gives the entry that name
  (`tfsRename_yields`). `tfs_unlink` of a file drops its entry and its object
  (`tfsUnlink_yields`), where `remove_link_from_parent` moves the last entry to its
  place.
-/
import TyrantFS.Fuse.Files
import TyrantFS.Fuse.Rename
import TyrantFS.Fuse.Unlink

namespace TyrantFS

open Lib Lib.PageTree Lib.Store

variable {z : Zone} {v v' : Vol} {own own' : Nat → Option Pos} {ps ps' : List Nat} {a c e t : Nat} {n n' : Node}
  {path new before before' x y : List UInt8} {s : Sys} {es : List (List UInt8 × Nat)}

/-! ## Renaming -/

section
variable (h : Kept z v own ps) (hx : (x, c) ∈ v.tree.entries a) (he : e < (nodeAt v.bytes a).size / 256)
  (hname : nameOf v.bytes (nodeAt v.bytes a) e = x) (hy : IsName y)
  (hren : Renamed z a e y (.all v) own ps (nodeAt v.bytes a) (.all v') ((nodeAt v.bytes a).stamp (nodeAt v.bytes a).size t))
  (hk : Keeps (fun x => entryAt v.bytes (nodeAt v.bytes a) e ≤ x ∧ x < entryAt v.bytes (nodeAt v.bytes a) e + 248 ∨
    a ≤ x ∧ x < a + 208) (.all v) (.all v'))

include h hx he hy hren hk

omit hy hren in
theorem Kept.relabel_addr : ∀ i < (nodeAt v.bytes a).blocks,
    addrOf v'.bytes (nodeAt v.bytes a) i = addrOf v.bytes (nodeAt v.bytes a) i := by
  obtain ⟨ha, hu, hd⟩ := h.dir_of_tree (.of_mem hx)
  have heb := ((h.good a ha hu).dir hd).packed.lt he
  have hlow := ha.low
  have hhigh := h.slot_high ha
  refine ((h.inode ha hu).toMapAt.keep hk fun x hx => ?_).2.2
  rcases hx with hx | hx
  · refine Or.inr ⟨e / 16, heb, ?_⟩
    unfold entryAt at hx
    rw [all_vol]
    omega
  · exact Or.inl (by omega)

theorem Kept.relabel_packed : Packed (.all v') ((nodeAt v.bytes a).stamp (nodeAt v.bytes a).size t) := by
  obtain ⟨ha, hu, hd⟩ := h.dir_of_tree (.of_mem hx)
  have hp := ((h.good a ha hu).dir hd).packed
  have hin := h.inode ha hu
  have hlow := ha.low
  have hhigh := h.slot_high ha
  have heb := hp.lt he
  have haddr := h.relabel_addr hx he hk
  have hat : ∀ f, f / 16 < (nodeAt v.bytes a).blocks → entryAt v'.bytes ((nodeAt v.bytes a).stamp (nodeAt v.bytes a).size t) f =
      entryAt v.bytes (nodeAt v.bytes a) f := fun f hf => entryAt_congr (SameMap.stamp.addr.trans (haddr _ hf))
  refine ⟨⟨hp.whole, fun i _ => View.Sees.all _ _ _, fun f hf hzero => ?_, fun f h1 h2 k hkk => ?_⟩, hp.ceil⟩
  · have hnil : nameOf v'.bytes ((nodeAt v.bytes a).stamp (nodeAt v.bytes a).size t) f = [] := entryName_eq_nil.mpr hzero
    rw [show nameOf v'.bytes ((nodeAt v.bytes a).stamp (nodeAt v.bytes a).size t) f = _ from hren.names f hf] at hnil
    split at hnil
    · exact hy.nonempty hnil
    · exact hp.named f hf (entryName_eq_nil.mp hnil)
  · have hf2 : f / 16 < (nodeAt v.bytes a).blocks := by
      have : f < 16 * (nodeAt v.bytes a).blocks := h2
      omega
    have hfe : f ≠ e := by
      intro heq
      subst heq
      exact absurd he (Nat.not_lt.mpr h1)
    have hap := hin.toMapAt.entry_apart hf2 heb hfe
    have hblk := (hin.toMapAt.has hf2).low
    rw [all_vol] at hap hblk
    rw [all_vol, hat f hf2]
    refine (hk.bytes _ fun hx => ?_).trans (hp.rest f h1 h2 k hkk)
    unfold entryAt at hx hap
    omega

include hname

omit hy in
theorem Kept.relabel_entries : entries v'.bytes ((nodeAt v.bytes a).stamp (nodeAt v.bytes a).size t) =
    (dotName, a) :: (dotDotName, if a = v.glob.rootNode then a else 0) ::
      (v.tree.entries a).map fun w => if w.1 = x then (y, w.2) else w := by
  obtain ⟨ha, hu, hd⟩ := h.dir_of_tree (.of_mem hx)
  have hdir := (h.good a ha hu).dir hd
  obtain ⟨hx1, hx2⟩ := h.plain hx
  have hmap : entries v'.bytes ((nodeAt v.bytes a).stamp (nodeAt v.bytes a).size t) =
      (entries v.bytes (nodeAt v.bytes a)).map fun w => if w.1 = x then (y, w.2) else w := by
    rw [entries, entries, List.map_map]
    refine List.map_congr_left fun f hf => ?_
    have hf : f < (nodeAt v.bytes a).size / 256 := List.mem_range.mp hf
    rw [show nameOf v'.bytes ((nodeAt v.bytes a).stamp (nodeAt v.bytes a).size t) f = _ from hren.names f hf,
      show childOf v'.bytes ((nodeAt v.bytes a).stamp (nodeAt v.bytes a).size t) f = _ from hren.children f hf]
    simp only [all_vol, Function.comp]
    by_cases hfe : f = e
    · subst hfe
      rw [if_pos rfl, if_pos hname]
    · rw [if_neg hfe, if_neg fun hfx => hfe (hdir.names f e hf he (hfx.trans hname.symm))]
  rw [hmap, hdir.entries, (h.entries_tree ha hu hd).2, List.map_cons, List.map_cons, if_neg (Ne.symm hx1), if_neg (Ne.symm hx2)]

theorem Kept.relabel (hyp : y ≠ dotName ∧ y ≠ dotDotName) (hfree : y = x ∨ y ∉ v.tree.names a) :
    Kept z v' own ps ∧ v'.tree = v.tree.label a x y := by
  obtain ⟨ha, hu, hd⟩ := h.dir_of_tree (.of_mem hx)
  have hg := h.good a ha hu
  have hn : nodeAt v'.bytes a = (nodeAt v.bytes a).stamp (nodeAt v.bytes a).size t := hren.inode.node
  have hglob : v'.glob = v.glob := hk.glob
  have hA : ∀ c, c = a → IsSlot z.lo c := fun c e => e ▸ ha
  have hent := h.relabel_entries hx he hname hren hk
  have ht : v'.tree = v.tree.label a x y := by
    funext b
    by_cases hb : b = a
    · subst hb
      rw [h.tree_dir hglob ha hn hd hent, Store.label, setBody_self, h.tree_some ha hu]
      rfl
    · rw [Store.label, setBody_ne hb]
      exact h.tree_other hren.confined hren.inode.space hA hb
  have htree : Lib.Store.Tree v.glob.rootNode v'.tree := by
    rw [ht]
    exact h.tree.step (.label a x y (.of_mem hx) hfree)
  refine ⟨h.frame hren.confined hren.inode.space hA (fun b hb _ => ?_) (fun b hb hub => absurd ?_ hub) htree, ht⟩
  · subst hb
    refine ⟨by rw [hn]; exact hren.inode.maps, by rw [hn]; exact hg.links, fun _ => ?_, fun hf => ?_⟩
    · have hnames := htree.names b
      rw [Store.names, entries_dir (h.tree_dir hglob ha hn hd hent)] at hnames
      refine .of_entries ?_ ?_ (by rw [hn, hglob]; exact hent) hnames fun w hw => ?_
      · rw [hn]
        exact h.relabel_packed hx he hy hren hk
      · rw [hn]
        exact (hg.dir hd).few
      · obtain ⟨u, hu, rfl⟩ := List.mem_map.mp hw
        split
        · exact hyp
        · exact h.plain hu
    · rw [hn] at hf
      exact absurd hd (by rw [show isDir (nodeAt v.bytes b).mode = false from hf]; decide)
  · rw [hb, InUse, hn]
    exact hu

end

/-- The searches of `tfs_rename` and `tfs_unlink` find the entry and its directory. -/
theorem Kept.found (h : Kept z s.vol own ps) (hp : Plain (tokens path)) (hw : Walkable s.vol.tree s.vol.glob.rootNode (tokens path))
    (hl : splitLast path = some (before, x)) (hx0 : x ≠ []) (hd : Leads s.vol.tree s.vol.glob.rootNode (tokens before) a)
    (hx : (x, c) ∈ s.vol.tree.entries a) : ∃ s1, s1.vol = s.vol ∧ Found path s a c s1 := by
  have hu := h.root_dir.1
  have hroot : path ≠ [47] := by
    intro heq
    subst heq
    exact hx0 (Prod.mk.inj (Option.some.inj hl)).2.symm
  have hlead : Leads s.vol.tree s.vol.glob.rootNode (tokens path) c := by
    rw [tokens_splitLast hl hx0]
    exact hd.append (leads_single.mpr hx)
  obtain ⟨par, s1, hs1, hf, hpar, -, -⟩ := Found.of_searches h.sound hroot hl hx0 ((h.resolve_iff h.root hu hp).mpr hlead)
    (h.searches h.root hu hp hw)
  have hbefore : Plain (tokens before) := fun y hy => hp y (by rw [tokens_splitLast hl hx0]; exact List.mem_append_left _ hy)
  obtain rfl := h.tree.leads_inj ((h.resolve_iff h.root hu hbefore).mp hpar) hd
  exact ⟨s1, hs1, hf⟩

theorem tfsRename_yields (h : Kept z s.vol own ps) (hp : Plain (tokens path))
    (hw : Walkable s.vol.tree s.vol.glob.rootNode (tokens path)) (hl : splitLast path = some (before, x)) (hx0 : x ≠ [])
    (hd : Leads s.vol.tree s.vol.glob.rootNode (tokens before) a) (hx : (x, c) ∈ s.vol.tree.entries a)
    (hl' : splitLast new = some (before', y)) (hy : IsName y) (hyp : y ≠ dotName ∧ y ≠ dotDotName)
    (hfree : y = x ∨ y ∉ s.vol.tree.names a) : Yields z (tfsRename path new) s 0 (s.vol.tree.label a x y) := by
  obtain ⟨s1, hs1, hf⟩ := h.found hp hw hl hx0 hd hx
  obtain ⟨ha, hu, hdir⟩ := h.dir_of_tree (.of_mem hx)
  obtain ⟨e, h2, he, hname, hchild, hseen, huniq⟩ := h.entry hx
  have hlow := (h.child ha hu hdir h2 he).1.low
  have hlowa := ha.low
  rcases renameFromParent_stamps (h.inode ha hu) ((h.good a ha hu).dir hdir).packed (c := c) (by omega) hy with
    ⟨hno, -⟩ | ⟨f, K', t, hf2, hfc, hrun, hren, hk⟩
  · exact absurd hchild (hno e he hseen)
  · obtain rfl := huniq f hf2 hfc
    obtain ⟨s', hcall, hs'⟩ := hrun.exec (s := s1) (holds_all.mpr hs1)
    obtain rfl := hk.all hs'
    obtain ⟨hkept, ht⟩ := h.relabel hx he hname hy hren hk hyp hfree
    have haddr := h.relabel_addr hx he hk
    refine ⟨s', own, ps, (hf.rename (by omega) (by omega) hl').trans hcall, hkept, hk.stays, ht,
      fun _ => h.refile_whole ha hu hren.confined hren.inode rfl fun b hb => ?_⟩
    rw [hren.order]
    exact hb.imp_right fun hb => hb.keep (Nat.le_refl _) (fun i hi => SameMap.stamp.addr.trans (haddr i hi)) fun _ => rfl

/-! ## Unlinking -/

section
variable {K0 K1 : View} {own1 : Nat → Option Pos} {ps1 : List Nat} {n1 : Node} {l : Nat}
  (h : Kept z v own ps) (hx : (x, c) ∈ v.tree.entries a) (h2 : 2 ≤ e) (he : e < (nodeAt v.bytes a).size / 256)
  (hl : l + 1 = (nodeAt v.bytes a).size / 256) (hsh : Shrunk z a (.all v) own ps (nodeAt v.bytes a) K1 own1 ps1 n1)
  (hm : Moved (.all v) (nodeAt v.bytes a) e l K0)
  (hb : ∀ i < n1.blocks, ∀ k < 4096, K1.vol.bytes (addrOf (View.all v).vol.bytes (nodeAt v.bytes a) i + k) =
    K0.vol.bytes (addrOf (View.all v).vol.bytes (nodeAt v.bytes a) i + k))

include h hx h2 he hl hsh hm hb

/-- The first two entries stay, and the others are those that were there but one. -/
theorem Kept.drop_entries (hname : nameOf v.bytes (nodeAt v.bytes a) e = x) (hchild : childOf v.bytes (nodeAt v.bytes a) e = c) :
    Packed K1 n1 ∧ ∃ es, entries K1.vol.bytes n1 = (dotName, a) :: (dotDotName, if a = v.glob.rootNode then a else 0) :: es ∧
      (v.tree.entries a).Perm ((x, c) :: es) := by
  obtain ⟨ha, hu, hd⟩ := h.dir_of_tree (.of_mem hx)
  have hdir := (h.good a ha hu).dir hd
  have hin := h.inode ha hu
  have hwhole := hdir.packed.whole
  have hrem := hsh.removed hin.toMapAt hdir.packed he hl hm hb
  have hsize := hsh.size
  have hfirst : ∀ f < 2, nameOf K1.vol.bytes n1 f = nameOf v.bytes (nodeAt v.bytes a) f ∧
      childOf K1.vol.bytes n1 f = childOf v.bytes (nodeAt v.bytes a) f := by
    intro f hf
    have hbyte : ∀ k < 256, K1.vol.bytes (entryAt K1.vol.bytes n1 f + k) = v.bytes (entryAt v.bytes (nodeAt v.bytes a) f + k) := by
      intro k hk
      have := hsh.moved_bytes hin.toMapAt hdir.packed he hl hm hb (f := f) (hrem.packed.lt (by omega)) (by omega) hk
      rwa [if_neg (by omega)] at this
    exact ⟨entryName_congr fun k hk => hbyte k (by omega), entryAddr_congr hbyte⟩
  have hent := entries_split (m := K1.vol.bytes) (n := n1) (by omega)
  rw [(hfirst 0 (by decide)).1, (hfirst 0 (by decide)).2, (hfirst 1 (by decide)).1, (hfirst 1 (by decide)).2, hdir.dot.1, hdir.dot.2,
    hdir.dotDot.1, hdir.dotDot.2] at hent
  have hperm := hrem.entries
  rw [show nameOf (View.all v).vol.bytes (nodeAt v.bytes a) e = x from hname,
    show childOf (View.all v).vol.bytes (nodeAt v.bytes a) e = c from hchild, hent,
    show entries (View.all v).vol.bytes (nodeAt v.bytes a) = _ from hdir.entries] at hperm
  refine ⟨hrem.packed, _, hent, ?_⟩
  rw [(h.entries_tree ha hu hd).2]
  -- the two entries in front cancel
  have hswap := (List.Perm.swap (dotName, a) (x, c) _).symm.trans hperm
  exact ((List.Perm.swap _ (x, c) _).symm.trans hswap.cons_inv).cons_inv.symm

theorem Kept.drop (hname : nameOf v.bytes (nodeAt v.bytes a) e = x) (hchild : childOf v.bytes (nodeAt v.bytes a) e = c)
    (hf : v.tree.IsFile c) (hc : Confined z (· = c) K1 own1 (.all v') own') (hsp : Space z (.all v') own' ps')
    (hzero : ∀ k < 256, v'.bytes (c + k) = 0) :
    ∃ es, (v.tree.entries a).Perm ((x, c) :: es) ∧ Kept z v' own' ps' ∧ v'.tree = v.tree.drop a c es := by
  obtain ⟨ha, hu, hd⟩ := h.dir_of_tree (.of_mem hx)
  obtain ⟨hcs, -, -⟩ := h.file_of_tree hf
  have hac : c ≠ a := by
    intro heq
    subst heq
    exact h.tree.not_self hx
  have hg := h.good a ha hu
  obtain ⟨hpack1, es, hent1, hperm⟩ := h.drop_entries hx h2 he hl hsh hm hb hname hchild
  obtain ⟨hin, hkept⟩ := hsh.inode.other hc hsp fun b hb => hb ▸ h.beside ha hcs hac
  have hpack := hpack1.kept hkept fun _ _ => trivial
  have hent : entries v'.bytes n1 = entries K1.vol.bytes n1 :=
    entries_congr rfl fun f hf => ⟨name_kept hkept (hpack1.lt hf), child_kept hkept (hpack1.lt hf)⟩
  rw [hent1] at hent
  have hn : nodeAt v'.bytes a = n1 := hin.node
  have hnode := hsh.node
  have hmode : n1.mode = (nodeAt v.bytes a).mode := by rw [hnode]
  have hlinks : n1.links = (nodeAt v.bytes a).links := by rw [hnode]
  have huser : n1.userId = (nodeAt v.bytes a).userId := by rw [hnode]
  have hgroup : n1.groupId = (nodeAt v.bytes a).groupId := by rw [hnode]
  have hattrs : n1.attrs = (nodeAt v.bytes a).attrs := by rw [Node.attrs, Node.attrs, hmode, huser, hgroup]
  have hall : Confined z (fun b => b = a ∨ b = c) (.all v) own (.all v') own' :=
    (hsh.confined.mono fun b hb => Or.inl hb).trans (hc.mono fun b hb => Or.inr hb)
  have hglob : v'.glob = v.glob := hall.keeps.glob
  have hA : ∀ b, b = a ∨ b = c → IsSlot z.lo b := by
    intro b hb
    rcases hb with rfl | rfl
    · exact ha
    · exact hcs
  have hd1 : isDir n1.mode := by rw [hmode]; exact hd
  have hclear : nodeAt v'.bytes c = Node.decode zeros := nodeAt_zero fun k hk => hzero k (by omega)
  have hun : ¬ InUse v'.bytes c := by
    rw [InUse, hclear]
    exact not_not.mpr decode_zeros_mode
  have ht : v'.tree = v.tree.drop a c es := by
    funext b
    by_cases hba : b = a
    · subst hba
      rw [h.tree_dir hglob ha hn hd1 hent, Store.drop, setBody_self, set_ne (Ne.symm hac), h.tree_some ha hu, hattrs]
      rfl
    · rw [Store.drop, setBody_ne hba]
      by_cases hbc : b = c
      · subst hbc
        rw [set_self]
        exact if_neg fun hin => hun hin.2
      · rw [set_ne hbc]
        exact h.tree_other hall hsp hA fun hb => hb.elim hba hbc
  have htree : Lib.Store.Tree v.glob.rootNode v'.tree := by
    rw [ht]
    exact h.tree.step (.drop a x c es hf hperm)
  refine ⟨es, hperm, h.frame hall hsp hA (fun b hb hub => ?_) (fun b hb hub j hj => ?_) htree, ht⟩
  · rcases hb with rfl | rfl
    · refine ⟨by rw [hn]; exact hin.maps, by rw [hn, hlinks]; exact hg.links, fun _ => ?_, fun hf => ?_⟩
      · have hnames := htree.names b
        rw [Store.names, entries_dir (h.tree_dir hglob ha hn hd1 hent)] at hnames
        refine .of_entries ?_ ?_ (by rw [hn, hglob]; exact hent) hnames fun w hw => ?_
        · rw [hn]
          exact hpack
        · have h12 := (hg.dir hd).few
          have hceil := (hg.dir hd).packed.ceil
          have hceil1 := hsh.ceil
          have hsize := hsh.size
          rw [hn]
          omega
        · exact h.plain (hperm.mem_iff.mpr (List.mem_cons_of_mem _ hw))
      · rw [hn, hmode] at hf
        exact absurd hd (by rw [hf]; decide)
    · exact absurd hub hun
  · rcases hb with rfl | rfl
    · exact absurd (by rw [InUse, hn, hmode]; exact hu) hub
    · rw [hclear]
      exact decode_zeros_root hj

end

theorem Shrunk.root {K K1 : View} (h : Shrunk z a K own ps n K1 own' ps' n') : n'.root 12 = n.root 12 := by
  have hpage : n'.indirectBlocks = n.indirectBlocks := by rw [h.node]
  exact hpage

theorem Shrunk.mode {K K1 : View} (h : Shrunk z a K own ps n K1 own' ps' n') : n'.mode = n.mode := by rw [h.node]

/-- No block is lost, where the file has no index page. -/
theorem Kept.drop_whole {K1 : View} {own1 : Nat → Option Pos} {ps1 : List Nat} {n1 : Node} (h : Kept z v own ps)
    (hx : (x, c) ∈ v.tree.entries a) (hf : v.tree.IsFile c) (hsh : Shrunk z a (.all v) own ps (nodeAt v.bytes a) K1 own1 ps1 n1)
    (hc : Confined z (· = c) K1 own1 (.all v') own') (hsp : Space z (.all v') own' ps')
    (hord : (freeOrder (.all v') ps').Perm ((List.range (nodeAt v.bytes c).blocks).map (addrOf v.bytes (nodeAt v.bytes c)) ++
      if (nodeAt v.bytes a).size % 4096 = 256 then addrOf v.bytes (nodeAt v.bytes a) ((nodeAt v.bytes a).blocks - 1) :: freeOrder (.all v) ps
      else freeOrder (.all v) ps)) (hr : (nodeAt v.bytes c).root 12 = 0) : Whole z v → Whole z v' := by
  obtain ⟨ha, hu, hd⟩ := h.dir_of_tree (.of_mem hx)
  obtain ⟨hcs, -, -⟩ := h.file_of_tree hf
  have hac : c ≠ a := by
    intro heq
    subst heq
    exact h.tree.not_self hx
  obtain ⟨hin, hkept⟩ := hsh.inode.other hc hsp fun b hb => hb ▸ h.beside ha hcs hac
  have hn : nodeAt v'.bytes a = n1 := hin.node
  have hsize := hsh.size
  have hceil1 := hsh.ceil
  have hpack := ((h.good a ha hu).dir hd).packed
  have hceil := hpack.ceil
  have hwhole := hpack.whole
  have hroot : n1.root 12 = (nodeAt v.bytes a).root 12 := hsh.root
  have hmode := hsh.mode
  have hua : InUse v'.bytes a := by
    rw [InUse, hn, hmode]
    exact hu
  have hA : ∀ b, b = a ∨ b = c → IsSlot z.lo b := by
    intro b hb
    rcases hb with rfl | rfl
    · exact ha
    · exact hcs
  have hback : ∀ {b}, b ∈ (List.range (nodeAt v.bytes c).blocks).map (addrOf v.bytes (nodeAt v.bytes c)) ++
      (if (nodeAt v.bytes a).size % 4096 = 256 then addrOf v.bytes (nodeAt v.bytes a) ((nodeAt v.bytes a).blocks - 1) :: freeOrder (.all v) ps
      else freeOrder (.all v) ps) → Accounted z v' b := fun hb => Or.inl (hsp.hasFree.mpr (hord.mem_iff.mpr hb))
  refine h.whole ((hsh.confined.mono fun b hb => Or.inl hb).trans (hc.mono fun b hb => Or.inr hb)) hsp hA (fun b hb => ?_)
    fun d hd hud b hb => ?_
  · refine hback (List.mem_append_right _ ?_)
    split
    · exact List.mem_cons_of_mem _ hb
    · exact hb
  · rcases hd with rfl | rfl
    · rcases hb with ⟨i, hi, rfl⟩ | ⟨rfl, h0⟩
      · by_cases hi1 : i < n1.blocks
        · refine Or.inr ⟨d, ha, hua, Or.inl ⟨i, by rwa [hn], ?_⟩⟩
          rw [hn]
          exact (hkept i hi1).1.trans (hsh.addr i hi1)
        · -- the last block is given back
          refine hback (List.mem_append_right _ ?_)
          rw [if_pos (by omega), show i = (nodeAt v.bytes d).blocks - 1 by omega]
          exact List.mem_cons_self
      · exact Or.inr ⟨d, ha, hua, Or.inr ⟨by rw [hn]; exact hroot.symm, h0⟩⟩
    · rcases hb with ⟨i, hi, rfl⟩ | ⟨rfl, h0⟩
      · exact hback (List.mem_append_left _ (List.mem_map_of_mem (List.mem_range.mpr hi)))
      · exact absurd hr h0

/-- A file is unlinked, where the last entry of the directory is not the only one of its
    block, or is that of the file. -/
theorem tfsUnlink_yields (h : Kept z s.vol own ps) (hp : Plain (tokens path))
    (hw : Walkable s.vol.tree s.vol.glob.rootNode (tokens path)) (hl : splitLast path = some (before, x)) (hx0 : x ≠ [])
    (hd : Leads s.vol.tree s.vol.glob.rootNode (tokens before) a) (hx : (x, c) ∈ s.vol.tree.entries a) (hf : s.vol.tree.IsFile c)
    (hok : ((s.vol.tree.entries a).length + 2) % 16 ≠ 0 ∨ (s.vol.tree.entries a).getLast? = some (x, c)) :
    ∃ es, (s.vol.tree.entries a).Perm ((x, c) :: es) ∧
      Yields z (tfsUnlink path) s 0 (s.vol.tree.drop a c es) ((nodeAt s.vol.bytes c).root 12 = 0) := by
  obtain ⟨s1, hs1, hfound⟩ := h.found hp hw hl hx0 hd hx
  obtain ⟨ha, hu, hdir⟩ := h.dir_of_tree (.of_mem hx)
  obtain ⟨hcs, hcu, hcf⟩ := h.file_of_tree hf
  obtain ⟨e, h2, he, hname, hchild, hseen, huniq⟩ := h.entry hx
  have hac : a ≠ c := by
    intro heq
    subst heq
    exact h.tree.not_self hx
  have hlow := hcs.low
  have hlowa := ha.low
  have hin := h.inode ha hu
  have hpack := ((h.good a ha hu).dir hdir).packed
  have hwhole := hpack.whole
  have hlen : (s.vol.tree.entries a).length + 2 = (nodeAt s.vol.bytes a).size / 256 := by
    rw [(h.entries_tree ha hu hdir).2, List.length_drop, length_entries]
    omega
  obtain ⟨l, hl1⟩ : ∃ l, l + 1 = (nodeAt s.vol.bytes a).size / 256 := ⟨(nodeAt s.vol.bytes a).size / 256 - 1, by omega⟩
  have hremoval : RemovalOK s.vol (nodeAt s.vol.bytes a) e := by
    refine ⟨hseen, ?_⟩
    rcases hok with hno | hlast
    · exact Or.inl (by omega)
    · right
      rw [(h.entries_tree ha hu hdir).2, List.getLast?_eq_getElem?, List.getElem?_drop, List.length_drop, length_entries] at hlast
      obtain ⟨hlt, hget⟩ := List.getElem?_eq_some_iff.mp hlast
      have hlc := (entries_get (m := s.vol.bytes) (n := nodeAt s.vol.bytes a) rfl hlt).2
      rw [hget] at hlc
      have := huniq _ (by omega) hlc
      have := hpack.lt he
      have := ((h.good a ha hu).dir hdir).few
      exact ⟨by omega, Or.inl (by omega)⟩
  obtain ⟨K0, K1, own1, ps1, n1, hr, hsh, hset, hbytes⟩ := removeLink_seen hin hpack he hseen hchild (show c ≠ 0 by omega) huniq hl1
  have hmoved := settled_moved hin.toMapAt (hpack.lt he) hl1 hremoval hset
  obtain ⟨K', own', ps', hrun, hdel, hsp, hconf, hzero⟩ := unlinkFrom_after (h.inode hcs hcu) (h.beside hcs ha hac)
    (h.good c hcs hcu).links hcf hr hsh
  obtain ⟨s', hcall, hs'⟩ := hrun.exec (s := s1) (holds_all.mpr hs1)
  obtain rfl := hdel.confined.keeps.all hs'
  obtain ⟨es, hperm, hkept, ht⟩ := h.drop hx h2 he hl1 hsh hmoved hbytes hname hchild hf hconf hsp hzero
  exact ⟨es, hperm, s', own', ps', (hfound.unlink (by omega) (by omega)).trans hcall, hkept, hdel.confined.keeps.stays, ht,
    h.drop_whole hx hf hsh hconf hsp hdel.order⟩

end TyrantFS

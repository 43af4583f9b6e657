/-
  TyrantFS.Fuse.Make — new files and directories of the tree.

  `add_to_directory` with fewer than 192 entries in the directory adds the entry, or the
  last block is full and no block is free (`addToDirectory_direct`). So `tfs_mknod` and
  `tfs_mkdir` make an object under a name that is new (`tfsMknod_yields`,
  `tfsMkdir_yields`), or fail and leave the tree as it is.
-/
import TyrantFS.Fuse.Files
import TyrantFS.Fuse.Create

namespace TyrantFS

open Lib Lib.PageTree Lib.Store

variable {z : Zone} {K : View} {v v2 v' : Vol} {own own2 own' : Nat → Option Pos} {ps ps2 ps' : List Nat} {a c p : Nat} {n n2 n' : Node}
  {path before name : List UInt8} {s : Sys} {m : UInt32}

/-! ## The entry -/

/-- The outcome of `add_to_directory` where the direct blocks are enough. -/
theorem addToDirectory_direct (h : InodeAt z K own ps a n) (hp : Packed K n) (hc : Beside z a c) (hn : IsName name)
    (hfew : n.size < 256 * 192) :
    n.size % 4096 = 0 ∧ freeOrder K ps = [] ∧ Runs K (addToDirectory a c name) (-1) K ∨
      ∃ K' own' ps' n', Runs K (addToDirectory a c name) 0 K' ∧ Inserted z a c name K own n K' own' ps' n' ∧
        n' = (n.withMap n').stamp n'.size n'.changeTime ∧
        (freeOrder K ps).length = (freeOrder K' ps').length + (if n.size % 4096 = 0 then 1 else 0) ∧
        ∀ b, b ∈ freeOrder K ps ∨ Uses K.vol.bytes n b → b ∈ freeOrder K' ps' ∨ Uses K'.vol.bytes n' b := by
  have hlow := h.low
  have hhigh := h.high
  have hin := h.inside
  have hclow := hc.low
  have hchigh := hc.high
  have hceil := hp.ceil
  by_cases hm : n.size % 4096 = 0
  · have hroot : rootOf n.blocks = n.blocks := if_pos (by omega)
    have hdepth : depth (rootOf n.blocks) = 0 := by
      rw [hroot, depth]
      omega
    have hclear : PagesClear K ps n := by
      intro k hk
      rw [hdepth] at hk
      exact absurd hk (Nat.not_lt_zero k)
    have hcap : n.blocks < capacity := Nat.lt_of_lt_of_le (show n.blocks < 12 by omega) (by decide +kernel)
    obtain ⟨r, K1, hadd, hgrown⟩ := addBlockToNode_runs h.space h.maps h.fits h.low h.high hcap hclear
    by_cases hfo : freeOrder K ps = []
    · -- there is no block
      left
      obtain rfl := nil_of_freeOrder hfo
      have hnone : Runs K (addBlockToNode n a) (0, n) K := by
        unfold addBlockToNode
        rw [if_neg (by omega)]
        refine globals_runs.bind ((allocateBlock_none _ h.space.list).bind ?_)
        rw [if_pos rfl]
        exact Runs.pure
      refine ⟨hm, hfo, ?_⟩
      unfold addToDirectory
      rw [if_neg (by omega)]
      refine h.fetch.bind ((fetchNode_runs (by omega) (by omega) (h.sees.mono (by omega) (by omega))).bind ?_)
      rw [if_pos hm]
      apply hnone.bind
      rw [if_pos rfl]
      exact Runs.pure
    · obtain ⟨x, K', hrun, ⟨rfl, own', ps', n', hins, hn', K2, q, hq, had, hsame, hord, haddr⟩ | ⟨rfl, q, hq, own1, ps1, had⟩⟩ :=
        addToDirectory_extends h hp hc hn hm ⟨r, K1, hadd, hgrown⟩
      · have hcount := had.count hq
        have hblocks := had.blocks hq
        rw [hdepth] at hcount
        have hmiss : missing K.vol.bytes n (rootOf n.blocks) (pathOf n.blocks) 0 0 = 0 := rfl
        have hold : ∀ {b}, Uses K2.vol.bytes q.2 b → Uses K'.vol.bytes n' b := fun hb =>
          hb.keep (Nat.le_of_eq hsame.blocks.symm) (fun i hi => haddr i (by rw [hsame.blocks]; exact hi)) fun _ => hsame.root 12
        refine Or.inr ⟨K', own', ps', n', hrun, hins, hn', by rw [if_pos hm, hord]; omega, fun b hb => ?_⟩
        rcases hb with hb | hb
        · rw [hord]
          rcases had.covers hq (by omega) (fun hge => absurd hge (by omega)) b hb with hb | rfl | hb
          · exact Or.inl hb
          · exact Or.inr (hold (Or.inl ⟨n.blocks, by omega, had.entered hq⟩))
          · exact Or.inr (hold (Or.inr hb))
        · exact Or.inr (hold (hb.keep (by omega) had.addr fun hne => had.page_kept hne))
      · have hfail := (had.failed hq).2
        rw [hdepth] at hfail
        have := List.length_pos_of_ne_nil hfo
        have hmiss : missing K.vol.bytes n (rootOf n.blocks) (pathOf n.blocks) 0 0 = 0 := rfl
        omega
  · have hwhole := hp.whole
    obtain ⟨-, hord, hkept⟩ : MapAt z (K.insert _ a c n (nodeAt K.vol.bytes c) (strBuf name K.vol.env.junk)) own ps a n ∧ _ :=
      insert_map h.toMapAt (show n.size / 256 / 16 < n.blocks by omega) hc
    refine Or.inr ⟨_, own, ps, _, addToDirectory_room name h hp hc hm, insert_inserted h hp.toLaid (by omega) hc hn, rfl,
      by rw [if_neg hm, hord, Nat.add_zero], fun b hb => ?_⟩
    rw [hord]
    exact hb.imp_right fun hb => hb.keep (Nat.le_refl _) hkept fun _ => rfl

theorem Inserted.confined {K' : View} (h : Inserted z a c name K own n K' own' ps' n') :
    Confined z (fun b => b = a ∨ b = c) K own K' own' where
  keeps := h.keeps.mono fun x hx => by
    rcases hx with (hx | ⟨b, rfl, hx⟩ | ⟨b, hb, ho, hx⟩) | hx
    · exact Or.inl hx
    · exact Or.inr (Or.inl ⟨b, Or.inl rfl, hx⟩)
    · exact Or.inr (Or.inr ⟨b, hb, fun q hq => Or.inl (ho q hq), hx⟩)
    · exact touch_slot (Or.inr rfl) hx.1 hx.2
  owner b q hq hno := h.owner b q hq fun hqa => hno (Or.inl hqa)

/-! ## A directory of two entries -/

theorem Keeps.newDir {S : Nat → Prop} {b : Nat} (h : ∀ x, b ≤ x → x < b + 4096 → S x) : Keeps S K (K.newDir b c) :=
  (Keeps.store h).trans ((Keeps.store fun x h1 h2 => h x h1 (by omega)).trans
    ((Keeps.storeWord fun x h1 h2 => h x (by omega) (by omega)).trans (Keeps.store fun x h1 h2 => h x (by omega) (by omega))))

section
variable {b d : Nat} (hb : n.direct 0 = b) (hs : n.size = 512) (h0 : entryName v.bytes b = dotName)
  (h1 : entryName v.bytes (b + 256) = dotDotName)

include hb hs h0 h1

theorem pair_entries (ha : entryAddr v.bytes b = c) (ha' : entryAddr v.bytes (b + 256) = d) :
    entries v.bytes n = [(dotName, c), (dotDotName, d)] := by
  have he0 : entryAt v.bytes n 0 = b := by
    rw [entryAt, addrOf_direct (by decide)]
    exact hb
  have he1 : entryAt v.bytes n 1 = b + 256 := by
    rw [entryAt, addrOf_direct (by decide)]
    exact congrArg (· + 256) hb
  rw [entries, hs]
  show [(nameOf v.bytes n 0, childOf v.bytes n 0), (nameOf v.bytes n 1, childOf v.bytes n 1)] = _
  rw [nameOf, childOf, nameOf, childOf, he0, he1, h0, h1, ha, ha']

theorem pair_packed (hone : n.blocks = 1) (hrest : ∀ x, b + 512 ≤ x → x < b + 4096 → v.bytes x = 0) : Packed (.all v) n := by
  have hat : ∀ e < 16, entryAt v.bytes n e = b + 256 * e := by
    intro e he
    rw [entryAt, addrOf_direct (by omega), show e / 16 = 0 by omega, hb, Nat.mod_eq_of_lt he]
  refine ⟨⟨by rw [hs], fun _ _ => View.Sees.all _ _ _, fun e he hz => ?_, fun e he he' k hk => ?_⟩, by rw [hs, hone]⟩
  · rw [hs] at he
    rw [all_vol, hat e (by omega)] at hz
    have hnil := entryName_eq_nil.mpr hz
    obtain rfl | rfl : e = 0 ∨ e = 1 := by omega
    · rw [Nat.mul_zero, Nat.add_zero, h0] at hnil
      exact absurd hnil (by decide)
    · rw [Nat.mul_one, h1] at hnil
      exact absurd hnil (by decide)
  · rw [hs] at he
    rw [hone] at he'
    rw [all_vol, hat e (by omega)]
    exact hrest _ (by omega) (by omega)

end

/-! ## The object -/

/-- How many blocks one more entry in the directory takes. -/
def needs (t : FileTree) (p : Nat) : Nat := if ((t.entries p).length + 2) % 16 = 0 then 1 else 0

/-- An inode that is written to the free slot `c`, and has no link yet. -/
structure Newborn (z : Zone) (v : Vol) (own : Nat → Option Pos) (ps : List Nat) (c : Nat) (n : Node) : Prop where
  space : Space z (.all v) own ps
  node : nodeAt v.bytes c = n
  links : n.links = 0
  mode : n.mode ≠ 0
  few : n.blocks ≤ 12
  roots : ∀ j, 12 ≤ j → n.root j = 0
  owner : ∀ i < n.blocks, own (n.direct i) = some (.data c i)
  dir : isDir n.mode → Packed (.all v) n ∧ entries v.bytes n = [(dotName, c), (dotDotName, 0)]
  file : isDir n.mode = false → n.size = 0

theorem SameMap.linked {t : Nat} : SameMap n (n.linked t) := ⟨rfl, fun _ => rfl⟩

section
variable (h : Kept z v own ps) (hp : IsSlot z.lo p) (hu : InUse v.bytes p) (hd : isDir (nodeAt v.bytes p).mode)
  (hc : IsSlot z.lo c) (hcu : ¬ InUse v.bytes c) (h1 : Confined z (· = c) (.all v) own (.all v2) own2)
  (hb : Newborn z v2 own2 ps2 c n2) (hins : Inserted z p c name (.all v2) own2 (nodeAt v.bytes p) (.all v') own' ps' n')

include h hp hu hc hcu h1 hb hins

/-- The new inode has its link, and stands for an object that names nothing. -/
theorem Kept.enter_child : Good z v' own' c ∧ InUse v'.bytes c ∧
    objOf v'.bytes (nodeAt v'.bytes c) = ⟨n2.attrs, if isDir n2.mode then .dir [] else .file []⟩ := by
  have hcp : c ≠ p := fun e => hcu (e ▸ hu)
  have hlow := hc.low
  have hchigh := h.slot_high hc
  have hphigh := h.slot_high hp
  have hglob : v'.glob = v.glob := hins.keeps.glob.trans h1.keeps.glob
  obtain ⟨t, ht⟩ : ∃ t, nodeAt v'.bytes c = n2.linked t := ⟨_, hb.node ▸ hins.links⟩
  -- its blocks are what they were
  have hkept : ∀ i < n2.blocks, addrOf (View.all v').vol.bytes n2 i = addrOf (View.all v2).vol.bytes n2 i ∧
      ∀ k < 4096, (View.all v').vol.bytes (addrOf (View.all v2).vol.bytes n2 i + k) =
        (View.all v2).vol.bytes (addrOf (View.all v2).vol.bytes n2 i + k) := by
    intro i hi
    have hi12 : i < 12 := Nat.lt_of_lt_of_le hi hb.few
    have hown := hb.owner i hi
    have hblk := (hb.space.owned _ (by rw [hown]; exact Option.some_ne_none _)).low
    rw [addrOf_direct hi12, addrOf_direct hi12]
    refine ⟨rfl, fun k hk => hins.keeps.bytes _ fun hx => ?_⟩
    rcases hx with hx | hx
    · exact hb.space.not_touch (A := (· = p)) hown hcp (fun b hb => hb ▸ hphigh) (Nat.le_add_right _ k) (by omega) hx
    · omega
  have hmap : Maps (.all v') own' c (n2.linked t) := .direct hb.few hb.roots fun i hi => hins.owner _ _ (hb.owner i hi) hcp
  refine ⟨⟨by rw [ht]; exact hmap, ?_, fun hdir => ?_, fun hf => ?_⟩, ?_, ?_⟩
  · rw [ht]
    show (n2.links + 1) % 2 ^ 32 = 1
    rw [hb.links]
    rfl
  · rw [ht] at hdir
    obtain ⟨hpack, hent⟩ := hb.dir hdir
    have hpack' := hpack.kept hkept fun _ _ => trivial
    have hent' : entries v'.bytes (n2.linked t) = entries v2.bytes n2 := entries_congr rfl fun e he =>
      ⟨SameMap.linked.entry.1.trans (name_kept hkept (hpack.lt he)), SameMap.linked.entry.2.trans (child_kept hkept (hpack.lt he))⟩
    have hcr : c ≠ v'.glob.rootNode := fun e => hcu (by rw [e, hglob]; exact h.root_dir.1)
    refine .of_pair ?_ ?_ ?_
    · rw [ht]
      exact hpack'.sameMap SameMap.linked rfl
    · rw [ht]
      exact hb.few
    · rw [ht, hent', hent, if_neg hcr]
  · rw [ht] at hf ⊢
    have hsize : (n2.linked t).size = 0 := hb.file hf
    omega
  · rw [InUse, ht]
    exact hb.mode
  · rw [ht, objOf]
    by_cases hdir : isDir n2.mode
    · obtain ⟨hpack, hent⟩ := hb.dir hdir
      have hent' : entries v'.bytes (n2.linked t) = entries v2.bytes n2 := entries_congr rfl fun e he =>
        ⟨SameMap.linked.entry.1.trans (name_kept hkept (hpack.lt he)), SameMap.linked.entry.2.trans (child_kept hkept (hpack.lt he))⟩
      have hdir' : isDir (n2.linked t).mode := hdir
      rw [if_pos hdir', if_pos hdir, hent', hent]
      rfl
    · have hsize : (n2.linked t).size = 0 := hb.file (Bool.eq_false_iff.mpr hdir)
      have hdir' : ¬ isDir (n2.linked t).mode := hdir
      rw [if_neg hdir', if_neg hdir, contents, hsize]
      rfl

/-- No block is lost where the child has those that were taken, and the entry takes only
    blocks for its directory. -/
theorem Kept.enter_whole (hmid : ∀ b ∈ freeOrder (.all v) ps, b ∈ freeOrder (.all v2) ps2 ∨ Uses v2.bytes n2 b)
    (hput : ∀ b, b ∈ freeOrder (.all v2) ps2 ∨ Uses v2.bytes (nodeAt v.bytes p) b → b ∈ freeOrder (.all v') ps' ∨ Uses v'.bytes n' b)
    (hw : Whole z v) : Whole z v' := by
  have hcp : c ≠ p := fun e => hcu (e ▸ hu)
  obtain ⟨-, huc, -⟩ := h.enter_child hp hu hc hcu h1 hb hins
  obtain ⟨t, ht⟩ : ∃ t, nodeAt v'.bytes c = n2.linked t := ⟨_, hb.node ▸ hins.links⟩
  have hn : nodeAt v'.bytes p = n' := hins.inode.node
  have hup : InUse v'.bytes p := by
    rw [InUse, hn, hins.attrs.1]
    exact hu
  have hsame := (h.same h1 hb.space (fun b e => e ▸ hc) hp hu (Ne.symm hcp)).1
  have hA : ∀ b, b = p ∨ b = c → IsSlot z.lo b := by
    intro b hb
    rcases hb with rfl | rfl
    · exact hp
    · exact hc
  have hparent : ∀ b, b ∈ freeOrder (.all v2) ps2 ∨ Uses v2.bytes (nodeAt v.bytes p) b → Accounted z v' b := fun b hb =>
    (hput b hb).imp hins.inode.space.hasFree.mpr fun hb => ⟨p, hp, hup, by rwa [hn]⟩
  refine h.whole ((h1.mono fun b e => Or.inr e).trans hins.confined) hins.inode.space hA (fun b hbf => ?_) (fun a ha hua b hab => ?_) hw
  · rcases hmid b hbf with hbf | hbc
    · exact hparent b (Or.inl hbf)
    · refine Or.inr ⟨c, hc, huc, ?_⟩
      rw [ht]
      refine hbc.keep (Nat.le_refl _) (fun i hi => ?_) fun _ => rfl
      have hi12 : i < 12 := Nat.lt_of_lt_of_le hi hb.few
      rw [addrOf_direct hi12, addrOf_direct hi12]
      rfl
  · rcases ha with rfl | rfl
    · exact hparent b (Or.inr (hab.keep (Nat.le_refl _) (fun i hi => (hsame.blocks i hi).1) fun _ => rfl))
    · exact absurd hua hcu

include hd

theorem Kept.enter (hn' : n' = ((nodeAt v.bytes p).withMap n').stamp n'.size n'.changeTime)
    (hplain : name ≠ dotName ∧ name ≠ dotDotName) (hnew : name ∉ v.tree.names p)
    (hfew : (nodeAt v.bytes p).size < 256 * 192) :
    Kept z v' own' ps' ∧ v'.tree = v.tree.make p name c ⟨n2.attrs, if isDir n2.mode then .dir [] else .file []⟩ := by
  have hcp : c ≠ p := fun e => hcu (e ▸ hu)
  obtain ⟨hgc, huc, hobj⟩ := h.enter_child hp hu hc hcu h1 hb hins
  have hg := h.good p hp hu
  have hdir := hg.dir hd
  have hn : nodeAt v'.bytes p = n' := hins.inode.node
  have hmode : n'.mode = (nodeAt v.bytes p).mode := hins.attrs.1
  have hattrs : n'.attrs = (nodeAt v.bytes p).attrs := by
    rw [hn']
    rfl
  have hglob : v'.glob = v.glob := hins.keeps.glob.trans h1.keeps.glob
  have hA1 : ∀ b, b = c → IsSlot z.lo b := fun b e => e ▸ hc
  have hA : ∀ b, b = p ∨ b = c → IsSlot z.lo b := by
    intro b hb
    rcases hb with rfl | rfl
    · exact hp
    · exact hc
  have hall : Confined z (fun b => b = p ∨ b = c) (.all v) own (.all v') own' := (h1.mono fun b e => Or.inr e).trans hins.confined
  -- the entries of the parent
  have hsame := (h.same h1 hb.space hA1 hp hu (Ne.symm hcp)).1
  have hkept : ∀ i < (nodeAt v.bytes p).blocks, addrOf (View.all v2).vol.bytes (nodeAt v.bytes p) i =
      addrOf (View.all v).vol.bytes (nodeAt v.bytes p) i ∧ _ := hsame.blocks
  have hold : entries v2.bytes (nodeAt v.bytes p) = entries v.bytes (nodeAt v.bytes p) :=
    entries_congr rfl fun e he => ⟨name_kept hkept (hdir.packed.lt he), child_kept hkept (hdir.packed.lt he)⟩
  have hent : entries v'.bytes n' = (dotName, p) :: (dotDotName, if p = v.glob.rootNode then p else 0) ::
      (v.tree.entries p ++ [(name, c)]) := by
    have he : entries v'.bytes n' = entries v2.bytes (nodeAt v.bytes p) ++ [(name, c)] := hins.entries
    rw [he, hold, hdir.entries, (h.entries_tree hp hu hd).2]
    rfl
  have hd' : isDir n'.mode := by rw [hmode]; exact hd
  have ht : v'.tree = v.tree.make p name c ⟨n2.attrs, if isDir n2.mode then .dir [] else .file []⟩ := by
    funext b
    by_cases hbp : b = p
    · subst hbp
      rw [h.tree_dir hglob hp hn hd' hent, Store.make, setBody_self, set_ne (Ne.symm hcp), h.tree_some hp hu, hattrs]
      rfl
    · rw [Store.make, setBody_ne hbp]
      by_cases hbc : b = c
      · subst hbc
        rw [set_self, ← hobj]
        exact if_pos ⟨by rw [hglob, h.boundary]; exact hc, huc⟩
      · rw [set_ne hbc]
        exact h.tree_other hall hins.inode.space hA fun hb => hb.elim hbp hbc
  have hfresh : Fresh (⟨n2.attrs, if isDir n2.mode then .dir [] else .file []⟩ : Obj (List UInt8) Nat Attrs UInt8) := by
    unfold Fresh
    split
    · exact Or.inl rfl
    · exact Or.inr ⟨[], rfl⟩
  have hnone : v.tree c = none := by
    by_contra hno
    exact hcu (h.used.mp hno).2
  have htree : Lib.Store.Tree v.glob.rootNode v'.tree := by
    rw [ht]
    exact h.tree.step (.make p name c _ (h.entries_tree hp hu hd).1 hnew hnone hfresh)
  refine ⟨h.frame hall hins.inode.space hA (fun b hb _ => ?_) (fun b hb hub => absurd ?_ hub) htree, ht⟩
  · rcases hb with rfl | rfl
    · refine ⟨by rw [hn]; exact hins.inode.maps, by rw [hn, hins.attrs.2]; exact hg.links, fun _ => ?_, fun hf => ?_⟩
      · have hnames := htree.names b
        rw [Store.names, entries_dir (h.tree_dir hglob hp hn hd' hent)] at hnames
        refine .of_entries ?_ ?_ (by rw [hn, hglob]; exact hent) hnames fun w hw => ?_
        · rw [hn]
          exact hins.packed
        · have hceil := hins.packed.ceil
          have hsize := hins.size
          have hwhole := hdir.packed.whole
          rw [hn]
          omega
        · rcases List.mem_append.mp hw with hw | hw
          · exact h.plain hw
          · obtain rfl := List.mem_singleton.mp hw
            exact hplain
      · rw [hn, hmode] at hf
        exact absurd hd (by rw [hf]; decide)
    · exact hgc
  · rcases hb with rfl | rfl
    · rw [InUse, hn, hmode]
      exact hu
    · exact huc

omit hins in
/-- Entering the inode in the directory makes the object, or there is no block for the
    entry where one is needed. -/
theorem Kept.enters (hname : IsName name) (hplain : name ≠ dotName ∧ name ≠ dotDotName) (hnew : name ∉ v.tree.names p)
    (hfew : (v.tree.entries p).length < 190) :
    (∃ v' own' ps', Runs (.all v2) (addToDirectory p c name) 0 (.all v') ∧ Kept z v' own' ps' ∧ SameDevice v v' ∧
      v'.tree = v.tree.make p name c ⟨n2.attrs, if isDir n2.mode then .dir [] else .file []⟩ ∧
      (freeOrder (.all v2) ps2).length = (freeOrder (.all v') ps').length + needs v.tree p ∧
      ((∀ b ∈ freeOrder (.all v) ps, b ∈ freeOrder (.all v2) ps2 ∨ Uses v2.bytes n2 b) → Whole z v → Whole z v')) ∨
    (freeOrder (.all v2) ps2).length < needs v.tree p ∧ freeOrder (.all v2) ps2 = [] ∧
      Runs (.all v2) (addToDirectory p c name) (-1) (.all v2) := by
  have hcp : c ≠ p := fun e => hcu (e ▸ hu)
  have hDir := (h.good p hp hu).dir hd
  have h2 := hDir.two
  have hwhole := hDir.packed.whole
  have hlen : (v.tree.entries p).length + 2 = (nodeAt v.bytes p).size / 256 := by
    rw [(h.entries_tree hp hu hd).2, List.length_drop, length_entries]
    omega
  have hneeds : needs v.tree p = if (nodeAt v.bytes p).size % 4096 = 0 then 1 else 0 := by
    rw [needs, hlen]
    exact if_congr (by omega) rfl rfl
  rw [hneeds]
  obtain ⟨hsame, hin⟩ := h.same h1 hb.space (fun b e => e ▸ hc) hp hu (Ne.symm hcp)
  have hpack : Packed (.all v2) (nodeAt v.bytes p) := hsame.node ▸ (hsame.dirAt hDir).packed
  rcases addToDirectory_direct hin hpack (h.beside hp hc hcp) hname (by omega) with
    ⟨hm, hfull, hrun⟩ | ⟨K', own', ps', n', hrun, hins, hn', hcount, hput⟩
  · exact Or.inr ⟨by rw [hfull, if_pos hm]; decide, hfull, hrun⟩
  · have hK : K' = .all K'.vol := hins.keeps.all_vol
    rw [hK] at hins hrun hcount hput
    obtain ⟨hkept, ht⟩ := h.enter hp hu hd hc hcu h1 hb hins hn' hplain hnew (by omega)
    exact Or.inl ⟨K'.vol, own', ps', hrun, hkept, ((h1.mono fun b e => Or.inr e).trans hins.confined).keeps.stays, ht, hcount,
      fun hmid => h.enter_whole hp hu hc hcu h1 hb hins hmid hput⟩

end

/-! ## The inodes -/

/-- The inode `tfs_mknod` gives a file: the old map, without blocks. -/
def fileInode (n : Node) (m t u g : Nat) : Node :=
  { n with
    mode := m, links := 0, blocks := 0, size := 0, userId := u, groupId := g
    creationTime := t, accessTime := t, changeTime := t, dataTime := t }

/-- The inode `tfs_mkdir` gives a directory with the block `b`. -/
def dirInode (n : Node) (b m t u g : Nat) : Node :=
  { n.setDirect 0 b with
    creationTime := t, accessTime := t, changeTime := t, dataTime := t
    userId := u, groupId := g, mode := m ||| 0x4000, blocks := 1, links := 0, size := 256 * 2 }

section
variable {b t u g w : Nat} (hn : n.Fits) (ht : t < 2 ^ 64) (hu : u < 2 ^ 32) (hg : g < 2 ^ 32) (hw : w < 2 ^ 32)

include hn ht hu hg hw

theorem fileInode_fits : (fileInode n w t u g).Fits :=
  { hn with
    mode := hw, links := show 0 < 2 ^ 32 by decide, blocks := show 0 < 2 ^ 64 by decide, size := show 0 < 2 ^ 64 by decide
    userId := hu, groupId := hg, creationTime := ht, accessTime := ht, changeTime := ht, dataTime := ht }

theorem dirInode_fits (hb : b < 2 ^ 64) : (dirInode n b w t u g).Fits :=
  { setDirect_fits hn (i := 0) hb with
    mode := Nat.or_lt_two_pow hw (by decide), links := show 0 < 2 ^ 32 by decide, blocks := show 1 < 2 ^ 64 by decide
    size := show 256 * 2 < 2 ^ 64 by decide, userId := hu, groupId := hg
    creationTime := ht, accessTime := ht, changeTime := ht, dataTime := ht }

end

theorem isDir_or {w : Nat} : isDir (w ||| 0x4000) := by
  rw [isDir, Nat.and_or_distrib_right, Nat.and_self, beq_iff_eq, Nat.or_comm]
  refine Nat.eq_of_testBit_eq fun i => ?_
  rw [Nat.testBit_or, Nat.testBit_and]
  cases Nat.testBit 0x4000 i <;> simp

theorem dirInode_direct {b w t u g : Nat} : (dirInode n b w t u g).direct 0 = b :=
  (direct_setDirect n (by decide)).trans (if_pos rfl)

section
variable (h : Kept z v own ps) (hc : IsSlot z.lo c) (hcu : ¬ InUse v.bytes c)

include h hc hcu

/-- A file's inode is in its slot. -/
theorem Kept.newborn_file {w t u g : Nat} (hk : Keeps (fun x => c ≤ x ∧ x < c + 208) (.all v) (.all v2))
    (hnode : nodeAt v2.bytes c = fileInode (nodeAt v.bytes c) w t u g) (h0 : w ≠ 0) (hf : isDir w = false) :
    Confined z (· = c) (.all v) own (.all v2) own ∧ Newborn z v2 own ps c (fileInode (nodeAt v.bytes c) w t u g) ∧
      freeOrder (.all v2) ps = freeOrder (.all v) ps := by
  have hlow := hc.low
  have hhigh := h.slot_high hc
  obtain ⟨hsp, hfo⟩ := h.space.keep hk (fun x hx => by omega) fun x b hx hb => by
    have := (h.space.free b hb).2.low
    omega
  exact ⟨.bytes hk fun x hx => touch_slot rfl hx.1 (by omega),
    ⟨hsp, hnode, rfl, h0, Nat.zero_le 12, fun j hj => h.blank c hc hcu j hj, fun i hi => absurd hi (Nat.not_lt_zero i),
      fun hd => absurd (hf.symm.trans hd) (by decide), fun _ => rfl⟩, hfo⟩

/-- A directory's inode and block are written; the block came from the free list. -/
theorem Kept.newborn_dir {b w t u g : Nat} {K1 : View} {ps1 : List Nat} (ht : Taken (.all v) ps b K1 ps1)
    (hk : Keeps (fun x => b ≤ x ∧ x < b + 4096 ∨ c ≤ x ∧ x < c + 208) K1 (.all v2))
    (hblk : ∀ x, b ≤ x → x < b + 4096 → v2.bytes x = newDir K1.vol.bytes b c x)
    (hnode : nodeAt v2.bytes c = dirInode (nodeAt v.bytes c) b w t u g) (hc64 : c < 2 ^ 64) :
    Confined z (· = c) (.all v) own (.all v2) own ∧ Space z (.all v2) own ps1 ∧
      Newborn z v2 (assign own b (some (.data c 0))) ps1 c (dirInode (nodeAt v.bytes c) b w t u g) ∧
      freeOrder (.all v2) ps1 = freeOrder K1 ps1 := by
  have hlow := hc.low
  have hhigh := h.slot_high hc
  obtain ⟨hsp1, hbn, hbo, hbz⟩ := h.space.take ht
  have hblow := hbz.low
  obtain ⟨hsp, hfo⟩ := hsp1.keep hk (fun x hx => by omega) fun x d hx hd => by
    have hz := (hsp1.free d hd).2
    have := hz.low
    have := hz.apart hbz fun e => hbn (e ▸ hd)
    omega
  have hconf : Confined z (· = c) (.all v) own (.all v2) own := (h.space.take_confined ht).trans (Confined.bytes hk fun x hx => by
    rcases hx with hx | hx
    · exact touch_free hbz hbo hx.1 hx.2
    · exact touch_slot rfl hx.1 (by omega))
  have hname0 : entryName v2.bytes b = dotName := (entryName_congr fun k hk => hblk _ (by omega) (by omega)).trans newDir_dot
  have hname1 : entryName v2.bytes (b + 256) = dotDotName :=
    (entryName_congr fun k hk => hblk _ (by omega) (by omega)).trans newDir_dotDot
  have haddr0 : entryAddr v2.bytes b = c := (entryAddr_congr fun k hk => hblk _ (by omega) (by omega)).trans (newDir_dot_addr hc64)
  have haddr1 : entryAddr v2.bytes (b + 256) = 0 :=
    (entryAddr_congr fun k hk => hblk _ (by omega) (by omega)).trans newDir_dotDot_addr
  refine ⟨hconf, hsp, ⟨hsp.assign hbz (by rw [hfo]; exact hbn), hnode, rfl, isDir_ne_zero isDir_or,
    show 1 ≤ 12 by decide, fun j hj => ?_, fun i hi => ?_, fun _ => ⟨?_, ?_⟩, fun hf => ?_⟩, hfo⟩
  · rw [← h.blank c hc hcu j hj]
    have hj' : ¬ j < 12 := by omega
    simp only [Node.root, if_neg hj']
    rfl
  · obtain rfl : i = 0 := Nat.lt_one_iff.mp hi
    rw [dirInode_direct, assign_self]
  · exact pair_packed dirInode_direct rfl hname0 hname1 rfl fun x h1 h2 =>
      (hblk x (Nat.le_trans (Nat.le_add_right b 512) h1) h2).trans (newDir_rest h1 h2)
  · exact pair_entries dirInode_direct rfl hname0 hname1 haddr0 haddr1
  · exact absurd (hf.symm.trans isDir_or) (by decide)

end

/-! ## The calls -/

/-- The slot is cleared again. -/
theorem Kept.undo (h : Kept z v own ps) (hc : IsSlot z.lo c) (hcu : ¬ InUse v.bytes c)
    (h1 : Confined z (· = c) (.all v) own (.all v') own) (hsp : Space z (.all v') own ps')
    (hzero : ∀ k < 256, v'.bytes (c + k) = 0) (hfree : ∀ b ∈ freeOrder (.all v) ps, b ∈ freeOrder (.all v') ps') :
    Kept z v' own ps' ∧ v'.tree = v.tree ∧ (Whole z v → Whole z v') := by
  have hA : ∀ b, b = c → IsSlot z.lo b := fun b e => e ▸ hc
  have hclear : nodeAt v'.bytes c = Node.decode zeros := nodeAt_zero fun k hk => hzero k (by omega)
  have hun : ¬ InUse v'.bytes c := by
    rw [InUse, hclear]
    exact not_not.mpr decode_zeros_mode
  have ht : v'.tree = v.tree := by
    funext b
    by_cases hbc : b = c
    · subst hbc
      have h0 : v.tree b = none := if_neg fun hin => hcu hin.2
      have h0' : v'.tree b = none := if_neg fun hin => hun hin.2
      rw [h0, h0']
    · exact h.tree_other h1 hsp hA hbc
  refine ⟨h.frame h1 hsp hA (fun b hb hub => absurd (hb ▸ hub) hun) (fun b hb _ j hj => ?_) (ht ▸ h.tree), ht,
    h.whole h1 hsp hA (fun b hb => Or.inl (hsp.hasFree.mpr (hfree b hb))) fun a ha hua => absurd (ha ▸ hua) hcu⟩
  rw [hb, hclear]
  exact decode_zeros_root hj

/-- Without its entry the inode is freed, and nothing is left of it. -/
theorem Kept.clears (h : Kept z v own ps) (hc : IsSlot z.lo c) (hcu : ¬ InUse v.bytes c)
    (h1 : Confined z (· = c) (.all v) own (.all v2) own) (hsp : Space z (.all v2) own ps2)
    (hfree : ∀ b ∈ freeOrder (.all v) ps, b ∈ freeOrder (.all v2) ps2) :
    ∃ v', Runs (.all v2) (freeInode c) 0 (.all v') ∧ Kept z v' own ps2 ∧ SameDevice v v' ∧ v'.tree = v.tree ∧
      (Whole z v → Whole z v') := by
  have hlow := hc.low
  have hhigh := h.high
  have hsize : v2.size = v.size := h1.keeps.size
  obtain ⟨hrun, -, hsp', hord, hconf⟩ := hsp.clear (by omega) (h.slot_high hc) (by rw [all_vol, hsize]; exact hhigh)
  have hzero : ∀ k < 256, ((View.all v2).store c 256 zeros).vol.bytes (c + k) = 0 := fun k hk =>
    put_in (Nat.le_add_right c k) (Nat.add_lt_add_left hk c)
  have hall := h1.trans hconf
  have hK := hall.keeps.all_vol
  rw [hK] at hall hrun hsp' hord
  obtain ⟨hkept, ht, hw⟩ := h.undo hc hcu hall hsp' hzero fun b hb => by
    rw [hord]
    exact hfree b hb
  exact ⟨_, hrun, hkept, hall.keeps.stays, ht, hw⟩

section
variable (h : Kept z s.vol own ps) (hpl : Plain (tokens before)) (hw : Walkable s.vol.tree s.vol.glob.rootNode (tokens before))

include h hpl hw

theorem Kept.parent_runs (hpd : Leads s.vol.tree s.vol.glob.rootNode (tokens before) p) :
    Runs (.all s.vol) (findParent before) p (.all s.vol) := by
  have hu := h.root_dir.1
  apply (findParent_runs h.sound (h.searches h.root hu hpl hw)).result
  rw [(h.resolve_iff h.root hu hpl).mpr hpd]
  rfl

theorem Kept.parent_missing (hno : ∀ p, ¬ Leads s.vol.tree s.vol.glob.rootNode (tokens before) p) :
    Runs (.all s.vol) (findParent before) 0 (.all s.vol) := by
  have hu := h.root_dir.1
  apply (findParent_runs h.sound (h.searches h.root hu hpl hw)).result
  cases hr : resolve s.vol.bytes s.vol.glob.rootNode (tokens before) with
  | none => rfl
  | some p => exact absurd ((h.resolve_iff h.root hu hpl).mp hr) (hno p)

variable (hl : splitLast path = some (before, name)) (hpd : Leads s.vol.tree s.vol.glob.rootNode (tokens before) p)
  (hd : s.vol.tree.IsDir p) (hname : IsName name)
  (hplain : name ≠ dotName ∧ name ≠ dotDotName) (hnew : name ∉ s.vol.tree.names p) (hfew : (s.vol.tree.entries p).length < 190)

include hl hpd hd hname hplain hnew hfew

/-- A new file, or none: then every inode is in use, or there is no block for the entry. -/
theorem tfsMknod_yields (hm0 : m.toNat ≠ 0) (hmd : isDir m.toNat = false) :
    ((∃ a, IsSlot z.lo a ∧ ¬ InUse s.vol.bytes a) ∧ needs s.vol.tree p ≤ (freeOrder (.all s.vol) ps).length ∧
      ∃ c, s.vol.tree c = none ∧ Yields z (tfsMknod path m) s 0
          (s.vol.tree.make p name c ⟨⟨m.toNat, s.vol.env.euid % 2 ^ 32, s.vol.env.egid % 2 ^ 32⟩, .file []⟩) ∧
        ∀ r s', tfsMknod path m s = some (r, s') → ∃ k, Free s'.vol k ∧ (freeOrder (.all s.vol) ps).length = k + needs s.vol.tree p) ∨
    ((∀ a, IsSlot z.lo a → InUse s.vol.bytes a) ∨ (freeOrder (.all s.vol) ps).length < needs s.vol.tree p) ∧
      Yields z (tfsMknod path m) s (-1) s.vol.tree := by
  obtain ⟨hp, hu, hdir⟩ := h.dir_of_tree hd
  have hfind := h.parent_runs hpl hw hpd
  have hplow := hp.low
  have hhigh := h.high
  rcases h.sound.allocate (View.all s.vol).vol.glob.drive with ⟨hall, hnone⟩ | ⟨c, hc, hcu, hsome⟩
  · refine Or.inr ⟨Or.inl hall, h.yields_same ?_⟩
    unfold tfsMknod
    rw [hl]
    apply hfind.bind
    rw [if_neg (by omega)]
    refine globals_runs.bind (hnone.bind ?_)
    rw [if_pos rfl]
    exact Runs.pure
  have hlow := hc.low
  have hchigh := h.slot_high hc
  obtain ⟨n2, hn2⟩ : ∃ n2 : Node, n2 = fileInode (nodeAt s.vol.bytes c) m.toNat s.vol.now (s.vol.env.euid % 2 ^ 32)
    (s.vol.env.egid % 2 ^ 32) := ⟨_, rfl⟩
  have hfits : n2.Fits := hn2 ▸ fileInode_fits (nodeAt_fits _ _) (Nat.mod_lt _ (by decide)) (Nat.mod_lt _ (by decide))
    (Nat.mod_lt _ (by decide)) m.toNat_lt
  have hk : Keeps (fun x => c ≤ x ∧ x < c + 208) (.all s.vol) ((View.all s.vol).tick.store c 208 n2.encode) :=
    Keeps.tick.trans (Keeps.store fun x h1 h2 => ⟨h1, h2⟩)
  obtain ⟨v2, hv2⟩ : ∃ v2, v2 = ((View.all s.vol).tick.store c 208 n2.encode).vol := ⟨_, rfl⟩
  have hK := hk.all_vol
  rw [← hv2] at hK
  rw [hK] at hk
  have hnode : nodeAt v2.bytes c = n2 := by rw [hv2]; exact nodeAt_put hfits
  obtain ⟨h1, hb, hfo⟩ := h.newborn_file hc hcu hk (hnode.trans hn2) hm0 hmd
  -- as far as the entry
  have hrun : ∀ {K : View} {r : Int}, Runs (.all v2) (do
      let result ← addToDirectory p c name
      if result ≠ 0 then do
        let _ ← freeInode c
        pure result
      else pure result) r K → Runs (.all s.vol) (tfsMknod path m) r K := by
    intro K r hlast
    unfold tfsMknod
    rw [hl]
    apply hfind.bind
    rw [if_neg (by omega)]
    refine globals_runs.bind (hsome.bind ?_)
    rw [if_neg (by omega)]
    refine (fetchNode_runs (by omega) (by rw [all_vol]; omega) (View.Sees.all _ _ _)).bind (environ_runs.bind (getCurrentTimeInNsec_runs.bind ?_))
    apply (commitInode_runs (by rw [tick_size, all_vol]; omega)).bind
    rw [← hK, hn2] at hlast
    exact hlast
  rcases h.enters hp hu hdir hc hcu h1 hb hname hplain hnew hfew with
    ⟨v', own', ps', hadd, hkept, hstay, ht, hcount, hw⟩ | ⟨hfull, -, hadd⟩
  · rw [hfo] at hcount hw
    have hcall := hrun (hadd.bind (by rw [if_neg (by decide)]; exact Runs.pure))
    refine Or.inl ⟨⟨c, hc, hcu⟩, by omega, c, ?_, ?_, fun r s' hs' => ⟨_, ?_, hcount⟩⟩
    · by_contra hno
      exact hcu (h.used.mp hno).2
    · have hy := hkept.yields (P := True) hcall rfl hstay fun _ => hw fun b hb => Or.inl hb
      rw [ht, show isDir (fileInode _ m.toNat _ _ _).mode = false from hmd, if_neg (by decide)] at hy
      exact hy
    · rw [hcall.ends_in hs']
      exact hkept.space.free_iff.mpr rfl
  · obtain ⟨v', hclear, hkept, hstay, ht, hw⟩ := h.clears hc hcu h1 hb.space fun b hb => by
      rw [hfo]
      exact hb
    have hy := hkept.yields (P := True) (hrun (hadd.bind (by rw [if_pos (by decide)]; exact hclear.bind Runs.pure))) rfl hstay fun _ => hw
    exact Or.inr ⟨Or.inr (hfo ▸ hfull), ht ▸ hy⟩

/-- A new directory, or none: then every inode is in use, or there are too few blocks. -/
theorem tfsMkdir_yields :
    ((∃ a, IsSlot z.lo a ∧ ¬ InUse s.vol.bytes a) ∧ 1 + needs s.vol.tree p ≤ (freeOrder (.all s.vol) ps).length ∧
      ∃ c, s.vol.tree c = none ∧ Yields z (tfsMkdir path m) s 0
          (s.vol.tree.make p name c ⟨⟨m.toNat ||| 0x4000, s.vol.env.euid % 2 ^ 32, s.vol.env.egid % 2 ^ 32⟩, .dir []⟩) ∧
        ∀ r s', tfsMkdir path m s = some (r, s') → ∃ k, Free s'.vol k ∧ (freeOrder (.all s.vol) ps).length = k + (1 + needs s.vol.tree p)) ∨
    ((∀ a, IsSlot z.lo a → InUse s.vol.bytes a) ∨ (freeOrder (.all s.vol) ps).length < 1 + needs s.vol.tree p) ∧
      Yields z (tfsMkdir path m) s (-1) s.vol.tree := by
  obtain ⟨hp, hu, hdir⟩ := h.dir_of_tree hd
  have hfind := h.parent_runs hpl hw hpd
  have hplow := hp.low
  have hphigh := h.slot_high hp
  have hhigh := h.high
  have hfetch := fetchNode_runs (K := .all s.vol) (a := p) (by omega) (by rw [all_vol]; omega) (View.Sees.all _ _ _)
  rcases h.sound.allocate (View.all s.vol).vol.glob.drive with ⟨hall, hnone⟩ | ⟨c, hc, hcu, hsome⟩
  · refine Or.inr ⟨Or.inl hall, h.yields_same ?_⟩
    unfold tfsMkdir
    rw [hl]
    apply hfind.bind
    rw [if_neg (by omega)]
    refine hfetch.bind (globals_runs.bind (hnone.bind ?_))
    rw [if_pos rfl]
    exact Runs.pure
  have hlow := hc.low
  have hchigh := h.slot_high hc
  cases hfo : freeOrder (.all s.vol) ps with
  | nil =>
    -- no block for the directory: the slot is freed as it is
    obtain rfl : ps = [] := nil_of_freeOrder hfo
    obtain ⟨v', hclear, hkept, hstay, ht, hw⟩ := h.clears hc hcu Confined.refl h.space fun b hb => hb
    refine Or.inr ⟨Or.inr (by rw [List.length_nil]; omega), ht ▸ hkept.yields (P := True) ?_ rfl hstay fun _ => hw⟩
    unfold tfsMkdir
    rw [hl]
    apply hfind.bind
    rw [if_neg (by omega)]
    refine hfetch.bind (globals_runs.bind (hsome.bind ?_))
    rw [if_neg (by omega)]
    apply (fetchNode_runs (by omega) (by rw [all_vol]; omega) (View.Sees.all _ _ _)).bind
    apply (allocateBlock_none _ h.space.list).bind
    rw [if_pos rfl]
    exact hclear.bind Runs.pure
  | cons b rest =>
    obtain ⟨K1, ps1, halloc, htake⟩ := allocateBlock_some (View.all s.vol).vol.glob.drive h.space.list hfo
    obtain ⟨-, hbn, hbo, hbz⟩ := h.space.take htake
    have hrest : freeOrder K1 ps1 = rest := (List.cons.inj (htake.order.symm.trans hfo)).2
    have hblock := h.space.block hbz
    have hbpos := hblock.pos
    have hblow := hbz.low
    have hs1 : K1.vol.size = s.vol.size := htake.keeps.size
    have hbin : b + 4096 ≤ s.vol.size := hblock.inside
    have hlt := s.vol.size_lt
    obtain ⟨n2, hn2⟩ : ∃ n2 : Node, n2 = dirInode (nodeAt s.vol.bytes c) b m.toNat K1.vol.now (s.vol.env.euid % 2 ^ 32)
      (s.vol.env.egid % 2 ^ 32) := ⟨_, rfl⟩
    have hfits : n2.Fits := hn2 ▸ dirInode_fits (nodeAt_fits _ _) (Nat.mod_lt _ (by decide)) (Nat.mod_lt _ (by decide))
      (Nat.mod_lt _ (by decide)) m.toNat_lt (by omega)
    have hk : Keeps (fun x => b ≤ x ∧ x < b + 4096 ∨ c ≤ x ∧ x < c + 208) K1 ((K1.newDir b c).tick.store c 208 n2.encode) :=
      (Keeps.newDir fun x h1 h2 => Or.inl ⟨h1, h2⟩).trans (Keeps.tick.trans (Keeps.store fun x h1 h2 => Or.inr ⟨h1, h2⟩))
    obtain ⟨v2, hv2⟩ : ∃ v2, v2 = ((K1.newDir b c).tick.store c 208 n2.encode).vol := ⟨_, rfl⟩
    have hK : (K1.newDir b c).tick.store c 208 n2.encode = .all v2 := by
      have hboth : Keeps (fun _ => True) (.all s.vol) ((K1.newDir b c).tick.store c 208 n2.encode) :=
        (htake.keeps.mono fun _ _ => trivial).trans (hk.mono fun _ _ => trivial)
      rw [hv2]
      exact hboth.all_vol
    rw [hK] at hk
    have hbytes : v2.bytes = put (newDir K1.vol.bytes b c) c 208 n2.encode := by
      rw [hv2, store_bytes, tick_bytes, newDir_bytes]
    have hnode : nodeAt v2.bytes c = n2 := by rw [hbytes]; exact nodeAt_put hfits
    obtain ⟨h1, hsp, hb, hfo2⟩ := h.newborn_dir hc hcu htake hk (fun x h1 h2 => by rw [hbytes, put_out (by omega)]) (hnode.trans hn2)
      (by omega)
    have h1' : Confined z (· = c) (.all s.vol) own (.all v2) (assign own b (some (.data c 0))) :=
      h1.trans (.owners fun d q hq _ => by rw [assign_ne fun e => by rw [e, hbo] at hq; cases hq]; exact hq)
    -- as far as the entry
    have hrun : ∀ {K : View} {r : Int}, Runs (.all v2) (do
        let result ← addToDirectory p c name
        if result ≠ 0 then do
          let _ ← freeBlock (View.all s.vol).vol.glob.drive b
          let _ ← freeInode c
          pure (-1)
        else pure result) r K → Runs (.all s.vol) (tfsMkdir path m) r K := by
      intro K r hlast
      have henv : K1.vol.env = s.vol.env := htake.keeps.env
      rw [← hK, hn2, ← henv] at hlast
      unfold tfsMkdir
      rw [hl]
      apply hfind.bind
      rw [if_neg (by omega)]
      refine hfetch.bind (globals_runs.bind (hsome.bind ?_))
      rw [if_neg (by omega)]
      refine (fetchNode_runs (by omega) (by rw [all_vol]; omega) (View.Sees.all _ _ _)).bind (halloc.bind ?_)
      rw [if_neg hbpos]
      apply (writeBlock_fits (o := 0) (n := 4096) rfl (by decide) (by omega)).bind
      refine getCurrentTimeInNsec_runs.bind (environ_runs.bind ?_)
      apply (writeBlock_fits (o := 0) (n := 2) rfl (by decide) (by show b + 0 + 2 ≤ K1.vol.size; omega)).bind
      apply (writeAddr_runs (o := 248) rfl (by decide) (by show b + 248 + 8 ≤ K1.vol.size; omega)).bind
      apply (writeBlock_fits (o := 256) (n := 3) rfl (by decide) (by show b + 256 + 3 ≤ K1.vol.size; omega)).bind
      -- the address of the parent is not written
      refine (show Runs _ (writeAddr p b (2 * 256 - 4096)) 0 _ by
        unfold writeAddr writeBlock
        rw [if_pos (by decide)]
        exact Runs.pure).bind ?_
      apply (commitInode_runs (by show c + 208 ≤ K1.vol.size; omega)).bind
      exact hlast
    rcases h.enters hp hu hdir hc hcu h1' hb hname hplain hnew hfew with
      ⟨v', own', ps', hadd, hkept, hstay, ht, hcount, hw⟩ | ⟨hlt, hfull, hadd⟩
    · have hcall := hrun (hadd.bind (by rw [if_neg (by decide)]; exact Runs.pure))
      rw [hfo2, hrest] at hcount
      refine Or.inl ⟨⟨c, hc, hcu⟩, by rw [List.length_cons]; omega, c, ?_, ?_, fun r s' hs' => ⟨(freeOrder (.all v') ps').length, ?_, ?_⟩⟩
      · by_contra hno
        exact hcu (h.used.mp hno).2
      · have hy := hkept.yields (P := True) hcall rfl hstay fun _ => hw fun d hd => by
          rw [hfo] at hd
          rcases List.mem_cons.mp hd with rfl | hd
          · exact Or.inr (Or.inl ⟨0, Nat.one_pos, (addrOf_direct (by decide)).trans dirInode_direct⟩)
          · rw [hfo2, hrest]
            exact Or.inl hd
        rw [ht, show isDir (dirInode _ _ m.toNat _ _ _).mode = true from isDir_or, if_pos rfl] at hy
        exact hy
      · rw [hcall.ends_in hs']
        exact hkept.space.free_iff.mpr rfl
      · rw [List.length_cons]
        omega
    · -- no block for the entry: the directory's own block goes back
      rw [hfo2] at hfull hlt
      have hbn2 : b ∉ freeOrder (.all v2) ps1 := by rw [hfo2]; exact hbn
      obtain ⟨K4, ps4, hgive, hg⟩ := freeBlock_runs hsp.list (show 0 ≤ (View.all s.vol).vol.glob.drive from h.space.drive) (hsp.block hbz) hbn2
      have hsp4 := hsp.give hbz hbo hg
      have h4 := h1.trans (hsp.give_confined hbz hbo hg)
      have hK4 := hg.keeps.all_vol
      rw [hK4] at h4 hsp4 hgive
      obtain ⟨v', hclear, hkept, hstay, ht, hw⟩ := h.clears hc hcu h4 hsp4 fun d hd => by
        rw [hfo] at hd
        rw [← hK4, hg.order.mem_iff, hfo2, hrest]
        exact hd
      refine Or.inr ⟨Or.inr ?_, ht ▸ hkept.yields (P := True) (hrun (hadd.bind ?_)) rfl hstay fun _ => hw⟩
      · rw [List.length_cons, ← hrest]
        omega
      · rw [if_pos (by decide)]
        exact hgive.bind (hclear.bind Runs.pure)

end

end TyrantFS

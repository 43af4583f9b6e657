/-
  TyrantFS.Fuse.Attr — the operations that commit one inode and change nothing else.

  An inode that is committed again with the same map, size and links, and that stays a
  directory or a file, keeps the disk, and only the attributes of its object are new
  (`Kept.edit`). So `tfs_getattr`, `tfs_open`, `tfs_read`, `tfs_readdir` and `tfs_utime`
  leave the tree as it is, and `tfs_chmod` and `tfs_chown` set attributes.
-/
import TyrantFS.Fuse.Volume
import TyrantFS.Fuse.Readdir

namespace TyrantFS

open Lib Lib.PageTree Lib.Store

variable {z : Zone} {v v' : Vol} {own : Nat → Option Pos} {ps : List Nat} {a e : Nat} {n n' : Node} {m m' : Mem}
  {path : List UInt8} {s : Sys} {K : View}

theorem SameMap.entry (h : SameMap n n') : nameOf m n' e = nameOf m n e ∧ childOf m n' e = childOf m n e := by
  have hat : entryAt m n' e = entryAt m n e := entryAt_congr h.addr
  exact ⟨by rw [nameOf, nameOf, hat], by rw [childOf, childOf, hat]⟩

section
variable (h : Kept z v own ps) (ha : IsSlot z.lo a) (hu : InUse v.bytes a)
  (hk : Keeps (fun x => a ≤ x ∧ x < a + 208) (.all v) (.all v')) (hn : nodeAt v'.bytes a = n') (hm : SameMap (nodeAt v.bytes a) n')
  (hs : n'.size = (nodeAt v.bytes a).size)

include h ha hu hk

/-- The blocks of the inode are what they were. -/
theorem Kept.edit_blocks : ∀ i < (nodeAt v.bytes a).blocks,
    addrOf (View.all v').vol.bytes (nodeAt v.bytes a) i = addrOf (View.all v).vol.bytes (nodeAt v.bytes a) i ∧
    ∀ k < 4096, (View.all v').vol.bytes (addrOf (View.all v).vol.bytes (nodeAt v.bytes a) i + k) =
      (View.all v).vol.bytes (addrOf (View.all v).vol.bytes (nodeAt v.bytes a) i + k) := by
  have hin := h.inode ha hu
  have hlow := ha.low
  have hhigh := h.slot_high ha
  obtain ⟨-, -, haddr⟩ := hin.toMapAt.keep hk fun x hx => Or.inl ⟨by omega, by omega⟩
  intro i hi
  refine ⟨haddr i hi, fun k _ => hk.bytes _ ?_⟩
  have := (hin.toMapAt.has hi).low
  omega

include hn hm hs

theorem Kept.edit_dir (hd : DirAt v a) : DirAt v' a := by
  have hkept := h.edit_blocks ha hu hk
  have h2 := hd.two
  have hlt : ∀ e < 2, e / 16 < (nodeAt v.bytes a).blocks := fun e he => hd.packed.lt (by omega)
  have hname : ∀ e < 2, nameOf v'.bytes n' e = nameOf v.bytes (nodeAt v.bytes a) e :=
    fun e he => hm.entry.1.trans (name_kept hkept (hlt e he))
  have hchild : ∀ e < 2, childOf v'.bytes n' e = childOf v.bytes (nodeAt v.bytes a) e :=
    fun e he => hm.entry.2.trans (child_kept hkept (hlt e he))
  refine ⟨?_, ?_, ?_, ?_, ?_, ?_⟩ <;> rw [hn]
  · exact (hd.packed.kept hkept fun x _ => trivial).sameMap hm hs
  · intro e f he hf hef
    rw [hs] at he hf
    rw [hm.entry.1, hm.entry.1] at hef
    exact hd.names.kept hkept hd.packed e f he hf hef
  · rw [hm.blocks]
    exact hd.few
  · rw [hs]
    exact h2
  · rw [hname 0 (by decide), hchild 0 (by decide)]
    exact hd.dot
  · have hglob : v'.glob = v.glob := hk.glob
    rw [hname 1 (by decide), hchild 1 (by decide), hglob]
    exact hd.dotDot

omit hn in
/-- The object has the same body. -/
theorem Kept.edit_obj (hd : isDir n'.mode = isDir (nodeAt v.bytes a).mode) :
    objOf v'.bytes n' = ⟨n'.attrs, (objOf v.bytes (nodeAt v.bytes a)).body⟩ := by
  have hkept := h.edit_blocks ha hu hk
  rw [objOf, objOf, hd]
  split
  · rename_i hdir
    have hp := ((h.good a ha hu).dir hdir).packed
    have he : entries v'.bytes n' = entries v.bytes (nodeAt v.bytes a) :=
      entries_congr hs fun e he => ⟨hm.entry.1.trans (name_kept hkept (hp.lt he)), hm.entry.2.trans (child_kept hkept (hp.lt he))⟩
    rw [he]
  · rename_i hdir
    have hf := (h.good a ha hu).file (Bool.eq_false_iff.mpr hdir)
    have hc : contents v'.bytes n' = contents v.bytes (nodeAt v.bytes a) := by
      rw [contents, contents, hs]
      refine List.map_congr_left fun x hx => ?_
      have hx := List.mem_range.mp hx
      obtain ⟨h1, h2⟩ := hkept (x / 4096) (by omega)
      exact fileByte_congr (hm.addr.trans h1) h2
    rw [hc]

theorem Kept.edit (hl : n'.links = (nodeAt v.bytes a).links) (h0 : n'.mode ≠ 0)
    (hd : isDir n'.mode = isDir (nodeAt v.bytes a).mode) :
    Kept z v' own ps ∧ v'.tree = v.tree.setAttrs a n'.attrs ∧ (Whole z v → Whole z v') := by
  have hin := h.inode ha hu
  have hlow := ha.low
  have hhigh := h.slot_high ha
  have hkeep := hin.toMapAt.keep hk fun x hx => Or.inl ⟨by omega, by omega⟩
  have hmap := hkeep.1
  have hc : Confined z (· = a) (.all v) own (.all v') own := .bytes hk fun x hx => touch_slot rfl hx.1 (by omega)
  have hA : ∀ c, c = a → IsSlot z.lo c := fun c e => e ▸ ha
  have ht : v'.tree = v.tree.setAttrs a n'.attrs := by
    funext b
    by_cases hb : b = a
    · subst hb
      have hglob : v'.glob = v.glob := hk.glob
      have huse : v'.tree b = some (objOf v'.bytes (nodeAt v'.bytes b)) :=
        if_pos ⟨by rw [hglob, h.boundary]; exact ha, by rw [InUse, hn]; exact h0⟩
      rw [huse, hn, h.edit_obj ha hu hk hm hs hd, Store.setAttrs, set_self, h.tree_some ha hu]
      rfl
    · rw [Store.setAttrs, set_ne hb]
      exact h.tree_other hc hmap.space hA hb
  have huse : InUse v'.bytes a := by
    rw [InUse, hn]
    exact h0
  refine ⟨h.frame hc hmap.space hA (fun b hb hub => ?_) (fun b hb hub => absurd (hb ▸ huse) hub) ?_, ht,
    h.whole hc hmap.space hA (fun b hb => Or.inl (hmap.space.hasFree.mpr (by rw [hkeep.2.1]; exact hb)))
      fun c hca _ b hb => Or.inr ⟨a, ha, huse, ?_⟩⟩
  · subst hb
    have hg := h.good b ha hu
    refine ⟨?_, ?_, fun hdir => ?_, fun hf => ?_⟩
    · rw [hn]
      exact (hmap.sameMap hm).maps
    · rw [hn, hl]
      exact hg.links
    · rw [hn, hd] at hdir
      exact h.edit_dir ha hu hk hn hm hs (hg.dir hdir)
    · rw [hn, hd] at hf
      rw [hn, hs, hm.blocks]
      exact hg.file hf
  · rw [ht]
    exact h.tree.step (.attrs a _)
  · subst hca
    rw [hn]
    exact hb.keep (Nat.le_of_eq hm.blocks.symm) (fun i hi => hm.addr.trans (h.edit_blocks ha hu hk i hi).1) fun _ => hm.root 12

end

/-! ## The calls -/

/-- What `tfs_getattr` reports of the inode `n` at `a`. -/
def statOf (a : Nat) (n : Node) : Stat where
  ino := u64 (↑a - 4096) / 256
  mode := n.mode
  nlink := n.links
  size := n.size
  blocks := n.blocks
  uid := n.userId
  gid := n.groupId
  blksize := 4096
  atime := n.accessTime
  mtime := n.dataTime
  ctime := n.changeTime

theorem u64_lt {x : Int} : u64 x < 2 ^ 64 := by
  unfold u64
  omega

/-- A call that only commits the inode at `a`. -/
theorem Kept.yields_edit {α : Type} {c : M α} {r : α} (h : Kept z s.vol own ps) (ha : IsSlot z.lo a) (hu : InUse s.vol.bytes a)
    (hrun : Runs (.all s.vol) c r K) (hk : Keeps (fun x => a ≤ x ∧ x < a + 208) (.all s.vol) K) (hn : nodeAt K.vol.bytes a = n')
    (hm : SameMap (nodeAt s.vol.bytes a) n') (hs : n'.size = (nodeAt s.vol.bytes a).size)
    (hl : n'.links = (nodeAt s.vol.bytes a).links) (h0 : n'.mode ≠ 0)
    (hd : isDir n'.mode = isDir (nodeAt s.vol.bytes a).mode) : Yields z c s r (s.vol.tree.setAttrs a n'.attrs) := by
  obtain ⟨s', he, hs'⟩ := hrun.exec (holds_all.mpr rfl)
  obtain rfl : K = .all s'.vol := hk.all hs'
  obtain ⟨hkept, ht, hw⟩ := h.edit ha hu hk hn hm hs hl h0 hd
  exact ⟨s', own, ps, he, hkept, hk.stays, ht, fun _ => hw⟩

/-- A search that fails ends the call. -/
theorem find_missing {α : Type} {r : α} {f : Nat → M α} (hfind : Runs K (findPathNode path) 0 K) :
    Runs K (do
      let cur ← findPathNode path
      if cur = 0 then pure r else f cur) r K := by
  apply hfind.bind
  rw [if_pos rfl]
  exact Runs.pure

section
variable (h : Kept z s.vol own ps) (ha : IsSlot z.lo a) (hu : InUse s.vol.bytes a)
  (hfind : Runs (.all s.vol) (findPathNode path) a (.all s.vol))

include h ha hu hfind

/-- After the search, the inode is fetched. -/
theorem Kept.find_fetch {α : Type} {r b : α} {f : Nat → Node → M α} (hf : Runs (.all s.vol) (f a (nodeAt s.vol.bytes a)) b K) :
    Runs (.all s.vol) (do
      let cur ← findPathNode path
      if cur = 0 then pure r
      else do
        let n ← fetchNode cur
        f cur n) b K := by
  have hlow := ha.low
  apply hfind.bind
  rw [if_neg (by omega)]
  exact (h.inode ha hu).fetch.bind hf

/-- A call that looks an inode up and commits it with other attributes or times. -/
theorem Kept.yields_commit {α : Type} {r b : α} {g : Node → Node} (hf : (g (nodeAt s.vol.bytes a)).Fits)
    (hm : SameMap (nodeAt s.vol.bytes a) (g (nodeAt s.vol.bytes a)))
    (hs : (g (nodeAt s.vol.bytes a)).size = (nodeAt s.vol.bytes a).size)
    (hl : (g (nodeAt s.vol.bytes a)).links = (nodeAt s.vol.bytes a).links) (h0 : (g (nodeAt s.vol.bytes a)).mode ≠ 0)
    (hd : isDir (g (nodeAt s.vol.bytes a)).mode = isDir (nodeAt s.vol.bytes a).mode) :
    Yields z (do
      let cur ← findPathNode path
      if cur = 0 then pure r
      else do
        let n ← fetchNode cur
        let _ ← commitInode (g n) cur
        pure b) s b (s.vol.tree.setAttrs a (g (nodeAt s.vol.bytes a)).attrs) := by
  have hhigh := h.slot_high ha
  have hin := h.high
  refine h.yields_edit ha hu (h.find_fetch ha hu hfind (f := fun cur n => do
    let _ ← commitInode (g n) cur
    pure b) ((commitInode_runs ?_).bind Runs.pure)) (Keeps.store fun x h1 h2 => ⟨h1, h2⟩) (nodeAt_put hf) hm hs hl h0 hd
  rw [all_vol]
  omega

theorem tfsGetattr_yields : Yields z (tfsGetattr path) s (0, some (statOf a (nodeAt s.vol.bytes a))) s.vol.tree :=
  h.yields_same (h.find_fetch ha hu hfind (f := fun cur n => pure (0, some (statOf cur n))) Runs.pure)

theorem tfsUtime_yields {actime modtime : Int} : Yields z (tfsUtime path actime modtime) s 0 s.vol.tree := by
  have hn := (h.inode ha hu).fits
  have hy := h.yields_commit ha hu hfind (r := (-2 : Int)) (b := 0)
    (g := fun n => { n with accessTime := u64 actime, changeTime := u64 modtime })
    { hn with accessTime := u64_lt, changeTime := u64_lt } ⟨rfl, fun _ => rfl⟩ rfl rfl hu rfl
  have hsame : s.vol.tree.setAttrs a (nodeAt s.vol.bytes a).attrs = s.vol.tree := setAttrs_same (h.tree_some ha hu)
  exact hsame ▸ hy

theorem tfsChown_yields {owner group : UInt32} : Yields z (tfsChown path owner group) s 0
    (s.vol.tree.setAttrs a ⟨(nodeAt s.vol.bytes a).mode, owner.toNat, group.toNat⟩) := by
  have hn := (h.inode ha hu).fits
  exact h.yields_commit ha hu hfind (r := (-2 : Int)) (b := 0)
    (g := fun n => { n with userId := owner.toNat, groupId := group.toNat })
    { hn with userId := owner.toNat_lt, groupId := group.toNat_lt } ⟨rfl, fun _ => rfl⟩ rfl rfl hu rfl

theorem tfsChmod_yields {m : UInt32} (h0 : m.toNat ≠ 0) (hd : isDir m.toNat = isDir (nodeAt s.vol.bytes a).mode) :
    Yields z (tfsChmod path m) s 0
      (s.vol.tree.setAttrs a ⟨m.toNat, (nodeAt s.vol.bytes a).userId, (nodeAt s.vol.bytes a).groupId⟩) := by
  have hn := (h.inode ha hu).fits
  exact h.yields_commit ha hu hfind (r := (-2 : Int)) (b := 0) (g := fun n => { n with mode := m.toNat })
    { hn with mode := m.toNat_lt } ⟨rfl, fun _ => rfl⟩ rfl rfl h0 hd

omit hfind in
/-- A call that sets the access time and nothing else. -/
theorem Kept.yields_accessed {α : Type} {c : M α} {r : α} (hrun : Runs (.all s.vol) c r (s.vol.accessed a)) :
    Yields z c s r s.vol.tree := by
  have hn := (h.inode ha hu).fits
  have hk : Keeps (fun x => a ≤ x ∧ x < a + 208) (.all s.vol) (s.vol.accessed a) :=
    Keeps.tick.trans (Keeps.store fun x h1 h2 => ⟨h1, h2⟩)
  have hy := h.yields_edit ha hu hrun hk (nodeAt_put (accessed_fits hn (Nat.mod_lt _ (by decide)))) SameMap.accessed rfl rfl hu rfl
  have hsame : s.vol.tree.setAttrs a (nodeAt s.vol.bytes a).attrs = s.vol.tree := setAttrs_same (h.tree_some ha hu)
  exact hsame ▸ hy

theorem tfsOpen_yields {flags : Nat} : Yields z (tfsOpen path flags) s
    (if openBits flags &&& (nodeAt s.vol.bytes a).mode ≠ 0 then 0 else -1) s.vol.tree := by
  have hhigh := h.slot_high ha
  have hin := h.high
  refine h.yields_accessed ha hu (h.find_fetch ha hu hfind (f := fun cur n => do
    let t ← getCurrentTimeInNsec
    let n := { n with accessTime := t }
    let _ ← commitInode n cur
    if openBits flags &&& n.mode ≠ 0 then pure 0 else pure (-1))
    (getCurrentTimeInNsec_runs.bind ((commitInode_runs (by rw [tick_size, all_vol]; omega)).bind ?_)))
  split
  · exact Runs.pure
  · exact Runs.pure

end

/-- The directory's names, as the tree has them. -/
theorem Kept.names_tree (h : Kept z v own ps) (ha : IsSlot z.lo a) (hu : InUse v.bytes a) (hd : isDir (nodeAt v.bytes a).mode) :
    namesFrom (.all v) (nodeAt v.bytes a) 0 ((nodeAt v.bytes a).size / 256) = dotName :: dotDotName :: v.tree.names a := by
  have hdir := (h.good a ha hu).dir hd
  have h2 := hdir.two
  have hrest : v.tree.names a = namesFrom (.all v) (nodeAt v.bytes a) 2 ((nodeAt v.bytes a).size / 256 - 2) := by
    rw [Store.names, (h.entries_tree ha hu hd).2, entries, ← List.map_drop, List.map_map, List.range_eq_range', List.drop_range']
    rfl
  obtain ⟨k, hk⟩ : ∃ k, (nodeAt v.bytes a).size / 256 = k + 1 + 1 := ⟨(nodeAt v.bytes a).size / 256 - 2, by omega⟩
  rw [hrest, hk, namesFrom_succ, namesFrom_succ]
  have h0 : nameOf v.bytes (nodeAt v.bytes a) 0 = dotName := hdir.dot.1
  have h1 : nameOf v.bytes (nodeAt v.bytes a) 1 = dotDotName := hdir.dotDot.1
  rw [all_vol, h0, h1]
  rfl

section
variable (h : Kept z s.vol own ps) (ha : IsSlot z.lo a) (hu : InUse s.vol.bytes a)
  (hfind : Runs (.all s.vol) (findPathNode path) a (.all s.vol))

include h ha hu hfind

theorem tfsReaddir_yields (hd : isDir (nodeAt s.vol.bytes a).mode) :
    Yields z (tfsReaddir path) s (0, dotName :: dotDotName :: s.vol.tree.names a) s.vol.tree := by
  have hin := h.inode ha hu
  have hrun := tfsReaddir_runs hfind (hin.toMapAt.file hin.fits) ((h.good a ha hu).dir hd).packed rfl
  rw [h.names_tree ha hu hd] at hrun
  exact h.yields_accessed ha hu hrun

theorem tfsRead_yields {bs : List UInt8} {w : Attrs} {buff : Mem} {size offset : Nat} (hf : s.vol.tree a = some ⟨w, .file bs⟩)
    (hoff : offset < bs.length) (hsize : size < 2 ^ 31) (hsum : offset + size < 2 ^ 63) :
    Yields z (tfsRead path buff size offset) s (((min size (bs.length - offset) : Nat) : Int), (bs.drop offset).take size)
      s.vol.tree := by
  have hin := h.inode ha hu
  have hd := (h.file_of_tree ⟨w, bs, hf⟩).2.2
  have hs := (h.good a ha hu).file hd
  obtain rfl : contents s.vol.bytes (nodeAt s.vol.bytes a) = bs := h.file_contents ha hu hf
  rw [length_contents] at hoff ⊢
  refine h.yields_accessed ha hu ((tfsRead_accesses hfind (hin.toMapAt.file hin.fits) rfl (fun _ => trivial) hoff hsize hsum).result ?_)
  rw [all_vol, show min (min size ((nodeAt s.vol.bytes a).size - offset)) (4096 * (nodeAt s.vol.bytes a).blocks - offset) =
    min size ((nodeAt s.vol.bytes a).size - offset) by omega, contents, drop_take_range]

/-- At the end there is nothing to read. -/
theorem tfsRead_yields_end {bs : List UInt8} {w : Attrs} {buff : Mem} {size offset : Nat} (hf : s.vol.tree a = some ⟨w, .file bs⟩)
    (hoff : bs.length ≤ offset) : Yields z (tfsRead path buff size offset) s (-1, []) s.vol.tree := by
  rw [← h.file_contents ha hu hf, length_contents] at hoff
  have hlow := ha.low
  refine h.yields_same (hfind.bind ?_)
  rw [if_neg (by omega)]
  apply (h.inode ha hu).fetch.bind
  rw [if_pos hoff]
  exact Runs.pure

end

end TyrantFS

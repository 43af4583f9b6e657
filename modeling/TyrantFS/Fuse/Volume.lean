/-
  TyrantFS.Fuse.Volume — the disk as a file tree.

  `Vol.tree`: the file tree on a disk, read off the inodes in use. `Kept`: what the
  operations keep. Its blocks are free or owned by one inode; every inode in use is sound
  (`Good`), and the inodes make a tree. A path leads where `find_path_node` finds it
  (`Kept.find`). A change that is confined to some inodes keeps the others, and what the
  tree holds of them (`Kept.frame`).
-/
import TyrantFS.Fuse.Write
import TyrantFS.Lib.FileTree

namespace TyrantFS

open Lib Lib.PageTree Lib.Store

variable {z : Zone} {v v' : Vol} {own own' : Nat → Option Pos} {ps ps' : List Nat} {a b c d e : Nat} {n n' : Node} {A : Nat → Prop}
  {path name x : List UInt8} {names : List (List UInt8)} {m m' : Mem}

/-! ## The tree -/

/-- The attributes that the operations set. -/
structure Attrs where
  mode : Nat
  userId : Nat
  groupId : Nat
  deriving DecidableEq

abbrev FileTree := Store (List UInt8) Nat Attrs UInt8

def Node.attrs (n : Node) : Attrs := ⟨n.mode, n.userId, n.groupId⟩

/-- What the inode stands for: a directory's entries but "." and "..", or a file's bytes. -/
def objOf (m : Mem) (n : Node) : Obj (List UInt8) Nat Attrs UInt8 :=
  ⟨n.attrs, if isDir n.mode then .dir ((entries m n).drop 2) else .file (contents m n)⟩

open Classical in
noncomputable def Vol.tree (v : Vol) : FileTree := fun a =>
  if IsSlot v.glob.inodeByteBoundary a ∧ InUse v.bytes a then some (objOf v.bytes (nodeAt v.bytes a)) else none

/-! ## One inode -/

/-- A directory with the entries "." and "..", in up to twelve blocks. -/
structure DirAt (v : Vol) (a : Nat) : Prop where
  packed : Packed (.all v) (nodeAt v.bytes a)
  names : NamesDiffer v.bytes (nodeAt v.bytes a)
  few : (nodeAt v.bytes a).blocks ≤ 12
  two : 512 ≤ (nodeAt v.bytes a).size
  dot : nameOf v.bytes (nodeAt v.bytes a) 0 = dotName ∧ childOf v.bytes (nodeAt v.bytes a) 0 = a
  /-- ".." leads nowhere, but in the root. -/
  dotDot : nameOf v.bytes (nodeAt v.bytes a) 1 = dotDotName ∧
    childOf v.bytes (nodeAt v.bytes a) 1 = if a = v.glob.rootNode then a else 0

structure Good (z : Zone) (v : Vol) (own : Nat → Option Pos) (a : Nat) : Prop where
  maps : Maps (.all v) own a (nodeAt v.bytes a)
  links : (nodeAt v.bytes a).links = 1
  dir : isDir (nodeAt v.bytes a).mode → DirAt v a
  file : isDir (nodeAt v.bytes a).mode = false → (nodeAt v.bytes a).size ≤ 4096 * (nodeAt v.bytes a).blocks

structure Kept (z : Zone) (v : Vol) (own : Nat → Option Pos) (ps : List Nat) : Prop where
  boundary : v.glob.inodeByteBoundary = z.lo
  low : 4096 ≤ z.lo
  aligned : z.lo % 256 = 0
  high : z.lo ≤ v.size
  space : Space z (.all v) own ps
  root : IsSlot z.lo v.glob.rootNode
  good : ∀ a, IsSlot z.lo a → InUse v.bytes a → Good z v own a
  /-- A slot that is not in use has no index pages. -/
  blank : ∀ a, IsSlot z.lo a → ¬ InUse v.bytes a → ∀ j, 12 ≤ j → (nodeAt v.bytes a).root j = 0
  tree : Lib.Store.Tree v.glob.rootNode v.tree

theorem decode_zeros_root {j : Nat} (hj : 12 ≤ j) : (Node.decode zeros).root j = 0 := by
  unfold Node.root
  rw [if_neg (by omega)]
  split
  · exact leVal_zero 8
  · split <;> exact leVal_zero 8

/-! ## Entries -/

theorem length_entries : (entries m n).length = n.size / 256 := by rw [entries, List.length_map, List.length_range]

theorem mem_entries {w : List UInt8 × Nat} :
    w ∈ (entries m n).drop 2 ↔ ∃ e, 2 ≤ e ∧ e < n.size / 256 ∧ w = (nameOf m n e, childOf m n e) := by
  rw [List.mem_iff_getElem]
  constructor
  · intro hex
    obtain ⟨i, hi, rfl⟩ := hex
    rw [List.length_drop, length_entries] at hi
    refine ⟨i + 2, by omega, by omega, ?_⟩
    simp only [List.getElem_drop, entries, List.getElem_map, List.getElem_range]
    rw [Nat.add_comm]
  · intro hex
    obtain ⟨e, h2, he, rfl⟩ := hex
    refine ⟨e - 2, ?_, ?_⟩
    · rw [List.length_drop, length_entries]
      omega
    · simp only [List.getElem_drop, entries, List.getElem_map, List.getElem_range]
      rw [show 2 + (e - 2) = e by omega]

theorem entries_congr (hs : n'.size = n.size)
    (h : ∀ e < n.size / 256, nameOf m' n' e = nameOf m n e ∧ childOf m' n' e = childOf m n e) : entries m' n' = entries m n := by
  rw [entries, entries, hs]
  refine List.map_congr_left fun e he => ?_
  obtain ⟨h1, h2⟩ := h e (List.mem_range.mp he)
  rw [h1, h2]

theorem namesDiffer_iff : NamesDiffer m n ↔ ((entries m n).map Prod.fst).Nodup := by
  have hmap : (entries m n).map Prod.fst = (List.range (n.size / 256)).map (nameOf m n) := by
    rw [entries, List.map_map]
    rfl
  rw [hmap, List.nodup_map_iff_inj_on List.nodup_range]
  exact ⟨fun h e he f hf => h e f (List.mem_range.mp he) (List.mem_range.mp hf),
    fun h e f he hf => h e (List.mem_range.mpr he) f (List.mem_range.mpr hf)⟩

section
variable {es : List (List UInt8 × Nat)}

theorem entries_split (h : 512 ≤ n.size) :
    entries m n = (nameOf m n 0, childOf m n 0) :: (nameOf m n 1, childOf m n 1) :: (entries m n).drop 2 := by
  obtain ⟨k, hk⟩ : ∃ k, n.size / 256 = k + 1 + 1 := ⟨n.size / 256 - 2, by omega⟩
  rw [entries, hk, List.range_succ_eq_map, List.range_succ_eq_map]
  rfl

/-- The entries of a directory: the two that every directory has, and those of the tree. -/
theorem DirAt.entries (h : DirAt v a) : entries v.bytes (nodeAt v.bytes a) = (dotName, a) ::
    (dotDotName, if a = v.glob.rootNode then a else 0) :: (TyrantFS.entries v.bytes (nodeAt v.bytes a)).drop 2 := by
  rw [entries_split h.two, h.dot.1, h.dot.2, h.dotDot.1, h.dotDot.2]
  rfl

theorem entries_get (h : entries m n = es) (hl : e < es.length) :
    nameOf m n e = es[e].1 ∧ childOf m n e = es[e].2 := by
  subst h
  simp only [entries, List.getElem_map, List.getElem_range, and_self]

theorem DirAt.of_entries (hp : Packed (.all v) (nodeAt v.bytes a)) (hfew : (nodeAt v.bytes a).blocks ≤ 12)
    (he : TyrantFS.entries v.bytes (nodeAt v.bytes a) = (dotName, a) :: (dotDotName, if a = v.glob.rootNode then a else 0) :: es)
    (hn : (es.map Prod.fst).Nodup) (hx : ∀ w ∈ es, w.1 ≠ dotName ∧ w.1 ≠ dotDotName) : DirAt v a := by
  have hlen := congrArg List.length he
  rw [length_entries, List.length_cons, List.length_cons] at hlen
  refine ⟨hp, ?_, hfew, by omega, entries_get he (by simp), entries_get he (by simp)⟩
  rw [namesDiffer_iff, he]
  have h1 : dotName ∉ es.map Prod.fst := fun hm => by
    obtain ⟨w, hw, e⟩ := List.mem_map.mp hm
    exact (hx w hw).1 e
  have h2 : dotDotName ∉ es.map Prod.fst := fun hm => by
    obtain ⟨w, hw, e⟩ := List.mem_map.mp hm
    exact (hx w hw).2 e
  refine List.nodup_cons.mpr ⟨fun hm => ?_, List.nodup_cons.mpr ⟨h2, hn⟩⟩
  rcases List.mem_cons.mp hm with hm | hm
  · have hdots : dotName ≠ dotDotName := by decide
    exact hdots hm
  · exact h1 hm

end

/-- A directory without other entries. -/
theorem DirAt.of_pair (hp : Packed (.all v) (nodeAt v.bytes a)) (hfew : (nodeAt v.bytes a).blocks ≤ 12)
    (he : TyrantFS.entries v.bytes (nodeAt v.bytes a) = [(dotName, a), (dotDotName, if a = v.glob.rootNode then a else 0)]) : DirAt v a :=
  .of_entries hp hfew he List.nodup_nil fun w hw => by cases hw

theorem isDir_ne_zero {mode : Nat} (h : isDir mode) : mode ≠ 0 := by
  intro heq
  subst heq
  exact absurd h (by decide)

section
variable (h : Kept z v own ps)

include h

theorem Kept.slot_high (ha : IsSlot z.lo a) : a + 256 ≤ z.lo := by
  have := ha.high
  have := ha.aligned
  have := h.aligned
  omega

theorem Kept.inode (ha : IsSlot z.lo a) (hu : InUse v.bytes a) : InodeAt z (.all v) own ps a (nodeAt v.bytes a) := by
  have := ha.low
  exact ⟨⟨h.space, by omega, h.slot_high ha, h.high, View.Sees.all _ _ _, (h.good a ha hu).maps⟩, rfl⟩

theorem Kept.beside (ha : IsSlot z.lo a) (hb : IsSlot z.lo b) (hne : b ≠ a) : Beside z a b := by
  have h1 := hb.low
  have h2 := hb.aligned
  have h3 := ha.aligned
  exact ⟨by omega, h.slot_high hb, by omega⟩

theorem Kept.tree_some (ha : IsSlot z.lo a) (hu : InUse v.bytes a) : v.tree a = some (objOf v.bytes (nodeAt v.bytes a)) := by
  rw [← h.boundary] at ha
  exact if_pos ⟨ha, hu⟩

theorem Kept.used : v.tree a ≠ none ↔ IsSlot z.lo a ∧ InUse v.bytes a := by
  rw [← h.boundary]
  unfold Vol.tree
  split
  · rename_i hc
    exact iff_of_true (Option.some_ne_none _) hc
  · rename_i hc
    exact iff_of_false (fun h => h rfl) hc

/-- The directories of the tree. -/
theorem Kept.entries_tree (ha : IsSlot z.lo a) (hu : InUse v.bytes a) (hd : isDir (nodeAt v.bytes a).mode) :
    v.tree.IsDir a ∧ v.tree.entries a = (entries v.bytes (nodeAt v.bytes a)).drop 2 := by
  have hs : v.tree a = some ⟨(nodeAt v.bytes a).attrs, .dir ((entries v.bytes (nodeAt v.bytes a)).drop 2)⟩ := by
    rw [h.tree_some ha hu, objOf, if_pos hd]
  exact ⟨⟨_, _, hs⟩, entries_dir hs⟩

/-- The files. -/
theorem Kept.file_tree (ha : IsSlot z.lo a) (hu : InUse v.bytes a) (hd : isDir (nodeAt v.bytes a).mode = false) :
    v.tree a = some ⟨(nodeAt v.bytes a).attrs, .file (contents v.bytes (nodeAt v.bytes a))⟩ := by
  rw [h.tree_some ha hu, objOf, if_neg (by rw [hd]; decide)]

theorem Kept.tree_dir {w0 w1 : List UInt8 × Nat} {es : List (List UInt8 × Nat)} (hg : v'.glob = v.glob) (ha : IsSlot z.lo a)
    (hn : nodeAt v'.bytes a = n') (hd : isDir n'.mode) (he : entries v'.bytes n' = w0 :: w1 :: es) :
    v'.tree a = some ⟨n'.attrs, .dir es⟩ := by
  have hin : v'.tree a = some (objOf v'.bytes (nodeAt v'.bytes a)) :=
    if_pos ⟨by rw [hg, h.boundary]; exact ha, by rw [InUse, hn]; exact isDir_ne_zero hd⟩
  rw [hin, hn, objOf, if_pos hd, he]
  rfl

/-- The names that the tree has are no dots. -/
theorem Kept.plain (hx : (x, c) ∈ v.tree.entries a) : x ≠ dotName ∧ x ≠ dotDotName := by
  obtain ⟨ha, hu⟩ := h.used.mp (h.tree.tree.live a c (List.mem_map_of_mem (f := Prod.snd) hx)).1
  by_cases hd : isDir (nodeAt v.bytes a).mode
  · have hdir := (h.good a ha hu).dir hd
    have hn := namesDiffer_iff.mp hdir.names
    rw [(h.entries_tree ha hu hd).2] at hx
    have hm := List.mem_map_of_mem (f := Prod.fst) hx
    rw [hdir.entries] at hn
    obtain ⟨h1, h2⟩ := List.nodup_cons.mp hn
    refine ⟨?_, ?_⟩
    · intro heq
      subst heq
      exact h1 (List.mem_cons_of_mem _ hm)
    · intro heq
      subst heq
      exact (List.nodup_cons.mp h2).1 hm
  · have hf : v.tree.IsFile a := ⟨_, _, h.file_tree ha hu (Bool.eq_false_iff.mpr hd)⟩
    rw [hf.entries] at hx
    cases hx

theorem Kept.dir_of_tree (hd : v.tree.IsDir a) : IsSlot z.lo a ∧ InUse v.bytes a ∧ isDir (nodeAt v.bytes a).mode := by
  obtain ⟨t, es, hs⟩ := hd
  obtain ⟨ha, hu⟩ := h.used.mp (by rw [hs]; exact Option.some_ne_none _)
  refine ⟨ha, hu, ?_⟩
  by_contra hno
  rw [h.file_tree ha hu (Bool.eq_false_iff.mpr hno)] at hs
  cases hs

theorem Kept.file_of_tree (hf : v.tree.IsFile a) :
    IsSlot z.lo a ∧ InUse v.bytes a ∧ isDir (nodeAt v.bytes a).mode = false := by
  obtain ⟨t, bs, hs⟩ := hf
  obtain ⟨ha, hu⟩ := h.used.mp (by rw [hs]; exact Option.some_ne_none _)
  refine ⟨ha, hu, ?_⟩
  by_contra hno
  rw [h.tree_some ha hu, objOf, if_pos (by simpa using hno)] at hs
  cases hs

theorem Kept.file_contents {w : Attrs} {bs : List UInt8} (ha : IsSlot z.lo a) (hu : InUse v.bytes a)
    (hf : v.tree a = some ⟨w, .file bs⟩) : contents v.bytes (nodeAt v.bytes a) = bs := by
  have ht := (h.file_tree ha hu (h.file_of_tree ⟨w, bs, hf⟩).2.2).symm.trans hf
  exact Body.file.inj (Obj.mk.inj (Option.some.inj ht)).2

theorem Kept.root_dir : InUse v.bytes v.glob.rootNode ∧ isDir (nodeAt v.bytes v.glob.rootNode).mode :=
  (h.dir_of_tree h.tree.root).2

/-- An entry but the first two leads to an inode in use. -/
theorem Kept.child (ha : IsSlot z.lo a) (hu : InUse v.bytes a) (hd : isDir (nodeAt v.bytes a).mode) (h2 : 2 ≤ e)
    (he : e < (nodeAt v.bytes a).size / 256) : IsSlot z.lo (childOf v.bytes (nodeAt v.bytes a) e) ∧
      InUse v.bytes (childOf v.bytes (nodeAt v.bytes a) e) := by
  refine h.used.mp (h.tree.tree.live a _ (List.mem_map_of_mem (f := Prod.snd) (a := (nameOf v.bytes (nodeAt v.bytes a) e, _)) ?_)).2.1
  rw [(h.entries_tree ha hu hd).2]
  exact mem_entries.mpr ⟨e, h2, he, rfl⟩

/-- Such a disk is sound. -/
theorem Kept.sound : Sound z v own ps where
  boundary := h.boundary
  low := h.low
  aligned := h.aligned
  high := h.high
  space := h.space
  root := ⟨h.root, h.root_dir⟩
  maps a ha hu := (h.good a ha hu).maps
  files a ha hu hf := (h.good a ha hu).file hf
  dirs a ha hu hd := by
    have hdir := (h.good a ha hu).dir hd
    refine { hdir.packed with names := hdir.names, child := fun e he => ?_ }
    rcases e with _ | _ | e
    · rw [hdir.dot.2]
      exact Or.inr ⟨ha, hu⟩
    · rw [hdir.dotDot.2]
      split
      · exact Or.inr ⟨ha, hu⟩
      · exact Or.inl rfl
    · exact Or.inr (h.child ha hu hd (by omega) he)

end

/-- An entry of the tree, in its directory. -/
theorem Kept.entry (h : Kept z v own ps) (hx : (x, c) ∈ v.tree.entries a) : ∃ e, 2 ≤ e ∧ e < (nodeAt v.bytes a).size / 256 ∧
    nameOf v.bytes (nodeAt v.bytes a) e = x ∧ childOf v.bytes (nodeAt v.bytes a) e = c ∧ Seen e ∧
    ∀ f < (nodeAt v.bytes a).size / 256, childOf v.bytes (nodeAt v.bytes a) f = c → f = e := by
  obtain ⟨ha, hu, hd⟩ := h.dir_of_tree (.of_mem hx)
  have hdir := (h.good a ha hu).dir hd
  obtain ⟨e, h2, he, hxc⟩ := mem_entries.mp ((h.entries_tree ha hu hd).2 ▸ hx)
  obtain ⟨rfl, rfl⟩ := Prod.mk.inj hxc
  refine ⟨e, h2, he, rfl, rfl, ?_, fun f hf hfe => ?_⟩
  · have := hdir.packed.lt he
    have := hdir.few
    unfold Seen
    omega
  · have hlow := (h.child ha hu hd h2 he).1.low
    have hne : childOf v.bytes (nodeAt v.bytes a) e ≠ a := by
      intro heq
      rw [heq] at hx
      exact h.tree.not_self hx
    rcases f with _ | _ | f
    · rw [hdir.dot.2] at hfe
      exact absurd hfe.symm hne
    · rw [hdir.dotDot.2] at hfe
      split at hfe
      · exact absurd hfe.symm hne
      · omega
    · have hm : (nameOf v.bytes (nodeAt v.bytes a) (f + 2), childOf v.bytes (nodeAt v.bytes a) e) ∈ v.tree.entries a := by
        rw [(h.entries_tree ha hu hd).2, ← hfe]
        exact mem_entries.mpr ⟨f + 2, by omega, hf, rfl⟩
      exact hdir.names _ _ hf he (h.tree.place_inj hm hx).2

/-! ## Paths -/

/-- No component is "." or "..". -/
def Plain (names : List (List UInt8)) : Prop := ∀ x ∈ names, x ≠ dotName ∧ x ≠ dotDotName

section
variable (h : Kept z v own ps) (ha : IsSlot z.lo a) (hu : InUse v.bytes a)

include h ha hu

/-- A search in a directory finds what the tree holds under the name. -/
theorem Kept.lookup_iff (hd : isDir (nodeAt v.bytes a).mode) (hx : x ≠ dotName ∧ x ≠ dotDotName) :
    lookup v.bytes (nodeAt v.bytes a) x = c ∧ c ≠ 0 ↔ (x, c) ∈ v.tree.entries a := by
  have hdir := (h.good a ha hu).dir hd
  rw [(h.entries_tree ha hu hd).2, mem_entries]
  constructor
  · intro hex
    obtain ⟨rfl, hc0⟩ := hex
    obtain ⟨e, he, hname, hchild⟩ := lookup_ne_zero hc0
    refine ⟨e, ?_, he, by rw [hname, hchild]⟩
    -- the first two entries have the other names
    rcases e with _ | _ | e
    · exact absurd (hname.symm.trans hdir.dot.1) hx.1
    · exact absurd (hname.symm.trans hdir.dotDot.1) hx.2
    · omega
  · intro hex
    obtain ⟨e, h2, he, hxc⟩ := hex
    obtain ⟨rfl, rfl⟩ := Prod.mk.inj hxc
    have := (h.child ha hu hd h2 he).1.low
    exact ⟨lookup_eq hdir.names he rfl, by omega⟩

theorem Kept.resolve_iff (hp : Plain names) : resolve v.bytes a names = some c ↔ Leads v.tree a names c := by
  induction names generalizing a with
  | nil => exact ⟨fun e => Option.some.inj e ▸ .here, fun hl => by rw [leads_nil.mp hl]; rfl⟩
  | cons x rest ih =>
    have hx := hp x List.mem_cons_self
    have hrest : Plain rest := fun y hy => hp y (List.mem_cons_of_mem _ hy)
    constructor
    · intro hr
      unfold resolve at hr
      split at hr
      · rename_i hd
        have hmem := (h.lookup_iff ha hu hd.1 hx).mp ⟨rfl, hd.2⟩
        obtain ⟨h1, h2⟩ := h.sound.lookup ha hu hd.1 rfl hd.2
        exact .down hmem ((ih h1 h2 hrest).mp hr)
      · cases hr
    · intro hl
      cases hl with
      | @down _ b _ _ _ hmem hl =>
        have hd := (h.dir_of_tree (.of_mem hmem)).2.2
        obtain ⟨rfl, h0⟩ := (h.lookup_iff ha hu hd hx).mpr hmem
        obtain ⟨h1, h2⟩ := h.sound.lookup ha hu hd rfl h0
        rw [resolve, if_pos ⟨hd, h0⟩]
        exact (ih h1 h2 hrest).mpr hl

theorem Kept.searches (hp : Plain names) (hw : Walkable v.tree a names) : Searches v.bytes a names := by
  induction names generalizing a with
  | nil => trivial
  | cons x rest ih =>
    have hd := (h.dir_of_tree hw.dir).2.2
    refine ⟨hd, Or.inl ((h.good a ha hu).dir hd).few, fun h0 => ?_⟩
    obtain ⟨h1, h2⟩ := h.sound.lookup ha hu hd rfl h0
    exact ih h1 h2 (fun y hy => hp y (List.mem_cons_of_mem _ hy))
      (hw.down ((h.lookup_iff ha hu hd (hp x List.mem_cons_self)).mp ⟨rfl, h0⟩))

end

/-- `find_path_node` finds what the path leads to in the tree. -/
theorem Kept.find (h : Kept z v own ps) (hp : Plain (tokens path)) (hw : Walkable v.tree v.glob.rootNode (tokens path)) :
    (∃ c, Leads v.tree v.glob.rootNode (tokens path) c ∧ IsSlot z.lo c ∧ InUse v.bytes c ∧ Runs (.all v) (findPathNode path) c (.all v)) ∨
      (∀ c, ¬ Leads v.tree v.glob.rootNode (tokens path) c) ∧ Runs (.all v) (findPathNode path) 0 (.all v) := by
  have hu := h.root_dir.1
  have hrun := findPathNode_runs h.sound (h.searches h.root hu hp hw)
  cases hr : resolve v.bytes v.glob.rootNode (tokens path) with
  | none =>
    rw [hr] at hrun
    refine Or.inr ⟨fun c hc => ?_, hrun⟩
    rw [(h.resolve_iff h.root hu hp).mpr hc] at hr
    cases hr
  | some c =>
    rw [hr] at hrun
    have hc := (h.resolve_iff h.root hu hp).mp hr
    obtain ⟨h1, h2⟩ := h.used.mp (h.tree.used hc)
    exact Or.inl ⟨c, hc, h1, h2, hrun⟩

/-- The free list has `k` blocks, its pages among them. -/
def Free (v : Vol) (k : Nat) : Prop := ∃ ps, FreeList (.all v) ps ∧ (freeOrder (.all v) ps).length = k

theorem Space.free_iff {k : Nat} (h : Space z (.all v) own ps) : Free v k ↔ (freeOrder (.all v) ps).length = k :=
  ⟨fun ⟨_, hl, hk⟩ => h.list.unique hl ▸ hk, fun hk => ⟨ps, h.list, hk⟩⟩

theorem Free.unique {j k : Nat} (h : Free v j) (h' : Free v k) : j = k := by
  obtain ⟨ps, hl, rfl⟩ := h
  obtain ⟨ps', hl', rfl⟩ := h'
  rw [hl.unique hl']

/-! ## Where the blocks are -/

def Vol.HasFree (v : Vol) (b : Nat) : Prop := ∃ ps, FreeList (.all v) ps ∧ b ∈ freeOrder (.all v) ps

theorem Space.hasFree (h : Space z (.all v) own ps) : v.HasFree b ↔ b ∈ freeOrder (.all v) ps :=
  ⟨fun ⟨_, hl, hb⟩ => h.list.unique hl ▸ hb, fun hb => ⟨ps, h.list, hb⟩⟩

/-- The inode has the block for data, or as the page of its single indirect block. -/
def Uses (m : Mem) (n : Node) (b : Nat) : Prop := (∃ i < n.blocks, addrOf m n i = b) ∨ b = n.root 12 ∧ b ≠ 0

theorem Uses.keep (h : Uses m n b) (hb : n.blocks ≤ n'.blocks) (haddr : ∀ i < n.blocks, addrOf m' n' i = addrOf m n i)
    (hroot : n.root 12 ≠ 0 → n'.root 12 = n.root 12) : Uses m' n' b := by
  rcases h with ⟨i, hi, rfl⟩ | ⟨rfl, h0⟩
  · exact Or.inl ⟨i, Nat.lt_of_lt_of_le hi hb, haddr i hi⟩
  · exact Or.inr ⟨(hroot h0).symm, h0⟩

/-- The block is free, or an inode uses it. -/
def Accounted (z : Zone) (v : Vol) (b : Nat) : Prop := v.HasFree b ∨ ∃ a, IsSlot z.lo a ∧ InUse v.bytes a ∧ Uses v.bytes (nodeAt v.bytes a) b

/-- No block is lost. -/
def Whole (z : Zone) (v : Vol) : Prop := ∀ b, z.Has b → Accounted z v b

/-- What no operation changes: the process and its device. -/
structure SameDevice (v v' : Vol) : Prop where
  glob : v'.glob = v.glob
  env : v'.env = v.env
  size : v'.size = v.size

theorem SameDevice.refl : SameDevice v v := ⟨rfl, rfl, rfl⟩

theorem Keeps.stays {S : Nat → Prop} (h : Keeps S (.all v) (.all v')) : SameDevice v v' := ⟨h.glob, h.env, h.size⟩

/-- The call returns `r` and leaves a disk in order, with the tree `t`. Where `P` holds it
    loses no block. -/
def Yields {α : Type} (z : Zone) (c : M α) (s : Sys) (r : α) (t : FileTree) (P : Prop := True) : Prop :=
  ∃ s' own' ps', c s = some (r, s') ∧ Kept z s'.vol own' ps' ∧ SameDevice s.vol s'.vol ∧ s'.vol.tree = t ∧
    (P → Whole z s.vol → Whole z s'.vol)

theorem Kept.yields {α : Type} {c : M α} {r : α} {s : Sys} {K : View} {P : Prop} (h : Kept z v' own' ps') (hrun : Runs (.all s.vol) c r K)
    (hK : K = .all v') (hstay : SameDevice s.vol v') (hw : P → Whole z s.vol → Whole z v') : Yields z c s r v'.tree P := by
  subst hK
  obtain ⟨s', hcall, hs'⟩ := hrun.exec (holds_all.mpr rfl)
  obtain rfl := holds_all.mp hs'
  exact ⟨s', own', ps', hcall, h, hstay, rfl, hw⟩

theorem Kept.yields_same {α : Type} {c : M α} {r : α} {s : Sys} {P : Prop} (h : Kept z s.vol own ps)
    (hrun : Runs (.all s.vol) c r (.all s.vol)) : Yields z c s r s.vol.tree P := h.yields hrun rfl .refl fun _ hw => hw

/-- The state that a run ends in. -/
theorem Runs.ends_in {α : Type} {c : M α} {r r' : α} {s s' : Sys} (h : Runs (.all s.vol) c r (.all v')) (hrun : c s = some (r', s')) :
    s'.vol = v' := by
  obtain ⟨s1, hcall, hs1⟩ := h.exec (holds_all.mpr rfl)
  obtain ⟨-, rfl⟩ := Prod.mk.inj (Option.some.inj (hrun.symm.trans hcall))
  exact holds_all.mp hs1

/-! ## A change elsewhere -/

/-- What a change leaves as it was at the inode `a`. -/
structure Same (v v' : Vol) (a : Nat) : Prop where
  glob : v'.glob = v.glob
  node : nodeAt v'.bytes a = nodeAt v.bytes a
  blocks : ∀ i < (nodeAt v.bytes a).blocks, addrOf v'.bytes (nodeAt v.bytes a) i = addrOf v.bytes (nodeAt v.bytes a) i ∧
    ∀ k < 4096, v'.bytes (addrOf v.bytes (nodeAt v.bytes a) i + k) = v.bytes (addrOf v.bytes (nodeAt v.bytes a) i + k)

theorem Same.dirAt (h : Same v v' a) (hd : DirAt v a) : DirAt v' a := by
  have hkept : ∀ i < (nodeAt v.bytes a).blocks, addrOf (View.all v').vol.bytes (nodeAt v.bytes a) i =
      addrOf (View.all v).vol.bytes (nodeAt v.bytes a) i ∧ _ := h.blocks
  have h2 := hd.two
  have hlt : ∀ e < 2, e / 16 < (nodeAt v.bytes a).blocks := fun e he => hd.packed.lt (by omega)
  have hname : ∀ e < 2, nameOf v'.bytes (nodeAt v.bytes a) e = nameOf v.bytes (nodeAt v.bytes a) e := fun e he => name_kept hkept (hlt e he)
  have hchild : ∀ e < 2, childOf v'.bytes (nodeAt v.bytes a) e = childOf v.bytes (nodeAt v.bytes a) e := fun e he => child_kept hkept (hlt e he)
  refine ⟨?_, ?_, ?_, ?_, ?_, ?_⟩ <;> rw [h.node]
  · exact hd.packed.kept hkept fun x _ => trivial
  · exact hd.names.kept hkept hd.packed
  · exact hd.few
  · exact h2
  · rw [hname 0 (by decide), hchild 0 (by decide)]
    exact hd.dot
  · rw [hname 1 (by decide), hchild 1 (by decide), h.glob]
    exact hd.dotDot

theorem Same.obj (h : Same v v' a) (hg : Good z v own a) : objOf v'.bytes (nodeAt v'.bytes a) = objOf v.bytes (nodeAt v.bytes a) := by
  have hkept : ∀ i < (nodeAt v.bytes a).blocks, addrOf (View.all v').vol.bytes (nodeAt v.bytes a) i =
      addrOf (View.all v).vol.bytes (nodeAt v.bytes a) i ∧ _ := h.blocks
  rw [h.node, objOf, objOf]
  split
  · rename_i hd
    have hp := (hg.dir hd).packed
    have he : entries v'.bytes (nodeAt v.bytes a) = entries v.bytes (nodeAt v.bytes a) :=
      entries_congr rfl fun e he => ⟨name_kept hkept (hp.lt he), child_kept hkept (hp.lt he)⟩
    rw [he]
  · rename_i hd
    have hf := hg.file (Bool.eq_false_iff.mpr hd)
    have hc : contents v'.bytes (nodeAt v.bytes a) = contents v.bytes (nodeAt v.bytes a) := by
      refine List.map_congr_left fun x hx => ?_
      have hx := List.mem_range.mp hx
      obtain ⟨h1, h2⟩ := h.blocks (x / 4096) (by omega)
      exact fileByte_congr h1 h2
    rw [hc]

section
variable (h : Kept z v own ps) (hc : Confined z A (.all v) own (.all v') own') (hsp : Space z (.all v') own' ps')
  (hA : ∀ a, A a → IsSlot z.lo a)

include h hc hA

theorem Kept.node_other (ha : IsSlot z.lo a) (hno : ¬ A a) : nodeAt v'.bytes a = nodeAt v.bytes a := by
  have hlow := ha.low
  refine nodeAt_congr fun k hk => hc.slot (by omega) (h.slot_high ha) (fun c hc => ?_) (by omega) (by omega)
  have := (h.beside ha (hA c hc) fun e => hno (e ▸ hc)).apart
  omega

include hsp

theorem Kept.same (ha : IsSlot z.lo a) (hu : InUse v.bytes a) (hno : ¬ A a) :
    Same v v' a ∧ InodeAt z (.all v') own' ps' a (nodeAt v.bytes a) := by
  obtain ⟨hi, hb⟩ := (h.inode ha hu).other hc hsp fun c hc => h.beside ha (hA c hc) fun e => hno (e ▸ hc)
  exact ⟨⟨hc.keeps.glob, h.node_other hc hA ha hno, hb⟩, hi⟩

theorem Kept.tree_other (hno : ¬ A a) : v'.tree a = v.tree a := by
  have hglob : v'.glob = v.glob := hc.keeps.glob
  unfold Vol.tree
  rw [hglob, h.boundary]
  by_cases ha : IsSlot z.lo a
  · have hnode := h.node_other hc hA ha hno
    have huse : InUse v'.bytes a ↔ InUse v.bytes a := by rw [InUse, InUse, hnode]
    by_cases hu : InUse v.bytes a
    · rw [if_pos ⟨ha, huse.mpr hu⟩, if_pos ⟨ha, hu⟩, (h.same hc hsp hA ha hu hno).1.obj (h.good a ha hu)]
    · rw [if_neg fun hc => hu (huse.mp hc.2), if_neg fun hc => hu hc.2]
  · rw [if_neg fun hc => ha hc.1, if_neg fun hc => ha hc.1]

/-- Where the blocks of the free list and of the inodes that were touched are still
    accounted for, no block is lost. -/
theorem Kept.whole (hfree : ∀ b ∈ freeOrder (.all v) ps, Accounted z v' b)
    (huse : ∀ a, A a → InUse v.bytes a → ∀ b, Uses v.bytes (nodeAt v.bytes a) b → Accounted z v' b) (hw : Whole z v) : Whole z v' := by
  intro b hb
  rcases hw b hb with hf | ⟨a, ha, hu, hab⟩
  · exact hfree b (h.space.hasFree.mp hf)
  by_cases hAa : A a
  · exact huse a hAa hu b hab
  obtain ⟨hsame, -⟩ := h.same hc hsp hA ha hu hAa
  refine Or.inr ⟨a, ha, by rw [InUse, hsame.node]; exact hu, ?_⟩
  rw [hsame.node]
  exact hab.imp_left fun ⟨i, hi, hib⟩ => ⟨i, hi, (hsame.blocks i hi).1.trans hib⟩

/-- Where the inodes that were touched are sound, and the tree is one, the disk is. -/
theorem Kept.frame (hin : ∀ a, A a → InUse v'.bytes a → Good z v' own' a)
    (hout : ∀ a, A a → ¬ InUse v'.bytes a → ∀ j, 12 ≤ j → (nodeAt v'.bytes a).root j = 0) (ht : Lib.Store.Tree v.glob.rootNode v'.tree) :
    Kept z v' own' ps' := by
  have hglob : v'.glob = v.glob := hc.keeps.glob
  have hsize : v'.size = v.size := hc.keeps.size
  refine ⟨by rw [hglob]; exact h.boundary, h.low, h.aligned, by rw [hsize]; exact h.high, hsp, by rw [hglob]; exact h.root,
    fun a ha hu => ?_, fun a ha hu => ?_, by rw [hglob]; exact ht⟩
  · by_cases hAa : A a
    · exact hin a hAa hu
    have hnode := h.node_other hc hA ha hAa
    have hu' : InUse v.bytes a := by rwa [InUse, ← hnode]
    obtain ⟨hsame, hi⟩ := h.same hc hsp hA ha hu' hAa
    have hg := h.good a ha hu'
    refine ⟨by rw [hnode]; exact hi.maps, by rw [hnode]; exact hg.links, fun hd => hsame.dirAt (hg.dir ?_), fun hf => ?_⟩
    · rwa [← hnode]
    · rw [hnode] at hf ⊢
      exact hg.file hf
  · by_cases hAa : A a
    · exact hout a hAa hu
    have hnode := h.node_other hc hA ha hAa
    rw [hnode]
    exact h.blank a ha fun hu' => hu (by rwa [InUse, hnode])

end

end TyrantFS

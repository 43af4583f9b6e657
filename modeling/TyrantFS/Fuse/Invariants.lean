/-
  TyrantFS.Fuse.Invariants — the disk, in every state that is reached.

  No block is used twice or listed as free while it is used (`blocks_apart`). An inode is
  in use if and only if a path leads to it, and then one path does; an entry leads to an
  inode in use, and no other entry does (`one_path`). "." of a directory leads to it, and
  ".." nowhere, but in the root (`dots`). A directory's size counts its entries, and a file
  has the blocks that its size needs (`sizes`).
-/
import TyrantFS.Fuse.Paths

namespace TyrantFS

open Lib Lib.PageTree Lib.Store

variable {z : Zone} {own : Nat → Option Pos} {ps : List Nat} {v : Vol} {s : Sys} {a b c : Nat} {p q : Pos} {path : List UInt8} {w : Attrs}
  {bs : List UInt8} {es : List (List UInt8 × Nat)}

/-! ## Blocks -/

/-- The block `b` is in the place `p` of the map of an inode in use. -/
def Vol.Sits (v : Vol) (p : Pos) (b : Nat) : Prop :=
  IsSlot (regionStart v.size) p.inode ∧ InUse v.bytes p.inode ∧
    match p with
    | .data a i => i < (nodeAt v.bytes a).blocks ∧ addrOf v.bytes (nodeAt v.bytes a) i = b
    | .page a j path => 12 ≤ j ∧ IsPath j path ∧ path.length < depth j ∧ blockAt v.bytes (nodeAt v.bytes a) j path = b ∧ b ≠ 0

theorem Kept.sits (h : Kept z v own ps) (hz : z.lo = regionStart v.size) (hb : v.Sits p b) : own b = some p := by
  obtain ⟨ha, hu, hp⟩ := hb
  have hmaps := (h.good _ (hz ▸ ha) hu).maps
  cases p with
  | data a i =>
    obtain ⟨hi, rfl⟩ := hp
    exact hmaps.data i hi
  | page a j π =>
    obtain ⟨hj, hπ, hd, rfl, h0⟩ := hp
    exact hmaps.page j π hj hπ hd h0

/-- A block of the data region is free, or it has one place in one map; no block has two. -/
theorem blocks_apart (h : Reached s) : ∃ ps, FreeList (.all s.vol) ps ∧ (freeOrder (.all s.vol) ps).Nodup ∧
    (zoneOf s.vol.size).hi ≤ s.vol.size ∧ (∀ b ∈ freeOrder (.all s.vol) ps, (zoneOf s.vol.size).Has b) ∧
    ∀ p b, s.vol.Sits p b → (zoneOf s.vol.size).Has b ∧ b ∉ freeOrder (.all s.vol) ps ∧ ∀ q, s.vol.Sits q b → q = p := by
  obtain ⟨-, own, ps, hk⟩ := h.inOrder
  refine ⟨ps, hk.space.list, hk.space.list.chain.nodup, hk.space.high, fun b hb => (hk.space.free b hb).2, fun p b hp => ?_⟩
  have hown := hk.sits rfl hp
  refine ⟨hk.space.owned b (by rw [hown]; exact Option.some_ne_none p), hk.space.owned_notFree hown, fun q hq => ?_⟩
  exact Option.some.inj ((hk.sits rfl hq).symm.trans hown)

theorem blocks_apart_small : ∃ ps, FreeList (.all newDisk.vol) ps ∧ (freeOrder (.all newDisk.vol) ps).Nodup ∧
    (zoneOf newDisk.vol.size).hi ≤ newDisk.vol.size ∧ (∀ b ∈ freeOrder (.all newDisk.vol) ps, (zoneOf newDisk.vol.size).Has b) ∧
    ∀ p b, newDisk.vol.Sits p b → (zoneOf newDisk.vol.size).Has b ∧ b ∉ freeOrder (.all newDisk.vol) ps ∧ ∀ q, newDisk.vol.Sits q b → q = p :=
  blocks_apart newDisk_born.1.reached

theorem Uses.sits (h : Uses v.bytes (nodeAt v.bytes a) b) (ha : IsSlot (regionStart v.size) a) (hu : InUse v.bytes a) : ∃ p, v.Sits p b := by
  rcases h with ⟨i, hi, hb⟩ | ⟨hb, h0⟩
  · exact ⟨.data a i, ha, hu, hi, hb⟩
  · have hpath : IsPath 12 [] := ⟨by decide, by decide, fun _ hk => absurd hk List.not_mem_nil⟩
    exact ⟨.page a 12 [], ha, hu, Nat.le_refl 12, hpath, by decide, hb.symm, h0⟩

/-- No block is lost, in a run whose truncations and unlinks each save what they cut off:
    a block of the region is free, or it has its one place. -/
theorem none_lost {es : List Event} {s' : Sys} (hb : Born s) (hs : Steps (fun s e s' => Serves s e s' ∧ e.Saves s.vol) s es s')
    (hz : (zoneOf s'.vol.size).Has b) :
    s'.vol.HasFree b ∧ (∀ p, ¬ s'.vol.Sits p b) ∨ ¬ s'.vol.HasFree b ∧ ∃ p, s'.vol.Sits p b ∧ ∀ q, s'.vol.Sits q b → q = p := by
  obtain ⟨⟨-, own, ps, hk⟩, hw⟩ : InOrder s' ∧ Whole (zoneOf s'.vol.size) s'.vol :=
    hs.invariant (I := fun s => InOrder s ∧ Whole (zoneOf s.vol.size) s.vol) (fun s e s' _ ⟨hi, hw⟩ ⟨hst, hsave⟩ => by
      obtain ⟨hi', -, hw'⟩ := hi.step hst
      exact ⟨hi', hw' hsave hw⟩) ⟨hb.inOrder.1, hb.inOrder.2.2.2⟩
  have hnot : ∀ p, s'.vol.Sits p b → ¬ s'.vol.HasFree b := fun p hp hf =>
    hk.space.owned_notFree (hk.sits rfl hp) (hk.space.hasFree.mp hf)
  rcases hw b hz with hf | ⟨a, ha, hu, hab⟩
  · exact Or.inl ⟨hf, fun p hp => hnot p hp hf⟩
  · obtain ⟨p, hp⟩ := hab.sits ha hu
    exact Or.inr ⟨hnot p hp, p, hp, fun q hq => Option.some.inj ((hk.sits rfl hq).symm.trans (hk.sits rfl hp))⟩

theorem zoneOf_first {size : Nat} : (zoneOf size).Has (regionStart size) := by
  refine ⟨Nat.mul_mod_left _ _, Nat.le_refl _, ?_⟩
  show regionStart size + 4096 ≤ regionStart size + 4096 * (regionCount size + 1)
  omega

theorem none_lost_small : let b := regionStart withBytes.vol.size
    withBytes.vol.HasFree b ∧ (∀ p, ¬ withBytes.vol.Sits p b) ∨
      ¬ withBytes.vol.HasFree b ∧ ∃ p, withBytes.vol.Sits p b ∧ ∀ q, withBytes.vol.Sits q b → q = p := by
  have hs : Steps (fun s e s' => Serves s e s' ∧ e.Saves s.vol) newDisk [.call makeFile (answer 0), .call writeFile (answer 3)] withBytes :=
    .cons ⟨.call _ _ _ makeFile_allowed withFile_made.1, trivial⟩ (.cons ⟨.call _ _ _ writeFile_allowed withBytes_made, trivial⟩ .nil)
  exact none_lost newDisk_born.1 hs zoneOf_first

/-! ## Names -/

/-- An inode is in use if and only if one path leads to it, and the inode that an entry
    leads to is in use, not the root, and in no other entry. -/
theorem one_path (h : Reached s) : (IsSlot (regionStart s.vol.size) a ∧ InUse s.vol.bytes a ↔ ∃! names, Leads s.vol.tree 4096 names a) ∧
    ∀ d x, (x, a) ∈ s.vol.tree.entries d → IsSlot (regionStart s.vol.size) a ∧ InUse s.vol.bytes a ∧ a ≠ 4096 ∧
      ∀ e y, (y, a) ∈ s.vol.tree.entries e → e = d ∧ y = x := by
  have ht := h.inOrder.tree
  obtain ⟨-, own, ps, hk⟩ := h.inOrder
  refine ⟨⟨fun hu => ?_, fun ⟨names, hn, _⟩ => hk.used.mp (ht.used hn)⟩, fun d x hx => ?_⟩
  · obtain ⟨names, hn⟩ := ht.path (hk.used.mpr hu)
    exact ⟨names, hn, fun names' hn' => ht.path_inj hn' hn⟩
  · obtain ⟨-, hu, hr⟩ := ht.tree.live d a (List.mem_map_of_mem (f := Prod.snd) hx)
    obtain ⟨ha, hu⟩ := hk.used.mp hu
    exact ⟨ha, hu, hr, fun e y hy => ht.place_inj hy hx⟩

/-- On a disk with the file "/a". -/
theorem one_path_small : ∃ a, ([97], a) ∈ withFile.vol.tree.entries 4096 ∧
    (IsSlot (regionStart withFile.vol.size) a ∧ InUse withFile.vol.bytes a ↔ ∃! names, Leads withFile.vol.tree 4096 names a) ∧
    ∀ d x, (x, a) ∈ withFile.vol.tree.entries d → IsSlot (regionStart withFile.vol.size) a ∧ InUse withFile.vol.bytes a ∧ a ≠ 4096 ∧
      ∀ e y, (y, a) ∈ withFile.vol.tree.entries e → e = d ∧ y = x := by
  obtain ⟨-, -, a, hat, -⟩ := withFile_file
  exact ⟨a, leads_single.mp hat, one_path withFile_reached⟩

section
variable (h : Kept z v own ps) (hh : Home v) (hp : Plain (tokens path)) (hat : v.fs.At path a) (hd : v.tree.IsDir a)

include h hh hp hat hd

/-- One more name, that the directory at the path has for `c`. -/
theorem Kept.find_entry {x : List UInt8} {e : Nat} {path' : List UInt8} (hx : tokens path' = tokens path ++ [x])
    (he : e < (nodeAt v.bytes a).size / 256) (hn : nameOf v.bytes (nodeAt v.bytes a) e = x) (hc : childOf v.bytes (nodeAt v.bytes a) e = c) :
    Runs (.all v) (findPathNode path') c (.all v) := by
  obtain ⟨ha, hu, hdir⟩ := h.dir_of_tree hd
  have hdirAt := (h.good a ha hu).dir hdir
  have hroot := hh.root
  have hat' : Leads v.tree v.glob.rootNode (tokens path) a := by
    rw [hroot]
    exact hat
  have hres := (h.resolve_iff h.root h.root_dir.1 hp).mpr hat'
  have hsearch := h.searches h.root h.root_dir.1 hp (h.tree.walkable hat')
  have hlook : lookup v.bytes (nodeAt v.bytes a) x = c := (lookup_eq hdirAt.names he hn).trans hc
  have hfind : Searches v.bytes v.glob.rootNode (tokens path') → Runs (.all v) (findPathNode path') _ (.all v) := findPathNode_runs h.sound
  refine (hfind ?_).result ?_
  · rw [hx]
    refine searches_snoc hsearch fun d hd' => ?_
    obtain rfl := Option.some.inj (hres.symm.trans hd')
    exact ⟨hdir, Or.inl hdirAt.few⟩
  · rw [hx, resolve_append, hres]
    show (resolve v.bytes a [x]).getD 0 = c
    rw [resolve, hlook]
    by_cases h0 : c = 0
    · rw [if_neg fun hc => hc.2 h0, h0]
      rfl
    · rw [if_pos ⟨hdir, h0⟩]
      rfl

end

/-- "." leads to the directory itself. ".." leads nowhere, since `tfs_mkdir` writes the
    parent's address behind the block; only the root has one, and it is the root's. -/
theorem dots {path' : List UInt8} (h : Reached s) (hp : Plain (tokens path)) (hat : s.vol.fs.At path a) (hd : s.vol.tree.IsDir a) :
    (tokens path' = tokens path ++ [dotName] → Runs (.all s.vol) (findPathNode path') a (.all s.vol)) ∧
      (tokens path' = tokens path ++ [dotDotName] → Runs (.all s.vol) (findPathNode path') (if a = 4096 then 4096 else 0) (.all s.vol)) := by
  obtain ⟨hh, own, ps, hk⟩ := h.inOrder
  obtain ⟨ha, hu, hdir⟩ := hk.dir_of_tree hd
  have hdirAt := (hk.good a ha hu).dir hdir
  have h2 := hdirAt.two
  refine ⟨fun hx => hk.find_entry hh hp hat hd hx (by omega) hdirAt.dot.1 hdirAt.dot.2,
    fun hx => hk.find_entry hh hp hat hd hx (e := 1) (by omega) hdirAt.dotDot.1 (hdirAt.dotDot.2.trans ?_)⟩
  rw [hh.root]
  split
  · assumption
  · rfl

/-- The directory "/a": "/a/." is the same, and "/a/.." is not found. -/
theorem dots_small : ∃ a, withDir.vol.fs.At [47, 97] a ∧ a ≠ 4096 ∧
    Runs (.all withDir.vol) (findPathNode [47, 97, 47, 46]) a (.all withDir.vol) ∧
    Runs (.all withDir.vol) (findPathNode [47, 97, 47, 46, 46]) 0 (.all withDir.vol) := by
  obtain ⟨hpath, a, hat, ha⟩ := withDir_dir
  have hne : a ≠ 4096 := by
    intro e
    have hnil : tokens [47, 97] = [] := withDir_reached.inOrder.tree.path_inj hat (e ▸ .here)
    exact absurd hnil (by decide)
  have hdot := (dots withDir_reached hpath.plain hat ⟨_, _, ha⟩).1 (show tokens [47, 97, 47, 46] = tokens [47, 97] ++ [dotName] by decide)
  have hdotDot := (dots withDir_reached hpath.plain hat ⟨_, _, ha⟩).2
    (show tokens [47, 97, 47, 46, 46] = tokens [47, 97] ++ [dotDotName] by decide)
  rw [if_neg hne] at hdotDot
  exact ⟨a, hat, hne, hdot, hdotDot⟩

/-! ## Sizes -/

/-- What the inode says of the object: one link, the entries of a directory and the blocks
    for them, and for a file no byte beyond its blocks. -/
theorem sizes (h : Reached s) (ha : IsSlot (regionStart s.vol.size) a) (hu : InUse s.vol.bytes a) :
    (nodeAt s.vol.bytes a).links = 1 ∧ (s.vol.tree.IsDir a → (nodeAt s.vol.bytes a).size = 256 * ((s.vol.tree.entries a).length + 2) ∧
      (nodeAt s.vol.bytes a).blocks = ((nodeAt s.vol.bytes a).size + 4095) / 4096 ∧ (nodeAt s.vol.bytes a).blocks ≤ 12) ∧
      ∀ w bs, s.vol.tree a = some ⟨w, .file bs⟩ → (nodeAt s.vol.bytes a).size = bs.length ∧ bs.length ≤ 4096 * (nodeAt s.vol.bytes a).blocks := by
  obtain ⟨-, own, ps, hk⟩ := h.inOrder
  have hg := hk.good a ha hu
  refine ⟨hg.links, fun hd => ?_, fun w bs hf => ?_⟩
  · obtain ⟨-, -, hdir⟩ := hk.dir_of_tree hd
    have hdirAt := hg.dir hdir
    have h2 := hdirAt.two
    have hwhole := hdirAt.packed.whole
    rw [(hk.entries_tree ha hu hdir).2, List.length_drop, length_entries]
    exact ⟨by omega, hdirAt.packed.ceil, hdirAt.few⟩
  · have hsize := hg.file (hk.file_of_tree ⟨w, bs, hf⟩).2.2
    have hlen : bs.length = (nodeAt s.vol.bytes a).size := by
      rw [← hk.file_contents ha hu hf]
      exact length_contents
    exact ⟨hlen.symm, by omega⟩

theorem sizes_small : (nodeAt newDisk.vol.bytes 4096).links = 1 ∧ (newDisk.vol.tree.IsDir 4096 →
      (nodeAt newDisk.vol.bytes 4096).size = 256 * ((newDisk.vol.tree.entries 4096).length + 2) ∧
      (nodeAt newDisk.vol.bytes 4096).blocks = ((nodeAt newDisk.vol.bytes 4096).size + 4095) / 4096 ∧
      (nodeAt newDisk.vol.bytes 4096).blocks ≤ 12) ∧
    ∀ w bs, newDisk.vol.tree 4096 = some ⟨w, .file bs⟩ →
      (nodeAt newDisk.vol.bytes 4096).size = bs.length ∧ bs.length ≤ 4096 * (nodeAt newDisk.vol.bytes 4096).blocks := by
  obtain ⟨hh, own, ps, hk⟩ := newDisk_born.1.inOrder.1
  have hroot := hh.root ▸ hk.root
  exact sizes newDisk_born.1.reached hroot (hh.root ▸ hk.root_dir.1)

end TyrantFS

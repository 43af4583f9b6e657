/-
  TyrantFS.Fuse.Growth — new objects, and files that grow.

  A file or directory is made if and only if there is an inode for it and there are blocks
  for it and for its entry (`create_iff`). It is where it was made, and every path leads
  where it led (`create_adds`). A write is short only when the disk is full
  (`write_short`).
-/
import TyrantFS.Fuse.Runs

namespace TyrantFS

open Lib Lib.Store

variable {f f' : Fs} {c : Call} {r : Reply} {s s' : Sys} {path before name data bs : List UInt8} {w : Attrs} {a b d off : Nat}
  {o : Obj (List UInt8) Nat Attrs UInt8}

/-! ## What it takes -/

/-- What `tfs_mknod` and `tfs_mkdir` make, and where. -/
def Call.makes (userId groupId : Nat) : Call → Option (List UInt8 × Obj (List UInt8) Nat Attrs UInt8)
  | .mknod path m => some (path, ⟨⟨m.toNat, userId, groupId⟩, .file []⟩)
  | .mkdir path m => some (path, ⟨⟨m.toNat ||| 0x4000, userId, groupId⟩, .dir []⟩)
  | _ => none

/-- The blocks that a new object takes, beside that for its entry. -/
def ownBlocks (o : Obj (List UInt8) Nat Attrs UInt8) : Nat :=
  match o.body with
  | .dir _ => 1
  | .file _ => 0

/-- There is an inode, and there are the blocks. -/
def Roomy (v : Vol) (d : Nat) (o : Obj (List UInt8) Nat Attrs UInt8) : Prop :=
  (∃ a, IsSlot (regionStart v.size) a ∧ v.tree a = none) ∧ ∃ k, Free v k ∧ ownBlocks o + needs v.tree d ≤ k

theorem Kept.roomy {z : Zone} {own : Nat → Option Pos} {ps : List Nat} {v : Vol} (h : Kept z v own ps) (hz : z.lo = regionStart v.size) :
    Roomy v d o ↔ (∃ a, IsSlot z.lo a ∧ ¬ InUse v.bytes a) ∧ ownBlocks o + needs v.tree d ≤ (freeOrder (.all v) ps).length := by
  have hslot : ∀ a, IsSlot (regionStart v.size) a ∧ v.tree a = none ↔ IsSlot z.lo a ∧ ¬ InUse v.bytes a := fun a => by
    rw [← hz]
    refine and_congr_right fun ha => ⟨fun h0 hu => h.used.mpr ⟨ha, hu⟩ h0, fun hu => ?_⟩
    by_contra h0
    exact hu (h.used.mp h0).2
  rw [Roomy, exists_congr hslot]
  refine and_congr_right fun _ => ⟨fun ⟨k, hk, hle⟩ => ?_, fun hle => ⟨_, h.space.free_iff.mpr rfl, hle⟩⟩
  rwa [h.space.free_iff.mp hk]

theorem map_run {α β : Type} {x : M α} {g : α → β} {r : β} (h : (g <$> x) s = some (r, s')) : ∃ r0, x s = some (r0, s') ∧ r = g r0 := by
  have hmap : (g <$> x) s = (x s).bind fun w => some (g w.1, w.2) := rfl
  rw [hmap] at h
  obtain ⟨⟨r0, s0⟩, hx, hg⟩ := Option.bind_eq_some_iff.mp h
  obtain ⟨rfl, rfl⟩ := Prod.mk.inj (Option.some.inj hg)
  exact ⟨r0, hx, rfl⟩

theorem Yields.only {α : Type} {z : Zone} {x : M α} {r r' : α} {t : FileTree} {P : Prop} (h : Yields z x s r t P) (hrun : x s = some (r', s')) :
    r' = r ∧ s'.vol.tree = t := by
  obtain ⟨s1, own', ps', hrun1, -, -, ht, -⟩ := h
  obtain ⟨rfl, rfl⟩ := Prod.mk.inj (Option.some.inj (hrun.symm.trans hrun1))
  exact ⟨rfl, ht⟩

theorem InOrder.roomy (h : InOrder s) (hc : s.vol.fs.Allowed c) (hmk : c.makes s.vol.fs.userId s.vol.fs.groupId = some (path, o))
    (hl : splitLast path = some (before, name)) (hd : s.vol.fs.At before d) (hrun : c.run s = some (r, s')) :
    (Roomy s.vol d o ∧ r = answer 0 ∧ ∃ j k, Free s.vol j ∧ Free s'.vol k ∧ j = k + (ownBlocks o + needs s.vol.tree d)) ∨
      (¬ Roomy s.vol d o ∧ r = answer (-1) ∧ s'.vol.tree = s.vol.tree) := by
  obtain ⟨hh, own, ps, hk⟩ := h
  rw [hk.roomy rfl]
  have hroot := hh.root
  have hfull : ∀ {n : Nat}, (∀ a, IsSlot (zoneOf s.vol.size).lo a → InUse s.vol.bytes a) ∨ (freeOrder (.all s.vol) ps).length < n →
      ¬ ((∃ a, IsSlot (zoneOf s.vol.size).lo a ∧ ¬ InUse s.vol.bytes a) ∧ n ≤ (freeOrder (.all s.vol) ps).length) := by
    intro n hor hboth
    obtain ⟨⟨a, ha, hu⟩, hle⟩ := hboth
    rcases hor with hall | hn
    · exact hu (hall a ha)
    · exact absurd hle (Nat.not_le_of_lt hn)
  have hfree : Free s.vol (freeOrder (.all s.vol) ps).length := hk.space.free_iff.mpr rfl
  cases c <;> cases hmk
  · obtain ⟨⟨before', name', hl', hn⟩, hm0, hmd⟩ := hc
    obtain ⟨rfl, rfl⟩ := Prod.mk.inj (Option.some.inj (hl.symm.trans hl'))
    obtain ⟨hdir, hnew, hfew⟩ := hn.room d hd
    obtain ⟨r0, hrun0, rfl⟩ := map_run hrun
    rw [ownBlocks, Nat.zero_add]
    rcases tfsMknod_yields hk hn.path.plain (by rw [hroot]; exact hn.path.walkable) hl (by rw [hroot]; exact hd) hdir hn.isName hn.plain
      hnew hfew hm0 hmd with ⟨hslot, hblocks, a, -, hy, hcount⟩ | ⟨hno, hy⟩
    · obtain ⟨k, hk', hcount⟩ := hcount _ _ hrun0
      exact Or.inl ⟨⟨hslot, hblocks⟩, congrArg answer (hy.only hrun0).1, _, k, hfree, hk', hcount⟩
    · exact Or.inr ⟨hfull hno, congrArg answer (hy.only hrun0).1, (hy.only hrun0).2⟩
  · obtain ⟨before', name', hl', hn⟩ := hc
    obtain ⟨rfl, rfl⟩ := Prod.mk.inj (Option.some.inj (hl.symm.trans hl'))
    obtain ⟨hdir, hnew, hfew⟩ := hn.room d hd
    obtain ⟨r0, hrun0, rfl⟩ := map_run hrun
    rcases tfsMkdir_yields hk hn.path.plain (by rw [hroot]; exact hn.path.walkable) hl (by rw [hroot]; exact hd) hdir hn.isName hn.plain
      hnew hfew with ⟨hslot, hblocks, a, -, hy, hcount⟩ | ⟨hno, hy⟩
    · obtain ⟨k, hk', hcount⟩ := hcount _ _ hrun0
      exact Or.inl ⟨⟨hslot, hblocks⟩, congrArg answer (hy.only hrun0).1, _, k, hfree, hk', hcount⟩
    · exact Or.inr ⟨hfull hno, congrArg answer (hy.only hrun0).1, (hy.only hrun0).2⟩

/-- A file in the root of the small device. -/
def withFile : Sys := makeFile.after newDisk

theorem makeFile_makes : makeFile.makes newDisk.vol.fs.userId newDisk.vol.fs.groupId = some ([47, 97], ⟨⟨0x81A4, 0, 0⟩, .file []⟩) := by
  rw [Vol.fs, newDisk_born.2.2]
  rfl

theorem newDisk_roomy (ho : ownBlocks o ≤ 63) : Roomy newDisk.vol 4096 o ∧ Free newDisk.vol 63 ∧ needs newDisk.vol.tree 4096 = 0 := by
  obtain ⟨hb, hsize, -⟩ := newDisk_born
  obtain ⟨-, ht, hfree, -⟩ := hb.inOrder
  rw [hsize, show regionCount (66 * 4096) = 63 by decide] at hfree
  have hneeds : needs newDisk.vol.tree 4096 = 0 := by
    rw [needs, newDisk_root.2]
    decide
  refine ⟨⟨⟨4352, ?_, ?_⟩, 63, hfree, by rw [hneeds]; exact ho⟩, hfree, hneeds⟩
  · rw [hsize]
    exact ⟨by decide, by decide, by decide⟩
  · rw [ht, bare, set_ne (by decide)]

/-- There is room for what is made in its root. -/
theorem newDisk_makes (hc : newDisk.vol.fs.Allowed c) (hmk : c.makes newDisk.vol.fs.userId newDisk.vol.fs.groupId = some ([47, 97], o))
    (ho : ownBlocks o ≤ 63) : c.run newDisk = some (answer 0, c.after newDisk) ∧ ∃ k, Free (c.after newDisk).vol k ∧ 63 = k + ownBlocks o := by
  obtain ⟨hroom, hfree, hneeds⟩ := newDisk_roomy ho
  obtain ⟨r, hrun, -⟩ := newDisk_born.1.inOrder.1.after hc
  rcases newDisk_born.1.inOrder.1.roomy hc hmk (show splitLast [47, 97] = some ([], [97]) by decide) .here hrun with
    ⟨-, rfl, j, k, hj, hk, hcount⟩ | ⟨hno, -⟩
  · obtain rfl := hj.unique hfree
    rw [hneeds] at hcount
    exact ⟨hrun, k, hk, hcount⟩
  · exact absurd hroom hno

theorem withFile_made : makeFile.run newDisk = some (answer 0, withFile) ∧ Free withFile.vol 63 := by
  obtain ⟨hrun, k, hk, hcount⟩ := newDisk_makes makeFile_allowed makeFile_makes (by decide)
  obtain rfl : 63 = k := hcount
  exact ⟨hrun, hk⟩

/-- A file or a directory is made if and only if an inode is free and so are the blocks
    that it takes, which are gone from the free list then; else the tree is what it was. -/
theorem create_iff (h : Reached s) (hc : s.vol.fs.Allowed c) (hmk : c.makes s.vol.fs.userId s.vol.fs.groupId = some (path, o))
    (hl : splitLast path = some (before, name)) (hd : s.vol.fs.At before d) (hrun : c.run s = some (r, s')) :
    (r = answer 0 ↔ Roomy s.vol d o) ∧
      (Roomy s.vol d o → ∃ j k, Free s.vol j ∧ Free s'.vol k ∧ j = k + (ownBlocks o + needs s.vol.tree d)) ∧
      (¬ Roomy s.vol d o → r = answer (-1) ∧ s'.vol.tree = s.vol.tree) := by
  have hne : answer 0 ≠ answer (-1) := fun e => absurd (congrArg Reply.status e) (by decide)
  rcases h.inOrder.roomy hc hmk hl hd hrun with ⟨hroom, rfl, hfree⟩ | ⟨hno, rfl, ht⟩
  · exact ⟨iff_of_true rfl hroom, fun _ => hfree, fun hno => absurd hroom hno⟩
  · exact ⟨iff_of_false hne.symm hno, fun hroom => absurd hroom hno, fun _ => ⟨rfl, ht⟩⟩

theorem create_iff_small : (answer 0 = answer 0 ↔ Roomy newDisk.vol 4096 ⟨⟨0x81A4, 0, 0⟩, .file []⟩) ∧
    (Roomy newDisk.vol 4096 ⟨⟨0x81A4, 0, 0⟩, .file []⟩ → ∃ j k, Free newDisk.vol j ∧ Free withFile.vol k ∧
      j = k + (ownBlocks ⟨⟨0x81A4, 0, 0⟩, .file []⟩ + needs newDisk.vol.tree 4096)) ∧
    (¬ Roomy newDisk.vol 4096 ⟨⟨0x81A4, 0, 0⟩, .file []⟩ → answer 0 = answer (-1) ∧ withFile.vol.tree = newDisk.vol.tree) :=
  create_iff newDisk_born.1.reached makeFile_allowed makeFile_makes (show splitLast [47, 97] = some ([], [97]) by decide) .here withFile_made.1

/-! ## What is made -/

theorem Does.make_inv (h : Does f c (answer 0) f') (hmk : c.makes f.userId f.groupId = some (path, o)) :
    ∃ before name d a, splitLast path = some (before, name) ∧ f.At before d ∧ f.tree.IsDir d ∧ f.tree a = none ∧ Fresh o ∧
      f' = f.with (f.tree.make d name a o) := by
  generalize hr : answer 0 = r at h
  cases h with
  | mknod _ before name m d a hl hd hdir _ ha =>
    obtain ⟨rfl, rfl⟩ := Prod.mk.inj (Option.some.inj hmk)
    exact ⟨before, name, d, a, hl, hd, hdir, ha, Or.inr ⟨[], rfl⟩, rfl⟩
  | mkdir _ before name m d a hl hd hdir _ ha =>
    obtain ⟨rfl, rfl⟩ := Prod.mk.inj (Option.some.inj hmk)
    exact ⟨before, name, d, a, hl, hd, hdir, ha, Or.inl rfl, rfl⟩
  | missing | mknodFull | mkdirFull => exact absurd (congrArg Reply.status hr) (by decide)
  | getattr | readdir | openFile | read | readEnd | write | truncate | unlink | rename | utime | chmod | chown | flush => cases hmk

theorem Does.adds (h : Does f c (answer 0) f') (ht : Lib.Store.Tree 4096 f.tree) (hmk : c.makes f.userId f.groupId = some (path, o))
    (hl : splitLast path = some (before, name)) (hname : name ≠ []) :
    ∃ d a, f.At before d ∧ f.tree a = none ∧ f'.At path a ∧ f'.tree a = some o ∧ f'.tree.names d = f.tree.names d ++ [name] ∧
      ∀ p b, f.At p b → f'.At p b ∧ (b ≠ d → f'.tree b = f.tree b) := by
  obtain ⟨before', name', d, a, hl', hd, hdir, ha, ho, rfl⟩ := h.make_inv hmk
  obtain ⟨rfl, rfl⟩ := Prod.mk.inj (Option.some.inj (hl.symm.trans hl'))
  obtain ⟨-, hent, -⟩ : _ ∧ (f.tree.make d name a o).entries d = _ ∧ _ := make_entries hdir ha ho
  have hne : ∀ {b}, f.tree b ≠ none → b ≠ a := fun hb e => hb (e ▸ ha)
  have hused : f.tree d ≠ none := by
    obtain ⟨t, es, hd⟩ := hdir
    rw [hd]
    exact Option.some_ne_none _
  refine ⟨d, a, hd, ha, ?_, ?_, ?_, fun p b hp => ⟨make_leads hdir ha ho hp, fun hb => ?_⟩⟩
  · rw [Fs.At, tokens_splitLast hl hname]
    exact make_leads_new hdir ha ho hd
  · show f.tree.make d name a o a = some o
    rw [Store.make, setBody_ne (hne hused).symm, set_self]
  · show (f.tree.make d name a o).names d = _
    rw [Store.names, hent, List.map_append]
    rfl
  · have hba : b ≠ a := hne (ht.used hp)
    show f.tree.make d name a o b = _
    rw [Store.make, setBody_ne hb, set_ne hba]

theorem created_name (hc : f.Allowed c) (hmk : c.makes a b = some (path, o)) (hl : splitLast path = some (before, name)) : name ≠ [] := by
  have hnew : ∀ {before' name'}, splitLast path = some (before', name') → f.NewName before' name' → name ≠ [] := fun hl' hn => by
    obtain ⟨rfl, rfl⟩ := Prod.mk.inj (Option.some.inj (hl.symm.trans hl'))
    exact hn.isName.nonempty
  cases c <;> cases hmk
  · obtain ⟨⟨before', name', hl', hn⟩, -⟩ := hc
    exact hnew hl' hn
  · obtain ⟨before', name', hl', hn⟩ := hc
    exact hnew hl' hn

/-- A new object is where it was made, behind the other names of its directory, and every
    path leads where it led. -/
theorem create_adds (h : Reached s) (hc : s.vol.fs.Allowed c) (hmk : c.makes s.vol.fs.userId s.vol.fs.groupId = some (path, o))
    (hl : splitLast path = some (before, name)) (hrun : c.run s = some (answer 0, s')) :
    ∃ d a, s.vol.fs.At before d ∧ s.vol.tree a = none ∧ s'.vol.fs.At path a ∧ s'.vol.tree a = some o ∧
      s'.vol.tree.names d = s.vol.tree.names d ++ [name] ∧
      ∀ p b, s.vol.fs.At p b → s'.vol.fs.At p b ∧ (b ≠ d → s'.vol.tree b = s.vol.tree b) := by
  exact (h.inOrder.answers hc hrun).adds h.inOrder.tree hmk hl (created_name hc hmk hl)

theorem create_adds_small : ∃ d a, newDisk.vol.fs.At [] d ∧ newDisk.vol.tree a = none ∧ withFile.vol.fs.At [47, 97] a ∧
    withFile.vol.tree a = some ⟨⟨0x81A4, 0, 0⟩, .file []⟩ ∧ withFile.vol.tree.names d = newDisk.vol.tree.names d ++ [[97]] ∧
    ∀ p b, newDisk.vol.fs.At p b → withFile.vol.fs.At p b ∧ (b ≠ d → withFile.vol.tree b = newDisk.vol.tree b) :=
  create_adds newDisk_born.1.reached makeFile_allowed makeFile_makes (show splitLast [47, 97] = some ([], [97]) by decide) withFile_made.1

theorem withFile_reached : Reached withFile := newDisk_born.1.reached.next (.call makeFile _ _ makeFile_allowed withFile_made.1)

theorem withFile_file : withFile.vol.fs.Path [47, 97] ∧ withFile.vol.tree.names 4096 = [[97]] ∧
    ∃ a, withFile.vol.fs.At [47, 97] a ∧ withFile.vol.tree a = some ⟨⟨0x81A4, 0, 0⟩, .file []⟩ := by
  have hi := newDisk_born.1.inOrder.1
  obtain ⟨d, a, hd, -, hat, ha, hnames, -⟩ := (hi.answers makeFile_allowed withFile_made.1).adds hi.tree makeFile_makes
    (show splitLast [47, 97] = some ([], [97]) by decide) (by decide)
  obtain rfl : d = 4096 := leads_nil.mp hd
  refine ⟨⟨fun x hx => ?_, withFile_reached.inOrder.tree.walkable hat⟩, hnames.trans ?_, a, hat, ha⟩
  · obtain rfl := List.mem_singleton.mp hx
    decide
  · show (newDisk.vol.tree.entries 4096).map Prod.fst ++ [[97]] = [[97]]
    rw [newDisk_root.2]
    rfl

def makeDir : Call := .mkdir [47, 97] 0x1ED

theorem makeDir_allowed : newDisk.vol.fs.Allowed makeDir := ⟨[], [97], by decide, newDisk_name⟩

theorem makeDir_makes : makeDir.makes newDisk.vol.fs.userId newDisk.vol.fs.groupId = some ([47, 97], ⟨⟨0x41ED, 0, 0⟩, .dir []⟩) := by
  rw [Vol.fs, newDisk_born.2.2]
  rfl

/-- A directory in the root of the small device. -/
def withDir : Sys := makeDir.after newDisk

theorem withDir_made : makeDir.run newDisk = some (answer 0, withDir) := (newDisk_makes makeDir_allowed makeDir_makes (by decide)).1

theorem withDir_reached : Reached withDir := newDisk_born.1.reached.next (.call makeDir _ _ makeDir_allowed withDir_made)

theorem withDir_dir : withDir.vol.fs.Path [47, 97] ∧ ∃ a, withDir.vol.fs.At [47, 97] a ∧ withDir.vol.tree a = some ⟨⟨0x41ED, 0, 0⟩, .dir []⟩ := by
  have hi := newDisk_born.1.inOrder.1
  obtain ⟨d, a, -, -, hat, ha, -⟩ := (hi.answers makeDir_allowed withDir_made).adds hi.tree makeDir_makes
    (show splitLast [47, 97] = some ([], [97]) by decide) (by decide)
  refine ⟨⟨fun x hx => ?_, withDir_reached.inOrder.tree.walkable hat⟩, a, hat, ha⟩
  obtain rfl := List.mem_singleton.mp hx
  decide

/-! ## Writing -/

/-- A path leads to one file. -/
theorem Fs.At.file_inj {a' : Nat} {w' : Attrs} {bs' : List UInt8} (ht : Lib.Store.Tree 4096 f.tree) (hat : f.At path a)
    (hf : f.tree a = some ⟨w, .file bs⟩) (hat' : f.At path a') (hf' : f.tree a' = some ⟨w', .file bs'⟩) : a = a' ∧ w = w' ∧ bs = bs' := by
  obtain rfl := ht.leads_inj hat hat'
  have ho := Option.some.inj (hf.symm.trans hf')
  exact ⟨rfl, congrArg Obj.attrs ho, Body.file.inj (congrArg Obj.body ho)⟩

theorem InOrder.shortened (h : InOrder s) (hc : s.vol.fs.Allowed (.write path data off)) (hat : s.vol.fs.At path a)
    (hf : s.vol.tree a = some ⟨w, .file bs⟩) (hrun : (Call.write path data off).run s = some (r, s')) :
    ∃ k ≤ data.length, r = answer k ∧ (nodeAt s'.vol.bytes a).size = max bs.length (off + k) ∧
      (nodeAt s'.vol.bytes a).size ≤ 4096 * (nodeAt s'.vol.bytes a).blocks ∧
      (k < data.length → off + k = 4096 * (nodeAt s'.vol.bytes a).blocks ∧ (∃ j ≤ 1, Free s'.vol j) ∧
        ∃ j, Free s.vol j ∧ j ≤ (off + data.length + 4095) / 4096 - (bs.length + 4095) / 4096) := by
  have ht := h.tree
  obtain ⟨hh, own, ps, hk⟩ := h
  obtain ⟨hp, hfile, hmax⟩ := hc
  obtain ⟨w', bs', hf', hoff⟩ := hfile a hat
  obtain ⟨-, -, rfl⟩ := hat.file_inj ht hf hat hf'
  rcases hk.at hh hp with ⟨a', hat', ha, hu, hfind⟩ | ⟨hno, -⟩
  · obtain rfl := ht.leads_inj hat hat'
    obtain ⟨k, hle, hy, hshort⟩ : ∃ k ≤ data.length, Yields _ (tfsWrite path (fun k => data.getD k 0) data.length off) s (k : Nat) _ ∧ _ :=
      tfsWrite_yields hk ha hu hfind hf hoff (by omega) hmax
    obtain ⟨r0, hrun0, rfl⟩ := map_run hrun
    obtain ⟨rfl, -⟩ := hy.only hrun0
    obtain ⟨hlen, hblocks, hshort⟩ := hshort _ _ hrun0
    refine ⟨k, hle, rfl, hlen, hblocks, fun hlt => ?_⟩
    obtain ⟨hend, hfull, hfew⟩ := hshort hlt
    refine ⟨hend, hfull, _, hk.space.free_iff.mpr rfl, ?_⟩
    unfold finalBlocks at hfew
    rw [Nat.mod_eq_of_lt (by omega)] at hfew
    split at hfew <;> omega
  · exact absurd hat (hno a)

/-- A write makes the file as long as it says. It is short only when no more blocks are free
    than it needs and the disk is full afterwards, and then the file ends with its last block. -/
theorem write_short (h : Reached s) (hc : s.vol.fs.Allowed (.write path data off)) (hat : s.vol.fs.At path a)
    (hf : s.vol.tree a = some ⟨w, .file bs⟩) (hrun : (Call.write path data off).run s = some (r, s')) :
    ∃ k ≤ data.length, r = answer k ∧ (nodeAt s'.vol.bytes a).size = max bs.length (off + k) ∧
      (nodeAt s'.vol.bytes a).size ≤ 4096 * (nodeAt s'.vol.bytes a).blocks ∧
      (k < data.length → off + k = 4096 * (nodeAt s'.vol.bytes a).blocks ∧ (∃ j ≤ 1, Free s'.vol j) ∧
        ∃ j, Free s.vol j ∧ j ≤ (off + data.length + 4095) / 4096 - (bs.length + 4095) / 4096) :=
  h.inOrder.shortened hc hat hf hrun

/-- Three bytes for it. -/
def writeFile : Call := .write [47, 97] [1, 2, 3] 0

theorem writeFile_allowed : withFile.vol.fs.Allowed writeFile := by
  obtain ⟨hpath, -, a, hat, ha⟩ := withFile_file
  refine ⟨hpath, fun a' hat' => ⟨⟨0x81A4, 0, 0⟩, [], ?_, Nat.zero_le _⟩, by decide⟩
  obtain rfl := withFile_reached.inOrder.tree.leads_inj hat hat'
  exact ha

def withBytes : Sys := writeFile.after withFile

theorem withBytes_made : writeFile.run withFile = some (answer 3, withBytes) := by
  obtain ⟨-, -, a, hat, ha⟩ := withFile_file
  obtain ⟨r, hrun, -⟩ := withFile_reached.inOrder.after writeFile_allowed
  obtain ⟨k, hk, rfl, -, -, hshort⟩ : ∃ k ≤ 3, _ := withFile_reached.inOrder.shortened writeFile_allowed hat ha hrun
  by_cases hlt : k < 3
  · obtain ⟨-, -, j, hj, hle⟩ := hshort hlt
    obtain rfl := hj.unique withFile_made.2
    exact absurd hle (by decide)
  · obtain rfl : k = 3 := by omega
    exact hrun

/-- A map has no more blocks than there are in the region. -/
theorem Kept.blocks_room {z : Zone} {own : Nat → Option Pos} {ps : List Nat} {v : Vol} (h : Kept z v own ps) (ha : IsSlot z.lo a)
    (hu : InUse v.bytes a) : 4096 * (nodeAt v.bytes a).blocks ≤ z.hi - z.lo := by
  have hmaps := (h.good a ha hu).maps
  have hown : ∀ i < (nodeAt v.bytes a).blocks, own (addrOf v.bytes (nodeAt v.bytes a) i) = some (.data a i) := hmaps.data
  have hin : ∀ i < (nodeAt v.bytes a).blocks, z.Has (addrOf v.bytes (nodeAt v.bytes a) i) := fun i hi =>
    h.space.owned _ (by rw [hown i hi]; exact Option.some_ne_none _)
  -- the blocks, numbered from the start of the region
  have hnd : ((List.range (nodeAt v.bytes a).blocks).map fun i => (addrOf v.bytes (nodeAt v.bytes a) i - z.lo) / 4096).Nodup := by
    refine List.Nodup.map_on (fun i hi j hj he => ?_) List.nodup_range
    have hi := List.mem_range.mp hi
    have hj := List.mem_range.mp hj
    obtain ⟨hai, hli, -⟩ := hin i hi
    obtain ⟨haj, hlj, -⟩ := hin j hj
    have hsame : addrOf v.bytes (nodeAt v.bytes a) i = addrOf v.bytes (nodeAt v.bytes a) j := by omega
    have hpos := (hown i hi).symm.trans (hsame ▸ hown j hj)
    exact (Pos.data.inj (Option.some.inj hpos)).2
  have hsub : ((List.range (nodeAt v.bytes a).blocks).map fun i => (addrOf v.bytes (nodeAt v.bytes a) i - z.lo) / 4096) ⊆
      List.range ((z.hi - z.lo) / 4096) := by
    intro k hk
    obtain ⟨i, hi, rfl⟩ := List.mem_map.mp hk
    obtain ⟨-, hl, hh⟩ := hin i (List.mem_range.mp hi)
    exact List.mem_range.mpr (by omega)
  have hle := (List.subperm_of_subset hnd hsub).length_le
  rw [List.length_map, List.length_range, List.length_range] at hle
  omega

theorem InOrder.size_run (h : InOrder s) (hc : s.vol.fs.Allowed c) (hrun : c.run s = some (r, s')) : s'.vol.size = s.vol.size := by
  obtain ⟨hh, own, ps, hk⟩ := h
  obtain ⟨r1, t, ⟨s1, own1, ps1, hrun1, -, hstay, -⟩, -⟩ := hk.does hh hc
  obtain ⟨-, rfl⟩ := Prod.mk.inj (Option.some.inj (hrun.symm.trans hrun1))
  exact hstay.size

theorem Does.write_used (h : Does f (.write path data off) r f') : f'.tree a ≠ none ↔ f.tree a ≠ none := by
  cases h with
  | missing => rfl
  | write => exact used_setBody

/-- A block more for it than the device has. -/
def fillFile : Call := .write [47, 97] (List.replicate (4096 * 65) 7) 0

theorem fillFile_allowed : withFile.vol.fs.Allowed fillFile := by
  obtain ⟨hpath, -, a, hat, ha⟩ := withFile_file
  refine ⟨hpath, fun a' hat' => ⟨⟨0x81A4, 0, 0⟩, [], ?_, Nat.zero_le _⟩, ?_⟩
  · obtain rfl := withFile_reached.inOrder.tree.leads_inj hat hat'
    exact ha
  · rw [List.length_replicate]
    decide

/-- The device is full before all of them are written. -/
theorem write_short_full : ∃ a k, withFile.vol.fs.At [47, 97] a ∧ k < 4096 * 65 ∧
    fillFile.run withFile = some (answer (k : Nat), fillFile.after withFile) ∧ k = 4096 * (nodeAt (fillFile.after withFile).vol.bytes a).blocks ∧
    ∃ j ≤ 1, Free (fillFile.after withFile).vol j := by
  obtain ⟨-, -, a, hat, ha⟩ := withFile_file
  obtain ⟨r, hrun, hd⟩ := withFile_reached.inOrder.after fillFile_allowed
  obtain ⟨k, hk, rfl, hlen, hblocks, hshort⟩ : ∃ k ≤ (List.replicate (4096 * 65) (7 : UInt8)).length, _ :=
    write_short withFile_reached fillFile_allowed hat ha hrun
  rw [List.length_replicate, Nat.zero_add] at hshort
  rw [List.length_nil, Nat.zero_add] at hlen
  -- the region has 64 blocks
  have hsize : (fillFile.after withFile).vol.size = 66 * 4096 :=
    (withFile_reached.inOrder.size_run fillFile_allowed hrun).trans
      ((newDisk_born.1.inOrder.1.size_run makeFile_allowed withFile_made.1).trans newDisk_born.2.1)
  obtain ⟨-, own, ps, hkept⟩ := (withFile_reached.next (.call fillFile _ _ fillFile_allowed hrun)).inOrder
  have hroom : 4096 * (nodeAt (fillFile.after withFile).vol.bytes a).blocks ≤ 4096 * 64 := by
    obtain ⟨hslot, hu⟩ := hkept.used.mp (hd.write_used.mpr (by rw [show withFile.vol.fs.tree a = _ from ha]; exact Option.some_ne_none _))
    have hle := hkept.blocks_room hslot hu
    rw [hsize] at hle
    exact hle
  obtain ⟨hend, hfull, -⟩ := hshort (by omega)
  exact ⟨a, k, hat, by omega, hrun, hend, hfull⟩

end TyrantFS

/-
  TyrantFS.Fuse.Paths — names, and where they lead.

  A removed name leads nowhere (`unlink_removes`), which undoes its making
  (`unlink_undoes`), and a renamed directory takes along what is below it
  (`rename_moves`), there and back (`rename_back`). A listing has the names that lead on
  (`readdir_lists`), no two paths have one inode number (`ino_inj`), and a call that fails
  changes nothing (`failures`).
-/
import TyrantFS.Fuse.Effects

namespace TyrantFS

open Lib Lib.Store

variable {f f' : Fs} {c : Call} {r r' : Reply} {s s' s'' : Sys} {path path' before before' name x y newName : List UInt8} {a b : Nat}
  {o : Obj (List UInt8) Nat Attrs UInt8}

/-! ## What is removed and renamed -/

theorem Does.removes (h : Does f (.unlink path) (answer 0) f') (ht : Lib.Store.Tree 4096 f.tree) (hat : f.At path a)
    (hl : splitLast path = some (before, x)) :
    (∀ b, ¬ f'.At path b) ∧ f'.tree a = none ∧ ∃ d, f.At before d ∧ (f.tree.names d).Perm (x :: f'.tree.names d) ∧
      ∀ p b, f.At p b → tokens p ≠ tokens path → f'.At p b ∧ (b ≠ d → f'.tree b = f.tree b) := by
  generalize hr : answer 0 = r at h
  cases h with
  | missing => exact absurd (congrArg Reply.status hr) (by decide)
  | unlink _ _ _ d c es hl' hx0 hd hc hperm =>
    obtain ⟨rfl, rfl⟩ := Prod.mk.inj (Option.some.inj (hl.symm.trans hl'))
    have htok := tokens_splitLast hl hx0
    have hmem := hperm.mem_iff.mpr List.mem_cons_self
    have hdir : f.tree.IsDir d := .of_mem hmem
    rw [Fs.At, htok] at hat
    obtain rfl : c = a := ht.leads_inj (hd.append (leads_single.mpr hmem)) hat
    have hcd : c ≠ d := by
      intro heq
      subst heq
      rw [hc.entries] at hmem
      cases hmem
    obtain ⟨-, hent, -⟩ : _ ∧ (f.tree.drop d c es).entries d = es ∧ _ := drop_entries hdir hc
    refine ⟨fun b hb => ?_, ?_, d, hd, ?_, fun p b hp hne => ⟨ht.drop_leads hc hperm hd hp ?_, fun hbd => ?_⟩⟩
    · rw [Fs.At, htok] at hb
      exact ht.drop_gone hc hperm hd hb
    · show f.tree.drop d c es c = none
      rw [Store.drop, setBody_ne hcd, set_self]
    · show (f.tree.names d).Perm (x :: (f.tree.drop d c es).names d)
      rw [Store.names, Store.names, hent]
      exact hperm.map Prod.fst
    · -- nothing is below a file
      intro hex
      obtain ⟨rest, hrest⟩ := hex
      rw [Fs.At, ← hrest] at hp
      obtain ⟨c', hc', hp'⟩ := leads_append.mp hp
      obtain rfl := ht.leads_inj hat hc'
      cases hp' with
      | here => exact hne (by rw [← hrest, List.append_nil, htok])
      | down hx _ =>
        rw [hc.entries] at hx
        cases hx
    · show f.tree.drop d c es b = _
      have hbc : b ≠ c := by
        intro heq
        subst heq
        exact hne ((ht.path_inj hp hat).trans htok.symm)
      rw [Store.drop, setBody_ne hbd, set_ne hbc]

/-- A removed name leads nowhere, its inode is given back, and every other path leads
    where it led. -/
theorem unlink_removes (h : Reached s) (hc : s.vol.fs.Allowed (.unlink path)) (hat : s.vol.fs.At path a)
    (hl : splitLast path = some (before, x)) (hrun : (Call.unlink path).run s = some (answer 0, s')) :
    (∀ b, ¬ s'.vol.fs.At path b) ∧ s'.vol.tree a = none ∧ ∃ d, s.vol.fs.At before d ∧ (s.vol.tree.names d).Perm (x :: s'.vol.tree.names d) ∧
      ∀ p b, s.vol.fs.At p b → tokens p ≠ tokens path → s'.vol.fs.At p b ∧ (b ≠ d → s'.vol.tree b = s.vol.tree b) := by
  exact (h.inOrder.answers hc hrun).removes h.inOrder.tree hat hl

def dropFile : Call := .unlink [47, 97]

theorem dropFile_allowed : withFile.vol.fs.Allowed dropFile := by
  obtain ⟨hpath, hnames, a, hat, ha⟩ := withFile_file
  refine ⟨hpath, [], [97], by decide, by decide, fun d c hd hx => ?_⟩
  have hc : withFile.vol.fs.At [47, 97] c := Leads.append hd (leads_single.mpr hx)
  obtain rfl := withFile_reached.inOrder.tree.leads_inj hat hc
  obtain rfl : d = 4096 := leads_nil.mp hd
  have hlen := congrArg List.length hnames
  rw [names, List.length_map] at hlen
  refine ⟨⟨_, _, ha⟩, Or.inl ?_⟩
  show ((withFile.vol.tree.entries 4096).length + 2) % 16 ≠ 0
  rw [hlen]
  decide

theorem dropFile_made : dropFile.run withFile = some (answer 0, dropFile.after withFile) := by
  obtain ⟨-, -, a, hat, -⟩ := withFile_file
  obtain ⟨r, hrun, hd⟩ := withFile_reached.inOrder.after dropFile_allowed
  rwa [hd.sure trivial rfl hat] at hrun

theorem unlink_removes_small : ∃ a, withFile.vol.fs.At [47, 97] a ∧ (∀ b, ¬ (dropFile.after withFile).vol.fs.At [47, 97] b) ∧
    (dropFile.after withFile).vol.tree a = none ∧ ∃ d, withFile.vol.fs.At [] d ∧
      (withFile.vol.tree.names d).Perm ([97] :: (dropFile.after withFile).vol.tree.names d) ∧
      ∀ p b, withFile.vol.fs.At p b → tokens p ≠ tokens [47, 97] → (dropFile.after withFile).vol.fs.At p b ∧
        (b ≠ d → (dropFile.after withFile).vol.tree b = withFile.vol.tree b) := by
  obtain ⟨-, -, a, hat, -⟩ := withFile_file
  exact ⟨a, hat, unlink_removes withFile_reached dropFile_allowed hat (by decide) dropFile_made⟩

theorem Does.unmade {f'' : Fs} {m : UInt32} (h : Does f (.mknod path m) (answer 0) f') (ht : Lib.Store.Tree 4096 f.tree)
    (h' : Does f' (.unlink path) (answer 0) f'') (hl : splitLast path = some (before, x)) :
    ∃ d, f.At before d ∧ (f''.tree.entries d).Perm (f.tree.entries d) ∧ ∀ b, b ≠ d → f''.tree b = f.tree b := by
  generalize hr : answer 0 = r at h h'
  cases h with
  | missing | mknodFull => exact absurd (congrArg Reply.status hr) (by decide)
  | mknod _ _ _ _ d a hl1 hd hdir hnew ha =>
    obtain ⟨rfl, rfl⟩ := Prod.mk.inj (Option.some.inj (hl.symm.trans hl1))
    have ho : Fresh (⟨⟨m.toNat, f.userId, f.groupId⟩, .file []⟩ : Obj (List UInt8) Nat Attrs UInt8) := Or.inr ⟨[], rfl⟩
    cases h' with
    | unlink _ _ _ d' c es hl2 hx0 hd' hc hperm =>
      obtain ⟨rfl, rfl⟩ := Prod.mk.inj (Option.some.inj (hl.symm.trans hl2))
      obtain rfl := (ht.make hdir hnew ha ho).leads_inj (make_leads hdir ha ho hd) hd'
      exact ⟨d, hd, ht.make_drop hdir hnew ha ho hc hperm⟩

/-- A file that is made and unlinked leaves the entries of its directory, in some order,
    and every other object as it was. -/
theorem unlink_undoes {m : UInt32} (h : Reached s) (hs : Serves s (.call (.mknod path m) (answer 0)) s')
    (hs' : Serves s' (.call (.unlink path) (answer 0)) s'') (hl : splitLast path = some (before, x)) :
    ∃ d, s.vol.fs.At before d ∧ (s''.vol.tree.entries d).Perm (s.vol.tree.entries d) ∧ ∀ b, b ≠ d → s''.vol.tree b = s.vol.tree b := by
  obtain ⟨hord, hsee, -⟩ := h.inOrder.step hs
  obtain ⟨-, hsee', -⟩ := hord.step hs'
  exact hsee.call_inv.unmade h.inOrder.tree hsee'.call_inv hl

theorem unlink_undoes_small : ∃ d, newDisk.vol.fs.At [] d ∧ ((dropFile.after withFile).vol.tree.entries d).Perm (newDisk.vol.tree.entries d) ∧
    ∀ b, b ≠ d → (dropFile.after withFile).vol.tree b = newDisk.vol.tree b :=
  unlink_undoes newDisk_born.1.reached (.call makeFile _ _ makeFile_allowed withFile_made.1)
    (.call dropFile _ _ dropFile_allowed dropFile_made) (show splitLast [47, 97] = some ([], [97]) by decide)

theorem Does.moves (h : Does f (.rename path newName) (answer 0) f') (ht : Lib.Store.Tree 4096 f.tree)
    (hl : splitLast path = some (before, x)) (hnew : tokens newName = tokens before ++ [y]) (hlast : (splitLast newName).map Prod.snd = some y)
    (hxy : y ≠ x) :
    (∀ rest p p' b, tokens p = tokens path ++ rest → tokens p' = tokens newName ++ rest → f.At p b →
      f'.At p' b ∧ ∀ b', ¬ f'.At p b') ∧
      ∃ d, f.At before d ∧ f'.tree.names d = (f.tree.names d).map (fun z => if z = x then y else z) ∧
        ∀ b, b ≠ d → f'.tree b = f.tree b := by
  generalize hr : answer 0 = r at h
  cases h with
  | missing => exact absurd (congrArg Reply.status hr) (by decide)
  | rename _ _ _ _ before' y' d c hl' hx0 hl2 hd hx hfree =>
    obtain ⟨rfl, rfl⟩ := Prod.mk.inj (Option.some.inj (hl.symm.trans hl'))
    obtain rfl : y' = y := by
      rw [hl2] at hlast
      exact Option.some.inj hlast
    have htok := tokens_splitLast hl hx0
    have hent : (f.tree.label d x y').entries d = _ ∧ _ := label_entries (.of_mem hx)
    refine ⟨fun rest p p' b hp hp' hb => ?_, d, hd, ?_, fun b hbd => setBody_ne hbd⟩
    · rw [htok, List.append_assoc] at hp
      rw [hnew, List.append_assoc] at hp'
      rw [Fs.At, hp] at hb
      obtain ⟨d', hd', hb⟩ := leads_append.mp hb
      obtain rfl := ht.leads_inj hd hd'
      refine ⟨?_, fun b' hb' => ?_⟩
      · cases hb with
        | down hx' hb =>
          obtain rfl := ht.entry_inj hx hx'
          rw [Fs.At, hp']
          exact ht.label_moves hd hx hb
      · rw [Fs.At, hp] at hb'
        exact ht.label_gone hd hx (hfree.resolve_left hxy) hxy hb'
    · show (f.tree.label d x y').names d = _
      rw [Store.names, hent.1, Store.names, List.map_map, List.map_map]
      refine List.map_congr_left fun w _ => ?_
      simp only [Function.comp]
      split <;> rfl

/-- What is below a name moves along with it: the old paths lead nowhere, the new ones
    where the old ones led. The directory has the new name in the place of the old one,
    and nothing else is changed. -/
theorem rename_moves (h : Reached s) (hc : s.vol.fs.Allowed (.rename path newName)) (hl : splitLast path = some (before, x))
    (hl' : splitLast newName = some (before', y)) (hxy : y ≠ x) (hrun : (Call.rename path newName).run s = some (answer 0, s')) :
    (∀ rest p p' b, tokens p = tokens path ++ rest → tokens p' = tokens newName ++ rest → s.vol.fs.At p b →
      s'.vol.fs.At p' b ∧ ∀ b', ¬ s'.vol.fs.At p b') ∧
      ∃ d, s.vol.fs.At before d ∧ s'.vol.tree.names d = (s.vol.tree.names d).map (fun z => if z = x then y else z) ∧
        ∀ b, b ≠ d → s'.vol.tree b = s.vol.tree b := by
  obtain ⟨-, hsee, -⟩ := h.inOrder.step (.call _ _ _ hc hrun)
  obtain ⟨-, before1, x1, before2, y2, hl1, -, hl2, hsame, hy, -⟩ := hc
  obtain ⟨rfl, rfl⟩ := Prod.mk.inj (Option.some.inj (hl.symm.trans hl1))
  obtain ⟨rfl, rfl⟩ := Prod.mk.inj (Option.some.inj (hl'.symm.trans hl2))
  exact hsee.call_inv.moves h.inOrder.tree hl (by rw [tokens_splitLast hl' hy.nonempty, hsame]) (by rw [hl']; rfl) hxy

def renameFile : Call := .rename [47, 97] [47, 98]

theorem renameFile_allowed : withFile.vol.fs.Allowed renameFile := by
  obtain ⟨hpath, hnames, -⟩ := withFile_file
  refine ⟨hpath, [], [97], [], [98], by decide, by decide, by decide, rfl, ⟨by decide, by decide, by simp⟩, by decide,
    fun d hd => Or.inr ?_⟩
  obtain rfl : d = 4096 := leads_nil.mp hd
  show [98] ∉ withFile.vol.tree.names 4096
  rw [hnames]
  decide

theorem renameFile_made : renameFile.run withFile = some (answer 0, renameFile.after withFile) := by
  obtain ⟨-, -, a, hat, -⟩ := withFile_file
  obtain ⟨r, hrun, hd⟩ := withFile_reached.inOrder.after renameFile_allowed
  rwa [hd.sure trivial rfl hat] at hrun

theorem rename_moves_small : (∀ rest p p' b, tokens p = tokens [47, 97] ++ rest → tokens p' = tokens [47, 98] ++ rest →
      withFile.vol.fs.At p b → (renameFile.after withFile).vol.fs.At p' b ∧ ∀ b', ¬ (renameFile.after withFile).vol.fs.At p b') ∧
    ∃ d, withFile.vol.fs.At [] d ∧
      (renameFile.after withFile).vol.tree.names d = (withFile.vol.tree.names d).map (fun z => if z = [97] then [98] else z) ∧
      ∀ b, b ≠ d → (renameFile.after withFile).vol.tree b = withFile.vol.tree b :=
  rename_moves withFile_reached renameFile_allowed (show splitLast [47, 97] = some ([], [97]) by decide)
    (show splitLast [47, 98] = some ([], [98]) by decide) (by decide) renameFile_made

theorem Does.renamed {f'' : Fs} (h : Does f (.rename path newName) (answer 0) f') (ht : Lib.Store.Tree 4096 f.tree)
    (hl : splitLast path = some (before, x)) (hl' : splitLast newName = some (before', y)) (hb : tokens before' = tokens before)
    (h' : Does f' (.rename newName path) (answer 0) f'') : f''.tree = f.tree := by
  generalize hr : answer 0 = r at h h'
  cases h with
  | missing => exact absurd (congrArg Reply.status hr) (by decide)
  | rename _ _ _ _ _ _ d c hl1 _ hl2 hd hx hfree =>
    obtain ⟨rfl, rfl⟩ := Prod.mk.inj (Option.some.inj (hl.symm.trans hl1))
    obtain ⟨rfl, rfl⟩ := Prod.mk.inj (Option.some.inj (hl'.symm.trans hl2))
    cases h' with
    | rename _ _ _ _ _ _ d' c' hl1 _ hl2 hd' _ _ =>
      obtain ⟨rfl, rfl⟩ := Prod.mk.inj (Option.some.inj (hl'.symm.trans hl1))
      obtain ⟨rfl, rfl⟩ := Prod.mk.inj (Option.some.inj (hl.symm.trans hl2))
      -- the directory is where it was
      rw [Fs.At, hb] at hd'
      obtain rfl := (ht.label (.of_mem hx) hfree).leads_inj (ht.label_dir hd hx) hd'
      exact label_back (.of_mem hx) hfree

/-- A rename is undone by the rename back: the tree is the one before, whatever was below
    the name. -/
theorem rename_back (h : Reached s) (hs : Serves s (.call (.rename path newName) (answer 0)) s')
    (hs' : Serves s' (.call (.rename newName path) (answer 0)) s'') : s''.vol.tree = s.vol.tree := by
  obtain ⟨hord, hsee, -⟩ := h.inOrder.step hs
  obtain ⟨-, hsee', -⟩ := hord.step hs'
  cases hs with
  | call _ _ _ hc _ =>
    obtain ⟨-, before, x, before', y, hl, -, hl', hsame, -⟩ := hc
    exact hsee.call_inv.renamed h.inOrder.tree hl hl' hsame hsee'.call_inv

def renameAgain : Call := .rename [47, 98] [47, 97]

theorem renameFile_file : (renameFile.after withFile).vol.fs.Path [47, 98] ∧ (renameFile.after withFile).vol.tree.names 4096 = [[98]] ∧
    ∃ a, (renameFile.after withFile).vol.fs.At [47, 98] a := by
  obtain ⟨-, hnames, a, hat, -⟩ := withFile_file
  have hi := withFile_reached.inOrder
  obtain ⟨hmoved, d, hd, hnew, -⟩ := (hi.answers renameFile_allowed renameFile_made).moves hi.tree
    (show splitLast [47, 97] = some ([], [97]) by decide) (show tokens [47, 98] = tokens [] ++ [[98]] by decide) (by decide) (by decide)
  obtain rfl : d = 4096 := leads_nil.mp hd
  have hat' := (hmoved [] [47, 97] [47, 98] a (by decide) (by decide) hat).1
  have hord := (withFile_reached.next (.call renameFile _ _ renameFile_allowed renameFile_made)).inOrder
  refine ⟨⟨fun x hx => ?_, hord.tree.walkable hat'⟩, hnew.trans ?_, a, hat'⟩
  · obtain rfl := List.mem_singleton.mp hx
    decide
  · show (withFile.vol.tree.names 4096).map _ = _
    rw [hnames]
    decide

theorem renameAgain_allowed : (renameFile.after withFile).vol.fs.Allowed renameAgain := by
  obtain ⟨hpath, hnames, -⟩ := renameFile_file
  refine ⟨hpath, [], [98], [], [97], by decide, by decide, by decide, rfl, ⟨by decide, by decide, by simp⟩, by decide,
    fun d hd => Or.inr ?_⟩
  obtain rfl : d = 4096 := leads_nil.mp hd
  show [97] ∉ (renameFile.after withFile).vol.tree.names 4096
  rw [hnames]
  decide

theorem renameAgain_made : renameAgain.run (renameFile.after withFile) = some (answer 0, renameAgain.after (renameFile.after withFile)) := by
  obtain ⟨-, -, a, hat⟩ := renameFile_file
  have hord := (withFile_reached.next (.call renameFile _ _ renameFile_allowed renameFile_made)).inOrder
  obtain ⟨r, hrun, hd⟩ := hord.after renameAgain_allowed
  rwa [hd.sure trivial rfl hat] at hrun

theorem rename_back_small : (renameAgain.after (renameFile.after withFile)).vol.tree = withFile.vol.tree :=
  rename_back withFile_reached (.call _ _ _ renameFile_allowed renameFile_made) (.call _ _ _ renameAgain_allowed renameAgain_made)

/-! ## Listing -/

theorem Does.lists (h : Does f (.readdir path) r f') (ht : Lib.Store.Tree 4096 f.tree) (hat : f.At path a) :
    r = { answer 0 with names := dotName :: dotDotName :: f.tree.names a } := by
  cases h with
  | missing _ p htarget hno => exact absurd (Option.some.inj htarget ▸ hat) (hno a)
  | readdir _ a' hat' _ =>
    obtain rfl := ht.leads_inj hat hat'
    rfl

/-- After "." and ".." come the names that lead on from the directory, each once. -/
theorem readdir_lists (h : Reached s) (hs : Serves s (.call (.readdir path) r) s') (hat : s.vol.fs.At path a) :
    ∃ names : List (List UInt8), r = { answer 0 with names := dotName :: dotDotName :: names } ∧ names.Nodup ∧
      ∀ p x, tokens p = tokens path ++ [x] → (x ∈ names ↔ ∃ e, s.vol.fs.At p e) := by
  have ht := h.inOrder.tree
  obtain ⟨-, hsee, -⟩ := h.inOrder.step hs
  refine ⟨s.vol.tree.names a, hsee.call_inv.lists ht hat, ht.names a, fun p x hp => ⟨fun hx => ?_, fun ⟨e, he⟩ => ?_⟩⟩
  · obtain ⟨w, hw, rfl⟩ := List.mem_map.mp hx
    refine ⟨w.2, ?_⟩
    rw [Fs.At, hp]
    exact Leads.append hat (leads_single.mpr hw)
  · rw [Fs.At, hp] at he
    obtain ⟨a', ha', hx⟩ := leads_append.mp he
    obtain rfl := ht.leads_inj hat ha'
    exact List.mem_map_of_mem (f := Prod.fst) (leads_single.mp hx)

theorem readdir_lists_small : ∃ r, ∃ names : List (List UInt8), r = { answer 0 with names := dotName :: dotDotName :: names } ∧
    names.Nodup ∧ ∀ p x, tokens p = tokens [47] ++ [x] → (x ∈ names ↔ ∃ e, withFile.vol.fs.At p e) := by
  have hi := withFile_reached.inOrder
  have hc : withFile.vol.fs.Allowed (.readdir [47]) := ⟨⟨fun x hx => (by cases hx), hi.tree.walkable .here⟩, fun a ha => by
    obtain rfl : a = 4096 := leads_nil.mp ha
    exact hi.tree.root⟩
  obtain ⟨r, hrun, -⟩ := hi.after hc
  exact ⟨r, readdir_lists withFile_reached (.call _ r _ hc hrun) .here⟩

/-! ## Inode numbers -/

theorem Does.ino (h : Does f (.getattr path) r f') {st : Stat} (hst : r.stat = some st) :
    ∃ a, f.At path a ∧ st.ino = (a - 4096) / 256 := by
  cases h with
  | missing => cases hst
  | getattr _ a o st' hat _ hd =>
    obtain rfl := Option.some.inj hst
    exact ⟨a, hat, hd.ino⟩

/-- Different paths have different inode numbers. -/
theorem ino_inj {st st' : Stat} (h : Reached s) (hs : Serves s (.call (.getattr path) r) s') (hs' : Serves s (.call (.getattr path') r') s'')
    (hst : r.stat = some st) (hst' : r'.stat = some st') (hino : st.ino = st'.ino) : tokens path = tokens path' := by
  obtain ⟨a, hat, ha⟩ := (h.inOrder.step hs).2.1.call_inv.ino hst
  obtain ⟨b, hbt, hb⟩ := (h.inOrder.step hs').2.1.call_inv.ino hst'
  have ht := h.inOrder.tree
  obtain ⟨hh, own, ps, hk⟩ := h.inOrder
  have hsa := (hk.used.mp (ht.used hat)).1
  have hsb := (hk.used.mp (ht.used hbt)).1
  have := hsa.low
  have := hsa.aligned
  have := hsb.low
  have := hsb.aligned
  obtain rfl : a = b := by omega
  exact ht.path_inj hat hbt

theorem ino_inj_small : tokens [47, 97] = tokens [47, 47, 97] := by
  have hi := withFile_reached.inOrder
  obtain ⟨hpath, -, a, hat, ha⟩ := withFile_file
  obtain ⟨r, hrun, hd⟩ := hi.after (c := .getattr [47, 97]) hpath
  obtain ⟨r', hrun', hd'⟩ := hi.after (c := .getattr [47, 47, 97]) ⟨hpath.plain, hpath.walkable⟩
  obtain ⟨st, rfl, hst⟩ := hd.stat hi.tree hat ha
  obtain ⟨st', rfl, hst'⟩ := hd'.stat hi.tree hat ha
  exact ino_inj withFile_reached (.call _ _ _ hpath hrun) (.call _ _ _ ⟨hpath.plain, hpath.walkable⟩ hrun') rfl rfl
    (hst.ino.trans hst'.ino.symm)

/-! ## Failures -/

theorem Does.fails (h : Does f c r f') : (r.status < 0 → f'.tree = f.tree ∧ (r.status = -1 ∨ r.status = -2)) ∧
    (r.status = -2 ↔ ∃ p, c.target = some p ∧ ∀ a, ¬ f.At p a) := by
  have hfound : ∀ {p : List UInt8} {a : Nat} {r : Reply} {t : FileTree}, c.target = some p → f.At p a →
      0 ≤ r.status ∨ r.status = -1 ∧ t = f.tree →
      (r.status < 0 → t = f.tree ∧ (r.status = -1 ∨ r.status = -2)) ∧
        (r.status = -2 ↔ ∃ p, c.target = some p ∧ ∀ a, ¬ f.At p a) := by
    intro p a r t hp hat hr
    refine ⟨fun hneg => ?_, iff_of_false (by omega) fun hmiss => ?_⟩
    · rcases hr with hr | ⟨hr, ht⟩
      · omega
      · exact ⟨ht, Or.inl hr⟩
    · obtain ⟨q, hq, hno⟩ := hmiss
      obtain rfl := Option.some.inj (hp.symm.trans hq)
      exact hno a hat
  have hdown : ∀ {path before x : List UInt8} {d e : Nat}, splitLast path = some (before, x) → x ≠ [] → f.At before d →
      (x, e) ∈ f.tree.entries d → f.At path e := fun hl hx0 hd hx => by
    rw [Fs.At, tokens_splitLast hl hx0]
    exact Leads.append hd (leads_single.mpr hx)
  have hsplit : ∀ {path before name : List UInt8}, splitLast path = some (before, name) → (splitLast path).map Prod.fst = some before :=
    fun hl => by rw [hl]; rfl
  cases h with
  | missing c p hp hno => exact ⟨fun _ => ⟨rfl, Or.inr rfl⟩, iff_of_true rfl ⟨p, hp, hno⟩⟩
  | getattr p a o st hat | readdir p a hat | utime p actime modtime a hat => exact hfound rfl hat (Or.inl (Int.le_refl 0))
  | chmod p m a w b hat | chown p owner group a w b hat => exact hfound rfl hat (Or.inl (Int.le_refl 0))
  | truncate p length a w bs hat => exact hfound rfl hat (Or.inl (Int.le_refl 0))
  | openFile p flags a o hat =>
    apply hfound rfl hat
    split
    · exact Or.inl (Int.le_refl 0)
    · exact Or.inr ⟨rfl, rfl⟩
  | read p buff size offset a w bs hat => exact hfound rfl hat (Or.inl (Int.natCast_nonneg _))
  | write p data offset a w bs k hat => exact hfound rfl hat (Or.inl (Int.natCast_nonneg _))
  | readEnd p buff size offset a w bs hat => exact hfound rfl hat (Or.inr ⟨rfl, rfl⟩)
  | mknod p before name m d a hl hd => exact hfound (hsplit hl) hd (Or.inl (Int.le_refl 0))
  | mkdir p before name m d a hl hd => exact hfound (hsplit hl) hd (Or.inl (Int.le_refl 0))
  | mknodFull p before name m d hl hd => exact hfound (hsplit hl) hd (Or.inr ⟨rfl, rfl⟩)
  | mkdirFull p before name m d hl hd => exact hfound (hsplit hl) hd (Or.inr ⟨rfl, rfl⟩)
  | unlink p before x d e es hl hx0 hd _ hperm =>
    exact hfound rfl (hdown hl hx0 hd (hperm.mem_iff.mpr List.mem_cons_self)) (Or.inl (Int.le_refl 0))
  | rename p newName before x before' y d e hl hx0 _ hd hx => exact hfound rfl (hdown hl hx0 hd hx) (Or.inl (Int.le_refl 0))
  | flush =>
    refine ⟨fun hneg => absurd hneg (by decide), iff_of_false (by decide) fun hmiss => ?_⟩
    obtain ⟨q, hq, -⟩ := hmiss
    cases hq

/-- A call that fails changes no name and no byte; -2 says that the path is not there,
    and is said whenever it is not. Six calls fail on nothing that is there. -/
theorem failures (h : Reached s) (hs : Serves s (.call c r) s') :
    (r.status < 0 → s'.vol.tree = s.vol.tree ∧ (r.status = -1 ∨ r.status = -2)) ∧
      (r.status = -2 ↔ ∃ p, c.target = some p ∧ ∀ a, ¬ s.vol.fs.At p a) ∧
      (c.Sure → ∀ p a, c.target = some p → s.vol.fs.At p a → r = answer 0) := by
  have hd := (h.inOrder.step hs).2.1.call_inv
  exact ⟨hd.fails.1, hd.fails.2, fun hc p a hp hat => hd.sure hc hp hat⟩

theorem failures_small : ∃ (r : Reply) (s' : Sys), (r.status < 0 → s'.vol.tree = withFile.vol.tree ∧ (r.status = -1 ∨ r.status = -2)) ∧
    (r.status = -2 ↔ ∃ p, dropFile.target = some p ∧ ∀ a, ¬ withFile.vol.fs.At p a) ∧
    (dropFile.Sure → ∀ p a, dropFile.target = some p → withFile.vol.fs.At p a → r = answer 0) :=
  ⟨_, _, failures withFile_reached (.call dropFile _ _ dropFile_allowed dropFile_made)⟩

end TyrantFS

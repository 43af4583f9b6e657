/-
  TyrantFS.Fuse.Search — `find_path_node` against the walk over the directories, and what
  it does to the disk.

  `treeWalk` is the reference: component by component, the first entry with that name
  and an inode. As long as the code's searches end within the direct blocks it finds the
  same inode (`findPathNode_walks`) and only reads (`findPathNode_leaves`). Where the
  last one does not, the disk is another one afterwards.
-/
import TyrantFS.Help.Stage
import TyrantFS.Fuse.Crowd

namespace TyrantFS

open Lib Lib.PageTree

variable {z : Zone} {v : Vol} {own : Nat → Option Pos} {ps : List Nat} {a c d e : Nat} {m : Mem} {n : Node}
  {path name : List UInt8} {names rest : List (List UInt8)} {s : Sys}

/-! ## The reference -/

/-- What the entries of the inode at `a`, in the order of its blocks, have under a name:
    the first address that is not 0. -/
def treeStep (m : Mem) (a : Nat) (name : List UInt8) : Nat :=
  (((List.range (16 * (nodeAt m a).blocks)).map fun e =>
    if nameOf m (nodeAt m a) e = name then childOf m (nodeAt m a) e else 0).find? (· ≠ 0)).getD 0

/-- The walk from the inode at `a`, 0 once a step finds nothing. -/
def treeWalk (m : Mem) (a : Nat) (names : List (List UInt8)) : Nat :=
  names.foldl (fun a name => if a = 0 then 0 else treeStep m a name) a

theorem treeWalk_zero : treeWalk m 0 names = 0 := by
  induction names with
  | nil => rfl
  | cons name rest ih => exact ih

theorem treeWalk_cons (ha : a ≠ 0) : treeWalk m a (name :: rest) = treeWalk m (treeStep m a name) rest := by
  rw [treeWalk, List.foldl_cons, if_neg ha]
  rfl

/-- The walk ends at 0 when a step finds nothing, and only then. -/
theorem treeWalk_eq_zero (ha : a ≠ 0) : treeWalk m a names = 0 ↔
    ∃ before name rest, names = before ++ name :: rest ∧ treeWalk m a before ≠ 0 ∧ treeStep m (treeWalk m a before) name = 0 := by
  induction names generalizing a with
  | nil =>
    refine ⟨fun h => absurd h ha, fun ⟨before, name, rest, h, _⟩ => ?_⟩
    simp at h
  | cons x xs ih =>
    rw [treeWalk_cons ha]
    by_cases h0 : treeStep m a x = 0
    · rw [h0, treeWalk_zero]
      exact ⟨fun _ => ⟨[], x, xs, rfl, ha, h0⟩, fun _ => rfl⟩
    · rw [ih h0]
      constructor
      · rintro ⟨before, name, rest, rfl, h1, h2⟩
        exact ⟨x :: before, name, rest, rfl, by rwa [treeWalk_cons ha], by rwa [treeWalk_cons ha]⟩
      · rintro ⟨before, name, rest, h, h1, h2⟩
        cases before with
        | nil =>
          obtain ⟨rfl, rfl⟩ := List.cons.inj h
          exact absurd h2 h0
        | cons y before =>
          obtain ⟨rfl, rfl⟩ := List.cons.inj h
          rw [treeWalk_cons ha] at h1 h2
          exact ⟨before, name, rest, rfl, h1, h2⟩

/-- In a packed directory with different names the step is the lookup. -/
theorem treeStep_eq {K : View} (hn : nodeAt K.vol.bytes a = n) (hp : Packed K n) (hd : NamesDiffer K.vol.bytes n) (hne : name ≠ []) :
    treeStep K.vol.bytes a name = lookup K.vol.bytes n name := by
  have hceil := hp.ceil
  have hused : ∀ e < 16 * n.blocks, nameOf K.vol.bytes n e = name → e < n.size / 256 := by
    intro e he h
    by_contra hc
    rw [hp.name_rest (by omega) (by omega)] at h
    exact hne h.symm
  unfold treeStep
  rw [hn]
  cases hf : ((List.range (16 * n.blocks)).map fun e =>
      if nameOf K.vol.bytes n e = name then childOf K.vol.bytes n e else 0).find? (· ≠ 0) with
  | none =>
    refine (lookup_zero fun e he h => ?_).symm
    have hlt := hp.lt he
    have h0 := List.find?_eq_none.mp hf (childOf K.vol.bytes n e)
      (List.mem_map.mpr ⟨e, List.mem_range.mpr (by omega), if_pos h⟩)
    simpa using h0
  | some c =>
    have h0 : c ≠ 0 := by simpa using List.find?_some hf
    obtain ⟨e, he, hc⟩ := List.mem_map.mp (List.mem_of_find?_eq_some hf)
    split at hc
    · rename_i hname
      rw [lookup_eq hd (hused e (List.mem_range.mp he) hname) hname, hc]
      rfl
    · exact absurd hc.symm h0

/-! ## The code against it -/

/-- Every component but the last leads, where it exists, to a directory. -/
def ThroughDirs (m : Mem) (a : Nat) (names : List (List UInt8)) : Prop :=
  ∀ before name rest, names = before ++ name :: rest → treeWalk m a before ≠ 0 → isDir (nodeAt m (treeWalk m a before)).mode

/-- Every name that is looked up stands in the first twelve blocks, or there are no more. -/
def StaysNear (m : Mem) (a : Nat) (names : List (List UInt8)) : Prop :=
  ∀ before name rest, names = before ++ name :: rest → treeWalk m a before ≠ 0 → Near m (nodeAt m (treeWalk m a before)) name

section
variable (h : Sound z v own ps)

include h

theorem treeStep_lookup (ha : IsSlot z.lo a) (hu : InUse v.bytes a) (hd : isDir (nodeAt v.bytes a).mode) (hne : name ≠ []) :
    treeStep v.bytes a name = lookup v.bytes (nodeAt v.bytes a) name := by
  have hdir := h.dirs a ha hu hd
  exact treeStep_eq (K := .all v) rfl hdir.toPacked hdir.names hne

theorem treeWalk_resolve (ha : IsSlot z.lo a) (hu : InUse v.bytes a) (hne : ∀ x ∈ names, x ≠ []) (hd : ThroughDirs v.bytes a names)
    (hn : StaysNear v.bytes a names) :
    Searches v.bytes a names ∧ (resolve v.bytes a names).getD 0 = treeWalk v.bytes a names := by
  have ha0 : a ≠ 0 := by have := ha.low; omega
  induction names generalizing a with
  | nil => exact ⟨trivial, rfl⟩
  | cons x xs ih =>
    have hdir : isDir (nodeAt v.bytes a).mode := hd [] x xs rfl ha0
    have hstep := treeStep_lookup h ha hu hdir (hne x (by simp))
    rw [treeWalk_cons ha0, hstep, resolve, Searches]
    by_cases h0 : lookup v.bytes (nodeAt v.bytes a) x = 0
    · rw [if_neg fun hc => hc.2 h0, h0, treeWalk_zero]
      exact ⟨⟨hdir, hn [] x xs rfl ha0, fun hc => absurd rfl hc⟩, rfl⟩
    · obtain ⟨h1, h2⟩ := h.lookup ha hu hdir rfl h0
      have hbelow : ∀ before, treeWalk v.bytes a (x :: before) =
          treeWalk v.bytes (lookup v.bytes (nodeAt v.bytes a) x) before := fun before => by rw [treeWalk_cons ha0, hstep]
      obtain ⟨hs, hr⟩ := ih h1 h2 (fun y hy => hne y (by simp [hy]))
        (fun before name rest e hw => by
          subst e
          have := hd (x :: before) name rest rfl (by rwa [hbelow])
          rwa [hbelow] at this)
        (fun before name rest e hw => by
          subst e
          have := hn (x :: before) name rest rfl (by rwa [hbelow])
          rwa [hbelow] at this) (by have := h1.low; omega)
      rw [if_pos ⟨hdir, h0⟩]
      exact ⟨⟨hdir, hn [] x xs rfl ha0, fun _ => hs⟩, hr⟩

end

theorem tokens_ne_nil : ∀ x ∈ tokens path, x ≠ [] := fun x hx => by simpa [tokens] using (List.mem_filter.mp hx).2

/-- Where the searches stay within the direct blocks, `find_path_node` is the walk. -/
theorem findPathNode_walks (h : Sound z s.vol own ps) (hd : ThroughDirs s.vol.bytes s.vol.glob.rootNode (tokens path))
    (hn : StaysNear s.vol.bytes s.vol.glob.rootNode (tokens path)) :
    (findPathNode path s).map Prod.fst = some (treeWalk s.vol.bytes s.vol.glob.rootNode (tokens path)) ∧
      (treeWalk s.vol.bytes s.vol.glob.rootNode (tokens path) = 0 ↔ ∃ before name rest, tokens path = before ++ name :: rest ∧
        treeWalk s.vol.bytes s.vol.glob.rootNode before ≠ 0 ∧
        treeStep s.vol.bytes (treeWalk s.vol.bytes s.vol.glob.rootNode before) name = 0) := by
  obtain ⟨h1, h2, -⟩ := h.root
  obtain ⟨hs, hr⟩ := treeWalk_resolve h h1 h2 tokens_ne_nil hd hn
  obtain ⟨s', e, -⟩ := (findPathNode_runs h hs).exec (holds_all.mpr rfl)
  refine ⟨?_, treeWalk_eq_zero (by have := h1.low; omega)⟩
  rw [e, Option.map_some, hr]

/-! ### The thirteenth block -/

/-- The path to the last entry of the crowded directory. -/
def lastPath : List UInt8 := 47 :: crowdName 207

theorem lastPath_tokens : tokens lastPath = [crowdName 207] := by decide

theorem thirteen_dir : isDir (nodeAt thirteenSys.vol.bytes 4096).mode := by
  rw [thirteen_node]
  show isDir rootMode
  decide

/-- A path of one component. -/
theorem single_prefix {before : List (List UInt8)} {x : List UInt8} (h : [x] = before ++ name :: rest) : before = [] ∧ name = x := by
  cases before with
  | nil => exact ⟨rfl, (List.cons.inj h).1.symm⟩
  | cons y ys =>
    have := congrArg List.length h
    simp at this

theorem thirteen_through {x : List UInt8} : ThroughDirs thirteenSys.vol.bytes 4096 [x] := by
  intro before name rest h _
  obtain ⟨rfl, -⟩ := single_prefix h
  exact thirteen_dir

theorem findPathNode_walks_dot : (findPathNode [47, 46] thirteenSys).map Prod.fst =
    some (treeWalk thirteenSys.vol.bytes 4096 (tokens [47, 46])) := by
  have hn : StaysNear thirteenSys.vol.bytes 4096 (tokens [47, 46]) := by
    intro before name rest h _
    obtain ⟨rfl, rfl⟩ := single_prefix (x := [46]) h
    show Near thirteenSys.vol.bytes (nodeAt thirteenSys.vol.bytes 4096) [46]
    obtain ⟨h1, h2⟩ : nameOf thirteenSys.vol.bytes thirteenRoot 0 = crowdName 0 ∧
        childOf thirteenSys.vol.bytes thirteenRoot 0 = crowdChild 0 := thirteen_crowded.names (by decide)
    rw [thirteen_node]
    exact Or.inr ⟨0, by decide, by decide, h1, by rw [h2]; decide⟩
  have hd : ThroughDirs thirteenSys.vol.bytes 4096 (tokens [47, 46]) := thirteen_through (x := [46])
  exact (findPathNode_walks thirteen_sound hd hn).1

/-- What the walk finds. -/
theorem thirteen_walk : treeWalk thirteenSys.vol.bytes 4096 (tokens lastPath) = crowdChild 207 := by
  obtain ⟨hr1, hr2, -⟩ := thirteen_sound.root
  have hstep : treeStep thirteenSys.vol.bytes 4096 (crowdName 207) =
      lookup thirteenSys.vol.bytes (nodeAt thirteenSys.vol.bytes 4096) (crowdName 207) :=
    treeStep_lookup thirteen_sound hr1 hr2 thirteen_dir crowdName_isName.nonempty
  obtain ⟨h1, h2⟩ : nameOf thirteenSys.vol.bytes thirteenRoot 207 = crowdName 207 ∧
      childOf thirteenSys.vol.bytes thirteenRoot 207 = crowdChild 207 := thirteen_crowded.names (by decide)
  have hlook : lookup thirteenSys.vol.bytes thirteenRoot (crowdName 207) = childOf thirteenSys.vol.bytes thirteenRoot 207 :=
    lookup_eq thirteen_crowded.differ (by rw [thirteen_crowded.entries]; decide) h1
  rw [thirteen_node, hlook, h2] at hstep
  rw [lastPath_tokens, treeWalk_cons (by decide), hstep]
  rfl

section
variable {K : View} {p o : Nat} {f : Mem}

/-- A seek past the end. -/
theorem lseekSet_past (h : K.vol.size < o) : Returns (K.At p) (lseekSet o) () (K.At p) :=
  Returns.modify fun s hs => by
    rw [if_neg (by rw [hs.1.size]; omega)]
    exact hs

/-- A read at the end. -/
theorem sysRead_end {g : Mem} : Returns (K.At K.vol.size) (sysRead g c) (0, g) (K.At K.vol.size) := by
  rintro s ⟨hs, hp⟩
  have h0 : min c (s.vol.size - s.pos) = 0 := by rw [hs.size, hp]; omega
  refine ⟨{ s with pos := s.pos + 0 }, ?_, ⟨hs.env, hs.glob, hs.size, hs.ticks, hs.bytes⟩, hp⟩
  simp only [sysRead, h0]
  rfl

end

/-- What the code finds: it writes the buffer to the index page, reads the name in it as
    the address of a block, and that is not on the disk. -/
theorem thirteen_find : (findPathNode lastPath thirteenSys).map Prod.fst = some 0 := by
  have hname : crowdName 207 ≠ [] := crowdName_isName.nonempty
  have hi : InodeAt ⟨crowdLo 13, 4096 * 28⟩ (.all thirteenSys.vol) thirteenOwn [] 4096 thirteenRoot := by
    have h := thirteen_sound.inode thirteen_sound.root.1 thirteen_sound.root.2.1
    have hroot : nodeAt thirteenSys.vol.bytes thirteenSys.vol.glob.rootNode = thirteenRoot := thirteen_node
    rwa [hroot] at h
  have hno : ∀ e < 192, e < thirteenRoot.size / 256 → nameOf thirteenSys.vol.bytes thirteenRoot e = crowdName 207 →
      childOf thirteenSys.vol.bytes thirteenRoot e = 0 := by
    intro e h1 h2 h3
    by_contra h4
    exact thirteen_far (Or.inr ⟨e, h1, h2, h3, h4⟩)
  obtain ⟨tmp, hrun, hbuf⟩ : ∃ tmp, Runs (.all thirteenSys.vol) (findDirect thirteenRoot (crowdName 207) 12 0 13 zeros) (some (0, 1, tmp))
      (.all thirteenSys.vol) ∧ ∀ k < 4096, tmp k = thirteenSys.vol.bytes (addrOf thirteenSys.vol.bytes thirteenRoot 11 + k) :=
    findDirect_misses hi thirteen_crowded.packed thirteen_crowded.differ hname hno (by decide) (Nat.zero_add 12) (by decide) rfl
  have hword : 4096 * 28 < word tmp 0 := by
    have hletters : ∀ k < 8, tmp (0 + k) = strBuf (crowdName 176) zeros k := by
      intro k hk
      rw [Nat.zero_add, hbuf k (by omega), thirteen_addr (by decide), Nat.add_assoc, thirteenSys, crowd_dir (by omega), dirBlocks,
        show (4096 * 11 + k) / 256 = 176 by omega, show (4096 * 11 + k) % 256 = k by omega]
      show (if k < 248 then strBuf (crowdName 176) zeros k else _) = _
      rw [if_pos (by omega)]
    rw [word, leVal_congr hletters]
    decide +kernel
  have hjunk : checkBlock thirteenSys.vol.env.junk (crowdName 207) = 0 :=
    checkBlock_none fun j _ => by rw [entryName_eq_nil.mpr rfl]; exact hname.symm
  have hstage : Runs (.all thirteenSys.vol) (findIndirect thirteenRoot (crowdName 207) tmp 1) 0
      ((View.all thirteenSys.vol).store thirteenPage 4096 tmp) := by
    have hend : ((View.all thirteenSys.vol).store thirteenPage 4096 tmp).vol.size = thirteenPage + 4096 := rfl
    have hcheck : Returns (((View.all thirteenSys.vol).store thirteenPage 4096 tmp).At (thirteenPage + 4096))
        (checkIndirectBlk tmp (crowdName 207) 1) (0, 0) ((View.all thirteenSys.vol).store thirteenPage 4096 tmp).Holds := by
      rw [← hend]
      refine Returns.bind (Returns.get_bind fun s hs t ht => ⟨s, by subst ht; rw [hs.1.env]; rfl, hs⟩) ?_
      rw [store_env, all_vol]
      show Returns _ (checkLeaves tmp (crowdName 207) (511 + 1) 0 thirteenSys.vol.env.junk 1) _ _
      unfold checkLeaves
      rw [if_neg (by decide)]
      refine (lseekSet_past (K := (View.all thirteenSys.vol).store thirteenPage 4096 tmp) hword).bind (sysRead_end.bind ?_)
      dsimp only
      rw [hjunk, if_neg fun h => h rfl]
      exact (Returns.pure (0, 0)).post fun s hs => hs.1
    unfold findIndirect
    rw [if_neg (by decide)]
    refine Runs.bind (a := (0, 0)) ?_ Runs.pure
    exact (lseekSet_at (K := .all thirteenSys.vol) (by decide)).bind ((sysWrite_at (Nat.le_refl _)).bind hcheck)
  have hloop : Runs (.all thirteenSys.vol) (findPathNode lastPath) 0 ((View.all thirteenSys.vol).store thirteenPage 4096 tmp) := by
    have hfetch : Runs (.all thirteenSys.vol) (fetchInode zeros 4096) thirteenRoot (.all thirteenSys.vol) := by
      have h := fetchInode_runs (K := .all thirteenSys.vol) (f := zeros) (a := 4096) (by decide) (by decide) (View.Sees.all _ _ _)
      rwa [all_vol, thirteen_node] at h
    unfold findPathNode
    refine globals_runs.bind ?_
    rw [if_neg (by decide), lastPath_tokens]
    refine environ_runs.bind (hfetch.bind (Runs.bind hrun (Runs.bind hstage ?_)))
    exact Runs.pure
  obtain ⟨s', e, -⟩ := hloop.exec (holds_all.mpr rfl)
  rw [e]
  rfl

/-- The last entry of thirteen blocks is not found. -/
theorem findPathNode_misses : Sound ⟨crowdLo 13, 4096 * 28⟩ thirteenSys.vol thirteenOwn [] ∧
    ThroughDirs thirteenSys.vol.bytes thirteenSys.vol.glob.rootNode (tokens lastPath) ∧
    treeWalk thirteenSys.vol.bytes thirteenSys.vol.glob.rootNode (tokens lastPath) ≠ 0 ∧
    (findPathNode lastPath thirteenSys).map Prod.fst = some 0 := by
  refine ⟨thirteen_sound, ?_, ?_, thirteen_find⟩
  · rw [lastPath_tokens]
    exact thirteen_through
  · show treeWalk thirteenSys.vol.bytes 4096 (tokens lastPath) ≠ 0
    rw [thirteen_walk]
    decide

/-! ## What a lookup leaves of the disk -/

theorem Sound.stays_cons (h : Sound z v own ps) (ha : IsSlot z.lo a) (hu : InUse v.bytes a) (hd : isDir (nodeAt v.bytes a).mode) (hne : name ≠ [])
    (hnear : Near v.bytes (nodeAt v.bytes a) name) (hrest : TyrantFS.lookup v.bytes (nodeAt v.bytes a) name ≠ 0 →
      StaysDirect v.bytes v.size (TyrantFS.lookup v.bytes (nodeAt v.bytes a) name) rest) : StaysDirect v.bytes v.size a (name :: rest) := by
  have hinode := h.inode ha hu
  have hdir := h.dirs a ha hu hd
  have hslot := h.slot_high ha
  have hsize := h.high
  have hfound : foundIn v.bytes name (searched (nodeAt v.bytes a)) = TyrantFS.lookup v.bytes (nodeAt v.bytes a) name :=
    foundIn_near hinode hdir.toPacked hdir.names hne hnear
  refine ⟨by omega, fun b hb => ?_, endsDirect_near hinode hdir.toPacked hdir.names hne hnear, ?_⟩
  · obtain ⟨-, -, -, -, hin⟩ := searched_inside hinode hb
    exact hin
  · rw [hfound]
    exact hrest

theorem Sound.stays (h : Sound z v own ps) (ha : IsSlot z.lo a) (hu : InUse v.bytes a) (hs : Searches v.bytes a names)
    (hne : ∀ x ∈ names, x ≠ []) : StaysDirect v.bytes v.size a names := by
  induction names generalizing a with
  | nil => trivial
  | cons x xs ih =>
    obtain ⟨hd, hnear, hrest⟩ := hs
    refine h.stays_cons ha hu hd (hne _ List.mem_cons_self) hnear fun h0 => ?_
    obtain ⟨h1, h2⟩ := h.lookup ha hu hd rfl h0
    exact ih h1 h2 (hrest h0) fun y hy => hne y (List.mem_cons_of_mem _ hy)

section
variable {T : Nat → Sys → Prop} {tmp : Mem}

end

end TyrantFS

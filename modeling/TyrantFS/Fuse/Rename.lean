/-
  TyrantFS.Fuse.Rename — `tfs_rename`.

  The entry that leads to the inode gets the last component of the new path for its
  name; it stays where it is, and what the new path stands for is not looked at. So the
  call moves the name exactly when the new path is in the same directory and its name
  is free there or the old one (`tfsRename_iff`).
-/
import TyrantFS.Help.Renaming
import TyrantFS.Fuse.Unlink
import TyrantFS.Fuse.Crowd

namespace TyrantFS

open Lib Lib.PageTree

variable {z : Zone} {v v' : Vol} {own : Nat → Option Pos} {ps : List Nat} {a par npar cur : Nat} {path new : List UInt8}
  {old name x : List UInt8} {names : List (List UInt8)} {m m' : Mem} {s0 s s' : Sys}

/-- The path of the names from `a` goes through the entry `x` of the directory `d`. -/
def Passes (m : Mem) (a : Nat) (names : List (List UInt8)) (d : Nat) (x : List UInt8) : Prop :=
  ∃ before rest, names = before ++ x :: rest ∧ resolve m a before = some d

theorem Passes.here {rest : List (List UInt8)} : Passes m a (x :: rest) a x := ⟨[], rest, rfl, rfl⟩

theorem Passes.cons {y : List UInt8} {d : Nat} (hd : isDir (nodeAt m a).mode ∧ lookup m (nodeAt m a) y ≠ 0)
    (h : Passes m (lookup m (nodeAt m a) y) names d x) : Passes m a (y :: names) d x := by
  obtain ⟨before, rest, rfl, hr⟩ := h
  refine ⟨y :: before, rest, rfl, ?_⟩
  rw [resolve, if_pos hd]
  exact hr

/-- A path does not go through a name that stands for nothing. -/
theorem Passes.resolve_none {d : Nat} (h : Passes m a names d x) (h0 : lookup m (nodeAt m d) x = 0) : resolve m a names = none := by
  obtain ⟨before, rest, rfl, hr⟩ := h
  rw [resolve_append, hr, Option.bind_some, resolve, if_neg fun hc => hc.2 h0]

/-! ## Paths after the change -/

/-- The entry `old` of the directory `par` is called `name`: what every name in every
    directory stands for, but for these two in `par`, is as before. -/
structure Relabeled (z : Zone) (v v' : Vol) (par : Nat) (old name : List UInt8) : Prop where
  mode : ∀ a, IsSlot z.lo a → InUse v.bytes a → (nodeAt v'.bytes a).mode = (nodeAt v.bytes a).mode
  look : ∀ a, IsSlot z.lo a → InUse v.bytes a → isDir (nodeAt v.bytes a).mode → ∀ x, (a = par → x ≠ old ∧ x ≠ name) →
    lookup v'.bytes (nodeAt v'.bytes a) x = lookup v.bytes (nodeAt v.bytes a) x

section
variable (hr : Relabeled z v v' par old name) (h : Sound z v own ps)

include hr h

theorem Relabeled.resolve (ha : IsSlot z.lo a) (hu : InUse v.bytes a) (h1 : ¬ Passes v.bytes a names par old)
    (h2 : ¬ Passes v.bytes a names par name) : TyrantFS.resolve v'.bytes a names = TyrantFS.resolve v.bytes a names := by
  induction names generalizing a with
  | nil => rfl
  | cons y ys ih =>
    by_cases hd : isDir (nodeAt v.bytes a).mode
    · have hlook := hr.look a ha hu hd y fun e => ⟨fun e' => h1 (by rw [e, e']; exact .here), fun e' => h2 (by rw [e, e']; exact .here)⟩
      rw [TyrantFS.resolve, TyrantFS.resolve, hr.mode a ha hu, hlook]
      split
      · rename_i hc
        obtain ⟨hs, hu'⟩ := h.lookup ha hu hd rfl hc.2
        exact ih hs hu' (fun hp => h1 (hp.cons hc)) fun hp => h2 (hp.cons hc)
      · rfl
    · rw [TyrantFS.resolve, TyrantFS.resolve, hr.mode a ha hu, if_neg fun hc => hd hc.1, if_neg fun hc => hd hc.1]

/-- The paths through the old name lead nowhere. -/
theorem Relabeled.gone (ha : IsSlot z.lo a) (hu : InUse v.bytes a) (hold : lookup v'.bytes (nodeAt v'.bytes par) old = 0)
    (hnew : lookup v.bytes (nodeAt v.bytes par) name = 0) (hp : Passes v.bytes a names par old) :
    TyrantFS.resolve v'.bytes a names = none := by
  induction names generalizing a with
  | nil =>
    obtain ⟨before, rest, e, -⟩ := hp
    simp at e
  | cons y ys ih =>
    rw [TyrantFS.resolve]
    split
    · rename_i hc
      by_cases hy : a = par ∧ (y = old ∨ y = name)
      · obtain ⟨rfl, rfl | rfl⟩ := hy
        · exact absurd hold hc.2
        · -- the path went through a name that was free
          obtain ⟨before, rest, e, hres⟩ := hp
          cases before with
          | nil =>
            obtain ⟨rfl, rfl⟩ := List.cons.inj e
            exact absurd hold hc.2
          | cons y' before =>
            obtain ⟨rfl, rfl⟩ := List.cons.inj e
            rw [TyrantFS.resolve, if_neg fun hc => hc.2 hnew] at hres
            cases hres
      · rw [hr.mode a ha hu] at hc
        have hlook := hr.look a ha hu hc.1 y fun e => ⟨fun e' => hy ⟨e, Or.inl e'⟩, fun e' => hy ⟨e, Or.inr e'⟩⟩
        rw [hlook] at hc ⊢
        obtain ⟨hs, hu'⟩ := h.lookup ha hu hc.1 rfl hc.2
        refine ih hs hu' ?_
        obtain ⟨before, rest, e, hres⟩ := hp
        cases before with
        | nil =>
          obtain ⟨rfl, rfl⟩ := List.cons.inj e
          exact absurd ⟨Option.some.inj hres, Or.inl rfl⟩ hy
        | cons y' before =>
          obtain ⟨rfl, rfl⟩ := List.cons.inj e
          rw [TyrantFS.resolve, if_pos hc] at hres
          exact ⟨before, rest, rfl, hres⟩
    · rfl

end

/-! ## What the code leaves -/

section
variable {e : Nat} (hren : Renamed z par e name (.all v) own ps (nodeAt v.bytes par) (.all v') (nodeAt v'.bytes par))
  (h : Sound z v own ps) (hps : IsSlot z.lo par)

include hren h hps

/-- The other slots of the table are as before. -/
theorem Renamed.slot (ha : IsSlot z.lo a) (hne : a ≠ par) : nodeAt v'.bytes a = nodeAt v.bytes a := by
  have hlow := ha.low
  refine nodeAt_congr fun k hk => hren.confined.slot (by omega) (h.slot_high ha) (fun c hc => ?_) (by omega) (by omega)
  have := (h.beside ha hps (Ne.symm hne)).apart
  rw [hc]
  omega

/-- And so are the blocks of the inodes in them. -/
theorem Renamed.blocks (ha : IsSlot z.lo a) (hu : InUse v.bytes a) (hne : a ≠ par) :
    ∀ i < (nodeAt v.bytes a).blocks,
      addrOf (View.all v').vol.bytes (nodeAt v.bytes a) i = addrOf (View.all v).vol.bytes (nodeAt v.bytes a) i ∧
      ∀ k < 4096, (View.all v').vol.bytes (addrOf (View.all v).vol.bytes (nodeAt v.bytes a) i + k) =
        (View.all v).vol.bytes (addrOf (View.all v).vol.bytes (nodeAt v.bytes a) i + k) :=
  ((h.inode ha hu).other hren.confined hren.inode.space fun _ hc => hc ▸ h.beside ha hps (Ne.symm hne)).2

theorem Renamed.relabeled (hold : nameOf v.bytes (nodeAt v.bytes par) e = old) : Relabeled z v v' par old name := by
  refine ⟨fun a ha hu => ?_, fun a ha hu hd x hx => ?_⟩
  · by_cases hap : a = par
    · subst hap
      exact hren.mode
    · rw [hren.slot h hps ha hap]
  · by_cases hap : a = par
    · subst hap
      obtain ⟨h1, h2⟩ := hx rfl
      refine lookup_filter (congrArg (· / 256) hren.size) (fun f hf => ?_) hren.children
      have hname : nameOf v'.bytes (nodeAt v'.bytes a) f = if f = e then name else nameOf v.bytes (nodeAt v.bytes a) f :=
        hren.names f hf
      rw [hname]
      split
      · rename_i hfe
        subst hfe
        rw [hold]
        exact ⟨fun e => absurd e.symm h2, fun e => absurd e.symm h1⟩
      · exact Iff.rfl
    · rw [hren.slot h hps ha hap]
      exact lookup_kept (hren.blocks h hps ha hu hap) (h.dirs a ha hu hd).toPacked

end

section
variable {e : Nat} {n n' : Node} (hren : Renamed z par e name (.all v) own ps n (.all v') n') (he : e < n.size / 256)

include hren he

theorem Renamed.lookup_new (hd' : NamesDiffer v'.bytes n') : lookup v'.bytes n' name = childOf v.bytes n e := by
  have hname : nameOf v'.bytes n' e = name := (hren.names e he).trans (if_pos rfl)
  rw [lookup_eq hd' (by rwa [hren.size]) hname]
  exact hren.children e he

theorem Renamed.lookup_old (hd : NamesDiffer v.bytes n) (hold : nameOf v.bytes n e = old) (hne : name ≠ old) :
    lookup v'.bytes n' old = 0 := by
  refine lookup_zero fun f hf hname => ?_
  rw [hren.size] at hf
  have hn : nameOf v'.bytes n' f = if f = e then name else nameOf v.bytes n f := hren.names f hf
  rw [hn] at hname
  split at hname
  · exact absurd hname hne
  · rename_i hfe
    exact absurd (hd f e hf he (hname.trans hold.symm)) hfe

/-- The names still differ exactly when no other entry had the new one. -/
theorem Renamed.differ_iff (hd : NamesDiffer v.bytes n) :
    NamesDiffer v'.bytes n' ↔ ∀ f < n.size / 256, nameOf v.bytes n f = name → f = e := by
  have hn : ∀ f < n.size / 256, nameOf v'.bytes n' f = if f = e then name else nameOf v.bytes n f := hren.names
  constructor
  · intro hd' f hf hname
    by_contra hne
    refine hne (hd' f e (by rwa [hren.size]) (by rwa [hren.size]) ?_)
    rw [hn f hf, hn e he, if_neg hne, if_pos rfl, hname]
  · intro hfree f g hf hg hfg
    rw [hren.size] at hf hg
    rw [hn f hf, hn g hg] at hfg
    by_cases hfe : f = e
    · by_cases hge : g = e
      · rw [hfe, hge]
      · rw [if_pos hfe, if_neg hge] at hfg
        exact absurd (hfree g hg hfg.symm) hge
    · by_cases hge : g = e
      · rw [if_neg hfe, if_pos hge] at hfg
        exact absurd (hfree f hf hfg) hfe
      · rw [if_neg hfe, if_neg hge] at hfg
        exact hd f g hf hg hfg

end

/-! ## The call -/

/-- What the two paths of a call stand for. The only entry of `par` that leads to `cur` is
    `old`, the new path does not lead through it, and what the new path stands for, if
    anything, is another inode. -/
structure RenamePaths (v : Vol) (path new : List UInt8) (par cur : Nat) (old : List UInt8) (npar : Nat) (name : List UInt8) : Prop where
  source : ∃ before, splitLast path = some (before, old) ∧ resolve v.bytes v.glob.rootNode (tokens before) = some par
  found : resolve v.bytes v.glob.rootNode (tokens path) = some cur
  nonempty : old ≠ []
  once : ∀ f < (nodeAt v.bytes par).size / 256, childOf v.bytes (nodeAt v.bytes par) f = cur →
    nameOf v.bytes (nodeAt v.bytes par) f = old
  target : ∃ before, splitLast new = some (before, name) ∧ resolve v.bytes v.glob.rootNode (tokens before) = some npar ∧
    ¬ Passes v.bytes v.glob.rootNode (tokens before) par old
  isName : IsName name
  dir : isDir (nodeAt v.bytes npar).mode
  other : lookup v.bytes (nodeAt v.bytes npar) name = cur → npar = par ∧ name = old

/-- What a rename should leave. -/
structure Moves (z : Zone) (v v' : Vol) (path new : List UInt8) (par cur : Nat) (old : List UInt8) (npar : Nat)
    (name : List UInt8) : Prop where
  found : resolve v'.bytes v'.glob.rootNode (tokens new) = some cur
  gone : ¬ (npar = par ∧ name = old) → resolve v'.bytes v'.glob.rootNode (tokens path) = none
  names : ∀ a, IsSlot z.lo a → InUse v'.bytes a → isDir (nodeAt v'.bytes a).mode → NamesDiffer v'.bytes (nodeAt v'.bytes a)
  others : ∀ names, ¬ Passes v.bytes v.glob.rootNode names par old → ¬ Passes v.bytes v.glob.rootNode names npar name →
    resolve v'.bytes v'.glob.rootNode names = resolve v.bytes v.glob.rootNode names

section
variable (hq : RenamePaths v path new par cur old npar name)

include hq

theorem RenamePaths.parent : isDir (nodeAt v.bytes par).mode ∧ lookup v.bytes (nodeAt v.bytes par) old = cur ∧ cur ≠ 0 ∧
    Passes v.bytes v.glob.rootNode (tokens path) par old := by
  obtain ⟨before, hl, hr⟩ := hq.source
  obtain ⟨p, hp, hd, hc, h0⟩ := resolve_parent hq.nonempty hl hq.found
  obtain rfl : par = p := Option.some.inj (hr.symm.trans hp)
  exact ⟨hd, hc, h0, tokens before, [], tokens_splitLast hl hq.nonempty, hr⟩

variable {e : Nat} (hren : Renamed z par e name (.all v) own ps (nodeAt v.bytes par) (.all v') (nodeAt v'.bytes par))
  (h : Sound z v own ps) (he : e < (nodeAt v.bytes par).size / 256) (hchild : childOf v.bytes (nodeAt v.bytes par) e = cur)

include hren h he hchild

/-- The new name goes to the right place, and is unique there, exactly when the place is
    the old one and no other entry has the name. -/
theorem RenamePaths.moves_iff : Moves z v v' path new par cur old npar name ↔
    npar = par ∧ (name = old ∨ ∀ f < (nodeAt v.bytes par).size / 256, nameOf v.bytes (nodeAt v.bytes par) f ≠ name) := by
  obtain ⟨hpd, hlook, hc0, hpass⟩ := hq.parent
  obtain ⟨before, hsplit, hnpar, hout⟩ := hq.target
  obtain ⟨before', -, hpar⟩ := hq.source
  obtain ⟨hr1, hr2, -⟩ := h.root
  obtain ⟨hps, hpu⟩ := h.resolve hr1 hr2 hpar
  obtain ⟨hns, hnu⟩ := h.resolve hr1 hr2 hnpar
  have hold := hq.once e he hchild
  have hglob : v'.glob = v.glob := hren.confined.keeps.glob
  have hdiffer := (h.dirs par hps hpu hpd).names
  have hrel := hren.relabeled h hps hold
  have hmode : (nodeAt v'.bytes npar).mode = (nodeAt v.bytes npar).mode := hrel.mode npar hns hnu
  -- where no other entry has the new name, its directory is found as before
  have hbefore : (name = old ∨ ∀ f < (nodeAt v.bytes par).size / 256, nameOf v.bytes (nodeAt v.bytes par) f ≠ name) →
      resolve v'.bytes v.glob.rootNode (tokens before) = some npar := by
    intro hfree
    rw [hrel.resolve h hr1 hr2 hout fun hp => ?_, hnpar]
    rcases hfree with rfl | hfree
    · exact hout hp
    · have := hp.resolve_none (lookup_zero fun f hf hname => absurd hname (hfree f hf))
      rw [this] at hnpar
      cases hnpar
  have hlast : ∀ c, resolve v'.bytes npar [name] = some c ↔ lookup v'.bytes (nodeAt v'.bytes npar) name = c ∧ c ≠ 0 := by
    intro c
    rw [resolve, hmode]
    by_cases h0 : lookup v'.bytes (nodeAt v'.bytes npar) name = 0
    · rw [if_neg fun hc => hc.2 h0, h0]
      simp only [reduceCtorEq, false_iff, not_and_not_right]
      exact fun e => e.symm
    · rw [if_pos ⟨hq.dir, h0⟩, resolve, Option.some.injEq]
      exact ⟨fun e => ⟨e, e ▸ h0⟩, fun e => e.1⟩
  have htokens := tokens_splitLast hsplit hq.isName.nonempty
  constructor
  · intro hm
    have hfree : name = old ∨ ∀ f < (nodeAt v.bytes par).size / 256, nameOf v.bytes (nodeAt v.bytes par) f ≠ name := by
      have hd' := hm.names par hps (by unfold InUse; rw [hrel.mode par hps hpu]; exact hpu) (by rw [hrel.mode par hps hpu]; exact hpd)
      by_contra hc
      push Not at hc
      obtain ⟨hne, f, hf, hname⟩ := hc
      have hfe := (hren.differ_iff he hdiffer).mp hd' f hf hname
      exact hne (hname.symm.trans (hfe ▸ hold))
    refine ⟨?_, hfree⟩
    by_contra hne
    have hfound := hm.found
    rw [hglob, htokens, resolve_append, hbefore hfree, Option.bind_some, hlast, hrel.look npar hns hnu hq.dir name fun e => absurd e hne]
      at hfound
    exact hne (hq.other hfound.1).1
  · rintro ⟨rfl, hfree⟩
    have hd' : NamesDiffer v'.bytes (nodeAt v'.bytes npar) := by
      refine (hren.differ_iff he hdiffer).mpr fun f hf hname => ?_
      rcases hfree with rfl | hfree
      · exact hdiffer f e hf he (hname.trans hold.symm)
      · exact absurd hname (hfree f hf)
    refine ⟨?_, fun hne => ?_, fun a ha hu hd => ?_, fun names h1 h2 => ?_⟩
    · rw [hglob, htokens, resolve_append, hbefore hfree, Option.bind_some, hlast]
      exact ⟨(hren.lookup_new he hd').trans hchild, hc0⟩
    · have hne' : name ≠ old := fun e => hne ⟨rfl, e⟩
      rw [hglob]
      exact hrel.gone h hr1 hr2 (hren.lookup_old he hdiffer hold hne')
        (lookup_zero fun f hf hname => absurd hname (hfree.resolve_left hne' f hf)) hpass
    · by_cases hap : a = npar
      · rw [hap]
        exact hd'
      · rw [hren.slot h hps ha hap] at hd ⊢
        have hu' : InUse v.bytes a := by
          unfold InUse at hu ⊢
          rwa [hren.slot h hps ha hap] at hu
        have hda := h.dirs a ha hu' hd
        exact NamesDiffer.kept (hren.blocks h hps ha hu' hap) hda.toPacked hda.names
    · rw [hglob]
      exact hrel.resolve h hr1 hr2 h1 h2

end

theorem Found.rename (h : Found path s0 par cur s) (hc : cur ≠ 0) (hp : par ≠ 0) {before : List UInt8}
    (hl : splitLast new = some (before, name)) : tfsRename path new s0 = renameFromParent par cur name s := by
  obtain ⟨b, x, s1, m, s2, hs, h1, h2, h3⟩ := h.lookups
  unfold tfsRename
  rw [bind_eq h1, if_neg hc, bind_eq h2, if_neg h.root, hs]
  simp only
  rw [bind_eq h3, if_neg hp, hl]

/-- The entry gets the name, unless no entry in reach leads to the inode. -/
theorem tfsRename_cases (h : Sound z s.vol own ps) (hq : RenamePaths s.vol path new par cur old npar name)
    (hf : Found path s0 par cur s) :
    (∀ f < (nodeAt s.vol.bytes par).size / 256, Seen f → childOf s.vol.bytes (nodeAt s.vol.bytes par) f ≠ cur) ∧
        (∃ s', tfsRename path new s0 = some (-1, s')) ∨
      ∃ s' e, tfsRename path new s0 = some (0, s') ∧ e < (nodeAt s.vol.bytes par).size / 256 ∧
        childOf s.vol.bytes (nodeAt s.vol.bytes par) e = cur ∧ Renamed z par e name (.all s.vol) own ps (nodeAt s.vol.bytes par)
          (.all s'.vol) (nodeAt s'.vol.bytes par) := by
  obtain ⟨hpd, -, hc0, -⟩ := hq.parent
  obtain ⟨before, hsplit, -⟩ := hq.target
  obtain ⟨before', -, hpar⟩ := hq.source
  obtain ⟨hps, hpu⟩ := h.resolve h.root.1 h.root.2.1 hpar
  have hlow := hps.low
  rw [hf.rename hc0 (by omega) hsplit]
  rcases renameFromParent_cases (h.inode hps hpu) (h.dirs par hps hpu hpd).toPacked hc0 hq.isName with
    ⟨hno, hr⟩ | ⟨e, K', n', he, hchild, hr, hren⟩
  · obtain ⟨s1, e1, -⟩ := hr.exec (holds_all.mpr rfl)
    exact Or.inl ⟨hno, s1, e1⟩
  · obtain ⟨s1, e1, hK⟩ := hr.exec (holds_all.mpr rfl)
    obtain rfl := hren.confined.keeps.all hK
    obtain rfl := hren.inode.node
    exact Or.inr ⟨s1, e, e1, he, hchild, hren⟩

/-- A call that returns 0 moves the name exactly within its directory, to a name that is
    free or the old one. `s` is the state the lookups of the path leave. -/
theorem tfsRename_iff (h : Sound z s.vol own ps) (hq : RenamePaths s.vol path new par cur old npar name)
    (hf : Found path s0 par cur s) (hret : tfsRename path new s0 = some (0, s')) :
    Moves z s.vol s'.vol path new par cur old npar name ↔
      npar = par ∧ (name = old ∨
        ∀ f < (nodeAt s.vol.bytes par).size / 256, nameOf s.vol.bytes (nodeAt s.vol.bytes par) f ≠ name) := by
  rcases tfsRename_cases h hq hf with ⟨-, s1, e1⟩ | ⟨s1, e, e1, he, hchild, hren⟩
  · rw [e1] at hret
    cases hret
  · rw [e1] at hret
    obtain rfl := (Prod.mk.inj (Option.some.inj hret)).2
    exact hq.moves_iff hren h he hchild

/-! ### A directory of sixteen entries -/

def smallRoot : Node := plainNode rootMode (256 * (16 * 1)) 1 (crowdLo 1) 1

def smallSys : Sys := crowdSys 1 3 (by decide) 0 smallRoot zeros

theorem small_crowded : Crowded 1 smallSys.vol.bytes smallRoot := by
  refine ⟨by decide, by decide, rfl, rfl, rfl, plainNode_fits (by decide) (by decide) (by decide) (by decide) (by decide),
    fun i hi => ?_⟩
  rw [addrOf_direct (by omega)]
  exact plainNode_direct (by omega) hi

theorem small_sound : Sound ⟨crowdLo 1, 4096 * 3⟩ smallSys.vol (fileOwn 0) [] := by
  refine crowd_sound small_crowded ?_ (plainNode_maps (by decide) fun i hi => ?_)
  · exact Space.full (crowd_super (by decide)) (by decide) (Nat.le_refl _) (by decide) (by decide) (fileOwn_has (Nat.le_refl 3))
  · obtain rfl : i = 0 := by omega
    rfl

theorem small_node : nodeAt smallSys.vol.bytes 4096 = smallRoot := crowd_root (by decide) small_crowded.fits

/-- The path to its third entry. -/
def thirdPath : List UInt8 := 47 :: crowdName 2

theorem small_third : lookup smallSys.vol.bytes smallRoot (crowdName 2) = 4352 := by
  obtain ⟨h1, h2⟩ : nameOf smallSys.vol.bytes smallRoot 2 = crowdName 2 ∧ childOf smallSys.vol.bytes smallRoot 2 = crowdChild 2 :=
    small_crowded.names (by decide)
  exact (lookup_eq small_crowded.differ (by rw [small_crowded.entries]; decide) h1).trans h2

theorem small_entry {f : Nat} (hf : f < smallRoot.size / 256) (h : childOf smallSys.vol.bytes smallRoot f = 4352) :
    nameOf smallSys.vol.bytes smallRoot f = crowdName 2 := by
  rw [small_crowded.entries] at hf
  obtain ⟨h1, h2⟩ : nameOf smallSys.vol.bytes smallRoot f = crowdName f ∧ childOf smallSys.vol.bytes smallRoot f = crowdChild f :=
    small_crowded.names hf
  rw [h2, crowdChild] at h
  obtain rfl : f = 2 := by
    split at h <;> omega
  exact h1

theorem small_dir : isDir smallRoot.mode := by show isDir rootMode; decide

theorem small_resolve : resolve smallSys.vol.bytes 4096 (tokens thirdPath) = some 4352 ∧
    Searches smallSys.vol.bytes 4096 (tokens thirdPath) := by
  have ht : tokens thirdPath = [crowdName 2] := by decide
  rw [ht, resolve, Searches, small_node, small_third]
  exact ⟨if_pos ⟨small_dir, by decide⟩, small_dir, Or.inl (by decide), fun _ => trivial⟩

theorem small_paths (hn : IsName name) (hl : splitLast (47 :: name) = some ([], name)) :
    RenamePaths smallSys.vol thirdPath (47 :: name) 4096 4352 (crowdName 2) 4096 name where
  source := ⟨[], by decide, rfl⟩
  found := small_resolve.1
  nonempty := crowdName_isName.nonempty
  once := by
    rw [small_node]
    exact fun f => small_entry
  target := by
    refine ⟨[], hl, rfl, ?_⟩
    rintro ⟨before, rest, h, -⟩
    have := congrArg List.length h
    simp [tokens, splitSlash] at this
  isName := hn
  dir := by
    rw [small_node]
    exact small_dir
  other := by
    rw [small_node]
    intro h
    obtain ⟨f, hf, h1, h2⟩ := lookup_ne_zero (by rw [h]; decide)
    exact ⟨rfl, h1.symm.trans (small_entry hf (h2.trans h))⟩

/-- The call on it. -/
theorem small_renames (hn : IsName name) (hl : splitLast (47 :: name) = some ([], name)) : ∃ s s', s.vol = smallSys.vol ∧
    Found thirdPath smallSys 4096 4352 s ∧ tfsRename thirdPath (47 :: name) smallSys = some (0, s') ∧
    ∃ e < (nodeAt smallSys.vol.bytes 4096).size / 256, childOf smallSys.vol.bytes (nodeAt smallSys.vol.bytes 4096) e = 4352 ∧
      Renamed ⟨crowdLo 1, 4096 * 3⟩ 4096 e name (.all smallSys.vol) (fileOwn 0) [] (nodeAt smallSys.vol.bytes 4096)
        (.all s'.vol) (nodeAt s'.vol.bytes 4096) := by
  obtain ⟨par, s, hsv, hfound, hpar, -⟩ : ∃ par s, s.vol = smallSys.vol ∧ Found thirdPath smallSys par 4352 s ∧ _ :=
    Found.of_searches small_sound (by decide) (show splitLast thirdPath = some ([], crowdName 2) by decide)
      crowdName_isName.nonempty small_resolve.1 small_resolve.2
  obtain rfl : 4096 = par := Option.some.inj hpar
  obtain ⟨-, h2⟩ : _ ∧ childOf smallSys.vol.bytes smallRoot 2 = crowdChild 2 := small_crowded.names (by decide)
  have hcases := tfsRename_cases (hsv ▸ small_sound) (hsv ▸ small_paths hn hl) hfound
  rw [hsv] at hcases
  rcases hcases with ⟨hno, -⟩ | ⟨s', e, hret, he, hchild, hren⟩
  · rw [small_node] at hno
    exact absurd h2 (hno 2 (by rw [small_crowded.entries]; decide) (by decide))
  · exact ⟨s, s', hsv, hfound, hret, e, he, hchild, hren⟩

/-- To a name that is free. -/
theorem tfsRename_free : ∃ s s', s.vol = smallSys.vol ∧ Found thirdPath smallSys 4096 4352 s ∧
    tfsRename thirdPath [47, 120] smallSys = some (0, s') ∧
    Moves ⟨crowdLo 1, 4096 * 3⟩ smallSys.vol s'.vol thirdPath [47, 120] 4096 4352 (crowdName 2) 4096 [120] := by
  have hn : IsName [120] := ⟨by decide, by decide, by simp⟩
  obtain ⟨s, s', hsv, hfound, hret, -⟩ := small_renames hn rfl
  have hmoves := tfsRename_iff (hsv ▸ small_sound) (hsv ▸ small_paths hn rfl) hfound hret
  rw [hsv, small_node] at hmoves
  refine ⟨s, s', hsv, hfound, hret, hmoves.mpr ⟨rfl, Or.inr fun f hf h => ?_⟩⟩
  rw [small_crowded.entries] at hf
  obtain ⟨h1, -⟩ : nameOf smallSys.vol.bytes smallRoot f = crowdName f ∧ _ := small_crowded.names hf
  rw [h1] at h
  have hnames : ∀ f < 16 * 1, crowdName f ≠ [120] := by decide
  exact hnames f hf h

/-- To the name of the fourth entry: two entries have it afterwards. -/
theorem tfsRename_taken : Sound ⟨crowdLo 1, 4096 * 3⟩ smallSys.vol (fileOwn 0) [] ∧
    RenamePaths smallSys.vol thirdPath (47 :: crowdName 3) 4096 4352 (crowdName 2) 4096 (crowdName 3) ∧
    ∃ s s', s.vol = smallSys.vol ∧ Found thirdPath smallSys 4096 4352 s ∧
      tfsRename thirdPath (47 :: crowdName 3) smallSys = some (0, s') ∧
      ¬ Moves ⟨crowdLo 1, 4096 * 3⟩ smallSys.vol s'.vol thirdPath (47 :: crowdName 3) 4096 4352 (crowdName 2) 4096 (crowdName 3) := by
  have hl : splitLast (47 :: crowdName 3) = some ([], crowdName 3) := by decide
  have hpaths := small_paths crowdName_isName hl
  obtain ⟨s, s', hsv, hfound, hret, e, he, hchild, hren⟩ := small_renames crowdName_isName hl
  refine ⟨small_sound, hpaths, s, s', hsv, hfound, hret, fun hm => ?_⟩
  have hiff := hpaths.moves_iff hren small_sound he hchild
  rw [small_node] at hiff
  rcases (hiff.mp hm).2 with h | h
  · exact absurd h (by decide)
  · obtain ⟨h1, -⟩ : nameOf smallSys.vol.bytes smallRoot 3 = crowdName 3 ∧ _ := small_crowded.names (by decide)
    exact h 3 (by rw [small_crowded.entries]; decide) h1

end TyrantFS

/-
  TyrantFS.Fuse.Create — `tfs_mkdir` and `tfs_mknod`, when they fail.

  Whatever a call had taken before it failed goes back, but for index pages of the parent
  (`NoTrace`). One page is lost where there is no slot to enter it: behind the last slot
  of the third tree, of a directory with as many blocks as the map can hold
  (`create_noTrace_iff`).
-/
import TyrantFS.Help.Refusal
import TyrantFS.Help.Largest
import TyrantFS.Fuse.Crowd

namespace TyrantFS

open Lib Lib.PageTree

variable {z : Zone} {K2 K3 : View} {v v' : Vol} {own own3 own5 : Nat → Option Pos} {ps ps2 ps3 ps5 L R : List Nat}
  {a c p q : Nat} {n n3 : Node} {s s' : Sys} {path before name : List UInt8} {m : UInt32} {r : Int}

/-- The inodes, their blocks and the free blocks are what they were, but for index pages
    that hang from the inode at `p` now. -/
structure NoTrace (z : Zone) (p : Nat) (v : Vol) (ps : List Nat) (v' : Vol) : Prop where
  used : ∀ a, IsSlot z.lo a → (InUse v'.bytes a ↔ InUse v.bytes a)
  others : ∀ a, IsSlot z.lo a → InUse v.bytes a → a ≠ p → nodeAt v'.bytes a = nodeAt v.bytes a
  /-- All the fields of the parent but the roots of its map. -/
  parent : ∀ a, IsSlot z.lo a → InUse v.bytes a → nodeAt v'.bytes a = (nodeAt v.bytes a).withMap (nodeAt v'.bytes a) ∧
    (nodeAt v'.bytes a).blocks = (nodeAt v.bytes a).blocks
  blocks : ∀ a, IsSlot z.lo a → InUse v.bytes a → ∀ i < (nodeAt v.bytes a).blocks,
    addrOf v'.bytes (nodeAt v'.bytes a) i = addrOf v.bytes (nodeAt v.bytes a) i ∧
    ∀ k < 4096, v'.bytes (addrOf v.bytes (nodeAt v.bytes a) i + k) = v.bytes (addrOf v.bytes (nodeAt v.bytes a) i + k)
  free : ∃ ps' L, FreeList (.all v') ps' ∧ (L ++ freeOrder (.all v') ps').Perm (freeOrder (.all v) ps) ∧
    ∀ q ∈ L, Hangs v'.bytes (nodeAt v'.bytes p) (nodeAt v.bytes p).blocks q

theorem NoTrace.refl (h : FreeList (.all v) ps) : NoTrace z p v ps v :=
  ⟨fun _ _ => Iff.rfl, fun _ _ _ _ => rfl, fun _ _ _ => ⟨rfl, rfl⟩, fun _ _ _ _ _ => ⟨rfl, fun _ _ => rfl⟩,
    ps, [], h, .refl _, fun _ hq => absurd hq List.not_mem_nil⟩

/-! ## The parent -/

/-- The parent after a call of `add_to_directory` that failed: the pages `L` were taken. -/
structure Refused (z : Zone) (p : Nat) (K2 : View) (own : Nat → Option Pos) (ps2 : List Nat) (n : Node) (L : List Nat) (K3 : View)
    (own3 : Nat → Option Pos) (ps3 : List Nat) (n3 : Node) : Prop where
  before : Space z K2 own ps2
  file : FileAt z K3 own3 ps3 p n3
  node : nodeAt K3.vol.bytes p = n3
  attrs : n3 = n.withMap n3
  blocks : n3.blocks = n.blocks
  kept : ∀ i < n.blocks, addrOf K3.vol.bytes n3 i = addrOf K2.vol.bytes n i ∧
    ∀ k < 4096, K3.vol.bytes (addrOf K2.vol.bytes n i + k) = K2.vol.bytes (addrOf K2.vol.bytes n i + k)
  order : (L ++ freeOrder K3 ps3).Perm (freeOrder K2 ps2)
  confined : Confined z (· = p) K2 own K3 own3
  unowned : ∀ d, own d = none → d ∉ L → own3 d = none
  reach : (∀ q ∈ L, Hangs K3.vol.bytes n3 n.blocks q) ↔ ¬ (n.size % 4096 = 0 ∧ n.blocks = capacity ∧ (freeOrder K2 ps2).length = 2)

theorem Refused.refl (h : FileAt z K2 own ps2 p n) (hn : nodeAt K2.vol.bytes p = n)
    (hno : ¬ (n.size % 4096 = 0 ∧ n.blocks = capacity ∧ (freeOrder K2 ps2).length = 2)) :
    Refused z p K2 own ps2 n [] K2 own ps2 n :=
  ⟨h.space, h, hn, rfl, rfl, fun _ _ => ⟨rfl, fun _ _ => rfl⟩, .refl _, Confined.refl,
    fun _ hd _ => hd, ⟨fun _ => hno, fun _ _ hq => absurd hq List.not_mem_nil⟩⟩

/-- A page that an inode of the greatest size takes cannot be reached. -/
theorem Tried.lost (ht : Tried z p K2 own ps2 n L K3 own3 ps3 n3) (h : FileAt z K2 own ps2 p n) (hc : n.blocks = capacity) (hq : q ∈ L) :
    ¬ Hangs K3.vol.bytes n3 n.blocks q := by
  have hfree := ht.taken q hq
  have hroot : n3.root 14 = n.root 14 := ht.old 14 (by decide) (h.root_ne hc (by decide) (by decide))
  have hle : 12 + 512 + 512 ^ 2 ≤ n.blocks := by rw [hc, capacity]; omega
  rintro ⟨k, ρ, hp, hr⟩
  rw [rootOf_trpl hle, hroot] at hr
  rw [pathOf_trpl hle, hc, capacity] at hp
  injection hp with hk
  rcases hr with e | ⟨hlt, -⟩
  · exact h.space.owned_notFree (h.roots 14 (by decide) (by decide) (h.root_ne hc (by decide) (by decide))) (e ▸ hfree)
  · omega

theorem Failed.refused (hf : Failed z p K2 own ps2 n L K3 own3 ps3 n3) (h : FileAt z K2 own ps2 p n) (hn : nodeAt K2.vol.bytes p = n)
    (hm : n.size % 4096 = 0) : Refused z p K2 own ps2 n L K3 own3 ps3 n3 := by
  obtain ⟨hfile, hkept⟩ := hf.file h
  have hlen := hf.order.length_eq
  have hshort := hf.short
  rw [List.length_append] at hlen
  refine ⟨h.space, hfile, ?_, hf.attrs, hf.blocks, hkept, hf.order, hf.toTried.confined h.base, hf.unowned, fun hall => ?_,
    fun hno q hq => ?_⟩
  · rcases hf.disk with hd | ⟨e, hd⟩
    · exact hd
    · rw [e, ← hn]
      exact nodeAt_congr fun k hk => hd _ (by omega) (by omega)
  · rintro ⟨-, hc, h2⟩
    obtain ⟨q, hq⟩ := List.exists_mem_of_ne_nil L fun e => by
      rw [e, List.length_nil] at hlen
      omega
    exact hf.lost h hc hq (hall q hq)
  · refine (hf.hangs q hq).resolve_right fun hc => hno ⟨hm, Nat.le_antisymm h.used.cap hc, ?_⟩
    have hfew := hf.few hc
    have hpos := List.length_pos_of_mem hq
    have hsome := List.length_pos_of_ne_nil (hf.some (List.ne_nil_of_mem (hf.taken q hq)))
    omega

/-! ## The whole disk -/

section
variable (h : Sound z v own ps) (hp : IsSlot z.lo p) (hu : InUse v.bytes p) (hc : IsSlot z.lo c) (hcu : ¬ InUse v.bytes c)
  (h1 : Confined z (· = c) (.all v) own K2 own) (h2 : Refused z p K2 own ps2 (nodeAt v.bytes p) L K3 own3 ps3 n3)
  (h3 : Confined z (· = c) K3 own3 (.all v') own5) (hsp5 : Space z (.all v') own5 ps5)

include h hp hu hc hcu h2 h3 hsp5

/-- Taking back what was put into the slot of the new inode leaves the parent. -/
theorem Refused.undo : nodeAt v'.bytes p = n3 ∧ (∀ i q, Hangs v'.bytes n3 i q ↔ Hangs K3.vol.bytes n3 i q) ∧
    ∀ i < n3.blocks, addrOf v'.bytes n3 i = addrOf K3.vol.bytes n3 i ∧
      ∀ k < 4096, v'.bytes (addrOf K3.vol.bytes n3 i + k) = K3.vol.bytes (addrOf K3.vol.bytes n3 i + k) := by
  have hne : c ≠ p := fun e => hcu (e ▸ hu)
  have hbeside : ∀ d, d = c → Beside z p d := by
    rintro d rfl
    exact h.beside hp hc hne
  obtain ⟨-, hblock, haddr⟩ := h2.file.other h3 hsp5 hbeside
  have hlow := hp.low
  refine ⟨(nodeAt_congr fun k hk => h3.slot (by omega) h2.file.high (fun d hd => ?_) (by omega) (by omega)).trans h2.node, fun i q => ?_,
    fun i hi => ⟨haddr i hi, fun k hk => hblock _ _ (h2.file.used.data i hi) rfl _ (by omega) (by omega)⟩⟩
  · have := (hbeside d hd).apart
    omega
  · unfold Hangs
    refine exists_congr fun k => exists_congr fun ρ => and_congr_right fun hpath => or_congr Iff.rfl (and_congr_right fun hk => ?_)
    have hj := rootOf_page (by rw [hpath]; exact List.cons_ne_nil _ _)
    have hslot : slot v'.bytes (n3.root (rootOf i)) k = slot K3.vol.bytes (n3.root (rootOf i)) k := by
      by_cases h0 : n3.root (rootOf i) = 0
      · rw [h0, slot_zero, slot_zero]
      · exact slot_congr (hblock _ _ (h2.file.roots _ hj.1 hj.2 h0) rfl) hk
    rw [hslot]

include h1

theorem noTrace_iff (ho2 : (R ++ freeOrder K2 ps2).Perm (freeOrder (.all v) ps))
    (ho5 : (freeOrder (.all v') ps5).Perm (R ++ freeOrder K3 ps3)) (hz : ¬ InUse v'.bytes c) : NoTrace z p v ps v' ↔
      ¬ ((nodeAt v.bytes p).size % 4096 = 0 ∧ (nodeAt v.bytes p).blocks = capacity ∧ (freeOrder K2 ps2).length = 2) := by
  have hne : c ≠ p := fun e => hcu (e ▸ hu)
  have hlow := hp.low
  obtain ⟨hnode, hhangs, hundo⟩ := Refused.undo h hp hu hc hcu h2 h3 hsp5
  -- the other inodes
  have hconf : Confined z (fun x => x = p ∨ x = c) (.all v) own (.all v') own5 :=
    ((h1.mono fun _ => Or.inr).trans (h2.confined.mono fun _ => Or.inl)).trans (h3.mono fun _ => Or.inr)
  have hbeside : ∀ a, IsSlot z.lo a → a ≠ p → a ≠ c → ∀ d, d = p ∨ d = c → Beside z a d := by
    rintro a ha hap hac d (rfl | rfl)
    · exact h.beside ha hp (Ne.symm hap)
    · exact h.beside ha hc (Ne.symm hac)
  have hother : ∀ a, IsSlot z.lo a → a ≠ p → a ≠ c → nodeAt v'.bytes a = nodeAt v.bytes a := by
    intro a ha hap hac
    have halow := ha.low
    refine nodeAt_congr fun k hk => hconf.slot (by omega) (h.slot_high ha) (fun d hd => ?_) (by omega) (by omega)
    have := (hbeside a ha hap hac d hd).apart
    omega
  -- the parent, up to the call
  obtain ⟨-, hkept2⟩ := (h.inode hp hu).other h1 h2.before fun d hd => hd ▸ h.beside hp hc hne
  have hkept : ∀ i < (nodeAt v.bytes p).blocks, addrOf v'.bytes n3 i = addrOf v.bytes (nodeAt v.bytes p) i ∧
      ∀ k < 4096, v'.bytes (addrOf v.bytes (nodeAt v.bytes p) i + k) = v.bytes (addrOf v.bytes (nodeAt v.bytes p) i + k) := by
    intro i hi
    obtain ⟨e1, b1⟩ := hkept2 i hi
    obtain ⟨e2, b2⟩ := h2.kept i hi
    obtain ⟨e3, b3⟩ := hundo i (by rw [h2.blocks]; exact hi)
    rw [e1] at e2 b2
    rw [e2] at e3 b3
    exact ⟨e3, fun k hk => (b3 k hk).trans ((b2 k hk).trans (b1 k hk))⟩
  have hfree : (L ++ freeOrder (.all v') ps5).Perm (freeOrder (.all v) ps) := by
    refine ((ho5.append_left L).trans ?_).trans ho2
    rw [← List.append_assoc]
    refine (List.perm_append_comm.append_right _).trans ?_
    rw [List.append_assoc]
    exact h2.order.append_left R
  rw [← h2.reach]
  constructor
  · intro ht q hq
    obtain ⟨ps', L', hlist, hperm, hall⟩ := ht.free
    obtain rfl := hlist.unique hsp5.list
    have hmem : q ∈ L' := ((List.perm_append_right_iff _).mp (hfree.trans hperm.symm)).mem_iff.mp hq
    have := hall q hmem
    rw [hnode] at this
    exact (hhangs _ q).mp this
  · intro hall
    refine ⟨fun a ha => ?_, fun a ha hau hap => ?_, fun a ha hau => ?_, fun a ha hau i hi => ?_, ps5, L, hsp5.list, hfree, fun q hq => ?_⟩
    · by_cases hap : a = p
      · subst hap
        unfold InUse
        rw [hnode, h2.attrs]
        rfl
      by_cases hac : a = c
      · subst hac
        exact iff_of_false hz hcu
      · unfold InUse
        rw [hother a ha hap hac]
    · exact hother a ha hap fun e => hcu (e ▸ hau)
    · by_cases hap : a = p
      · subst hap
        rw [hnode]
        exact ⟨h2.attrs, h2.blocks⟩
      · rw [hother a ha hap fun e => hcu (e ▸ hau)]
        exact ⟨rfl, rfl⟩
    · by_cases hap : a = p
      · subst hap
        rw [hnode]
        exact hkept i hi
      · have hac : a ≠ c := fun e => hcu (e ▸ hau)
        rw [hother a ha hap hac]
        exact ((h.inode ha hau).other hconf hsp5 (hbeside a ha hap hac)).2 i hi
    · rw [hnode]
      exact (hhangs _ q).mpr (hall q hq)

end

/-! ## The calls -/

/-- Where `path` is to be created, 0 if there is no such place. -/
def parentOf (v : Vol) (path : List UInt8) : Nat :=
  match splitLast path with
  | none => 0
  | some (before, _) => (resolve v.bytes v.glob.rootNode (tokens before)).getD 0

/-- The blocks of `p` are full and as many as the map can hold; of the `k` blocks that are
    free the last but one becomes the page behind the last slot. -/
structure Brim (z : Zone) (v : Vol) (ps : List Nat) (p k : Nat) : Prop where
  parent : p ≠ 0
  slot : ∃ c, IsSlot z.lo c ∧ ¬ InUse v.bytes c
  whole : (nodeAt v.bytes p).size % 4096 = 0
  full : (nodeAt v.bytes p).blocks = capacity
  free : (freeOrder (.all v) ps).length = k

theorem brim_iff {k N : Nat} (hp : p ≠ 0) (hc : IsSlot z.lo c) (hcu : ¬ InUse v.bytes c) (hN : N = 2 ↔ (freeOrder (.all v) ps).length = k) :
    (nodeAt v.bytes p).size % 4096 = 0 ∧ (nodeAt v.bytes p).blocks = capacity ∧ N = 2 ↔ Brim z v ps p k :=
  ⟨fun ⟨h1, h2, h3⟩ => ⟨hp, ⟨c, hc, hcu⟩, h1, h2, hN.mp h3⟩, fun hb => ⟨hb.whole, hb.full, hN.mpr hb.free⟩⟩

/-- The call goes well, or leaves no trace but at the brim, where it does not go well. -/
def Traced (z : Zone) (v : Vol) (ps : List Nat) (p k : Nat) (r : Int) (s' : Sys) : Prop :=
  r = 0 ∧ ¬ Brim z v ps p k ∨ r ≠ 0 ∧ (NoTrace z p v ps s'.vol ↔ ¬ Brim z v ps p k)

section
variable (h : Sound z v own ps)

include h

/-- A call that changes nothing. -/
theorem Traced.same {k : Nat} {r : Int} (hr : r ≠ 0) (hno : ¬ Brim z v ps p k) (hs : (View.all v).Holds s') : Traced z v ps p k r s' := by
  rw [Traced, holds_all.mp hs]
  exact Or.inr ⟨hr, iff_of_true (.refl h.space.list) hno⟩

theorem Sound.table : Table (.all v) := by
  have hb : v.glob.inodeByteBoundary = z.lo := h.boundary
  refine ⟨h.space.drive, ?_, ?_, ?_, View.Sees.all _ _ _⟩
  · rw [all_vol, hb]
    exact h.low
  · rw [all_vol, hb]
    exact h.aligned
  · rw [all_vol, hb]
    exact h.high

theorem parentOf_runs (hl : splitLast path = some (before, name)) (hs : Searches v.bytes v.glob.rootNode (tokens before)) :
    Runs (.all v) (findParent before) (parentOf v path) (.all v) := by
  have e : parentOf v path = (resolve v.bytes v.glob.rootNode (tokens before)).getD 0 := by rw [parentOf, hl]
  rw [e]
  exact findParent_runs h hs

theorem parentOf_slot (h0 : parentOf v path ≠ 0) : IsSlot z.lo (parentOf v path) ∧ InUse v.bytes (parentOf v path) := by
  cases hl : splitLast path with
  | none =>
    rw [parentOf, hl] at h0
    exact absurd rfl h0
  | some x =>
    have e : parentOf v path = (resolve v.bytes v.glob.rootNode (tokens x.1)).getD 0 := by rw [parentOf, hl]
    rw [e] at h0 ⊢
    cases hr : resolve v.bytes v.glob.rootNode (tokens x.1) with
    | none =>
      rw [hr] at h0
      exact absurd rfl h0
    | some p => exact h.resolve h.root.1 h.root.2.1 hr

end

section
variable (h : Sound z v own ps) (hp : IsSlot z.lo p) (hu : InUse v.bytes p) (hc : IsSlot z.lo c) (hcu : ¬ InUse v.bytes c)
  (h1 : Confined z (· = c) (.all v) own K2 own)

include h hp hu hc hcu h1

theorem addToDirectory_refused (hsp2 : Space z K2 own ps2) : Ensures K2.Holds (addToDirectory p c name) fun r s =>
    r = 0 ∧ ¬ ((nodeAt v.bytes p).size % 4096 = 0 ∧ (nodeAt v.bytes p).blocks = capacity ∧ (freeOrder K2 ps2).length = 2) ∨
    r ≠ 0 ∧ ∃ L K3 own3 ps3 n3, K3.Holds s ∧ Refused z p K2 own ps2 (nodeAt v.bytes p) L K3 own3 ps3 n3 := by
  have hne : c ≠ p := fun e => hcu (e ▸ hu)
  have hlow := hp.low
  have hclow := hc.low
  have hchigh := h.slot_high hc
  have hhigh := h.high
  have hbeside : ∀ d, d = c → Beside z p d := by
    rintro d rfl
    exact h.beside hp hc hne
  obtain ⟨hfile, -⟩ := ((h.inode hp hu).toMapAt.file (nodeAt_fits _ _)).other h1 hsp2 hbeside
  have hnode : nodeAt K2.vol.bytes p = nodeAt v.bytes p := nodeAt_congr fun k hk =>
    h1.slot (by omega) (h.slot_high hp) (fun d hd => by have := (hbeside d hd).apart; omega) (by omega) (by omega)
  have hsize : K2.vol.size = v.size := h1.keeps.size
  have hv : ∀ x, K2.vis x := fun x => h1.keeps.vis x trivial
  have hends : Ensures K2.Holds (addToDirectory p c name) _ := addToDirectory_ends hfile hv hnode (by omega) (by omega)
  have hfails : ∀ s, (nodeAt v.bytes p).size % 4096 ≠ 0 ∧ K2.Holds s ∨ (nodeAt v.bytes p).size % 4096 = 0 ∧
      (∃ n', Fails z p K2 own ps2 (nodeAt v.bytes p) n' s) → ∃ L K3 own3 ps3 n3, K3.Holds s ∧
        Refused z p K2 own ps2 (nodeAt v.bytes p) L K3 own3 ps3 n3 := by
    rintro s (⟨hm, hs⟩ | ⟨hm, n3, L, K3, own3, ps3, hs, hf⟩)
    · exact ⟨[], K2, own, ps2, _, hs, .refl hfile hnode fun h => hm h.1⟩
    · exact ⟨L, K3, own3, ps3, n3, hs, hf.refused hfile hnode hm⟩
  by_cases hb : (nodeAt v.bytes p).size % 4096 = 0 ∧ (nodeAt v.bytes p).blocks = capacity ∧ (freeOrder K2 ps2).length = 2
  · refine (hends.and (addToDirectory_last_fails hfile hv hnode (by omega) (by omega) hb.1 hb.2.1 hb.2.2)).post fun r s hs => Or.inr ⟨hs.2, ?_⟩
    exact hfails s (hs.1.resolve_left hs.2).2
  · exact hends.post fun r s hs => hs.imp (fun h0 => ⟨h0, hb⟩) fun hs => ⟨hs.1, hfails s hs.2⟩

/-- The slot of the new inode is cleared, after its blocks `R` went back. -/
theorem Refused.clear {K4 : View} {ps4 : List Nat} (h2 : Refused z p K2 own ps2 (nodeAt v.bytes p) L K3 own3 ps3 n3)
    (ho2 : (R ++ freeOrder K2 ps2).Perm (freeOrder (.all v) ps)) (h4 : Confined z (· = c) K3 own3 K4 own3) (hsp4 : Space z K4 own3 ps4)
    (ho4 : (freeOrder K4 ps4).Perm (R ++ freeOrder K3 ps3)) : Ensures K4.Holds (freeInode c) fun _ s' => NoTrace z p v ps s'.vol ↔
      ¬ ((nodeAt v.bytes p).size % 4096 = 0 ∧ (nodeAt v.bytes p).blocks = capacity ∧ (freeOrder K2 ps2).length = 2) := by
  have hclow := hc.low
  have hin := h2.file.inside
  have hsize : K4.vol.size = K3.vol.size := h4.keeps.size
  obtain ⟨hrun, hz, hsp5, ho5, h5⟩ := hsp4.clear (a := c) (by omega) (h.slot_high hc) (by rw [hsize]; exact hin)
  refine Returns.ensures hrun fun s' hs => ?_
  have hall := ((h1.mono fun _ _ => trivial).trans (h2.confined.mono fun _ _ => trivial)).trans
    ((h4.trans h5).mono fun _ _ => (trivial : (fun _ => True) _))
  have hK := hall.keeps.all hs
  rw [hK] at h5 hsp5 ho5 hz
  exact noTrace_iff h hp hu hc hcu h1 h2 (h4.trans h5) hsp5 ho2 (by rw [ho5]; exact ho4) hz

end

section
variable {b : Nat} (h : Sound z v own ps) (hp : IsSlot z.lo p) (hu : InUse v.bytes p) (hc : IsSlot z.lo c) (hcu : ¬ InUse v.bytes c)
  (h1 : Confined z (· = c) (.all v) own K2 own) (hsp2 : Space z K2 own ps2) (hbz : z.Has b) (hbo : own b = none)
  (hbn : b ∉ freeOrder K2 ps2) (hbf : freeOrder (.all v) ps = b :: freeOrder K2 ps2)

include h hp hu hc hcu h1 hsp2 hbz hbo hbn hbf

/-- The last lines of `tfs_mkdir`: the new directory, with its block `b`, is entered. -/
theorem mkdirEnter_traces : Ensures K2.Holds (do
    let result ← addToDirectory p c name
    if result ≠ 0 then do
      let _ ← freeBlock (View.all v).vol.glob.drive b
      let _ ← freeInode c
      pure (-1)
    else pure result) (Traced z v ps p 3) := by
  have hp0 : p ≠ 0 := by have := hp.low; omega
  have hlen : (freeOrder (.all v) ps).length = (freeOrder K2 ps2).length + 1 := by rw [hbf, List.length_cons]
  have hbrim := brim_iff hp0 hc hcu (show _ ↔ (freeOrder (.all v) ps).length = 3 by rw [hlen]; exact (Nat.succ_inj (b := 2)).symm)
  refine (addToDirectory_refused h hp hu hc hcu h1 hsp2).bind fun r => ?_
  by_cases h0 : r = 0
  · rw [if_neg (not_not.mpr h0)]
    refine Ensures.pure fun s hs => Or.inl ⟨h0, ?_⟩
    rw [← hbrim]
    exact (hs.resolve_right fun hr => hr.1 h0).2
  · rw [if_pos h0]
    rintro s (hr | ⟨-, L, K3, own3, ps3, n3, hs3, href⟩)
    · exact absurd hr.1 h0
    have hnot : b ∉ L ++ freeOrder K3 ps3 := fun hx => hbn (href.order.mem_iff.mp hx)
    have hown3 := href.unowned b hbo fun hx => hnot (List.mem_append_left _ hx)
    have hsp3 := href.file.space
    obtain ⟨K4, ps4, hgive, hg⟩ := freeBlock_runs hsp3.list (show 0 ≤ (View.all v).vol.glob.drive from h.space.drive) (hsp3.block hbz)
      fun hx => hnot (List.mem_append_right _ hx)
    have hclear := href.clear (R := [b]) h hp hu hc hcu h1 (by rw [hbf]; exact .refl _) (hsp3.give_confined hbz hown3 hg)
      (hsp3.give hbz hown3 hg) hg.order
    exact hgive.next (hclear.bind fun _ => Ensures.pure fun s' hs' => Or.inr ⟨by decide, hs'.trans (not_congr hbrim)⟩) s hs3

end

section
variable (h : Sound z v own ps)

include h

/-- What `allocate_inode` answers. -/
theorem Sound.allocate (fd : Int) : (∀ c, IsSlot z.lo c → InUse v.bytes c) ∧ Runs (.all v) (allocateInode fd) 0 (.all v) ∨
    ∃ c, IsSlot z.lo c ∧ ¬ InUse v.bytes c ∧ Runs (.all v) (allocateInode fd) c (.all v) := by
  have hb : (View.all v).vol.glob.inodeByteBoundary = z.lo := h.boundary
  rcases first_free v.bytes z.lo with hall | ⟨c, hc, hcu, hfirst⟩
  · exact Or.inl ⟨hall, allocateInode_none fd h.table (by rw [hb]; exact hall)⟩
  · exact Or.inr ⟨c, hc, hcu, allocateInode_some fd h.table (by rw [hb]; exact hc) hcu (by rw [hb]; exact hfirst)⟩

theorem tfsMknod_traces (hs : ∀ before name, splitLast path = some (before, name) → Searches v.bytes v.glob.rootNode (tokens before)) :
    Ensures (View.all v).Holds (tfsMknod path m) (Traced z v ps (parentOf v path) 2) := by
  unfold tfsMknod
  cases hl : splitLast path with
  | none => exact Ensures.pure fun _ => .same h (by decide) fun hb => hb.parent (by rw [parentOf, hl])
  | some x =>
    obtain ⟨before, name⟩ := x
    refine (parentOf_runs h hl (hs _ _ hl)).next ?_
    by_cases hp0 : parentOf v path = 0
    · rw [if_pos hp0]
      exact Ensures.pure fun _ => .same h (by decide) fun hb => hb.parent hp0
    rw [if_neg hp0]
    obtain ⟨hp, hu⟩ := parentOf_slot h hp0
    refine globals_runs.next ?_
    rcases h.allocate (View.all v).vol.glob.drive with ⟨hall, hnone⟩ | ⟨c, hc, hcu, hsome⟩
    · refine hnone.next ?_
      rw [if_pos rfl]
      refine Ensures.pure fun _ => .same h (by decide) fun hb => ?_
      obtain ⟨c, hc, hcu⟩ := hb.slot
      exact hcu (hall c hc)
    have hlow := hc.low
    have hhigh := h.slot_high hc
    have hin := h.high
    have hsize : (View.all v).vol.size = v.size := rfl
    -- the slot of the new inode
    have hslot : ∀ f, Confined z (· = c) (.all v) own ((View.all v).tick.store c 208 f) own ∧
        Space z ((View.all v).tick.store c 208 f) own ps ∧
        freeOrder ((View.all v).tick.store c 208 f) ps = freeOrder (.all v) ps := by
      intro f
      have hk : Keeps (fun x => c ≤ x ∧ x < c + 208) (.all v) ((View.all v).tick.store c 208 f) :=
        Keeps.tick.trans (Keeps.store fun x h1 h2 => ⟨h1, h2⟩)
      refine ⟨Confined.bytes hk fun x hx => touch_slot rfl hx.1 (by omega), h.space.keep hk (fun x hx => by omega) fun x b hx hb => ?_⟩
      have := (h.space.free b hb).2.low
      omega
    refine hsome.next ?_
    rw [if_neg (by omega)]
    refine (fetchNode_runs (by omega) (by rw [hsize]; omega) (View.Sees.all _ _ _)).next ?_
    refine environ_runs.next (getCurrentTimeInNsec_runs.next ?_)
    refine (commitInode_runs (K := (View.all v).tick) (by show c + 208 ≤ v.size; omega)).next ?_
    refine (addToDirectory_refused h hp hu hc hcu (hslot _).1 (hslot _).2.1).bind fun r => ?_
    rw [(hslot _).2.2]
    have hbrim := brim_iff hp0 hc hcu (Iff.rfl (a := (freeOrder (.all v) ps).length = 2))
    by_cases h0 : r = 0
    · rw [if_neg (not_not.mpr h0)]
      refine Ensures.pure fun s hs => Or.inl ⟨h0, ?_⟩
      rw [← hbrim]
      exact (hs.resolve_right fun hr => hr.1 h0).2
    · rw [if_pos h0]
      rintro s (hr | ⟨-, L, K3, own3, ps3, n3, hs3, href⟩)
      · exact absurd hr.1 h0
      have hclear := href.clear (R := []) h hp hu hc hcu (hslot _).1 (by rw [(hslot _).2.2]; exact .refl _) Confined.refl href.file.space
        (.refl _)
      rw [(hslot _).2.2] at hclear
      exact (hclear.bind fun _ => Ensures.pure fun s' hs' => Or.inr ⟨h0, hs'.trans (not_congr hbrim)⟩) s hs3

theorem tfsMkdir_traces (hs : ∀ before name, splitLast path = some (before, name) → Searches v.bytes v.glob.rootNode (tokens before)) :
    Ensures (View.all v).Holds (tfsMkdir path m) fun r s' => (freeOrder (.all v) ps = [] → r ≠ 0) ∧ Traced z v ps (parentOf v path) 3 r s' := by
  unfold tfsMkdir
  cases hl : splitLast path with
  | none => exact Ensures.pure fun _ hs' => ⟨fun _ => by decide, .same h (by decide) (fun hb => hb.parent (by rw [parentOf, hl])) hs'⟩
  | some x =>
    obtain ⟨before, name⟩ := x
    refine (parentOf_runs h hl (hs _ _ hl)).next ?_
    by_cases hp0 : parentOf v path = 0
    · rw [if_pos hp0]
      exact Ensures.pure fun _ hs' => ⟨fun _ => by decide, .same h (by decide) (fun hb => hb.parent hp0) hs'⟩
    rw [if_neg hp0]
    obtain ⟨hp, hu⟩ := parentOf_slot h hp0
    have hplow := hp.low
    have hphigh := h.slot_high hp
    have hin := h.high
    have hsize : (View.all v).vol.size = v.size := rfl
    refine (fetchNode_runs (by omega) (by rw [hsize]; omega) (View.Sees.all _ _ _)).next (globals_runs.next ?_)
    rcases h.allocate (View.all v).vol.glob.drive with ⟨hall, hnone⟩ | ⟨c, hc, hcu, hsome⟩
    · refine hnone.next ?_
      rw [if_pos rfl]
      refine Ensures.pure fun _ hs' => ⟨fun _ => by decide, .same h (by decide) (fun hb => ?_) hs'⟩
      obtain ⟨c, hc, hcu⟩ := hb.slot
      exact hcu (hall c hc)
    have hlow := hc.low
    have hhigh := h.slot_high hc
    refine hsome.next ?_
    rw [if_neg (by omega)]
    refine (fetchNode_runs (by omega) (by rw [hsize]; omega) (View.Sees.all _ _ _)).next ?_
    cases hfo : freeOrder (.all v) ps with
    | nil =>
      -- no block for the directory
      obtain rfl : ps = [] := nil_of_freeOrder hfo
      refine (allocateBlock_none _ h.space.list).next ?_
      rw [if_pos rfl]
      have hi := h.inode hp hu
      have hnode : nodeAt (View.all v).vol.bytes (parentOf v path) = nodeAt v.bytes (parentOf v path) := rfl
      have href := Refused.refl (hi.toMapAt.file (nodeAt_fits _ _)) hnode fun hb => by rw [hfo] at hb; exact absurd hb.2.2 (by decide)
      have hclear := href.clear (R := []) h hp hu hc hcu Confined.refl (.refl _) Confined.refl h.space (.refl _)
      rw [hfo] at hclear
      refine hclear.bind fun _ => Ensures.pure fun s' hs' => ⟨fun _ => by decide, Or.inr ⟨by decide, hs'.trans ?_⟩⟩
      refine iff_of_true (fun hb => absurd hb.2.2 (by decide)) fun hb => ?_
      have := hb.free
      rw [hfo] at this
      exact absurd this (by decide)
    | cons b rest =>
      obtain ⟨K1, ps1, halloc, hk⟩ := allocateBlock_some (View.all v).vol.glob.drive h.space.list hfo
      obtain ⟨hsp1, hbn, hbo, hbz⟩ := h.space.take hk
      have hblock := h.space.block hbz
      have hbpos := hblock.pos
      have hbin := hblock.inside
      have hblow := hbz.low
      have hs1 : K1.vol.size = v.size := hk.keeps.size
      rw [hsize] at hbin
      refine halloc.next ?_
      rw [if_neg hbpos]
      -- the block and the slot of the new inode
      have hfill : ∀ K f, Keeps (fun x => b ≤ x ∧ x < b + 4096) K1 K → Confined z (· = c) (.all v) own (K.store c 208 f) own ∧
          Space z (K.store c 208 f) own ps1 ∧ freeOrder (K.store c 208 f) ps1 = freeOrder K1 ps1 := by
        intro K f hK
        have hkeep : Keeps (fun x => b ≤ x ∧ x < b + 4096 ∨ c ≤ x ∧ x < c + 208) K1 (K.store c 208 f) :=
          (hK.mono fun x hx => Or.inl hx).trans (Keeps.store fun x h1 h2 => Or.inr ⟨h1, h2⟩)
        refine ⟨(h.space.take_confined hk).trans (Confined.bytes hkeep fun x hx => ?_), hsp1.keep hkeep (fun x hx => by omega) fun x d hx hd => ?_⟩
        · rcases hx with hx | hx
          · exact touch_free hbz hbo hx.1 hx.2
          · exact touch_slot rfl hx.1 (by omega)
        · have hz := (hsp1.free d hd).2
          have := hz.low
          have := hz.apart hbz fun e => hbn (e ▸ hd)
          omega
      have h0 : Runs K1 (writeBlock zeros b 0 4096) 4096 (K1.store (b + 0) 4096 zeros) :=
        writeBlock_fits (o := 0) rfl (by decide) (by rw [hs1]; omega)
      refine h0.next (getCurrentTimeInNsec_runs.next (environ_runs.next ?_))
      refine (writeBlock_fits (o := 0) (n := 2) rfl (by decide) (by show b + 0 + 2 ≤ K1.vol.size; omega)).next ?_
      refine (writeAddr_runs (o := 248) rfl (by decide) (by show b + 248 + 8 ≤ K1.vol.size; omega)).next ?_
      refine (writeBlock_fits (o := 256) (n := 3) rfl (by decide) (by show b + 256 + 3 ≤ K1.vol.size; omega)).next ?_
      -- the address of the parent is not written
      refine (show Runs _ (writeAddr (parentOf v path) b (2 * 256 - 4096)) 0 _ by
        unfold writeAddr writeBlock
        rw [if_pos (by decide)]
        exact Runs.pure).next ?_
      refine (commitInode_runs (by show c + 208 ≤ K1.vol.size; omega)).next ?_
      have hkeep : ∀ f g k, Keeps (fun x => b ≤ x ∧ x < b + 4096) K1
          (((((K1.store (b + 0) 4096 zeros).tick.store (b + 0) 2 f).storeWord (b + 248) k).store (b + 256) 3 g)) := fun f g k =>
        (Keeps.store fun x h1 h2 => by omega).trans (Keeps.tick.trans ((Keeps.store fun x h1 h2 => by omega).trans
          ((Keeps.storeWord fun x h1 h2 => by omega).trans (Keeps.store fun x h1 h2 => by omega))))
      refine (mkdirEnter_traces h hp hu hc hcu (hfill _ _ (hkeep _ _ _)).1 (hfill _ _ (hkeep _ _ _)).2.1 hbz hbo
        (by rw [(hfill _ _ (hkeep _ _ _)).2.2]; exact hbn) (by rw [(hfill _ _ (hkeep _ _ _)).2.2]; exact hk.order)).post fun r s' hs' => ?_
      exact ⟨fun e => absurd e (List.cons_ne_nil _ _), hs'⟩

end

/-- A call that does not return 0 leaves no trace, but at the brim: with two free blocks
    for `tfs_mknod`, three for `tfs_mkdir`, which takes one first. -/
theorem create_noTrace_iff (h : Sound z s.vol own ps) (hs : ∀ before name, splitLast path = some (before, name) →
      Searches s.vol.bytes s.vol.glob.rootNode (tokens before)) :
    (∀ r s', tfsMknod path m s = some (r, s') → r ≠ 0 →
      (NoTrace z (parentOf s.vol path) s.vol ps s'.vol ↔ ¬ Brim z s.vol ps (parentOf s.vol path) 2)) ∧
    ∀ r s', tfsMkdir path m s = some (r, s') → r ≠ 0 →
      (NoTrace z (parentOf s.vol path) s.vol ps s'.vol ↔ ¬ Brim z s.vol ps (parentOf s.vol path) 3) := by
  constructor
  · intro r s' e h0
    obtain ⟨r', s'', e', hends⟩ := tfsMknod_traces (m := m) h hs s (holds_all.mpr rfl)
    obtain ⟨rfl, rfl⟩ := Prod.mk.inj (Option.some.inj (e.symm.trans e'))
    exact (hends.resolve_left fun hr => h0 hr.1).2
  · intro r s' e h0
    obtain ⟨r', s'', e', -, hends⟩ := tfsMkdir_traces (m := m) h hs s (holds_all.mpr rfl)
    obtain ⟨rfl, rfl⟩ := Prod.mk.inj (Option.some.inj (e.symm.trans e'))
    exact (hends.resolve_left fun hr => h0 hr.1).2

/-- On a disk without a free block nothing is left of the new directory. -/
theorem tfsMkdir_noTrace_full : ∃ r s', tfsMkdir [47, 120] 0x1ED (fullSys 1 (by decide)) = some (r, s') ∧ r ≠ 0 ∧
    NoTrace ⟨8192, 4096 * (3 + 1)⟩ (parentOf (fullSys 1 (by decide)).vol [47, 120]) (fullSys 1 (by decide)).vol [] s'.vol := by
  obtain ⟨hs, -⟩ := fullSys_sound (t := 1) (h := by decide) (by decide)
  have hsearch : ∀ before name, splitLast [47, 120] = some (before, name) →
      Searches (fullSys 1 (by decide)).vol.bytes (fullSys 1 (by decide)).vol.glob.rootNode (tokens before) := by
    intro before name e
    obtain ⟨rfl, -⟩ := Prod.mk.inj (Option.some.inj e)
    trivial
  obtain ⟨r, s', e, hno, -⟩ := tfsMkdir_traces (m := 0x1ED) hs hsearch (fullSys 1 (by decide)) (holds_all.mpr rfl)
  have h0 : r ≠ 0 := hno rfl
  exact ⟨r, s', e, h0, ((create_noTrace_iff hs hsearch).2 r s' e h0).mpr fun hb => absurd hb.free (by decide)⟩

/-! ### The greatest directory

Its blocks and index pages follow the inode table, and behind them two blocks are free. -/

def brimRoot : Node :=
  { plainNode rootMode (256 * (16 * capacity)) 12 (crowdLo capacity) 1 with
    blocks := capacity
    indirectBlocks := unit (crowdLo capacity) capacity
    dblIndirect := unit (crowdLo capacity) (capacity + 1)
    trplIndirect := unit (crowdLo capacity) (capacity + 2) }

def brimBlocks : Nat := capacity + 1 + (capacity + pageCount + 2)

def brimFree : Nat := unit (crowdLo capacity) (capacity + pageCount)

def brimSys : Sys :=
  crowdSys capacity brimBlocks (by unfold brimBlocks capacity pageCount; omega) brimFree brimRoot (spreadData (crowdLo capacity))

theorem brim_tail {x : Nat} (hx : unit (crowdLo capacity) capacity ≤ x) : brimSys.vol.bytes x = spreadData (crowdLo capacity) x :=
  crowd_tail hx

theorem brimRoot_fits : brimRoot.Fits := by
  have h : (plainNode rootMode (256 * (16 * capacity)) 12 (crowdLo capacity) 1).Fits :=
    plainNode_fits (by decide) (by unfold capacity; omega) (by decide) (by decide) (by unfold crowdLo capacity; omega)
  exact { h with
    blocks := show capacity < 2 ^ 64 by unfold capacity; omega
    indirectBlocks := show unit (crowdLo capacity) capacity < 2 ^ 64 by unfold unit crowdLo capacity; omega
    dblIndirect := show unit (crowdLo capacity) (capacity + 1) < 2 ^ 64 by unfold unit crowdLo capacity; omega
    trplIndirect := show unit (crowdLo capacity) (capacity + 2) < 2 ^ 64 by unfold unit crowdLo capacity; omega }

theorem brim_spread : Spread (crowdLo capacity) brimSys.vol.bytes brimRoot := by
  refine ⟨by unfold crowdLo; omega, by unfold crowdLo; omega, fun i hi => ?_, fun j hj hj2 => ?_, fun p hp k hk => ?_⟩
  · show (plainNode rootMode (256 * (16 * capacity)) 12 (crowdLo capacity) 1).direct i = _
    exact plainNode_direct hi hi
  · obtain rfl | rfl | rfl : j = 12 ∨ j = 13 ∨ j = 14 := by omega
    · rfl
    · rfl
    · rfl
  · exact spread_slots (by unfold crowdLo; omega) (by unfold crowdLo; omega) (by unfold crowdLo capacity; omega) (fun x => brim_tail) hp hk

theorem brim_crowded : Crowded capacity brimSys.vol.bytes brimRoot :=
  ⟨by unfold capacity; omega, Nat.le_refl _, rfl, rfl, rfl, brimRoot_fits, fun i => brim_spread.addr⟩

theorem brim_space : Space ⟨crowdLo capacity, 4096 * brimBlocks⟩ (.all brimSys.vol) (spreadOwn (crowdLo capacity) 4096) [brimFree] ∧
    freeOrder (.all brimSys.vol) [brimFree] = [brimFree + 4096, brimFree] := by
  refine spread_space (by unfold crowdLo; omega) (by unfold crowdLo; omega) (by unfold crowdLo capacity; omega) (fun x => brim_tail)
    (crowd_super (by unfold brimFree unit crowdLo capacity pageCount; omega)) ?_ rfl (by decide)
  unfold brimBlocks unit crowdLo
  omega

theorem brim_sound : Sound ⟨crowdLo capacity, 4096 * brimBlocks⟩ brimSys.vol (spreadOwn (crowdLo capacity) 4096) [brimFree] :=
  crowd_sound brim_crowded brim_space.1 (brim_spread.maps (Nat.le_refl _) fun _ => trivial)

theorem brim_brim : Brim ⟨crowdLo capacity, 4096 * brimBlocks⟩ brimSys.vol [brimFree] 4096 2 := by
  have hroot : nodeAt brimSys.vol.bytes 4096 = brimRoot := crowd_root brim_crowded.pos brimRoot_fits
  have hlast : IsSlot (crowdLo capacity) (crowdLo capacity - 256) := crowd_last brim_crowded.pos
  have hne : crowdLo capacity - 256 ≠ 4096 := by unfold crowdLo capacity; omega
  refine ⟨by decide, ⟨_, hlast, crowd_free hlast hne (by omega)⟩, ?_, ?_, ?_⟩
  · rw [hroot]
    show 256 * (16 * capacity) % 4096 = 0
    omega
  · rw [hroot]
    rfl
  · rw [brim_space.2]
    rfl

/-- A block is lost. -/
theorem tfsMknod_loses : Sound ⟨crowdLo capacity, 4096 * brimBlocks⟩ brimSys.vol (spreadOwn (crowdLo capacity) 4096) [brimFree] ∧
    ∃ r s', tfsMknod [47, 120] 0x81A4 brimSys = some (r, s') ∧ r ≠ 0 ∧
      ¬ NoTrace ⟨crowdLo capacity, 4096 * brimBlocks⟩ (parentOf brimSys.vol [47, 120]) brimSys.vol [brimFree] s'.vol := by
  refine ⟨brim_sound, ?_⟩
  have hsearch : ∀ before name, splitLast [47, 120] = some (before, name) →
      Searches brimSys.vol.bytes brimSys.vol.glob.rootNode (tokens before) := by
    intro before name e
    obtain ⟨rfl, -⟩ := Prod.mk.inj (Option.some.inj e)
    trivial
  obtain ⟨r, s', e, hends⟩ := tfsMknod_traces (m := 0x81A4) brim_sound hsearch brimSys (holds_all.mpr rfl)
  have hbrim : Brim ⟨crowdLo capacity, 4096 * brimBlocks⟩ brimSys.vol [brimFree] (parentOf brimSys.vol [47, 120]) 2 := brim_brim
  obtain ⟨h0, hiff⟩ := hends.resolve_left fun hr => hr.2 hbrim
  exact ⟨r, s', e, h0, fun hn => hiff.mp hn hbrim⟩

end TyrantFS

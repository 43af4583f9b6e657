/-
  TyrantFS.Fuse.Unlink — deleting a file, by `tfs_unlink` and, inside a directory that is
  being deleted, by `sub_unlink`.

  The entry goes, the file's blocks are given back one by one, and the inode's slot is
  cleared. The index pages of the file are not given back by either function: both are
  right exactly for files without index pages (`unlink_file_iff`).
-/
import TyrantFS.Fuse.Release

namespace TyrantFS

open Lib Lib.PageTree

variable {z : Zone} {K K' : View} {own own' : Nat → Option Pos} {ps ps' F : List Nat} {par cur : Nat} {q n : Node}
  {path : List UInt8} {s0 s s' : Sys}

/-! ## The lookups -/

/-- The lookups of `path` and of its directory, from `s0` on, find `cur` and `par`, and
    leave the state `s`. -/
structure Found (path : List UInt8) (s0 : Sys) (par cur : Nat) (s : Sys) : Prop where
  root : path ≠ [47]
  lookups : ∃ before name s1 n s2, splitLast path = some (before, name) ∧ findPathNode path s0 = some (cur, s1) ∧
    fetchNode cur s1 = some (n, s2) ∧ findParent before s2 = some (par, s)

/-- On a sound disk, where the searches keep to the direct blocks, they change nothing. -/
theorem Found.of_searches (h : Sound z s0.vol own ps) {before name : List UInt8} (hr : path ≠ [47])
    (hl : splitLast path = some (before, name)) (hn : name ≠ [])
    (hc : resolve s0.vol.bytes s0.vol.glob.rootNode (tokens path) = some cur)
    (hs : Searches s0.vol.bytes s0.vol.glob.rootNode (tokens path)) :
    ∃ par s, s.vol = s0.vol ∧ Found path s0 par cur s ∧
      resolve s0.vol.bytes s0.vol.glob.rootNode (tokens before) = some par ∧ isDir (nodeAt s0.vol.bytes par).mode ∧
      lookup s0.vol.bytes (nodeAt s0.vol.bytes par) name = cur := by
  obtain ⟨par, hpar, hdir, hlook, -⟩ := resolve_parent hn hl hc
  have hcur := h.resolve h.root.1 h.root.2.1 hc
  have hcs := hcur.1.low
  have hch := h.slot_high hcur.1
  have hin := h.high
  have hfind := findPathNode_runs h hs
  rw [hc] at hfind
  rw [tokens_splitLast hl hn] at hs
  have hfindp := findParent_runs h (searches_append hs)
  rw [hpar] at hfindp
  obtain ⟨s1, e1, h1⟩ := hfind.exec (holds_all.mpr rfl)
  obtain ⟨s2, e2, h2⟩ := (fetchNode_runs (a := cur) (by omega) (by rw [all_vol]; omega) (View.Sees.all _ _ _)).exec h1
  obtain ⟨s3, e3, h3⟩ := hfindp.exec h2
  exact ⟨par, s3, holds_all.mp h3, ⟨hr, before, name, s1, _, s2, hl, e1, e2, e3⟩, hpar, hdir, hlook⟩

theorem Found.unlink (h : Found path s0 par cur s) (hc : cur ≠ 0) (hp : par ≠ 0) :
    tfsUnlink path s0 = unlinkFrom par cur s := by
  obtain ⟨before, name, s1, m, s2, hl, h1, h2, h3⟩ := h.lookups
  unfold tfsUnlink
  rw [bind_eq h1, if_neg hc, bind_eq h2, if_neg h.root, hl]
  simp only
  rw [bind_eq h3, if_neg hp]

/-! ## Deleting a file -/

/-- `b` is an index page of the inode `n`. -/
def PageOf (m : Mem) (n : Node) (b : Nat) : Prop :=
  b ≠ 0 ∧ ∃ j path, 12 ≤ j ∧ IsPath j path ∧ path.length < depth j ∧ blockAt m n j path = b

/-- What the deletion of the file at `cur` leaves: it gives back the blocks of the file,
    and the last one of the directory `q` if it became empty. -/
structure Deleted (z : Zone) (par cur : Nat) (K : View) (own : Nat → Option Pos) (ps : List Nat) (q n : Node)
    (K' : View) (own' : Nat → Option Pos) (ps' : List Nat) : Prop where
  unused : ¬ InUse K'.vol.bytes cur
  list : FreeList K' ps'
  order : (freeOrder K' ps').Perm ((List.range n.blocks).map (addrOf K.vol.bytes n) ++
    if q.size % 4096 = 256 then addrOf K.vol.bytes q (q.blocks - 1) :: freeOrder K ps else freeOrder K ps)
  confined : Confined z (fun c => c = par ∨ c = cur) K own K' own'

/-- What it should leave. -/
structure Reclaimed (cur : Nat) (K : View) (ps : List Nat) (q n : Node) (K' : View) (ps' : List Nat) : Prop where
  unused : ¬ InUse K'.vol.bytes cur
  list : FreeList K' ps'
  free : ∀ b, b ∈ freeOrder K' ps' ↔ b ∈ freeOrder K ps ∨ (∃ i < n.blocks, addrOf K.vol.bytes n i = b) ∨
    PageOf K.vol.bytes n b ∨ q.size % 4096 = 256 ∧ b = addrOf K.vol.bytes q (q.blocks - 1)

/-- The slot of an inode is cleared after all its blocks went back. -/
theorem clear_space (h0 : MapAt z K own ps cur n) (h : Released z K own ps F K' ps')
    (hF : F.Perm ((List.range n.blocks).map (addrOf K.vol.bytes n))) :
    Runs K' (freeInode cur) 0 (K'.store cur 256 zeros) ∧ ¬ InUse (K'.store cur 256 zeros).vol.bytes cur ∧
      Space z (K'.store cur 256 zeros) (release own F) ps' ∧
      (freeOrder (K'.store cur 256 zeros) ps').Perm ((List.range n.blocks).map (addrOf K.vol.bytes n) ++ freeOrder K ps) ∧
      Confined z (· = cur) K own (K'.store cur 256 zeros) (release own F) := by
  have hin := h0.inside
  have hm := h.cut h0 (Nat.zero_le _) fun i hi => absurd hi (Nat.not_lt_zero i)
  have hsize : K'.vol.size = K.vol.size := h.keeps.size
  obtain ⟨hrun, hunused, hsp, hord, hconf⟩ := hm.space.clear h0.low h0.high (by rw [hsize]; exact hin)
  refine ⟨hrun, hunused, hsp, ?_, ?_⟩
  · rw [hord]
    exact h.free.trans (hF.append_right _)
  · refine (h.confined h0.space fun b hb p hp => ?_).trans hconf
    obtain ⟨j, hj, rfl⟩ := List.mem_map.mp (hF.mem_iff.mp hb)
    rw [h0.maps.data j (List.mem_range.mp hj)] at hp
    injection hp with hp
    exact hp ▸ rfl

theorem clear_runs (h0 : MapAt z K own ps cur n) (h : Released z K own ps F K' ps')
    (hF : F.Perm ((List.range n.blocks).map (addrOf K.vol.bytes n))) :
    Runs K' (freeInode cur) 0 (K'.store cur 256 zeros) ∧ ¬ InUse (K'.store cur 256 zeros).vol.bytes cur ∧
      FreeList (K'.store cur 256 zeros) ps' ∧
      (freeOrder (K'.store cur 256 zeros) ps').Perm ((List.range n.blocks).map (addrOf K.vol.bytes n) ++ freeOrder K ps) ∧
      Confined z (· = cur) K own (K'.store cur 256 zeros) (release own F) := by
  obtain ⟨hrun, hunused, hsp, hrest⟩ := clear_space h0 h hF
  exact ⟨hrun, hunused, hsp.list, hrest⟩

/-- The inode without links, changed at `t`. -/
def Node.unlinked (n : Node) (t : Nat) : Node := { n with links := 0, changeTime := t }

theorem SameMap.unlinked {t : Nat} : SameMap n (n.unlinked t) := ⟨rfl, fun _ => rfl⟩

theorem unlinked_fits {t : Nat} (h : n.Fits) (ht : t < 2 ^ 64) : (n.unlinked t).Fits :=
  { h with links := Nat.two_pow_pos 32, changeTime := ht }

section
variable (hpar : InodeAt z K own ps par q) (hq : Packed K q) (hcur : InodeAt z K own ps cur n) (hb : Beside z cur par)
  (hl : n.links = 1) (hf : isDir n.mode = false)

include hpar hq hcur hb hl hf

omit hpar hq in
/-- The rest of the call, when the entry is gone. -/
theorem unlinkFrom_after {K1 : View} {own1 : Nat → Option Pos} {ps1 : List Nat} {q1 : Node}
    (hr : Runs K (removeLinkFromParent par cur) 0 K1) (hsh : Shrunk z par K own ps q K1 own1 ps1 q1) :
    ∃ K' own' ps', Runs K (unlinkFrom par cur) 0 K' ∧ Deleted z par cur K own ps q n K' own' ps' ∧ Space z K' own' ps' ∧
      Confined z (· = cur) K1 own1 K' own' ∧ ∀ k < 256, K'.vol.bytes (cur + k) = 0 := by
  have hlow := hcur.low
  have hhigh := hcur.high
  obtain ⟨hcur1, hkept⟩ := hcur.other hsh.confined hsh.inode.space fun c hc => hc ▸ hb
  obtain ⟨hm2, hord2⟩ := hcur1.tick
  generalize ht : K1.vol.env.clock K1.vol.ticks % 2 ^ 64 = t at *
  have hlinks : (1 + (2 ^ 32 - 1)) % 2 ^ 32 = 0 := by decide
  obtain ⟨hcommit, hcur3, hord3⟩ := (hm2.sameMap SameMap.unlinked).commit (unlinked_fits hcur.fits (show t < 2 ^ 64 by omega))
  have hk3 : Keeps (fun x => cur ≤ x ∧ x < cur + 208) K1 (K1.tick.store cur 208 (n.unlinked t).encode) :=
    Keeps.tick.trans (Keeps.store fun x h1 h2 => ⟨h1, h2⟩)
  obtain ⟨-, -, haddr3⟩ := hcur1.toMapAt.keep hk3 fun x hx => Or.inl (by omega)
  obtain ⟨K4, ps4, hloop, hrel⟩ := freeBlocksUp_runs (i := 0) hcur3.space hcur3.maps hcur3.space.drive (.refl hcur3.space)
    (Nat.zero_add n.blocks) fun _ _ _ => List.not_mem_nil
  have hblocks : (List.range n.blocks).map (addrOf (K1.tick.store cur 208 (n.unlinked t).encode).vol.bytes (n.unlinked t)) =
      (List.range n.blocks).map (addrOf K.vol.bytes n) := by
    refine List.map_congr_left fun i hi => ?_
    have hi' := List.mem_range.mp hi
    rw [SameMap.unlinked.addr, haddr3 i hi', (hkept i hi').1]
  rw [List.append_nil, ← List.range_eq_range'] at hrel
  obtain ⟨hfree, hunused, hsp, horder, hconf⟩ := clear_space hcur3.toMapAt hrel (List.reverse_perm _)
  have hstamp : Confined z (· = cur) K1 own1 (K1.tick.store cur 208 (n.unlinked t).encode) own1 :=
    Confined.bytes hk3 fun x hx => touch_slot rfl hx.1 (by omega)
  have hall := (hsh.confined.mono fun c (hc : c = par) => (Or.inl hc : c = par ∨ c = cur)).trans
    ((hstamp.trans hconf).mono fun c hc => Or.inr hc)
  refine ⟨_, _, ps4, hr.bind ?_, ⟨hunused, hsp.list, ?_, hall⟩, hsp, hstamp.trans hconf, fun k hk => ?_⟩
  · rw [if_neg (by decide)]
    refine globals_runs.bind (environ_runs.bind (hcur1.fetch.bind (hsh.inode.fetch.bind (getCurrentTimeInNsec_runs.bind ?_))))
    rw [ht, hl, hlinks]
    refine hcommit.bind ?_
    simp only [if_true, hf, Bool.false_eq_true, if_false]
    exact hloop.bind (hfree.bind Runs.pure)
  · refine horder.trans ?_
    change ((List.range n.blocks).map _ ++ _).Perm _
    rw [hblocks, hord3, hord2]
    exact hsh.free.append_left _
  · rw [store_bytes, put_in (by omega) (by omega)]
    rfl

theorem unlinkFrom_file : (∀ f < q.size / 256, Seen f → childOf K.vol.bytes q f ≠ cur) ∧ Runs K (unlinkFrom par cur) (-1) K ∨
    ∃ K' own' ps', Runs K (unlinkFrom par cur) 0 K' ∧ Deleted z par cur K own ps q n K' own' ps' := by
  have hlow := hcur.low
  rcases removeLink_cases hpar hq (show cur ≠ 0 by omega) with ⟨hno, hr⟩ | ⟨K1, own1, ps1, q1, hr, hsh⟩
  · exact Or.inl ⟨hno, hr.bind Runs.pure⟩
  · obtain ⟨K', own', ps', hrun, hdel, -⟩ := unlinkFrom_after hcur hb hl hf hr hsh
    exact Or.inr ⟨K', own', ps', hrun, hdel⟩

/-- In a directory that is being deleted the inode is not committed again. -/
theorem subUnlink_file (stack : Nat) :
    (∀ f < q.size / 256, Seen f → childOf K.vol.bytes q f ≠ cur) ∧ Runs K (subUnlink (stack + 1) par cur) (-1) K ∨
    ∃ K' own' ps', Runs K (subUnlink (stack + 1) par cur) 0 K' ∧ Deleted z par cur K own ps q n K' own' ps' := by
  have hlow := hcur.low
  have hplow := hpar.low
  unfold subUnlink
  rw [if_neg (by omega)]
  rcases removeLink_cases hpar hq (show cur ≠ 0 by omega) with ⟨hno, hr⟩ | ⟨K1, own1, ps1, q1, hr, hsh⟩
  · exact Or.inl ⟨hno, hr.bind Runs.pure⟩
  refine Or.inr ?_
  obtain ⟨hcur1, hkept⟩ := hcur.other hsh.confined hsh.inode.space fun c hc => hc ▸ hb
  have hlinks : (1 + (2 ^ 32 - 1)) % 2 ^ 32 = 0 := by decide
  have hm2 : MapAt z K1 own1 ps1 cur { n with links := 0 } := hcur1.toMapAt.sameMap ⟨rfl, fun _ => rfl⟩
  obtain ⟨K4, ps4, hloop, hrel⟩ := freeBlocksDown_runs hm2.space hm2.maps hm2.space.drive (.refl hm2.space)
    (Nat.le_refl _) fun _ _ => List.not_mem_nil
  have hblocks : (List.range n.blocks).map (addrOf K1.vol.bytes { n with links := 0 }) =
      (List.range n.blocks).map (addrOf K.vol.bytes n) := List.map_congr_left fun i hi =>
    (addrOf_root fun _ => rfl).trans (hkept i (List.mem_range.mp hi)).1
  rw [List.append_nil] at hrel
  obtain ⟨hfree, hunused, hlist, horder, hconf⟩ := clear_runs hm2 hrel (.refl _)
  have hall := (hsh.confined.mono fun c (hc : c = par) => (Or.inl hc : c = par ∨ c = cur)).trans
    (hconf.mono fun c hc => Or.inr hc)
  refine ⟨_, _, ps4, hr.bind ?_, hunused, hlist, ?_, hall⟩
  · rw [if_neg (by decide)]
    refine globals_runs.bind (hsh.inode.fetch.bind (hcur1.fetch.bind ?_))
    rw [hl, hlinks]
    simp only [if_true, hf, Bool.false_eq_true, if_false]
    exact hloop.bind (hfree.bind Runs.pure)
  · refine horder.trans ?_
    change ((List.range n.blocks).map _ ++ _).Perm _
    rw [hblocks]
    exact hsh.free.append_left _

end

/-! ## The index pages -/

def Node.NoPages (n : Node) : Prop := n.indirectBlocks = 0 ∧ n.dblIndirect = 0 ∧ n.trplIndirect = 0

theorem Node.NoPages.root (h : n.NoPages) {j : Nat} (hj : 12 ≤ j) : n.root j = 0 := by
  obtain ⟨h1, h2, h3⟩ := h
  rw [Node.root, if_neg (by omega)]
  split
  · exact h1
  split
  · exact h2
  · exact h3

theorem Node.NoPages.pageOf (h : n.NoPages) {m : Mem} {b : Nat} : ¬ PageOf m n b := by
  rintro ⟨h0, j, path, hj, -, -, rfl⟩
  rw [blockAt, h.root hj] at h0
  exact h0 (walk_zero fun _ => slot_zero)

/-- The roots of the trees are index pages. -/
theorem noPages_of_pageOf {m : Mem} (h : ∀ b, ¬ PageOf m n b) : n.NoPages := by
  have hroot : ∀ j, 12 ≤ j → j ≤ 14 → n.root j = 0 := by
    intro j hj hj'
    by_contra h0
    refine h (n.root j) ⟨h0, j, [], hj, ⟨by omega, Nat.zero_le _, by simp⟩, ?_, rfl⟩
    show 0 < j - 11
    omega
  exact ⟨hroot 12 (by decide) (by decide), hroot 13 (by decide) (by decide), hroot 14 (by decide) (by decide)⟩

theorem Deleted.reclaimed_iff (h : Deleted z par cur K own ps q n K' own' ps') (hpar : InodeAt z K own ps par q) (hq : Packed K q)
    (hcur : InodeAt z K own ps cur n) : (∃ ps1, Reclaimed cur K ps q n K' ps1) ↔ n.NoPages := by
  have hceil := hq.ceil
  have hmem : ∀ b, b ∈ freeOrder K' ps' ↔ (∃ i < n.blocks, addrOf K.vol.bytes n i = b) ∨
      q.size % 4096 = 256 ∧ b = addrOf K.vol.bytes q (q.blocks - 1) ∨ b ∈ freeOrder K ps := by
    intro b
    rw [h.order.mem_iff, List.mem_append, List.mem_map]
    simp only [List.mem_range]
    split
    · rename_i hm
      simp [hm]
    · rename_i hm
      simp [hm]
  constructor
  · rintro ⟨ps1, hrec⟩
    obtain rfl := hrec.list.unique h.list
    refine noPages_of_pageOf (m := K.vol.bytes) fun b hb => ?_
    obtain ⟨h0, j, path, hj, hp, hd, rfl⟩ := id hb
    have hown := hcur.maps.page j path hj hp hd h0
    rcases (hmem _).mp ((hrec.free _).mpr (Or.inr (Or.inr (Or.inl hb)))) with ⟨i, hi, e⟩ | ⟨hm, e⟩ | hf
    · rw [← e, hcur.maps.data i hi] at hown
      cases hown
    · rw [e, hpar.maps.data _ (by omega)] at hown
      cases hown
    · exact hcur.space.owned_notFree hown hf
  · intro hno
    refine ⟨ps', h.unused, h.list, fun b => ?_⟩
    rw [hmem b]
    constructor
    · rintro (hd | hl | hf)
      · exact Or.inr (Or.inl hd)
      · exact Or.inr (Or.inr (Or.inr hl))
      · exact Or.inl hf
    · rintro (hf | hd | hpg | hl)
      · exact Or.inr (Or.inr hf)
      · exact Or.inl hd
      · exact absurd hpg hno.pageOf
      · exact Or.inr (Or.inl hl)

/-- Where the parent has an entry in reach, the call returns 0. -/
theorem unlink_file_deleted (h : Sound z s.vol own ps) (hps : IsSlot z.lo par) (hpu : InUse s.vol.bytes par)
    (hpd : isDir (nodeAt s.vol.bytes par).mode) (hcs : IsSlot z.lo cur) (hcu : InUse s.vol.bytes cur)
    (hcf : isDir (nodeAt s.vol.bytes cur).mode = false) (hcl : (nodeAt s.vol.bytes cur).links = 1) {e : Nat}
    (he : e < (nodeAt s.vol.bytes par).size / 256) (hseen : Seen e) (hchild : childOf s.vol.bytes (nodeAt s.vol.bytes par) e = cur)
    (hf : Found path s0 par cur s) : ∃ s' own' ps', tfsUnlink path s0 = some (0, s') ∧
      Deleted z par cur (.all s.vol) own ps (nodeAt s.vol.bytes par) (nodeAt s.vol.bytes cur) (.all s'.vol) own' ps' := by
  have hplow := hps.low
  have hclow := hcs.low
  have hne : par ≠ cur := fun e => by rw [e, hcf] at hpd; cases hpd
  rw [hf.unlink (by omega) (by omega)]
  rcases unlinkFrom_file (h.inode hps hpu) (h.dirs par hps hpu hpd).toPacked (h.inode hcs hcu) (h.beside hcs hps hne) hcl hcf with
    ⟨hno, -⟩ | ⟨K', own', ps', hr, hdel⟩
  · exact absurd hchild (hno e he hseen)
  · obtain ⟨s', hs', hK⟩ := hr.exec (holds_all.mpr rfl)
    obtain rfl := hdel.confined.keeps.all hK
    exact ⟨s', own', ps', hs', hdel⟩

/-- Both functions are right exactly for files without index pages. `s` is the state the
    lookups of the path leave. -/
theorem unlink_file_iff (h : Sound z s.vol own ps) (hps : IsSlot z.lo par) (hpu : InUse s.vol.bytes par)
    (hpd : isDir (nodeAt s.vol.bytes par).mode) (hcs : IsSlot z.lo cur) (hcu : InUse s.vol.bytes cur)
    (hcf : isDir (nodeAt s.vol.bytes cur).mode = false) (hcl : (nodeAt s.vol.bytes cur).links = 1) :
    (∀ path s0 s', Found path s0 par cur s → tfsUnlink path s0 = some (0, s') →
      ((∃ ps', Reclaimed cur (.all s.vol) ps (nodeAt s.vol.bytes par) (nodeAt s.vol.bytes cur) (.all s'.vol) ps') ↔
        (nodeAt s.vol.bytes cur).NoPages)) ∧
    ∀ stack s', subUnlink stack par cur s = some (0, s') →
      ((∃ ps', Reclaimed cur (.all s.vol) ps (nodeAt s.vol.bytes par) (nodeAt s.vol.bytes cur) (.all s'.vol) ps') ↔
        (nodeAt s.vol.bytes cur).NoPages) := by
  have hplow := hps.low
  have hclow := hcs.low
  have hne : par ≠ cur := fun e => by rw [e, hcf] at hpd; cases hpd
  have hpar := h.inode hps hpu
  have hq := (h.dirs par hps hpu hpd).toPacked
  have hcur := h.inode hcs hcu
  have hb := h.beside hcs hps hne
  -- what either call leaves
  have hcall : ∀ {c : M Int} {s' : Sys} {P : Prop}, c s = some (0, s') → (P ∧ Runs (.all s.vol) c (-1) (.all s.vol) ∨
      ∃ K' own' ps', Runs (.all s.vol) c 0 K' ∧ Deleted z par cur (.all s.vol) own ps (nodeAt s.vol.bytes par)
        (nodeAt s.vol.bytes cur) K' own' ps') →
      ((∃ ps', Reclaimed cur (.all s.vol) ps (nodeAt s.vol.bytes par) (nodeAt s.vol.bytes cur) (.all s'.vol) ps') ↔
        (nodeAt s.vol.bytes cur).NoPages) := by
    rintro c s' P hret (⟨-, hr⟩ | ⟨K', own', ps', hr, hdel⟩)
    · obtain ⟨s1, hs1, -⟩ := hr.exec (holds_all.mpr rfl)
      have := (Prod.mk.inj (Option.some.inj (hs1.symm.trans hret))).1
      omega
    · obtain ⟨s1, hs1, hK⟩ := hr.exec (holds_all.mpr rfl)
      obtain ⟨-, rfl⟩ := Prod.mk.inj (Option.some.inj (hs1.symm.trans hret))
      obtain rfl := hdel.confined.keeps.all hK
      exact hdel.reclaimed_iff hpar hq hcur
  constructor
  · intro path s0 s' hf hret
    rw [hf.unlink (by omega) (by omega)] at hret
    exact hcall hret (unlinkFrom_file hpar hq hcur hb hcl hcf)
  · intro stack s' hret
    cases stack with
    | zero => cases hret
    | succ stack => exact hcall hret (subUnlink_file hpar hq hcur hb hcl hcf stack)

/-! ## A file in the root directory -/

section
variable {blocks head : Nat} {h : blocks < 2 ^ 52} {data : Mem}

theorem fileSys_root : nodeAt (fileSys blocks h head n data).vol.bytes 4096 = rootDir [([70], 4352)] ∧
    childOf (fileSys blocks h head n data).vol.bytes (rootDir [([70], 4352)]) 0 = 4352 := by
  obtain ⟨hroot, -, hent⟩ : nodeAt (fileSys blocks h head n data).vol.bytes 4096 = rootDir [([70], 4352)] ∧
      Packed (.all (fileSys blocks h head n data).vol) (rootDir [([70], 4352)]) ∧ _ :=
    rootSys_root (by decide) (List.cons_ne_nil _ _) (oneName 4352)
  exact ⟨hroot, (hent 0 (by decide) (by decide)).2⟩

/-- The lookups find it, and the call that deletes it returns 0. -/
theorem fileSys_deleted (hs : Sound ⟨8192, 4096 * blocks⟩ (fileSys blocks h head n data).vol own ps)
    (hu : InUse (fileSys blocks h head n data).vol.bytes 4352) (hf : n.Fits) (hl : n.links = 1) (hd : isDir n.mode = false) :
    ∃ s s' own' ps', s.vol = (fileSys blocks h head n data).vol ∧ Found [47, 70] (fileSys blocks h head n data) 4096 4352 s ∧
      tfsUnlink [47, 70] (fileSys blocks h head n data) = some (0, s') ∧
      Deleted ⟨8192, 4096 * blocks⟩ 4096 4352 (.all (fileSys blocks h head n data).vol) own ps (rootDir [([70], 4352)]) n
        (.all s'.vol) own' ps' := by
  obtain ⟨par, s, hsv, hfound, hpar, -⟩ : ∃ par s, s.vol = (fileSys blocks h head n data).vol ∧
      Found [47, 70] (fileSys blocks h head n data) par 4352 s ∧ _ :=
    Found.of_searches hs (by decide) rfl (List.cons_ne_nil _ _) fileSys_resolve.1 fileSys_resolve.2
  obtain rfl : 4096 = par := Option.some.inj hpar
  have hnode : nodeAt (fileSys blocks h head n data).vol.bytes 4352 = n := fileSys_node hf
  obtain ⟨hroot, hchild⟩ : nodeAt (fileSys blocks h head n data).vol.bytes 4096 = rootDir [([70], 4352)] ∧
      childOf (fileSys blocks h head n data).vol.bytes (rootDir [([70], 4352)]) 0 = 4352 := fileSys_root
  obtain ⟨hr1, hr2, hr3⟩ : IsSlot 8192 4096 ∧ InUse (fileSys blocks h head n data).vol.bytes 4096 ∧ _ := hs.root
  have hdel := unlink_file_deleted (s := s) (hsv ▸ hs) hr1 (hsv ▸ hr2) (by rw [hsv]; exact hr3) slotF (hsv ▸ hu)
    (by rw [hsv, hnode]; exact hd) (by rw [hsv, hnode]; exact hl) (e := 0) (by rw [hsv, hroot]; decide) (by decide)
    (by rw [hsv, hroot]; exact hchild) hfound
  rw [hsv, hroot, hnode] at hdel
  obtain ⟨s', own', ps', h1, h2⟩ := hdel
  exact ⟨s, s', own', ps', hsv, hfound, h1, h2⟩

end

/-- A file of one block. -/
theorem unlink_file_one : ∃ s', tfsUnlink [47, 70] (fullSys 1 (by decide)) = some (0, s') ∧
    ∃ ps', Reclaimed 4352 (.all (fullSys 1 (by decide)).vol) [] (rootDir [([70], 4352)]) (fullNode 1) (.all s'.vol) ps' := by
  obtain ⟨hs, hu⟩ := fullSys_sound (t := 1) (h := by decide) (by decide)
  have hnode : nodeAt (fullSys 1 (by decide)).vol.bytes 4352 = fullNode 1 := fileSys_node (fullNode_fits (by decide))
  obtain ⟨hroot, -⟩ : nodeAt (fullSys 1 (by decide)).vol.bytes 4096 = rootDir [([70], 4352)] ∧ _ := fileSys_root
  have hd : isDir (fullNode 1).mode = false := by show isDir 0x81A4 = false; decide
  obtain ⟨s, s', own', ps', hsv, hfound, hret, -⟩ : ∃ s s' own' ps', s.vol = (fullSys 1 (by decide)).vol ∧
      Found [47, 70] (fullSys 1 (by decide)) 4096 4352 s ∧ tfsUnlink [47, 70] (fullSys 1 (by decide)) = some (0, s') ∧
      Deleted ⟨8192, 4096 * (3 + 1)⟩ 4096 4352 (.all (fullSys 1 (by decide)).vol) (fileOwn 1) [] (rootDir [([70], 4352)]) (fullNode 1)
        (.all s'.vol) own' ps' := fileSys_deleted hs hu (fullNode_fits (by decide)) rfl hd
  obtain ⟨hr1, hr2, hr3⟩ : IsSlot 8192 4096 ∧ InUse (fullSys 1 (by decide)).vol.bytes 4096 ∧ _ := hs.root
  have hiff := (unlink_file_iff (s := s) (hsv ▸ hs) hr1 (hsv ▸ hr2) (by rw [hsv]; exact hr3) slotF (hsv ▸ hu) (by rw [hsv, hnode]; exact hd) (by rw [hsv, hnode]; rfl)).1 _ _ s' hfound hret
  rw [hsv, hroot, hnode] at hiff
  exact ⟨s', hret, hiff.mpr (plainNode_indirect _ _ _ _ _)⟩

/-! A file of 13 blocks: 12 follow the directory's, then comes its index page, then the
last one. -/

def pageNode : Node := { plainNode 0x81A4 (4096 * 13) 13 12288 1 with indirectBlocks := 61440 }

def pageSys : Sys := fileSys 17 (by decide) 0 pageNode (putWord zeros 61440 65536)

def pageOwn (c : Nat) : Option Pos :=
  if c = 61440 then some (.page 4352 12 []) else if c = 65536 then some (.data 4352 12) else fileOwn 12 c

theorem pageNode_fits : pageNode.Fits := by
  have h : (plainNode 0x81A4 (4096 * 13) 13 12288 1).Fits :=
    plainNode_fits (by decide) (by decide) (by decide) (by decide) (by decide)
  exact { h with indirectBlocks := show 61440 < 2 ^ 64 by decide }

theorem pageSys_space : Space ⟨8192, 4096 * 17⟩ (.all pageSys.vol) pageOwn [] := by
  refine fileSys_full (by decide) fun c hc => ?_
  unfold pageOwn at hc
  split at hc
  · rename_i h
    subst h
    exact ⟨by decide, show 8192 ≤ 61440 by decide, show 61440 + 4096 ≤ 4096 * 17 by decide⟩
  split at hc
  · rename_i h
    subst h
    exact ⟨by decide, show 8192 ≤ 65536 by decide, show 65536 + 4096 ≤ 4096 * 17 by decide⟩
  · exact fileOwn_has (by decide) c hc

theorem pageSys_maps : Maps (.all pageSys.vol) pageOwn 4352 pageNode := by
  have hblocks : pageNode.blocks = 13 := rfl
  have hdirect : ∀ i < 12, (plainNode 0x81A4 (4096 * 13) 13 12288 1).direct i = 12288 + 4096 * i := fun i hi =>
    plainNode_direct hi (by omega)
  obtain ⟨-, hdbl, htrpl⟩ := plainNode_indirect 0x81A4 (4096 * 13) 13 12288 1
  have hroot : ∀ j, 13 ≤ j → pageNode.root j = 0 := by
    intro j hj
    rw [Node.root, if_neg (by omega), if_neg (by omega)]
    split
    · exact hdbl
    · exact htrpl
  have hat : ∀ j path, 13 ≤ j → blockAt pageSys.vol.bytes pageNode j path = 0 := fun j path hj => by
    rw [blockAt, hroot j hj]
    exact walk_zero fun _ => slot_zero
  have hlast : addrOf pageSys.vol.bytes pageNode 12 = 65536 := by
    show slot pageSys.vol.bytes 61440 0 = 65536
    have hword : word pageSys.vol.bytes 61440 = word (putWord zeros 61440 65536) 61440 :=
      word_congr fun k hk => fileSys_data (h := by decide) (by omega)
    rw [slot_of_ne (by decide), Nat.mul_zero, Nat.add_zero, hword]
    exact word_putWord (by decide)
  refine ⟨by rw [hblocks]; decide, fun i hi => ?_, fun j path hj hp hl h0 => ?_, fun _ _ _ _ _ _ => View.Sees.all _ _ _,
    fun _ _ _ _ _ => View.Sees.all _ _ _⟩
  · rw [hblocks] at hi
    by_cases h12 : i < 12
    · rw [all_vol, addrOf_direct h12, show pageNode.direct i = 12288 + 4096 * i from hdirect i h12, pageOwn,
        if_neg (by omega), if_neg (by omega)]
      exact fileOwn_data h12
    · obtain rfl : i = 12 := by omega
      rw [all_vol, hlast]
      rfl
  · by_cases hj13 : 13 ≤ j
    · exact absurd (hat j path hj13) h0
    · obtain rfl : j = 12 := by omega
      obtain rfl : path = [] := List.length_eq_zero_iff.mp (by
        change path.length < 1 at hl
        omega)
      rfl

/-- Its index page is lost. -/
theorem unlink_file_thirteen : Sound ⟨8192, 4096 * 17⟩ pageSys.vol pageOwn [] ∧ nodeAt pageSys.vol.bytes 4352 = pageNode ∧
    pageNode.links = 1 ∧ isDir pageNode.mode = false ∧ ∃ s s', s.vol = pageSys.vol ∧ Found [47, 70] pageSys 4096 4352 s ∧
      tfsUnlink [47, 70] pageSys = some (0, s') ∧
      ¬ ∃ ps', Reclaimed 4352 (.all pageSys.vol) [] (rootDir [([70], 4352)]) pageNode (.all s'.vol) ps' := by
  have hd : isDir pageNode.mode = false := by show isDir 0x81A4 = false; decide
  obtain ⟨hs, hu⟩ : Sound ⟨8192, 4096 * 17⟩ pageSys.vol pageOwn [] ∧ InUse pageSys.vol.bytes 4352 :=
    fileSys_sound pageSys_space (by decide) rfl pageNode_fits (by show 0x81A4 ≠ 0; decide) hd pageSys_maps (Nat.le_refl _)
  have hnode : nodeAt pageSys.vol.bytes 4352 = pageNode := fileSys_node pageNode_fits
  obtain ⟨hroot, -⟩ : nodeAt pageSys.vol.bytes 4096 = rootDir [([70], 4352)] ∧ _ := fileSys_root
  obtain ⟨s, s', own', ps', hsv, hfound, hret, hdel⟩ : ∃ s s' own' ps', s.vol = pageSys.vol ∧ Found [47, 70] pageSys 4096 4352 s ∧
      tfsUnlink [47, 70] pageSys = some (0, s') ∧ Deleted ⟨8192, 4096 * 17⟩ 4096 4352 (.all pageSys.vol) pageOwn []
        (rootDir [([70], 4352)]) pageNode (.all s'.vol) own' ps' := fileSys_deleted hs hu pageNode_fits rfl hd
  refine ⟨hs, hnode, rfl, hd, s, s', hsv, hfound, hret, fun hrec => ?_⟩
  obtain ⟨hr1, hr2, hr3⟩ : IsSlot 8192 4096 ∧ InUse pageSys.vol.bytes 4096 ∧ isDir (nodeAt pageSys.vol.bytes 4096).mode := hs.root
  have hpar := hs.inode hr1 hr2
  have hq := (hs.dirs 4096 hr1 hr2 hr3).toPacked
  have hcur := hs.inode slotF hu
  rw [hroot] at hpar hq
  rw [hnode] at hcur
  exact absurd ((hdel.reclaimed_iff hpar hq hcur).mp hrec).1 (show ¬ 61440 = 0 by decide)

end TyrantFS

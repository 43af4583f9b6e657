/-
  TyrantFS.Fuse.Runs — the calls, one after the other.

  Every allowed call on a disk in order ends, and does what the abstract file system may
  do (`Kept.does`). A run is a sequence of calls and mounts; from a device that was
  formatted every run is a run of the abstract file system (`run_refines`), and what holds
  of every disk in order holds in every state that is reached (`Reached.kept`).
-/
import TyrantFS.Fuse.Spec
import TyrantFS.Fuse.Files
import TyrantFS.Fuse.Names
import TyrantFS.Fuse.Mount
import TyrantFS.Lib.Simulation

namespace TyrantFS

open Lib Lib.PageTree Lib.Store

variable {z : Zone} {own : Nat → Option Pos} {ps : List Nat} {s s' : Sys} {c : Call} {path before name data newName : List UInt8} {a : Nat}

/-- The call, as the code answers it. -/
def Call.run : Call → M Reply
  | .getattr path => (fun r => { answer r.1 with stat := r.2 }) <$> tfsGetattr path
  | .readdir path => (fun r => { answer r.1 with names := r.2 }) <$> tfsReaddir path
  | .openFile path flags => answer <$> tfsOpen path flags
  | .read path buff size offset => (fun r => { answer r.1 with bytes := r.2 }) <$> tfsRead path buff size offset
  | .write path data offset => answer <$> tfsWrite path (fun k => data.getD k 0) data.length offset
  | .truncate path length => answer <$> tfsTruncate path length
  | .mknod path m => answer <$> tfsMknod path m
  | .mkdir path m => answer <$> tfsMkdir path m
  | .unlink path => answer <$> tfsUnlink path
  | .rename path newName => answer <$> tfsRename path newName
  | .utime path actime modtime => answer <$> tfsUtime path actime modtime
  | .chmod path m => answer <$> tfsChmod path m
  | .chown path owner group => answer <$> tfsChown path owner group
  | .flush path => answer <$> tfsFlush path

/-! ## One call -/

theorem Yields.map {α β : Type} {x : M α} {r : α} {t : FileTree} {P : Prop} (g : α → β) (h : Yields z x s r t P) :
    Yields z (g <$> x) s (g r) t P := by
  obtain ⟨s', own', ps', hrun, hrest⟩ := h
  refine ⟨s', own', ps', ?_, hrest⟩
  show (StateT.map g x) s = _
  unfold StateT.map
  rw [hrun]
  rfl

theorem Yields.mono {α : Type} {x : M α} {r : α} {t : FileTree} {P Q : Prop} (h : Yields z x s r t P) (hPQ : Q → P) :
    Yields z x s r t Q := by
  obtain ⟨s', own', ps', hrun, hk, hdev, ht, hw⟩ := h
  exact ⟨s', own', ps', hrun, hk, hdev, ht, fun hq => hw (hPQ hq)⟩

/-- The calls that lose no block. Of the blocks that a file is cut off `tfs_truncate` gives
    back half, rounded up, and `tfs_unlink` never gives back an index page. -/
def Call.Saves (v : Vol) : Call → Prop
  | .truncate path length => ∀ a, v.fs.At path a → (nodeAt v.bytes a).blocks ≤ length / 4096 + 2
  | .unlink path => ∀ a, v.fs.At path a → (nodeAt v.bytes a).root 12 = 0
  | _ => True

/-- The call does what the abstract file system may do. -/
def Serving (z : Zone) (s : Sys) (c : Call) : Prop :=
  ∃ r t, Yields z c.run s r t (c.Saves s.vol) ∧ Does s.vol.fs c r (s.vol.fs.with t)

theorem Yields.serving {r : Reply} {t : FileTree} (h : Yields z c.run s r t) (hd : Does s.vol.fs c r (s.vol.fs.with t)) :
    Serving z s c := ⟨r, t, h.mono fun _ => trivial, hd⟩

/-- The directory of what is there. -/
theorem Fs.At.parent {f : Fs} {x : List UInt8} {e : Nat} (hat : f.At path e) (hl : splitLast path = some (before, x)) (hx0 : x ≠ []) :
    ∃ d, f.At before d ∧ (x, e) ∈ f.tree.entries d := by
  rw [Fs.At, tokens_splitLast hl hx0] at hat
  obtain ⟨d, hd, hx⟩ := leads_append.mp hat
  exact ⟨d, hd, leads_single.mp hx⟩

theorem range_getD {k : Nat} (hk : k ≤ data.length) : (List.range k).map (fun i => data.getD i 0) = data.take k := by
  refine List.ext_getElem (by simp [hk]) fun i h1 h2 => ?_
  rw [List.length_map, List.length_range] at h1
  rw [List.getElem_map, List.getElem_range, List.getElem_take, List.getD_eq_getElem _ _ (by omega)]

section
variable (h : Kept z s.vol own ps)

include h

/-- The inode as `tfs_getattr` reports it. -/
theorem Kept.describes (ha : IsSlot z.lo a) (hu : InUse s.vol.bytes a) :
    Describes (objOf s.vol.bytes (nodeAt s.vol.bytes a)) a (statOf a (nodeAt s.vol.bytes a)) := by
  have hg := h.good a ha hu
  have hlow := ha.low
  have hhigh := h.slot_high ha
  have hin := h.high
  have hlt := s.vol.size_lt
  refine ⟨?_, rfl, hg.links, ?_⟩
  · show u64 (↑a - 4096) / 256 = (a - 4096) / 256
    rw [show (↑a - 4096 : Int) = ((a - 4096 : Nat) : Int) by omega, u64_ofNat (by omega)]
  · show (nodeAt s.vol.bytes a).size = _
    rw [objOf]
    split
    · rename_i hb
      split at hb
      · rename_i hd
        have hdir := hg.dir hd
        have h2 := hdir.two
        have hwhole := hdir.packed.whole
        obtain rfl := Body.dir.inj hb
        rw [List.length_drop, length_entries]
        omega
      · cases hb
    · rename_i hb
      split at hb
      · cases hb
      · obtain rfl := Body.file.inj hb
        exact length_contents.symm

/-- The path is not there. -/
theorem Kept.missing {α : Type} {g : α → Reply} {r : α} {f : Nat → M α} (htarget : c.target = some path)
    (hno : ∀ a, ¬ s.vol.fs.At path a) (hfind : Runs (.all s.vol) (findPathNode path) 0 (.all s.vol))
    (hrun : c.run = g <$> (do
      let cur ← findPathNode path
      if cur = 0 then pure r else f cur)) (hr : g r = answer (-2)) : Serving z s c := by
  refine ⟨answer (-2), s.vol.tree, ?_, .missing c path htarget hno⟩
  rw [hrun, ← hr]
  exact (h.yields_same (find_missing hfind)).map g

variable (hh : Home s.vol)

include hh

/-- What `find_path_node` answers. -/
theorem Kept.at (hp : s.vol.fs.Path path) :
    (∃ a, s.vol.fs.At path a ∧ IsSlot z.lo a ∧ InUse s.vol.bytes a ∧ Runs (.all s.vol) (findPathNode path) a (.all s.vol)) ∨
      (∀ a, ¬ s.vol.fs.At path a) ∧ Runs (.all s.vol) (findPathNode path) 0 (.all s.vol) := by
  have hfind := h.find hp.plain (by rw [hh.root]; exact hp.walkable)
  rw [hh.root] at hfind
  exact hfind

theorem Kept.does_getattr (hp : s.vol.fs.Allowed (.getattr path)) : Serving z s (.getattr path) := by
  rcases h.at hh hp with ⟨a, hat, ha, hu, hfind⟩ | ⟨hno, hfind⟩
  · exact ((tfsGetattr_yields h ha hu hfind).map _).serving (.getattr path a _ _ hat (h.tree_some ha hu) (h.describes ha hu))
  · exact h.missing rfl hno hfind rfl rfl

theorem Kept.does_open {flags : Nat} (hp : s.vol.fs.Allowed (.openFile path flags)) : Serving z s (.openFile path flags) := by
  rcases h.at hh hp with ⟨a, hat, ha, hu, hfind⟩ | ⟨hno, hfind⟩
  · exact ((tfsOpen_yields h ha hu hfind).map _).serving (.openFile path flags a _ hat (h.tree_some ha hu))
  · exact h.missing rfl hno hfind rfl rfl

theorem Kept.does_utime {actime modtime : Int} (hp : s.vol.fs.Allowed (.utime path actime modtime)) :
    Serving z s (.utime path actime modtime) := by
  rcases h.at hh hp with ⟨a, hat, ha, hu, hfind⟩ | ⟨hno, hfind⟩
  · exact ((tfsUtime_yields h ha hu hfind).map _).serving (.utime path actime modtime a hat)
  · exact h.missing rfl hno hfind rfl rfl

theorem Kept.does_chown {owner group : UInt32} (hp : s.vol.fs.Allowed (.chown path owner group)) :
    Serving z s (.chown path owner group) := by
  rcases h.at hh hp with ⟨a, hat, ha, hu, hfind⟩ | ⟨hno, hfind⟩
  · exact ((tfsChown_yields h ha hu hfind).map _).serving (.chown path owner group a _ _ hat (h.tree_some ha hu))
  · exact h.missing rfl hno hfind rfl rfl

theorem Kept.does_chmod {m : UInt32} (hc : s.vol.fs.Allowed (.chmod path m)) : Serving z s (.chmod path m) := by
  obtain ⟨hp, h0, hd⟩ := hc
  rcases h.at hh hp with ⟨a, hat, ha, hu, hfind⟩ | ⟨hno, hfind⟩
  · have ht := h.tree_some ha hu
    have hdir : s.vol.tree.IsDir a ↔ isDir (nodeAt s.vol.bytes a).mode :=
      ⟨fun hd => (h.dir_of_tree hd).2.2, fun hd => (h.entries_tree ha hu hd).1⟩
    have hsame : isDir m.toNat = isDir (nodeAt s.vol.bytes a).mode := Bool.eq_iff_iff.mpr ((hd a hat).symm.trans hdir)
    exact ((tfsChmod_yields h ha hu hfind h0 hsame).map _).serving (.chmod path m a _ _ hat ht)
  · exact h.missing rfl hno hfind rfl rfl

theorem Kept.does_readdir (hc : s.vol.fs.Allowed (.readdir path)) : Serving z s (.readdir path) := by
  obtain ⟨hp, hd⟩ := hc
  rcases h.at hh hp with ⟨a, hat, ha, hu, hfind⟩ | ⟨hno, hfind⟩
  · exact ((tfsReaddir_yields h ha hu hfind (h.dir_of_tree (hd a hat)).2.2).map _).serving (.readdir path a hat (hd a hat))
  · exact h.missing rfl hno hfind rfl rfl

theorem Kept.does_read {buff : Mem} {size offset : Nat} (hc : s.vol.fs.Allowed (.read path buff size offset)) :
    Serving z s (.read path buff size offset) := by
  obtain ⟨hp, hf, hsize, hsum⟩ := hc
  rcases h.at hh hp with ⟨a, hat, ha, hu, hfind⟩ | ⟨hno, hfind⟩
  · obtain ⟨w, bs, ht⟩ := hf a hat
    by_cases hoff : offset < bs.length
    · exact ((tfsRead_yields h ha hu hfind ht hoff hsize hsum).map _).serving (.read path buff size offset a w bs hat ht hoff)
    · exact ((tfsRead_yields_end h ha hu hfind ht (Nat.le_of_not_lt hoff)).map _).serving
        (.readEnd path buff size offset a w bs hat ht (Nat.le_of_not_lt hoff))
  · exact h.missing rfl hno hfind rfl rfl

theorem Kept.does_write {offset : Nat} (hc : s.vol.fs.Allowed (.write path data offset)) : Serving z s (.write path data offset) := by
  obtain ⟨hp, hf, hmax⟩ := hc
  rcases h.at hh hp with ⟨a, hat, ha, hu, hfind⟩ | ⟨hno, hfind⟩
  · obtain ⟨w, bs, ht, hoff⟩ := hf a hat
    obtain ⟨k, hk, hy, -⟩ : ∃ k ≤ data.length, Yields z (tfsWrite path (fun k => data.getD k 0) data.length offset) s (k : Nat) _ ∧ _ :=
      tfsWrite_yields h ha hu hfind ht hoff (by omega) hmax
    rw [range_getD hk] at hy
    exact (hy.map answer).serving (.write path data offset a w bs k hat ht hoff hk)
  · exact h.missing rfl hno hfind rfl rfl

theorem Kept.does_truncate {length : Nat} (hc : s.vol.fs.Allowed (.truncate path length)) : Serving z s (.truncate path length) := by
  obtain ⟨hp, hf, hlt⟩ := hc
  rcases h.at hh hp with ⟨a, hat, ha, hu, hfind⟩ | ⟨hno, hfind⟩
  · obtain ⟨w, bs, ht⟩ := hf a hat
    have hd := Does.truncate path length a w bs hat ht
    by_cases hlen : length < bs.length
    · exact ⟨_, _, ((tfsTruncate_yields h ha hu hfind ht hlen).map answer).mono fun hs => hs a hat, hd⟩
    · -- nothing is cut off
      rw [List.take_of_length_le (Nat.le_of_not_lt hlen), setBody_same ht] at hd
      exact ((tfsTruncate_yields_short h ha hu hfind ht (Nat.le_of_not_lt hlen) (by omega)).map answer).serving hd
  · exact h.missing rfl hno hfind rfl rfl

/-- There is no directory for a new object. -/
theorem Kept.no_parent (hl : splitLast path = some (before, name)) (hp : s.vol.fs.Path before) (hno : ∀ d, ¬ s.vol.fs.At before d)
    (htarget : c.target = (splitLast path).map Prod.fst) :
    Runs (.all s.vol) (findParent before) 0 (.all s.vol) ∧ Does s.vol.fs c (answer (-2)) s.vol.fs := by
  refine ⟨h.parent_missing hp.plain (by rw [hh.root]; exact hp.walkable) fun d => ?_, .missing c before ?_ hno⟩
  · rw [hh.root]
    exact hno d
  · rw [htarget, hl]
    rfl

theorem Kept.does_mknod {m : UInt32} (hc : s.vol.fs.Allowed (.mknod path m)) : Serving z s (.mknod path m) := by
  obtain ⟨⟨before, name, hl, hn⟩, hm0, hmd⟩ := hc
  by_cases hex : ∃ d, s.vol.fs.At before d
  · obtain ⟨d, hd⟩ := hex
    obtain ⟨hdir, hnew, hfew⟩ := hn.room d hd
    have hroot := hh.root
    rcases tfsMknod_yields h hn.path.plain (by rw [hroot]; exact hn.path.walkable) hl (by rw [hroot]; exact hd) hdir hn.isName hn.plain
      hnew hfew hm0 hmd with ⟨-, -, a, ha, hy, -⟩ | ⟨-, hy⟩
    · exact (hy.map answer).serving (.mknod path before name m d a hl hd hdir hnew ha)
    · exact (hy.map answer).serving (.mknodFull path before name m d hl hd)
  · obtain ⟨hfind, hdoes⟩ := h.no_parent hh (c := .mknod path m) hl hn.path (fun d hd => hex ⟨d, hd⟩) rfl
    refine ⟨_, s.vol.tree, (h.yields_same ?_).map answer, hdoes⟩
    unfold tfsMknod
    rw [hl]
    apply hfind.bind
    rw [if_pos rfl]
    exact Runs.pure

theorem Kept.does_mkdir {m : UInt32} (hc : s.vol.fs.Allowed (.mkdir path m)) : Serving z s (.mkdir path m) := by
  obtain ⟨before, name, hl, hn⟩ := hc
  by_cases hex : ∃ d, s.vol.fs.At before d
  · obtain ⟨d, hd⟩ := hex
    obtain ⟨hdir, hnew, hfew⟩ := hn.room d hd
    have hroot := hh.root
    rcases tfsMkdir_yields h hn.path.plain (by rw [hroot]; exact hn.path.walkable) hl (by rw [hroot]; exact hd) hdir hn.isName hn.plain
      hnew hfew with ⟨-, -, a, ha, hy, -⟩ | ⟨-, hy⟩
    · exact (hy.map answer).serving (.mkdir path before name m d a hl hd hdir hnew ha)
    · exact (hy.map answer).serving (.mkdirFull path before name m d hl hd)
  · obtain ⟨hfind, hdoes⟩ := h.no_parent hh (c := .mkdir path m) hl hn.path (fun d hd => hex ⟨d, hd⟩) rfl
    refine ⟨_, s.vol.tree, (h.yields_same ?_).map answer, hdoes⟩
    unfold tfsMkdir
    rw [hl]
    apply hfind.bind
    rw [if_pos rfl]
    exact Runs.pure

theorem Kept.does_unlink (hc : s.vol.fs.Allowed (.unlink path)) : Serving z s (.unlink path) := by
  obtain ⟨hp, before, x, hl, hx0, hok⟩ := hc
  rcases h.at hh hp with ⟨e, hat, -⟩ | ⟨hno, hfind⟩
  · obtain ⟨d, hd, hx⟩ := hat.parent hl hx0
    obtain ⟨hf, hlast⟩ := hok d e hd hx
    have hroot := hh.root
    obtain ⟨es, hperm, hy⟩ := tfsUnlink_yields h hp.plain (by rw [hroot]; exact hp.walkable) hl hx0 (by rw [hroot]; exact hd) hx hf hlast
    exact ⟨_, _, (hy.map answer).mono fun hs => hs e hat, .unlink path before x d e es hl hx0 hd hf hperm⟩
  · exact h.missing rfl hno hfind rfl rfl

theorem Kept.does_rename (hc : s.vol.fs.Allowed (.rename path newName)) : Serving z s (.rename path newName) := by
  obtain ⟨hp, before, x, before', y, hl, hx0, hl', -, hy, hyp, hfree⟩ := hc
  rcases h.at hh hp with ⟨e, hat, -⟩ | ⟨hno, hfind⟩
  · obtain ⟨d, hd, hx⟩ := hat.parent hl hx0
    have hroot := hh.root
    have hyields := tfsRename_yields h hp.plain (by rw [hroot]; exact hp.walkable) hl hx0 (by rw [hroot]; exact hd) hx hl' hy hyp (hfree d hd)
    exact (hyields.map answer).serving (.rename path newName before x before' y d e hl hx0 hl' hd hx (hfree d hd))
  · exact h.missing rfl hno hfind rfl rfl

/-- Every allowed call ends, and does what the abstract file system may do. -/
theorem Kept.does (hc : s.vol.fs.Allowed c) : Serving z s c := by
  cases c with
  | getattr path => exact h.does_getattr hh hc
  | readdir path => exact h.does_readdir hh hc
  | openFile path flags => exact h.does_open hh hc
  | read path buff size offset => exact h.does_read hh hc
  | write path data offset => exact h.does_write hh hc
  | truncate path length => exact h.does_truncate hh hc
  | mknod path m => exact h.does_mknod hh hc
  | mkdir path m => exact h.does_mkdir hh hc
  | unlink path => exact h.does_unlink hh hc
  | rename path newName => exact h.does_rename hh hc
  | utime path actime modtime => exact h.does_utime hh hc
  | chmod path m => exact h.does_chmod hh hc
  | chown path owner group => exact h.does_chown hh hc
  | flush path => exact ((h.yields_same (c := tfsFlush path) Runs.pure).map answer).serving (.flush path)

end

/-! ## Runs -/

/-- A call with its answer, or another process that mounts the device. -/
inductive Event where
  | call (c : Call) (r : Reply)
  | mount (env : Env) (fd : Int)

/-- What happens to the device and the process that serves it. -/
inductive Serves (s : Sys) : Event → Sys → Prop
  | call (c : Call) (r : Reply) (s' : Sys) : s.vol.fs.Allowed c → c.run s = some (r, s') → Serves s (.call c r) s'
  | mount (env : Env) (fd : Int) (s' : Sys) : 0 ≤ fd → mount env fd s.vol = some (0, s') → Serves s (.mount env fd) s'

/-- What a user sees of it. -/
inductive Sees (f : Fs) : Event → Fs → Prop
  | call (c : Call) (r : Reply) (f' : Fs) : Does f c r f' → Sees f (.call c r) f'
  | mount (env : Env) (fd : Int) : Sees f (.mount env fd) ⟨f.tree, env.euid % 2 ^ 32, env.egid % 2 ^ 32⟩

/-- A disk in order, and the process that serves it. -/
def InOrder (s : Sys) : Prop := Home s.vol ∧ ∃ own ps, Kept (zoneOf s.vol.size) s.vol own ps

theorem InOrder.tree (h : InOrder s) : Lib.Store.Tree 4096 s.vol.tree := by
  obtain ⟨hh, own, ps, hk⟩ := h
  exact hh.root ▸ hk.tree

theorem InOrder.does (h : InOrder s) (hc : s.vol.fs.Allowed c) :
    ∃ r s', c.run s = some (r, s') ∧ InOrder s' ∧ Does s.vol.fs c r s'.vol.fs ∧
      (c.Saves s.vol → Whole (zoneOf s.vol.size) s.vol → Whole (zoneOf s'.vol.size) s'.vol) := by
  obtain ⟨hh, own, ps, hk⟩ := h
  obtain ⟨r, t, ⟨s', own', ps', hrun, hk', hdev, rfl, hw⟩, hd⟩ := hk.does hh hc
  have hfs : s'.vol.fs = s.vol.fs.with s'.vol.tree := by
    rw [Vol.fs, Vol.fs, hdev.env]
    rfl
  exact ⟨r, s', hrun, ⟨hh.stays hdev, own', ps', by rw [hdev.size]; exact hk'⟩, hfs ▸ hd, by rw [hdev.size]; exact hw⟩

def Event.Saves (v : Vol) : Event → Prop
  | .call c _ => c.Saves v
  | .mount _ _ => True

/-- One step: the disk stays in order, and the user sees a step. -/
theorem InOrder.step {e : Event} (h : InOrder s) (hs : Serves s e s') : InOrder s' ∧ Sees s.vol.fs e s'.vol.fs ∧
    (e.Saves s.vol → Whole (zoneOf s.vol.size) s.vol → Whole (zoneOf s'.vol.size) s'.vol) := by
  cases hs with
  | call c r _ hc hrun =>
    obtain ⟨r', s'', hrun', hk, hd, hw⟩ := h.does hc
    obtain ⟨rfl, rfl⟩ := Prod.mk.inj (Option.some.inj (hrun.symm.trans hrun'))
    exact ⟨hk, .call c r _ hd, hw⟩
  | mount env fd _ hfd hrun =>
    obtain ⟨hh, own, ps, hk⟩ := h
    rw [mount_eq hfd] at hrun
    obtain rfl := (Prod.mk.inj (Option.some.inj hrun)).2
    obtain ⟨hk', ht⟩ : Kept _ (s.vol.mounted env fd) own ps ∧ _ := hk.mount hh hfd
    refine ⟨⟨mounted_home, own, ps, hk'⟩, ?_, fun _ => hk.whole_mount hk'⟩
    have hfs : (s.vol.mounted env fd).fs = ⟨s.vol.fs.tree, env.euid % 2 ^ 32, env.egid % 2 ^ 32⟩ := by
      rw [Vol.fs, ht]
      rfl
    rw [hfs]
    exact .mount env fd

theorem Sees.call_inv {f f' : Fs} {r : Reply} (h : Sees f (.call c r) f') : Does f c r f' := by
  cases h with
  | call _ _ _ hd => exact hd

theorem Sees.mount_inv {f f' : Fs} {env : Env} {fd : Int} (h : Sees f (.mount env fd) f') : f'.tree = f.tree := by
  cases h
  rfl

theorem InOrder.answers {r : Reply} (h : InOrder s) (hc : s.vol.fs.Allowed c) (hrun : c.run s = some (r, s')) :
    Does s.vol.fs c r s'.vol.fs := (h.step (.call c r s' hc hrun)).2.1.call_inv

/-- A device of at least 65 blocks was formatted by one process and mounted by another;
    the number of blocks is no multiple of 65. -/
structure Born (s : Sys) : Prop where
  formatted : ∃ s0 s1 fd env fd', 0 ≤ fd ∧ 65 ≤ s0.vol.size / 4096 ∧ s0.vol.size / 4096 % 65 ≠ 0 ∧ tfsMkfs fd s0 = some (0, s1) ∧
    0 ≤ fd' ∧ mount env fd' s1.vol = some (0, s)

/-- It is in order, empty, and all but one of its blocks are free. -/
theorem Born.inOrder (h : Born s) : InOrder s ∧ s.vol.tree = bare 4096 ⟨rootMode, 0, 0⟩ ∧ Free s.vol (regionCount s.vol.size) ∧
    Whole (zoneOf s.vol.size) s.vol := by
  obtain ⟨s0, s1, fd, env, fd', hfd, h65, hmod, hmk, hfd', hm⟩ := h.formatted
  obtain ⟨s1', own, ps, hmk', hk, hh, -, ht, hfree, hw⟩ := tfsMkfs_kept hfd h65 hmod
  obtain ⟨-, rfl⟩ := Prod.mk.inj (Option.some.inj (hmk.symm.trans hmk'))
  rw [mount_eq hfd'] at hm
  obtain rfl := (Prod.mk.inj (Option.some.inj hm)).2
  obtain ⟨hk', ht'⟩ : Kept _ (s1.vol.mounted env fd') own ps ∧ _ := hk.mount hh hfd'
  exact ⟨⟨mounted_home, own, ps, hk'⟩, ht'.trans ht, hk'.space.free_iff.mpr (hk.space.free_iff.mp hfree), hk.whole_mount hk' hw⟩

/-- The states that the file system gets to. -/
def Reached (s : Sys) : Prop := ∃ s0 es, Born s0 ∧ Steps Serves s0 es s

theorem Born.reached (h : Born s) : Reached s := ⟨s, [], h, .nil⟩

theorem Reached.inOrder (h : Reached s) : InOrder s := by
  obtain ⟨s0, es, hb, hs⟩ := h
  exact hs.invariant (fun _ _ _ _ hi hst => (hi.step hst).1) hb.inOrder.1

theorem Reached.next {e : Event} (h : Reached s) (hs : Serves s e s') : Reached s' := by
  obtain ⟨s0, es, hb, hrun⟩ := h
  exact ⟨s0, es ++ [e], hb, hrun.append (.cons hs .nil)⟩

/-! ### A device of 66 blocks -/

def smallDevice : Sys := ⟨.start .still (66 * 4096) (by decide) zeros, 0⟩

/-- It is formatted, and mounted. -/
def newDisk : Sys :=
  match tfsMkfs 3 smallDevice with
  | some (_, s) => ⟨s.vol.mounted .still 3, 0⟩
  | none => smallDevice

theorem newDisk_born : Born newDisk ∧ newDisk.vol.size = 66 * 4096 ∧ newDisk.vol.env = .still := by
  obtain ⟨s1, own, ps, hmk, -, -, hsize, -⟩ : ∃ s1 own ps, tfsMkfs 3 smallDevice = some (0, s1) ∧ _ :=
    tfsMkfs_kept (by decide) (show 65 ≤ 66 * 4096 / 4096 by decide) (show 66 * 4096 / 4096 % 65 ≠ 0 by decide)
  have hdisk : newDisk = ⟨s1.vol.mounted .still 3, 0⟩ := by rw [newDisk, hmk]
  rw [hdisk]
  exact ⟨⟨smallDevice, s1, 3, .still, 3, by decide, by decide, by decide, hmk, by decide, mount_eq (by decide)⟩, hsize, rfl⟩

theorem newDisk_root : newDisk.vol.tree.IsDir 4096 ∧ newDisk.vol.tree.entries 4096 = [] := by
  have hroot : newDisk.vol.tree 4096 = some ⟨⟨rootMode, 0, 0⟩, .dir []⟩ := by rw [newDisk_born.1.inOrder.2.1, bare, set_self]
  exact ⟨⟨_, _, hroot⟩, entries_dir hroot⟩

theorem newDisk_name : newDisk.vol.fs.NewName [] [97] := by
  refine ⟨⟨fun x hx => (by cases hx), newDisk_born.1.inOrder.1.tree.walkable .here⟩, ⟨by decide, by decide, by simp⟩, by decide,
    fun d hd => ?_⟩
  obtain rfl : d = 4096 := leads_nil.mp hd
  obtain ⟨hdir, hent⟩ := newDisk_root
  refine ⟨hdir, ?_, ?_⟩
  · show [97] ∉ newDisk.vol.tree.names 4096
    rw [names, hent]
    exact List.not_mem_nil
  · show (newDisk.vol.tree.entries 4096).length < 190
    rw [hent]
    decide

/-- A call for a file in the root. -/
def makeFile : Call := .mknod [47, 97] 0x81A4

theorem makeFile_allowed : newDisk.vol.fs.Allowed makeFile := ⟨⟨[], [97], by decide, newDisk_name⟩, by decide, by decide⟩

/-- The state after the call. -/
def Call.after (c : Call) (s : Sys) : Sys :=
  match c.run s with
  | some (_, s') => s'
  | none => s

theorem InOrder.after (h : InOrder s) (hc : s.vol.fs.Allowed c) : ∃ r, c.run s = some (r, c.after s) ∧ Does s.vol.fs c r (c.after s).vol.fs := by
  obtain ⟨r, s', hrun, -, hd, -⟩ := h.does hc
  have hs' : c.after s = s' := by rw [Call.after, hrun]
  exact ⟨r, by rw [hs', hrun], hs' ▸ hd⟩

/-! ### What holds of every run -/

/-- Whatever is on a device, formatting it ends, and so does mounting it; then it holds a
    root without entries, and every block of the region is free but the root's. -/
theorem format_serves {fd fd' : Int} {env : Env} (hfd : 0 ≤ fd) (hfd' : 0 ≤ fd') (h65 : 65 ≤ s.vol.size / 4096)
    (hmod : s.vol.size / 4096 % 65 ≠ 0) : ∃ s1 s', tfsMkfs fd s = some (0, s1) ∧ mount env fd' s1.vol = some (0, s') ∧ Reached s' ∧
      s'.vol.tree = bare 4096 ⟨rootMode, 0, 0⟩ ∧ s'.vol.size = s.vol.size ∧ Free s'.vol (regionCount s.vol.size) := by
  obtain ⟨s1, own, ps, hmk, -, -, hsize, -⟩ := tfsMkfs_kept hfd h65 hmod
  have hb : Born ⟨s1.vol.mounted env fd', 0⟩ := ⟨s, s1, fd, env, fd', hfd, h65, hmod, hmk, hfd', mount_eq hfd'⟩
  obtain ⟨-, ht, hfree, -⟩ := hb.inOrder
  rw [show (s1.vol.mounted env fd').size = s.vol.size from hsize] at hfree
  exact ⟨s1, _, hmk, mount_eq hfd', hb.reached, ht, hsize, hfree⟩

theorem format_serves_small : ∃ s1 s', tfsMkfs 3 smallDevice = some (0, s1) ∧ mount .still 3 s1.vol = some (0, s') ∧ Reached s' ∧
    s'.vol.tree = bare 4096 ⟨rootMode, 0, 0⟩ ∧ s'.vol.size = smallDevice.vol.size ∧ Free s'.vol (regionCount smallDevice.vol.size) :=
  format_serves (by decide) (by decide) (show 65 ≤ 66 * 4096 / 4096 by decide) (show 66 * 4096 / 4096 % 65 ≠ 0 by decide)

/-- Every run of a formatted device is a run of the file tree that a user expects, from a
    root without entries, with the same calls and the same answers. -/
theorem run_refines {es : List Event} (hb : Born s) (hs : Steps Serves s es s') :
    Steps Sees ⟨bare 4096 ⟨rootMode, 0, 0⟩, s.vol.env.euid % 2 ^ 32, s.vol.env.egid % 2 ^ 32⟩ es s'.vol.fs := by
  obtain ⟨hi, ht, -⟩ := hb.inOrder
  obtain ⟨f, hf, -, rfl⟩ := hs.simulate (R := fun s f => InOrder s ∧ f = s.vol.fs) (t := s.vol.fs)
    (fun s e s' f ⟨hi, hf⟩ hst => by
      obtain ⟨hi', hsee, -⟩ := hi.step hst
      exact ⟨s'.vol.fs, hf ▸ hsee, hi', rfl⟩) ⟨hi, rfl⟩
  rw [Vol.fs, ht] at hf
  exact hf

theorem run_refines_small : ∃ r, Steps Sees ⟨bare 4096 ⟨rootMode, 0, 0⟩, newDisk.vol.env.euid % 2 ^ 32, newDisk.vol.env.egid % 2 ^ 32⟩
    [.call makeFile r, .mount .still 3] ((makeFile.after newDisk).vol.mounted .still 3).fs := by
  obtain ⟨r, hrun, -⟩ := newDisk_born.1.inOrder.1.after makeFile_allowed
  have hs : Steps Serves newDisk [.call makeFile r, .mount .still 3] ⟨(makeFile.after newDisk).vol.mounted .still 3, 0⟩ :=
    .cons (.call makeFile r _ makeFile_allowed hrun) (.cons (.mount .still 3 _ (by decide) (mount_eq (by decide))) .nil)
  have href := run_refines newDisk_born.1 hs
  exact ⟨r, href⟩

/-- In every state that is reached every allowed call ends, in such a state, and does what
    a user expects. -/
theorem calls_end (h : Reached s) (hc : s.vol.fs.Allowed c) :
    ∃ r s', c.run s = some (r, s') ∧ Reached s' ∧ Does s.vol.fs c r s'.vol.fs := by
  obtain ⟨r, s', hrun, -, hd, -⟩ := h.inOrder.does hc
  exact ⟨r, s', hrun, h.next (.call c r s' hc hrun), hd⟩

theorem calls_end_small : ∃ r s', makeFile.run newDisk = some (r, s') ∧ Reached s' ∧ Does newDisk.vol.fs makeFile r s'.vol.fs :=
  calls_end newDisk_born.1.reached makeFile_allowed

/-- The device can change hands after any call: the next process finds the tree. -/
theorem mount_finds {fd : Int} {env : Env} (h : Reached s) (hfd : 0 ≤ fd) :
    ∃ s', mount env fd s.vol = some (0, s') ∧ Reached s' ∧ s'.vol.tree = s.vol.tree := by
  have hm : mount env fd s.vol = _ := mount_eq hfd
  obtain ⟨-, hsee, -⟩ := h.inOrder.step (.mount env fd _ hfd hm)
  exact ⟨_, hm, h.next (.mount env fd _ hfd hm), hsee.mount_inv⟩

theorem mount_finds_small : ∃ s', mount .still 4 newDisk.vol = some (0, s') ∧ Reached s' ∧ s'.vol.tree = newDisk.vol.tree :=
  mount_finds newDisk_born.1.reached (by decide)

end TyrantFS

/-
  TyrantFS.Fuse.Readdir — `tfs_readdir` against the entries of a packed directory.

  The loops count blocks and bytes. At the start of block `i` the byte count is
  `4096 * i`, and after `m` entries of it `4096 * i + 256 * m`: both counts stand at the
  same entry, so the loops end behind the last one (`readdirBlocks_runs`).
-/
import TyrantFS.Fuse.Contents
import TyrantFS.Fuse.Crowd
import TyrantFS.Help.Walk

namespace TyrantFS

open Lib Lib.PageTree

variable {z : Zone} {K K' : View} {own : Nat → Option Pos} {ps : List Nat} {a d e i left m t : Nat} {n n' : Node}
  {f : Mem} {path : List UInt8} {s : Sys}

/-! ## The entries -/

/-- The names of `m` entries from entry `e` on. -/
def namesFrom (K : View) (n : Node) (e m : Nat) : List (List UInt8) := (List.range' e m).map (nameOf K.vol.bytes n)

theorem namesFrom_succ : namesFrom K n e (m + 1) = nameOf K.vol.bytes n e :: namesFrom K n (e + 1) m := by
  rw [namesFrom, List.range'_succ, List.map_cons, namesFrom]

theorem namesFrom_append {k : Nat} : namesFrom K n e (m + k) = namesFrom K n e m ++ namesFrom K n (e + m) k := by
  rw [namesFrom, ← List.range'_append_1, List.map_append, namesFrom, namesFrom]

/-- The name in an entry, as the loop reads it. -/
theorem FileAt.readName (h : FileAt z K own ps a n) (hp : Packed K n) (hi : i < n.blocks) (ht : t < 16) :
    ∃ buf, Runs K (readBlock f (addrOf K.vol.bytes n i) ↑(256 * t) 248) (248, buf) K ∧
      cstr 248 buf = nameOf K.vol.bytes n (16 * i + t) ∧ buf 0 = K.vol.bytes (entryAt K.vol.bytes n (16 * i + t)) := by
  have hb := h.block hi
  have hin := hb.inside
  have he : entryAt K.vol.bytes n (16 * i + t) = addrOf K.vol.bytes n i + 256 * t := by
    rw [entryAt, show (16 * i + t) / 16 = i by omega, show (16 * i + t) % 16 = t by omega]
  have hread := readBlock_fits (K := K) (g := f) (n := 248) (o := 256 * t) (b := addrOf K.vol.bytes n i) rfl hb.pos (by omega)
    (by omega) ((hp.sees i hi).mono (by omega) (by omega))
  refine ⟨_, hread, ?_, ?_⟩
  · rw [nameOf, entryName, he]
    exact cstr_congr fun k hk => clip_lt hk
  · rw [he, clip_lt (by decide), Nat.add_zero]

/-! ## The loops -/

theorem readdirSlots_runs (h : FileAt z K own ps a n) (hp : Packed K n) (hi : i < n.blocks) (ht : t + left = 16)
    (hm : m = min left (n.size / 256 - (16 * i + t))) :
    ∃ buf, Runs K (readdirSlots (addrOf K.vol.bytes n i) n.size left (256 * t) (4096 * i + 256 * t) f)
      (4096 * i + 256 * (t + m), buf, namesFrom K n (16 * i + t) m) K := by
  have hwhole := hp.whole
  induction left generalizing t m f with
  | zero =>
    obtain rfl : m = 0 := by omega
    exact ⟨f, Runs.pure⟩
  | succ left ih =>
    unfold readdirSlots
    by_cases hlt : 4096 * i + 256 * t < n.size
    · rw [if_pos hlt]
      obtain ⟨m, rfl⟩ : ∃ m', m = m' + 1 := ⟨m - 1, by omega⟩
      obtain ⟨buf, hread, hname, hfirst⟩ := h.readName (f := f) hp hi (show t < 16 by omega)
      obtain ⟨buf', hrest⟩ := ih (t := t + 1) (m := m) (f := buf) (by omega) (by omega)
      rw [Nat.mul_succ, ← Nat.add_assoc] at hrest
      -- an entry in use has a name
      have hne : buf 0 ≠ 0 := by
        rw [hfirst]
        exact hp.named _ (by omega)
      refine ⟨buf', hread.bind (hrest.bind ?_)⟩
      rw [if_neg hne, namesFrom_succ, ← hname, show t + (m + 1) = t + 1 + m by omega]
      exact Runs.pure
    · rw [if_neg hlt]
      obtain rfl : m = 0 := by omega
      exact ⟨f, Runs.pure⟩

theorem readdirBlocks_runs (h : FileAt z K own ps a n) (hp : Packed K n) (hl : i + left = n.blocks) :
    Runs K (readdirBlocks n n.size left i (4096 * i) f) (namesFrom K n (16 * i) (n.size / 256 - 16 * i)) K := by
  have hwhole := hp.whole
  have hceil := hp.ceil
  induction left generalizing i f with
  | zero =>
    rw [show n.size / 256 - 16 * i = 0 by omega]
    exact Runs.pure
  | succ left ih =>
    unfold readdirBlocks
    by_cases hlt : 4096 * i < n.size
    · have hi : i < n.blocks := by omega
      rw [if_pos hlt]
      refine (h.get hi).bind ?_
      rw [if_neg (h.block hi).pos]
      obtain ⟨buf, hslots⟩ := readdirSlots_runs (t := 0) (f := f) h hp hi (Nat.zero_add 16) rfl
      refine hslots.bind ?_
      by_cases hfull : 16 ≤ n.size / 256 - 16 * i
      · -- a full block: the next one starts where this one ends
        have hrest := ih (i := i + 1) (f := buf) (by omega)
        rw [show min 16 (n.size / 256 - (16 * i + 0)) = 16 by omega, show 4096 * i + 256 * (0 + 16) = 4096 * (i + 1) by omega]
        refine hrest.bind (Runs.pure.result ?_)
        rw [show n.size / 256 - 16 * i = 16 + (n.size / 256 - 16 * (i + 1)) by omega, namesFrom_append]
        rfl
      · rw [show min 16 (n.size / 256 - (16 * i + 0)) = n.size / 256 - 16 * i by omega]
        have hrest : Runs K (readdirBlocks n n.size left (i + 1) (4096 * i + 256 * (0 + (n.size / 256 - 16 * i))) buf) [] K := by
          cases left with
          | zero => exact Runs.pure
          | succ left =>
            unfold readdirBlocks
            rw [if_neg (by omega)]
            exact Runs.pure
        refine hrest.bind (Runs.pure.result ?_)
        rw [List.append_nil]
        rfl
    · rw [if_neg hlt, show n.size / 256 - 16 * i = 0 by omega]
      exact Runs.pure

/-! ## The call -/

/-- A packed directory whose inode is committed again with the same map and size. -/
theorem Packed.sameMap (hp : Packed K n) (hs : SameMap n n') (hsz : n'.size = n.size) : Packed K n' := by
  have hat : ∀ e, entryAt K.vol.bytes n' e = entryAt K.vol.bytes n e := fun e => by rw [entryAt, entryAt, hs.addr]
  refine ⟨⟨by rw [hsz]; exact hp.whole, fun i hi => ?_, fun e he => ?_, fun e h1 h2 => ?_⟩, by rw [hsz, hs.blocks]; exact hp.ceil⟩
  · rw [hs.addr]
    exact hp.sees i (hs.blocks ▸ hi)
  · rw [hat]
    exact hp.named e (hsz ▸ he)
  · rw [hat]
    exact hp.rest e (hsz ▸ h1) (hs.blocks ▸ h2)

/-- The volume after the access time of the inode at `d` is set. -/
def Vol.accessed (v : Vol) (d : Nat) : View :=
  (View.all v).tick.store d 208 ((nodeAt v.bytes d).accessed (v.env.clock v.ticks % 2 ^ 64)).encode

theorem tfsReaddir_runs (hfind : Runs (.all s.vol) (findPathNode path) d (.all s.vol)) (h : FileAt z (.all s.vol) own ps d n)
    (hp : Packed (.all s.vol) n) (hn : nodeAt s.vol.bytes d = n) :
    Runs (.all s.vol) (tfsReaddir path) (0, namesFrom (.all s.vol) n 0 (n.size / 256)) (s.vol.accessed d) := by
  have hlow := h.low
  have hhigh := h.high
  have hin := h.inside
  obtain ⟨t, ht⟩ : ∃ t, t = s.vol.env.clock s.vol.ticks % 2 ^ 64 := ⟨_, rfl⟩
  obtain ⟨htick, -⟩ := h.tick
  obtain ⟨hcommit, hfile, -, -, haddr⟩ := (htick.sameMap SameMap.accessed (accessed_fits (t := t) h.fits (ht ▸ Nat.mod_lt _ (by decide)))).commit
  -- the blocks of the directory are what they were
  have hkept : ∀ i < (n.accessed t).blocks, addrOf ((View.all s.vol).tick.store d 208 (n.accessed t).encode).vol.bytes (n.accessed t) i =
      addrOf s.vol.bytes (n.accessed t) i ∧ ∀ k < 4096, ((View.all s.vol).tick.store d 208 (n.accessed t).encode).vol.bytes
        (addrOf s.vol.bytes (n.accessed t) i + k) = s.vol.bytes (addrOf s.vol.bytes (n.accessed t) i + k) := by
    intro i hi
    refine ⟨haddr i hi, fun k hk => ?_⟩
    have := (h.has (i := i) hi).low
    have hsame : addrOf s.vol.bytes (n.accessed t) i = addrOf s.vol.bytes n i := SameMap.accessed.addr
    rw [hsame]
    exact put_out (by rw [all_vol] at this; omega)
  have hpacked : Packed (.all s.vol) (n.accessed t) := hp.sameMap SameMap.accessed rfl
  have hloop := readdirBlocks_runs (i := 0) (f := s.vol.env.junk) hfile
    (hpacked.kept hkept fun x hx => Or.inl hx) (Nat.zero_add n.blocks)
  have hnames : namesFrom ((View.all s.vol).tick.store d 208 (n.accessed t).encode) (n.accessed t) 0 (n.size / 256) =
      namesFrom (.all s.vol) n 0 (n.size / 256) := by
    refine List.map_congr_left fun e he => ?_
    have he' : e < n.size / 256 := by simpa using List.mem_range'_1.mp he
    refine (name_kept (K := .all s.vol) hkept (hpacked.lt he')).trans ?_
    rw [nameOf, nameOf, entryAt, entryAt, SameMap.accessed.addr]
  unfold tfsReaddir
  refine hfind.bind ?_
  rw [if_neg (by omega)]
  have hfetch := fetchNode_runs (K := .all s.vol) (a := d) (by omega) (by omega) fun x _ => trivial
  rw [all_vol, hn] at hfetch
  refine hfetch.bind (getCurrentTimeInNsec_runs.bind ?_)
  rw [Vol.accessed, hn]
  simp only [all_vol, ← ht]
  refine hcommit.bind (environ_runs.bind (hloop.bind (Runs.pure.result ?_)))
  rw [← hnames]
  rfl

/-- What a listing is: the name of every entry, in the order of the entries, over the
    blocks `get_i_block` gives, and a disk on which the access time of the directory is
    new. -/
structure Lists (path : List UInt8) (d : Nat) (s : Sys) (s' : Sys) : Prop where
  names : tfsReaddir path s = some ((0, (List.range ((nodeAt s.vol.bytes d).size / 256)).map (nameOf s.vol.bytes (nodeAt s.vol.bytes d))), s')
  blocks : ∀ i < (nodeAt s.vol.bytes d).blocks, ∃ s1, getIBlock (nodeAt s.vol.bytes d) i s = some (addrOf s.vol.bytes (nodeAt s.vol.bytes d) i, s1)
  accessed : ∃ t, nodeAt s'.vol.bytes d = (nodeAt s.vol.bytes d).accessed t
  others : ∀ x, x < d ∨ d + 208 ≤ x → s'.vol.bytes x = s.vol.bytes x
  glob : s'.vol.glob = s.vol.glob

/-- Listing a directory is exact. -/
theorem tfsReaddir_lists (h : Sound z s.vol own ps)
    (hres : resolve s.vol.bytes s.vol.glob.rootNode (tokens path) = some d)
    (hs : Searches s.vol.bytes s.vol.glob.rootNode (tokens path)) (hd : isDir (nodeAt s.vol.bytes d).mode) :
    ∃ s', Lists path d s s' := by
  obtain ⟨hslot, hu⟩ := h.resolve h.root.1 h.root.2.1 hres
  have hfind := findPathNode_runs h hs
  rw [hres] at hfind
  have hinode := h.inode hslot hu
  have hfile := hinode.toMapAt.file hinode.fits
  obtain ⟨s', e, hs'⟩ := (tfsReaddir_runs hfind hfile (h.dirs d hslot hu hd).toPacked rfl).exec (holds_all.mpr rfl)
  have hbytes : ∀ x, s'.vol.bytes x = (s.vol.accessed d).vol.bytes x := fun x => hs'.bytes x (Or.inl trivial)
  refine ⟨s', ⟨?_, fun i hi => ?_, ⟨s.vol.env.clock s.vol.ticks % 2 ^ 64, ?_⟩, fun x hx => ?_, hs'.glob⟩⟩
  · rw [e, namesFrom, List.range_eq_range']
    rfl
  · obtain ⟨s1, e1, -⟩ := (hfile.get hi).exec (holds_all.mpr rfl)
    exact ⟨s1, e1⟩
  · rw [nodeAt_congr fun k _ => hbytes (d + k)]
    exact nodeAt_put (accessed_fits hinode.fits (Nat.mod_lt _ (by decide)))
  · rw [hbytes]
    exact put_out (by omega)

/-- A root directory of 13 blocks: its 208 names, "." and ".." among them. -/
theorem tfsReaddir_lists_thirteen : ∃ s', Lists [47] 4096 thirteenSys s' ∧
    tfsReaddir [47] thirteenSys = some ((0, (List.range 208).map crowdName), s') := by
  obtain ⟨s', h⟩ : ∃ s', Lists [47] 4096 thirteenSys s' := tfsReaddir_lists thirteen_sound rfl trivial thirteen_sound.root.2.2
  refine ⟨s', h, h.names.trans ?_⟩
  have hent : thirteenRoot.size / 256 = 208 := thirteen_crowded.entries
  have hnames : (List.range 208).map (nameOf thirteenSys.vol.bytes thirteenRoot) = (List.range 208).map crowdName :=
    List.map_congr_left fun e he => (thirteen_crowded.names (List.mem_range.mp he)).1
  rw [thirteen_node, hent, hnames]

end TyrantFS

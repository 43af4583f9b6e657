/-
  TyrantFS.Fuse.Crowd — disks whose root directory fills `B` blocks.

  Behind "." and ".." the directory names the other inodes of the table, files without
  blocks, under eight letters that spell out the number of the entry; the last slot of
  the table is free. The blocks of the directory follow the table, one after the other
  (`Crowded`); its index pages, and whatever else is on the disk, lie behind them.
-/
import TyrantFS.Fuse.Sound

namespace TyrantFS

open Lib Lib.PageTree

variable {z : Zone} {v : Vol} {own : Nat → Option Pos} {ps : List Nat} {a B blocks e f head i : Nat} {n : Node} {tail : Mem}

/-! ## The entries -/

def crowdName (e : Nat) : List UInt8 :=
  if e = 0 then dotName else if e = 1 then dotDotName else (List.range 8).map fun i => UInt8.ofNat (65 + e / 16 ^ i % 16)

def crowdChild (e : Nat) : Nat := if e ≤ 1 then 4096 else 4096 + 256 * (e - 1)

def crowdEntries (N : Nat) : List (List UInt8 × Nat) := (List.range N).map fun e => (crowdName e, crowdChild e)

theorem letter_ne (d : Nat) : UInt8.ofNat (65 + d % 16) ≠ 0 := by
  intro h
  have := congrArg UInt8.toNat h
  simp at this
  omega

theorem letter_inj {c d : Nat} (h : UInt8.ofNat (65 + c % 16) = UInt8.ofNat (65 + d % 16)) : c % 16 = d % 16 := by
  have := congrArg UInt8.toNat h
  simp at this
  omega

theorem crowdName_isName : IsName (crowdName e) := by
  unfold crowdName
  split
  · exact ⟨by simp [dotName], by simp [dotName], by simp [dotName]⟩
  split
  · exact ⟨by simp [dotDotName], by simp [dotDotName], by simp [dotDotName]⟩
  · refine ⟨by simp, by simp, fun c hc => ?_⟩
    obtain ⟨i, -, rfl⟩ := List.mem_map.mp hc
    exact letter_ne _

theorem crowdName_inj (he : e < 2 ^ 32) (hf : f < 2 ^ 32) (h : crowdName e = crowdName f) : e = f := by
  have hlen : ∀ x, (crowdName x).length = if x = 0 then 1 else if x = 1 then 2 else 8 := by
    intro x
    unfold crowdName
    split
    · rfl
    split <;> rfl
  have hl := congrArg List.length h
  rw [hlen, hlen] at hl
  by_cases h2 : 2 ≤ e ∧ 2 ≤ f
  · have hdigit : ∀ i < 8, e / 16 ^ i % 16 = f / 16 ^ i % 16 := by
      intro i hi
      have h' := h
      rw [crowdName, crowdName, if_neg (by omega), if_neg (by omega), if_neg (by omega), if_neg (by omega)] at h'
      exact letter_inj (List.map_inj_left.mp h' i (List.mem_range.mpr hi))
    have h0 := hdigit 0 (by decide)
    have h1 := hdigit 1 (by decide)
    have h2 := hdigit 2 (by decide)
    have h3 := hdigit 3 (by decide)
    have h4 := hdigit 4 (by decide)
    have h5 := hdigit 5 (by decide)
    have h6 := hdigit 6 (by decide)
    have h7 := hdigit 7 (by decide)
    omega
  · split_ifs at hl <;> omega

section
variable {N : Nat}

@[simp] theorem crowdEntries_length : (crowdEntries N).length = N := by simp [crowdEntries]

theorem crowdEntries_get (he : e < (crowdEntries N).length) : (crowdEntries N)[e] = (crowdName e, crowdChild e) := by
  simp [crowdEntries]

end

/-! ## The disk -/

/-- Where the table ends. -/
def crowdLo (B : Nat) : Nat := 4096 * (B + 1)

def crowdTable (B : Nat) (n : Node) : Nat → Option Node := fun a =>
  if a = 4096 then some n else if a + 256 < crowdLo B then some (plainNode 0x81A4 0 0 0 1) else none

theorem crowd_size {blocks : Nat} (h : blocks < 2 ^ 52) : 4096 * blocks < 2 ^ 64 := by omega

/-- `n` is the root directory, `tail` is behind its blocks. -/
def crowdSys (B blocks : Nat) (h : blocks < 2 ^ 52) (head : Nat) (n : Node) (tail : Mem) : Sys where
  vol := {
    env := Env.still
    glob := ⟨4096, 3, 4096 * blocks, blocks, B, blocks - 1 - B, crowdLo B⟩
    size := 4096 * blocks
    size_lt := crowd_size h
    bytes := imageFrom (crowdLo B) head (crowdTable B n) fun x =>
      if x < crowdLo B + 4096 * B then dirBlocks (crowdEntries (16 * B)) (x - crowdLo B) else tail x
    ticks := 0 }
  pos := 0

/-- The inode of the root directory, and where its blocks are. -/
structure Crowded (B : Nat) (m : Mem) (n : Node) : Prop where
  pos : 0 < B
  few : B ≤ capacity
  mode : n.mode = rootMode
  size : n.size = 256 * (16 * B)
  blocks : n.blocks = B
  fits : n.Fits
  addr : ∀ i < B, addrOf m n i = crowdLo B + 4096 * i

section
variable {h : blocks < 2 ^ 52}

theorem crowdSys_bytes : (crowdSys B blocks h head n tail).vol.bytes = imageFrom (crowdLo B) head (crowdTable B n) fun x =>
    if x < crowdLo B + 4096 * B then dirBlocks (crowdEntries (16 * B)) (x - crowdLo B) else tail x := rfl

theorem crowdLo_low : 4096 ≤ crowdLo B := by unfold crowdLo; omega

theorem crowd_super (hh : head < 2 ^ 64) : word (crowdSys B blocks h head n tail).vol.bytes 0 = head := imageFrom_super hh

theorem crowd_tail {x : Nat} (hx : crowdLo B + 4096 * B ≤ x) : (crowdSys B blocks h head n tail).vol.bytes x = tail x := by
  rw [crowdSys_bytes, imageFrom_data crowdLo_low (by omega), if_neg (by omega)]

theorem crowd_dir {x : Nat} (hx : x < 4096 * B) :
    (crowdSys B blocks h head n tail).vol.bytes (crowdLo B + x) = dirBlocks (crowdEntries (16 * B)) x := by
  rw [crowdSys_bytes, imageFrom_data crowdLo_low (by omega), if_pos (by omega), Nat.add_sub_cancel_left]

theorem crowd_root (hB : 0 < B) (hf : n.Fits) : nodeAt (crowdSys B blocks h head n tail).vol.bytes 4096 = n := by
  rw [crowdSys_bytes]
  exact imageFrom_node (Nat.le_refl _) (by unfold crowdLo; omega) (by decide) (if_pos rfl) hf

/-- The slots of the table: the root, files, and the last one. -/
theorem crowd_file (ha : IsSlot (crowdLo B) a) (hne : a ≠ 4096) (hl : a + 256 < crowdLo B) :
    nodeAt (crowdSys B blocks h head n tail).vol.bytes a = plainNode 0x81A4 0 0 0 1 := by
  rw [crowdSys_bytes]
  refine imageFrom_node ha.low (by omega) ha.aligned ?_ (plainNode_fits (by decide) (by decide) (by decide) (by decide) (by decide))
  rw [crowdTable, if_neg hne, if_pos hl]

theorem crowd_last (hB : 0 < B) : IsSlot (crowdLo B) (crowdLo B - 256) :=
  ⟨by unfold crowdLo; omega, by unfold crowdLo; omega, by unfold crowdLo; omega⟩

theorem crowd_free (ha : IsSlot (crowdLo B) a) (hne : a ≠ 4096) (hl : crowdLo B ≤ a + 256) :
    ¬ InUse (crowdSys B blocks h head n tail).vol.bytes a := by
  have := ha.high
  have := ha.aligned
  rw [crowdSys_bytes]
  refine imageFrom_unused ha.low (by unfold crowdLo at *; omega) ha.aligned ?_
  rw [crowdTable, if_neg hne, if_neg (by omega)]

section
variable (hc : Crowded B (crowdSys B blocks h head n tail).vol.bytes n)

include hc

theorem Crowded.entry (he : e < 16 * B) : entryAt (crowdSys B blocks h head n tail).vol.bytes n e = crowdLo B + 256 * e := by
  rw [entryAt, hc.addr _ (by omega)]
  omega

theorem Crowded.names (he : e < 16 * B) : nameOf (crowdSys B blocks h head n tail).vol.bytes n e = crowdName e ∧
    childOf (crowdSys B blocks h head n tail).vol.bytes n e = crowdChild e := by
  have hfew := hc.few
  unfold capacity at hfew
  have hlen : e < (crowdEntries (16 * B)).length := by simpa using he
  have hm : ∀ k < 256, (crowdSys B blocks h head n tail).vol.bytes (crowdLo B + 256 * e + k) =
      dirBlocks (crowdEntries (16 * B)) (256 * e + k) := fun k hk => by
    rw [Nat.add_assoc]
    exact crowd_dir (by omega)
  have hname := dirBlocks_name hlen (by rw [crowdEntries_get]; exact crowdName_isName) hm
  have hchild := dirBlocks_addr hlen (by rw [crowdEntries_get]; show crowdChild e < 2 ^ 64; unfold crowdChild; split <;> omega) hm
  rw [crowdEntries_get] at hname hchild
  rw [nameOf, childOf, hc.entry he]
  exact ⟨hname, hchild⟩

theorem Crowded.entries : n.size / 256 = 16 * B := by
  rw [hc.size]
  exact Nat.mul_div_cancel_left _ (by decide)

theorem Crowded.packed : Packed (.all (crowdSys B blocks h head n tail).vol) n := by
  have hB := hc.pos
  have hsz := hc.entries
  refine ⟨⟨?_, fun i _ => View.Sees.all _ _ _, fun e he h0 => ?_, fun e h1 h2 => ?_⟩, ?_⟩
  · rw [hc.size]
    omega
  · rw [hsz] at he
    rw [all_vol] at h0
    have hname := (hc.names he).1
    rw [nameOf, entryName_eq_nil.mpr h0] at hname
    exact crowdName_isName.nonempty hname.symm
  · rw [hc.blocks] at h2
    omega
  · rw [hc.blocks, hc.size]
    omega

theorem Crowded.differ : NamesDiffer (crowdSys B blocks h head n tail).vol.bytes n := by
  have hfew := hc.few
  unfold capacity at hfew
  intro e f he hf hef
  rw [hc.entries] at he hf
  rw [(hc.names he).1, (hc.names hf).1] at hef
  exact crowdName_inj (by omega) (by omega) hef

theorem Crowded.child (he : e < 16 * B) : IsSlot (crowdLo B) (crowdChild e) ∧
    InUse (crowdSys B blocks h head n tail).vol.bytes (crowdChild e) := by
  have hB := hc.pos
  unfold crowdChild
  split
  · refine ⟨⟨Nat.le_refl _, by unfold crowdLo; omega, by decide⟩, ?_⟩
    rw [InUse, crowd_root hc.pos hc.fits, hc.mode]
    decide
  · have hs : IsSlot (crowdLo B) (4096 + 256 * (e - 1)) := ⟨by omega, by unfold crowdLo; omega, by omega⟩
    refine ⟨hs, ?_⟩
    rw [InUse, crowd_file hs (by omega) (by unfold crowdLo; omega)]
    show 0x81A4 ≠ 0
    decide

theorem crowd_sound (hsp : Space ⟨crowdLo B, 4096 * blocks⟩ (.all (crowdSys B blocks h head n tail).vol) own ps)
    (hm : Maps (.all (crowdSys B blocks h head n tail).vol) own 4096 n) :
    Sound ⟨crowdLo B, 4096 * blocks⟩ (crowdSys B blocks h head n tail).vol own ps := by
  have hB := hc.pos
  have hroot : nodeAt (crowdSys B blocks h head n tail).vol.bytes 4096 = n := crowd_root hc.pos hc.fits
  have hslot : IsSlot (crowdLo B) 4096 := ⟨Nat.le_refl _, by unfold crowdLo; omega, by decide⟩
  have hdir : isDir n.mode := by rw [hc.mode]; decide
  -- what a slot in use holds
  have hcase : ∀ a, IsSlot (crowdLo B) a → InUse (crowdSys B blocks h head n tail).vol.bytes a →
      a = 4096 ∨ nodeAt (crowdSys B blocks h head n tail).vol.bytes a = plainNode 0x81A4 0 0 0 1 := by
    intro a ha hu
    by_cases hne : a = 4096
    · exact Or.inl hne
    by_cases hl : a + 256 < crowdLo B
    · exact Or.inr (crowd_file ha hne hl)
    · exact absurd hu (crowd_free ha hne (by omega))
  have hfile : ∀ a, nodeAt (crowdSys B blocks h head n tail).vol.bytes a = plainNode 0x81A4 0 0 0 1 →
      isDir (nodeAt (crowdSys B blocks h head n tail).vol.bytes a).mode = false := by
    intro a ha
    rw [ha]
    show isDir 0x81A4 = false
    decide
  have hhigh : crowdLo B ≤ 4096 * blocks := by
    have hown := hm.data 0 (by rw [hc.blocks]; exact hB)
    have hhas := hsp.owned _ (by rw [hown]; exact Option.some_ne_none _)
    exact Nat.le_trans hhas.low (Nat.le_trans (Nat.le_add_right _ _) hhas.high)
  refine ⟨rfl, crowdLo_low, by show crowdLo B % 256 = 0; unfold crowdLo; omega, hhigh, hsp, ⟨hslot, ?_, ?_⟩,
    fun a ha hu => ?_, fun a ha hu hd => ?_, fun a ha hu hd => ?_⟩
  · exact (hc.child (e := 0) (by omega)).2
  · show isDir (nodeAt (crowdSys B blocks h head n tail).vol.bytes 4096).mode
    rw [hroot]
    exact hdir
  · rcases hcase a ha hu with rfl | hn
    · rw [hroot]
      exact hm
    · rw [hn]
      exact plainNode_maps (by decide) fun i hi => absurd hi (Nat.not_lt_zero i)
  · rcases hcase a ha hu with rfl | hn
    · rw [hroot]
      refine { hc.packed with names := hc.differ, child := fun e he => Or.inr ?_ }
      rw [hc.entries] at he
      rw [(hc.names he).2]
      exact hc.child he
    · rw [hfile a hn] at hd
      cases hd
  · rcases hcase a ha hu with rfl | hn
    · rw [hroot, hdir] at hd
      cases hd
    · rw [hn]
      exact Nat.le_refl 0

end

end

/-! ## Thirteen blocks

The smallest directory with an index page; the page is the last block of the disk. -/

def thirteenPage : Nat := crowdLo 13 + 4096 * 13

def thirteenRoot : Node :=
  { plainNode rootMode (256 * (16 * 13)) 12 (crowdLo 13) 1 with blocks := 13, indirectBlocks := thirteenPage }

def thirteenSys : Sys :=
  crowdSys 13 28 (by decide) 0 thirteenRoot fun x =>
    if x < thirteenPage + 8 then leByte (crowdLo 13 + 4096 * 12) (x - thirteenPage) else 0

def thirteenOwn (c : Nat) : Option Pos :=
  if c % 4096 = 0 ∧ crowdLo 13 ≤ c ∧ c < thirteenPage then some (.data 4096 ((c - crowdLo 13) / 4096))
  else if c = thirteenPage then some (.page 4096 12 []) else none

theorem thirteenRoot_direct (hi : i < 12) : thirteenRoot.direct i = crowdLo 13 + 4096 * i := by
  show (plainNode rootMode (256 * (16 * 13)) 12 (crowdLo 13) 1).direct i = _
  exact plainNode_direct hi hi

theorem thirteen_leaf : slot thirteenSys.vol.bytes thirteenPage 0 = crowdLo 13 + 4096 * 12 := by
  rw [slot_of_ne (by decide)]
  have e : leVal 8 (fun k => thirteenSys.vol.bytes (thirteenPage + 8 * 0 + k)) = leVal 8 (leByte (crowdLo 13 + 4096 * 12)) := by
    refine leVal_congr fun k hk => ?_
    rw [thirteenSys, crowd_tail (by unfold thirteenPage; omega), if_pos (by omega),
      show thirteenPage + 8 * 0 + k - thirteenPage = k by omega]
  rw [word, e, leVal_leByte]
  decide

theorem thirteen_addr (hi : i < 13) : addrOf thirteenSys.vol.bytes thirteenRoot i = crowdLo 13 + 4096 * i := by
  by_cases h : i < 12
  · rw [addrOf_direct h, thirteenRoot_direct h]
  · obtain rfl : i = 12 := by omega
    exact thirteen_leaf

theorem thirteen_crowded : Crowded 13 thirteenSys.vol.bytes thirteenRoot := by
  have hf : (plainNode rootMode (256 * (16 * 13)) 12 (crowdLo 13) 1).Fits :=
    plainNode_fits (by decide) (by decide) (by decide) (by decide) (by decide)
  exact ⟨by decide, by decide, rfl, rfl, rfl,
    { hf with blocks := show 13 < 2 ^ 64 by decide, indirectBlocks := show thirteenPage < 2 ^ 64 by decide }, fun i => thirteen_addr⟩

theorem thirteenOwn_data (hi : i < 13) : thirteenOwn (crowdLo 13 + 4096 * i) = some (.data 4096 i) := by
  unfold thirteenOwn thirteenPage crowdLo
  rw [if_pos (by omega), show (4096 * (13 + 1) + 4096 * i - 4096 * (13 + 1)) / 4096 = i by omega]

theorem thirteenOwn_page : thirteenOwn thirteenPage = some (.page 4096 12 []) := by
  rw [thirteenOwn, if_neg (by decide), if_pos rfl]

theorem thirteen_maps : Maps (.all thirteenSys.vol) thirteenOwn 4096 thirteenRoot := by
  -- the only page is the root of the first tree
  have hroot : ∀ j path, 12 ≤ j → IsPath j path → path.length < depth j → blockAt thirteenSys.vol.bytes thirteenRoot j path ≠ 0 →
      j = 12 ∧ path = [] := by
    intro j path hj hp hl h0
    have h15 := hp.root
    by_cases h12 : j = 12
    · subst h12
      exact ⟨rfl, List.eq_nil_of_length_eq_zero (by unfold depth at hl; omega)⟩
    · have hz : thirteenRoot.root j = 0 := by
        obtain rfl | rfl : j = 13 ∨ j = 14 := by omega
        · exact (plainNode_indirect rootMode (256 * (16 * 13)) 12 (crowdLo 13) 1).2.1
        · exact (plainNode_indirect rootMode (256 * (16 * 13)) 12 (crowdLo 13) 1).2.2
      rw [blockAt, hz] at h0
      exact absurd (walk_zero fun _ => slot_zero) h0
  refine ⟨by decide, fun i hi => ?_, fun j path hj hp hl h0 => ?_, fun _ _ _ _ _ _ => View.Sees.all _ _ _,
    fun _ _ _ _ _ => View.Sees.all _ _ _⟩
  · rw [all_vol, thirteen_addr hi]
    exact thirteenOwn_data hi
  · obtain ⟨rfl, rfl⟩ := hroot j path hj hp hl h0
    exact thirteenOwn_page

theorem thirteen_space : Space ⟨crowdLo 13, 4096 * 28⟩ (.all thirteenSys.vol) thirteenOwn [] := by
  refine Space.full (crowd_super (by decide)) (by decide) (Nat.le_refl _) (by decide) (by decide) fun b hb => ?_
  unfold thirteenOwn at hb
  split at hb
  · rename_i hc
    refine ⟨hc.1, hc.2.1, ?_⟩
    have := hc.2.2
    show b + 4096 ≤ 4096 * 28
    unfold thirteenPage crowdLo at this
    omega
  split at hb
  · rename_i hc
    subst hc
    exact ⟨by decide, by decide, by decide⟩
  · exact absurd rfl hb

theorem thirteen_sound : Sound ⟨crowdLo 13, 4096 * 28⟩ thirteenSys.vol thirteenOwn [] :=
  crowd_sound thirteen_crowded thirteen_space thirteen_maps

theorem thirteen_node : nodeAt thirteenSys.vol.bytes 4096 = thirteenRoot := crowd_root (by decide) thirteen_crowded.fits

/-- The last entry stands in the thirteenth block. -/
theorem thirteen_far : ¬ Near thirteenSys.vol.bytes thirteenRoot (crowdName 207) := by
  have hent := thirteen_crowded.entries
  rintro (h | ⟨e, h1, h2, h3, -⟩)
  · exact absurd h (by decide)
  · rw [hent] at h2
    have hname : nameOf thirteenSys.vol.bytes thirteenRoot e = crowdName e := (thirteen_crowded.names h2).1
    rw [hname] at h3
    have := crowdName_inj (by omega) (by decide) h3
    omega

end TyrantFS

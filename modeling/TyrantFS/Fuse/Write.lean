/-
  TyrantFS.Fuse.Write — `tfs_write` overlays the contents of a file.

  The file grows block by block as far as the allocator gives blocks (`growLoop_ends`),
  then the bytes go into the blocks there are (`tfsWrite_runs`), and what `tfs_read`
  returns is what the file held, with the bytes written over it (`tfsWrite_overlay`).
  A call of `add_block_to_node` appends its block (`Appends`) when it finds nothing in the
  pages it takes, so the free blocks that become pages of pages have to be zero before
  the call (`GrowsClear`).
-/
import TyrantFS.Fuse.Contents
import TyrantFS.Fuse.Sound
import TyrantFS.Help.Ahead
import TyrantFS.Help.Insertion
import TyrantFS.Help.Limit
import TyrantFS.Help.Recycled
import TyrantFS.Help.Walk

namespace TyrantFS

open Lib Lib.PageTree

variable {z : Zone} {K K' K0 : View} {v v' : Vol} {own own' own0 : Nat → Option Pos} {ps ps' ps0 L : List Nat} {a b cur i left : Nat}
  {n n' n0 : Node} {s s' : Sys} {path : List UInt8} {names : List (List UInt8)} {buff : Mem}

/-- The directories on the way of a path that is found. -/
theorem Sound.walks (h : Sound z v own ps) (ha : IsSlot z.lo a) (hu : InUse v.bytes a) (hs : Searches v.bytes a names)
    (hne : ∀ x ∈ names, x ≠ []) (hc : TyrantFS.resolve v.bytes a names = some cur) :
    Walks z (.all v) own ps (fun x => IsSlot z.lo x ∧ isDir (nodeAt v.bytes x).mode) a names cur := by
  induction names generalizing a with
  | nil =>
    obtain rfl : a = cur := Option.some.inj hc
    exact .nil
  | cons name rest ih =>
    obtain ⟨hd, hnear, hrest⟩ := hs
    have hdir := h.dirs a ha hu hd
    unfold TyrantFS.resolve at hc
    split at hc
    · rename_i hl
      obtain ⟨h1, h2⟩ := h.lookup ha hu hd rfl hl.2
      exact .cons (h.inode ha hu) hdir.toPacked hdir.names ⟨ha, hd⟩ (hne _ (by simp)) hnear rfl hl.2 (h.slot_high h1)
        (ih h1 h2 (hrest hl.2) (fun x hx => hne x (by simp [hx])) hc)
    · cases hc

/-! ## Growing -/

/-- What a call of `add_block_to_node` does that puts the fresh block `b` behind the
    blocks of the file. -/
structure Appends (z : Zone) (a : Nat) (v : Vol) (own : Nat → Option Pos) (ps : List Nat) (n : Node) (b : Nat) (v' : Vol)
    (own' : Nat → Option Pos) (ps' : List Nat) (n' : Node) : Prop where
  fresh : b ∈ freeOrder (.all v) ps
  file : FileAt z (.all v') own' ps' a n'
  blocks : n'.blocks = n.blocks + 1
  last : addrOf v'.bytes n' n.blocks = b
  earlier : ∀ i < n.blocks, addrOf v'.bytes n' i = addrOf v.bytes n i ∧
    ∀ k < 4096, v'.bytes (addrOf v.bytes n i + k) = v.bytes (addrOf v.bytes n i + k)
  confined : Confined z (· = a) (.all v) own (.all v') own'

/-- The calls of the next `left` rounds that return a block append it. -/
def Granted (z : Zone) (a : Nat) : (left : Nat) → Sys → Node → (Nat → Option Pos) → List Nat → Prop
  | 0, _, _, _, _ => True
  | left + 1, s, n, own, ps => ∀ b n' s', addBlockToNode n a s = some ((b, n'), s') → b ≠ 0 →
      ∃ own' ps', Appends z a s.vol own ps n b s'.vol own' ps' n' ∧ Granted z a left s' n' own' ps'

/-- The file after some rounds, and its blocks from before. -/
structure Grew (z : Zone) (a : Nat) (v : Vol) (own : Nat → Option Pos) (n : Node) (left : Nat) (v' : Vol)
    (own' : Nat → Option Pos) (ps' : List Nat) (n' : Node) : Prop where
  file : FileAt z (.all v') own' ps' a n'
  blocks : n.blocks ≤ n'.blocks
  kept : ∀ i < n.blocks, addrOf v'.bytes n' i = addrOf v.bytes n i ∧
    ∀ k < 4096, v'.bytes (addrOf v.bytes n i + k) = v.bytes (addrOf v.bytes n i + k)
  confined : Confined z (· = a) (.all v) own (.all v') own'
  /-- All the rounds, or as many as there were blocks for. -/
  rounds : n'.blocks = n.blocks + left ∨ n'.blocks < n.blocks + left ∧ (freeOrder (.all v') ps').length ≤ 1

theorem Grew.refl (h : FileAt z (.all v) own ps a n) : Grew z a v own n 0 v own ps n :=
  ⟨h, Nat.le_refl _, fun _ _ => ⟨rfl, fun _ _ => rfl⟩, Confined.refl, Or.inl rfl⟩

theorem growLoop_ends (h : FileAt z (.all s.vol) own ps a n) (hg : Granted z a left s n own ps) :
    ∃ n' s' own' ps', growLoop a left n s = some (n', s') ∧ Grew z a s.vol own n left s'.vol own' ps' n' := by
  induction left generalizing s n own ps with
  | zero => exact ⟨n, s, own, ps, rfl, Grew.refl h⟩
  | succ left ih =>
    unfold growLoop
    obtain ⟨⟨b, n1⟩, s1, hcall, hres⟩ := addBlockToNode_ends h (all_vis _) s (holds_all.mpr rfl)
    by_cases hb : b = 0
    · -- the call fails
      obtain ⟨-, L, K1, own1, ps1, hK, hf⟩ := hres.resolve_left fun hne => (h.space.list.block b hne.1).pos hb
      obtain rfl := hf.keeps.all hK
      obtain ⟨hfile, hkept⟩ := hf.file h
      refine ⟨n1, s1, own1, ps1, ?_, hfile, Nat.le_of_eq hf.blocks.symm, hkept, hf.confined h.base, Or.inr ⟨?_, hf.short⟩⟩
      · rw [bind_eq hcall, if_pos hb]
        rfl
      · have hblocks : n1.blocks = n.blocks := hf.blocks
        omega
    · obtain ⟨own1, ps1, happ, hnext⟩ := hg b n1 s1 hcall hb
      have hblocks := happ.blocks
      obtain ⟨n2, s2, own2, ps2, hrest, hgrew⟩ := ih happ.file hnext
      have hle := hgrew.blocks
      refine ⟨n2, s2, own2, ps2, ?_, hgrew.file, by omega, fun i hi => ?_, happ.confined.trans hgrew.confined, ?_⟩
      · rw [bind_eq hcall, if_neg hb]
        exact hrest
      · obtain ⟨h1, h2⟩ := happ.earlier i hi
        obtain ⟨h3, h4⟩ := hgrew.kept i (by omega)
        rw [h1] at h3 h4
        exact ⟨h3, fun k hk => (h4 k hk).trans (h2 k hk)⟩
      · rcases hgrew.rounds with hr | ⟨hr, hshort⟩
        · exact Or.inl (by omega)
        · exact Or.inr ⟨by omega, hshort⟩

/-! ## The call -/

/-- The disk on which `tfs_write` grows the file: its times are set. -/
def View.touch (K : View) (a : Nat) (n : Node) : View := K.tick.store a 208 (n.stamp n.size K.vol.now).encode

/-- The file there, with its blocks and the free list as before. -/
theorem InodeAt.touched {s1 : Sys} (h : InodeAt z (.all s.vol) own ps a n) (hs1 : s1.vol = ((View.all s.vol).touch a n).vol) :
    MapAt z (.all s1.vol) own ps a (n.stamp n.size s.vol.now) ∧ freeOrder (.all s1.vol) ps = freeOrder (.all s.vol) ps ∧
      Keeps (fun x => a ≤ x ∧ x < a + 208) (.all s.vol) (.all s1.vol) ∧
      ∀ i < n.blocks, addrOf s1.vol.bytes (n.stamp n.size s.vol.now) i = addrOf s.vol.bytes n i := by
  have hlow := h.low
  have hhigh := h.high
  have hk : Keeps (fun x => a ≤ x ∧ x < a + 208) (.all s.vol) ((View.all s.vol).touch a n) :=
    Keeps.tick.trans (Keeps.store fun x h1 h2 => ⟨h1, h2⟩)
  have hview : (View.all s.vol).touch a n = .all s1.vol :=
    hk.all (s := s1) ⟨by rw [hs1], by rw [hs1], by rw [hs1], by rw [hs1], fun x _ => by rw [hs1]⟩
  obtain ⟨hmap, hord, haddr⟩ := h.keep hk fun x hx => Or.inl (by omega)
  rw [hview] at hmap hk hord haddr
  exact ⟨hmap.sameMap SameMap.stamp, hord, hk, fun i hi => SameMap.stamp.addr.trans (haddr i hi)⟩

/-- What a call leaves that wrote `w` bytes of `buff` from byte `offset` on. -/
structure Wrote (z : Zone) (a : Nat) (v : Vol) (own : Nat → Option Pos) (n : Node) (buff : Mem) (len offset w : Nat) (v' : Vol)
    (own' : Nat → Option Pos) (ps' : List Nat) (n' : Node) : Prop where
  file : FileAt z (.all v') own' ps' a n'
  node : nodeAt v'.bytes a = n'
  size : n'.size = max n.size (offset + w)
  blocks : n.blocks ≤ n'.blocks
  written : ∀ x, offset ≤ x → x < offset + w → fileByte v'.bytes n' x = buff (x - offset)
  kept : ∀ x < 4096 * n.blocks, ¬ (offset ≤ x ∧ x < offset + w) → fileByte v'.bytes n' x = fileByte v.bytes n x
  confined : Confined z (· = a) (.all v) own (.all v') own'
  count : w = min len (4096 * n'.blocks - offset)
  rounds : offset + len ≤ 4096 * n'.blocks ∨ (freeOrder (.all v') ps').length ≤ 1

/-- The inode with another size. -/
def Node.sized (n : Node) (S : Nat) : Node := { n with size := S }

theorem SameMap.sized {S : Nat} : SameMap n (n.sized S) := ⟨rfl, fun _ => rfl⟩

theorem sized_fits {S : Nat} (h : n.Fits) (hS : S < 2 ^ 64) : (n.sized S).Fits := { h with size := hS }

/-- The rounds of the loop are enough. -/
theorem finalBlocks_enough {size offset : Nat} (h : offset + size < 2 ^ 63) :
    offset + size ≤ 4096 * finalBlocks size offset := by
  unfold finalBlocks
  rw [Nat.mod_eq_of_lt (by omega)]
  split <;> omega

/-- The call, when it is known how the file grows: `Q` holds of the file that the bytes
    are put into. -/
theorem tfsWrite_fills {size offset : Nat} {Q : Node → Vol → (Nat → Option Pos) → List Nat → Prop} (hfind : Runs (.all s.vol) (findPathNode path) a (.all s.vol))
    (h : InodeAt z (.all s.vol) own ps a n) (hs : n.size ≤ 4096 * n.blocks) (hsize : size < 2 ^ 31) (hsum : offset + size < 2 ^ 63)
    (hstay : offset + size ≤ n.size → ∀ s1 : Sys, s1.vol = ((View.all s.vol).touch a n).vol → Q (n.stamp n.size s.vol.now) s1.vol own ps)
    (hgrow : ∀ s1 : Sys, s1.vol = ((View.all s.vol).touch a n).vol → ∃ (n' : Node) (s' : Sys) (own' : Nat → Option Pos) (ps' : List Nat),
      growLoop a (finalBlocks size offset - n.blocks) (n.stamp n.size s.vol.now) s1 = some (n', s') ∧
      Grew z a s1.vol own (n.stamp n.size s.vol.now) (finalBlocks size offset - n.blocks) s'.vol own' ps' n' ∧ Q n' s'.vol own' ps') :
    ∃ (w : Nat) (s' : Sys) (own' : Nat → Option Pos) (ps' : List Nat) (n' n4 : Node) (v4 : Vol),
      tfsWrite path buff size offset s = some ((w : Int), s') ∧ Wrote z a s.vol own n buff size offset w s'.vol own' ps' n' ∧
      Q n4 v4 own' ps' ∧ n' = n4.sized (max n.size (offset + w)) ∧
      Keeps (fun x => DataByte (.all v4) n4 x ∨ a ≤ x ∧ x < a + 208) (.all v4) (.all s'.vol) ∧
      ∀ x < 4096 * n'.blocks, ¬ (offset ≤ x ∧ x < offset + w) → fileByte s'.vol.bytes n' x = fileByte v4.bytes n4 x := by
  have hlow := h.low
  have hhigh := h.high
  have hn64 := h.fits.size
  obtain ⟨s0, e0, hs0⟩ := hfind.exec (holds_all.mpr rfl)
  obtain ⟨s1, e1, hs1⟩ := h.fetch.exec hs0
  obtain ⟨s2, e2, hs2⟩ := getCurrentTimeInNsec_runs.exec hs1
  -- the times are set
  have hfits := stamp_fits (s := n.size) h.fits hn64 s.vol.now_lt
  obtain ⟨s3, e3, hs3⟩ := (((h.toMapAt.tick).1.sameMap (SameMap.stamp (s := n.size))).commit hfits).1.exec hs2
  have hv3 : s3.vol = ((View.all s.vol).touch a n).vol :=
    congrArg View.vol ((Keeps.tick (S := fun x => a ≤ x ∧ x < a + 208)).trans (Keeps.store fun x h1 h2 => ⟨h1, h2⟩) |>.all hs3).symm
  obtain ⟨hmap3, -, hk1, haddr⟩ := h.touched hv3
  have hkept1 : ∀ i < n.blocks, addrOf s3.vol.bytes (n.stamp n.size s.vol.now) i = addrOf s.vol.bytes n i ∧
      ∀ k < 4096, s3.vol.bytes (addrOf s.vol.bytes n i + k) = s.vol.bytes (addrOf s.vol.bytes n i + k) := fun i hi =>
    ⟨haddr i hi, fun k hk => by
      have hlowi : z.lo ≤ addrOf s.vol.bytes n i := (h.has hi).low
      exact hk1.bytes _ (by omega)⟩
  -- the file grows
  obtain ⟨left, n4, s4, own4, ps4, e4, hgrew, hleft, hQ⟩ : ∃ left n4 s4 own4 ps4,
      (∀ f : Node → M Int, (if (size + offset) % 2 ^ 64 > n.size then
          growLoop a (finalBlocks size offset - n.blocks) (n.stamp n.size s.vol.now) >>= f
        else pure (n.stamp n.size s.vol.now) >>= f) s3 = f n4 s4) ∧
      Grew z a s3.vol own (n.stamp n.size s.vol.now) left s4.vol own4 ps4 n4 ∧ offset + size ≤ 4096 * (n.blocks + left) ∧
      Q n4 s4.vol own4 ps4 := by
    by_cases hc : (size + offset) % 2 ^ 64 > n.size
    · obtain ⟨n4, s4, own4, ps4, e4, hgrew, hQ⟩ := hgrow s3 hv3
      have : offset + size ≤ 4096 * finalBlocks size offset := finalBlocks_enough hsum
      exact ⟨_, n4, s4, own4, ps4, fun f => by rw [if_pos hc]; exact bind_eq e4, hgrew, by omega, hQ⟩
    · rw [Nat.mod_eq_of_lt (by omega)] at hc
      exact ⟨0, _, s3, own, ps, fun f => by rw [if_neg (by rwa [Nat.mod_eq_of_lt (by omega)])]; rfl, Grew.refl (hmap3.file hfits), by omega,
        hstay (by omega) s3 hv3⟩
  have hblocks : n.blocks ≤ n4.blocks := hgrew.blocks
  have hcap := hgrew.file.used.cap
  unfold capacity at hcap
  -- the bytes go into the blocks
  obtain ⟨w, K5, hcount, hrun5, hw⟩ : ∃ w K5, w = min size (4096 * n4.blocks - offset) ∧
      Runs (.all s4.vol) (writeLoop n4 buff (n4.blocks - offset / 4096) (offset / 4096) (offset % 4096) size 0) w K5 ∧
      Written (.all s4.vol) n4 offset w buff K5 := by
    by_cases hc : offset / 4096 ≤ n4.blocks
    · obtain ⟨K5, hr, hw⟩ : ∃ K5, Runs _ (writeLoop n4 buff (n4.blocks - offset / 4096) (offset / 4096) (offset % 4096) size 0) _ K5 ∧
          Written _ n4 (4096 * (offset / 4096) + offset % 4096) _ _ K5 :=
        writeLoop_runs hgrew.file (Nat.mod_lt _ (by decide)) (show offset / 4096 + (n4.blocks - offset / 4096) = n4.blocks by omega)
          (show 0 + size < 2 ^ 63 by omega)
      rw [show min size (4096 * (n4.blocks - offset / 4096) - offset % 4096) = min size (4096 * n4.blocks - offset) by omega] at hr hw
      rw [show 4096 * (offset / 4096) + offset % 4096 = offset by omega] at hw
      rw [Nat.zero_add] at hr
      simp only [Nat.zero_add] at hw
      exact ⟨_, K5, rfl, hr, hw⟩
    · refine ⟨0, .all s4.vol, by omega, ?_, Written.refl⟩
      rw [show n4.blocks - offset / 4096 = 0 by omega]
      exact Runs.pure
  obtain ⟨s5, e5, hs5⟩ := hrun5.exec (holds_all.mpr rfl)
  obtain rfl := hw.keeps.all hs5
  obtain ⟨hfile5, hord5, haddr5⟩ := hw.file hgrew.file
  -- the size is set
  have hS : (if n.size > (offset + w) % 2 ^ 64 then n.size else (offset + w) % 2 ^ 64) = max n.size (offset + w) := by
    rw [Nat.mod_eq_of_lt (by omega)]
    split <;> omega
  obtain ⟨hcommit6, hfile6, hnode6, hord6, haddr6⟩ := (hfile5.sameMap (SameMap.sized (S := max n.size (offset + w)))
    (sized_fits hfile5.fits (by omega))).commit
  have hk6 : Keeps (fun x => a ≤ x ∧ x < a + 208) (.all s5.vol) ((View.all s5.vol).store a 208 (n4.sized (max n.size (offset + w))).encode) :=
    Keeps.store fun x h1 h2 => ⟨h1, h2⟩
  obtain ⟨s6, e6, hs6⟩ := hcommit6.exec hs5
  have hv6 := hk6.all hs6
  have hbytes : ∀ x < 4096 * n4.blocks, fileByte s6.vol.bytes (n4.sized (max n.size (offset + w))) x =
      if offset ≤ x ∧ x < offset + w then buff (x - offset) else fileByte s4.vol.bytes n4 x := by
    intro x hx
    have hi : x / 4096 < n4.blocks := by omega
    have hlow6 : z.lo ≤ addrOf s4.vol.bytes n4 (x / 4096) := (hgrew.file.has hi).low
    have hb6 : s6.vol.bytes = put s5.vol.bytes a 208 (n4.sized (max n.size (offset + w))).encode := congrArg (fun K => K.vol.bytes) hv6.symm
    have ha6 := haddr6 _ hi
    rw [hv6] at ha6
    have hat : addrOf s6.vol.bytes (n4.sized (max n.size (offset + w))) (x / 4096) = addrOf s4.vol.bytes n4 (x / 4096) :=
      (ha6.trans SameMap.sized.addr).trans (haddr5 _ hi)
    have hout : s6.vol.bytes (addrOf s4.vol.bytes n4 (x / 4096) + x % 4096) = s5.vol.bytes (addrOf s4.vol.bytes n4 (x / 4096) + x % 4096) := by
      rw [hb6]
      exact put_out (by omega)
    rw [fileByte, hat, hout]
    exact hw.bytes x hx
  have htouch1 : Confined z (· = a) (.all s.vol) own (.all s3.vol) own :=
    Confined.bytes hk1 fun x hx => touch_slot rfl hx.1 (by omega)
  have htouch5 : Confined z (· = a) (.all s4.vol) own4 (.all s5.vol) own4 :=
    Confined.bytes hw.keeps fun x hx => by
      obtain ⟨i, hi, h1, h2⟩ := hx
      exact touch_owned (hgrew.file.has hi) (hgrew.file.used.data i hi) rfl h1 h2
  have htouch6 : Confined z (· = a) (.all s5.vol) own4 (.all s6.vol) own4 := by
    rw [← hv6]
    exact Confined.bytes hk6 fun x hx => touch_slot rfl hx.1 (by omega)
  refine ⟨w, s6, own4, ps4, n4.sized (max n.size (offset + w)), n4, s4.vol, ?_, ⟨?_, ?_, rfl, hblocks, fun x h1 h2 => ?_,
    fun x hx hno => ?_, ((htouch1.trans hgrew.confined).trans htouch5).trans htouch6, hcount, ?_⟩, hQ, rfl, ?_,
    fun x hx hno => by rw [hbytes x hx, if_neg hno]⟩
  · unfold tfsWrite
    rw [bind_eq e0, if_neg (by omega), bind_eq e1, bind_eq e2]
    refine (bind_eq e3).trans ((e4 _).trans ((bind_eq e5).trans ?_))
    rw [hS]
    refine (bind_eq e6).trans ?_
    rw [int32_ofNat (by omega)]
    rfl
  · rw [← hv6]
    exact hfile6
  · have := hnode6
    rwa [hv6] at this
  · rw [hbytes x (by omega), if_pos ⟨h1, h2⟩]
  · rw [hbytes x (by omega), if_neg hno]
    have hi : x / 4096 < n.blocks := by omega
    obtain ⟨h1, h2⟩ := hkept1 _ hi
    obtain ⟨h3, h4⟩ := hgrew.kept _ hi
    rw [h1] at h3 h4
    exact fileByte_congr h3 fun k hk => (h4 k hk).trans (h2 k hk)
  · rcases hgrew.rounds with hr | ⟨-, hr⟩
    · have hr' : n4.blocks = n.blocks + left := hr
      exact Or.inl (by show offset + size ≤ 4096 * n4.blocks; omega)
    · right
      rw [← hv6, hord6, hord5]
      exact hr
  · refine (hw.keeps.mono fun x hx => Or.inl hx).trans ?_
    rw [← hv6]
    exact hk6.mono fun x hx => Or.inr hx

theorem tfsWrite_grown {size offset : Nat} {Q : Node → Vol → Prop} (hfind : Runs (.all s.vol) (findPathNode path) a (.all s.vol))
    (h : InodeAt z (.all s.vol) own ps a n) (hs : n.size ≤ 4096 * n.blocks) (hsize : size < 2 ^ 31) (hsum : offset + size < 2 ^ 63)
    (hstay : offset + size ≤ n.size → ∀ s1 : Sys, s1.vol = ((View.all s.vol).touch a n).vol → Q (n.stamp n.size s.vol.now) s1.vol)
    (hgrow : ∀ s1 : Sys, s1.vol = ((View.all s.vol).touch a n).vol → ∃ (n' : Node) (s' : Sys) (own' : Nat → Option Pos) (ps' : List Nat),
      growLoop a (finalBlocks size offset - n.blocks) (n.stamp n.size s.vol.now) s1 = some (n', s') ∧
      Grew z a s1.vol own (n.stamp n.size s.vol.now) (finalBlocks size offset - n.blocks) s'.vol own' ps' n' ∧ Q n' s'.vol) :
    ∃ (w : Nat) (s' : Sys) (own' : Nat → Option Pos) (ps' : List Nat) (n' n4 : Node) (v4 : Vol),
      tfsWrite path buff size offset s = some ((w : Int), s') ∧ Wrote z a s.vol own n buff size offset w s'.vol own' ps' n' ∧
      Q n4 v4 ∧ n4.blocks = n'.blocks ∧
      ∀ x < 4096 * n'.blocks, ¬ (offset ≤ x ∧ x < offset + w) → fileByte s'.vol.bytes n' x = fileByte v4.bytes n4 x := by
  obtain ⟨w, s', own', ps', n', n4, v4, hrun, hw, hQ, hn, -, hrest⟩ := tfsWrite_fills (Q := fun n v _ _ => Q n v) hfind h hs hsize hsum
    hstay hgrow
  exact ⟨w, s', own', ps', n', n4, v4, hrun, hw, hQ, by rw [hn]; rfl, hrest⟩

theorem tfsWrite_runs {size offset : Nat} (hfind : Runs (.all s.vol) (findPathNode path) a (.all s.vol))
    (h : InodeAt z (.all s.vol) own ps a n) (hs : n.size ≤ 4096 * n.blocks) (hsize : size < 2 ^ 31) (hsum : offset + size < 2 ^ 63)
    (hg : ∀ s1, s1.vol = ((View.all s.vol).touch a n).vol →
      Granted z a (finalBlocks size offset - n.blocks) s1 (n.stamp n.size s.vol.now) own ps) :
    ∃ (w : Nat) (s' : Sys) (own' : Nat → Option Pos) (ps' : List Nat) (n' : Node),
      tfsWrite path buff size offset s = some ((w : Int), s') ∧ Wrote z a s.vol own n buff size offset w s'.vol own' ps' n' := by
  obtain ⟨w, s', own', ps', n', -, -, hrun, hw, -⟩ := tfsWrite_grown (Q := fun _ _ => True) hfind h hs hsize hsum
    (fun _ _ _ => trivial) fun s1 hs1 => by
      obtain ⟨n', s', own', ps', e, hgrew⟩ := growLoop_ends ((h.touched hs1).1.file (stamp_fits h.fits h.fits.size s.vol.now_lt)) (hg s1 hs1)
      exact ⟨n', s', own', ps', e, hgrew, trivial⟩
  exact ⟨w, s', own', ps', n', hrun, hw⟩

/-! ## Over clear pages -/

/-- A call that is known to end well. -/
theorem Added.appends {r : Nat × Node} (had : Added z a (.all v) own ps n r (.all v') own' ps') (h : MapAt z (.all v) own ps a n)
    (hb : r.1 ≠ 0) : Appends z a v own ps n r.1 v' own' ps' r.2 ∧ MapAt z (.all v') own' ps' a r.2 := by
  have hin : z.lo ≤ (View.all v').vol.size := by
    rw [had.keeps.size]
    exact h.inside
  have hmap : MapAt z (.all v') own' ps' a r.2 := ⟨had.space, h.low, h.high, hin, View.Sees.all _ _ _, had.maps⟩
  refine ⟨⟨had.wasFree hb, hmap.file had.fits, had.blocks hb, had.entered hb, fun i hi => ⟨had.addr i hi, fun k hk => ?_⟩,
    had.confined h.space rfl⟩, hmap⟩
  exact had.keeps.bytes _ (h.growByte_data hi (Nat.le_add_right _ k) (Nat.add_lt_add_left hk _))

/-- A call that returns a block, when the pages of pages it takes are zero. -/
theorem addBlockToNode_appends (h : MapAt z (.all s.vol) own ps a n) (hf : n.Fits) (hcap : n.blocks < capacity)
    (hclear : PagesClear (.all s.vol) ps n) (hcall : addBlockToNode n a s = some ((b, n'), s')) (hb : b ≠ 0) :
    ∃ own' ps', Added z a (.all s.vol) own ps n (b, n') (.all s'.vol) own' ps' ∧ Appends z a s.vol own ps n b s'.vol own' ps' n' ∧
      MapAt z (.all s'.vol) own' ps' a n' := by
  obtain ⟨r, K', hrun, own', ps', had⟩ := addBlockToNode_runs h.space h.maps hf h.low h.high hcap hclear
  obtain ⟨s1, e1, hs1⟩ := hrun.exec (holds_all.mpr rfl)
  obtain ⟨rfl, rfl⟩ := Prod.mk.inj (Option.some.inj (e1.symm.trans hcall))
  obtain rfl := had.keeps.all hs1
  obtain ⟨happ, hmap⟩ := had.appends h hb
  exact ⟨own', ps', had, happ, hmap⟩

/-- Over clear pages every round that gets a block appends it. -/
theorem GrowsClear.granted (hz : GrowsClear (.all s.vol) ps n left) (h : MapAt z (.all s.vol) own ps a n) (hf : n.Fits) :
    Granted z a left s n own ps := by
  induction left generalizing s n own ps with
  | zero => trivial
  | succ left ih =>
    intro b n' s' hcall hb
    by_cases hc : n.blocks < capacity
    · obtain ⟨own', ps', had, happ, hmap⟩ := addBlockToNode_appends h hf hc (hz.first hc) hcall hb
      exact ⟨own', ps', happ, ih (hz.next had hb hc) hmap had.fits⟩
    · -- the map is full, and so is the disk
      have hfew : (freeOrder (.all s.vol) ps).length ≤ 1 := by
        have hroom := hz.room.resolve_left (by omega)
        rwa [show capacity - n.blocks = 0 by omega] at hroom
      obtain ⟨s1, e1, -⟩ := (h.file hf).base.refuses (Nat.le_of_not_lt hc) (Or.inl hfew)
      exact absurd (congrArg (fun r => r.1.1) (Option.some.inj (e1.symm.trans hcall))).symm hb

/-- Setting the times does not touch the free blocks. -/
theorem InodeAt.touched_clear {s1 : Sys} (h : InodeAt z (.all s.vol) own ps a n) (hs1 : s1.vol = ((View.all s.vol).touch a n).vol)
    (hz : GrowsClear (.all s.vol) ps n left) : GrowsClear (.all s1.vol) ps (n.stamp n.size s.vol.now) left := by
  obtain ⟨-, hord, hk, -⟩ := h.touched hs1
  have hhigh := h.high
  have hpage : ∀ c j π, own c = some (.page a j π) → ∀ x, c ≤ x → x < c + 4096 → s1.vol.bytes x = s.vol.bytes x := by
    intro c j π hc x h1 h2
    have hlow := (h.space.owned c (by simp [hc])).low
    exact hk.bytes x (by omega)
  refine hz.congr rfl hord (fun j π hp => ?_) fun q hq hclear k hkk => ⟨?_, trivial⟩
  · exact h.maps.frame hpage hp
  · have hlow := (h.space.free q hq).2.low
    exact (hk.bytes (q + k) (by omega)).trans (hclear k hkk).1

/-! ## Write, then read -/

/-- Where the write starts within the file, the new contents are the old ones with the
    bytes written over them. -/
theorem Wrote.contents {len offset w : Nat} (h : Wrote z a v own n buff len offset w v' own' ps' n') (hs : n.size ≤ 4096 * n.blocks)
    (hoff : offset ≤ n.size) :
    contents v'.bytes n' = overlay (contents v.bytes n) offset ((List.range w).map buff) ∧ n'.size ≤ 4096 * n'.blocks := by
  have hsize := h.size
  have hcount := h.count
  have hblocks := h.blocks
  refine ⟨?_, by omega⟩
  unfold TyrantFS.contents
  rw [overlay_range hoff hsize]
  refine List.map_congr_left fun x hx => ?_
  have hx' := List.mem_range.mp hx
  by_cases hin : offset ≤ x ∧ x < offset + w
  · rw [if_pos hin]
    exact h.written x hin.1 hin.2
  · rw [if_neg hin]
    exact h.kept x (by omega) hin

/-- The path still leads to the file. -/
theorem Walks.find_confined (hw : Walks z (.all s.vol) own ps (fun x => IsSlot z.lo x ∧ isDir (nodeAt s.vol.bytes x).mode)
      s.vol.glob.rootNode (tokens path) cur) (hs : Sound z s.vol own ps) (hc : IsSlot z.lo cur)
    (hf : isDir (nodeAt s.vol.bytes cur).mode = false) (h : Confined z (· = cur) (.all s.vol) own (.all s'.vol) own')
    (hsp : Space z (.all s'.vol) own' ps') : Runs (.all s'.vol) (findPathNode path) cur (.all s'.vol) := by
  have hroot := hs.root.1.low
  have hrooth := hs.slot_high hs.root.1
  have hin := hs.high
  have hglob : s'.vol.glob = s.vol.glob := h.keeps.glob
  have hsize : s'.vol.size = s.vol.size := h.keeps.size
  have hbeside : ∀ x, IsSlot z.lo x ∧ isDir (nodeAt s.vol.bytes x).mode → ∀ c, c = cur → Beside z x c := by
    rintro x ⟨hx, hd⟩ c rfl
    exact hs.beside hx hc fun e => by rw [← e, hf] at hd; cases hd
  have hw' := hw.confined h hsp hbeside
  rw [← hglob] at hw'
  refine hw'.find ?_ ?_ (View.Sees.all _ _ _)
  · rw [all_vol, hglob]
    omega
  · rw [all_vol, hglob, hsize]
    omega

/-- The path leads to the inode at `a`, also after a change that is confined to it. -/
def LeadsTo (z : Zone) (path : List UInt8) (a : Nat) (s : Sys) (own : Nat → Option Pos) : Prop :=
  ∀ (s' : Sys) (own' : Nat → Option Pos) (ps' : List Nat), Confined z (· = a) (.all s.vol) own (.all s'.vol) own' →
    Space z (.all s'.vol) own' ps' → Runs (.all s'.vol) (findPathNode path) a (.all s'.vol)

theorem Sound.leadsTo (h : Sound z s.vol own ps) (hres : TyrantFS.resolve s.vol.bytes s.vol.glob.rootNode (tokens path) = some cur)
    (hs : Searches s.vol.bytes s.vol.glob.rootNode (tokens path)) (hf : isDir (nodeAt s.vol.bytes cur).mode = false) :
    LeadsTo z path cur s own := by
  intro s' own' ps' hconf hsp
  have hwalk := h.walks h.root.1 h.root.2.1 hs (fun x hx => by simpa [tokens] using (List.mem_filter.mp hx).2) hres
  exact hwalk.find_confined h (h.resolve h.root.1 h.root.2.1 hres).1 hf hconf hsp

/-- `tfs_read` returns the bytes of `C`: from every offset inside it as many as are asked
    for and there are. -/
def ReadsAs (path : List UInt8) (s : Sys) (C : List UInt8) : Prop :=
  ∀ buff size offset, offset < C.length → size < 2 ^ 31 → offset + size < 2 ^ 63 →
    ∃ s', tfsRead path buff size offset s = some ((((min size (C.length - offset) : Nat) : Int), (C.drop offset).take size), s')

theorem length_contents {m : Mem} : (contents m n).length = n.size := by rw [contents, List.length_map, List.length_range]

theorem FileAt.readsAs (h : FileAt z (.all s.vol) own ps a n) (hfind : Runs (.all s.vol) (findPathNode path) a (.all s.vol))
    (hn : nodeAt s.vol.bytes a = n) (hs : n.size ≤ 4096 * n.blocks) : ReadsAs path s (contents s.vol.bytes n) := by
  intro buff size offset hoff hsize hsum
  rw [length_contents] at hoff ⊢
  obtain ⟨K', hr⟩ : ∃ K' : View, Returns _ (tfsRead path buff size offset) _ K'.Holds :=
    tfsRead_runs hfind h hn (all_vis _) hs hoff hsize hsum
  obtain ⟨s', e, -⟩ := hr s (holds_all.mpr rfl)
  exact ⟨s', e⟩

/-- A write is an overlay, where it finds nothing in the pages it takes. -/
theorem tfsWrite_overlay {size offset : Nat} (h : Sound z s.vol own ps)
    (hres : resolve s.vol.bytes s.vol.glob.rootNode (tokens path) = some cur)
    (hs : Searches s.vol.bytes s.vol.glob.rootNode (tokens path)) (hf : isDir (nodeAt s.vol.bytes cur).mode = false)
    (hn : nodeAt s.vol.bytes cur = n) (hoff : offset ≤ n.size) (hsize : size < 2 ^ 31) (hsum : offset + size < 2 ^ 63)
    (clear : GrowsClear (.all s.vol) ps n (finalBlocks size offset - n.blocks)) :
    ReadsAs path s (contents s.vol.bytes n) ∧
    ∃ (w : Nat) (s' : Sys), tfsWrite path buff size offset s = some ((w : Int), s') ∧ w ≤ size ∧
      (nodeAt s'.vol.bytes cur).size = max n.size (offset + w) ∧
      ReadsAs path s' (overlay (contents s.vol.bytes n) offset ((List.range w).map buff)) ∧
      (w = size ∨ ∃ own' ps', Space z (.all s'.vol) own' ps' ∧ (freeOrder (.all s'.vol) ps').length ≤ 1 ∧
        offset + w = 4096 * (nodeAt s'.vol.bytes cur).blocks) := by
  obtain ⟨hc, hu⟩ := h.resolve h.root.1 h.root.2.1 hres
  have hleads := h.leadsTo hres hs hf
  have hfind := hleads s own ps Confined.refl h.space
  have hinode := h.inode hc hu
  have hcap := h.files cur hc hu hf
  rw [hn] at hinode hcap
  refine ⟨(hinode.toMapAt.file hinode.fits).readsAs hfind hn hcap, ?_⟩
  obtain ⟨w, s', own', ps', n', hrun, hw⟩ : ∃ (w : Nat) (s' : Sys) (own' : Nat → Option Pos) (ps' : List Nat) (n' : Node),
      tfsWrite path buff size offset s = some ((w : Int), s') ∧
        Wrote z cur s.vol own n buff size offset w s'.vol own' ps' n' := tfsWrite_runs hfind hinode hcap hsize hsum fun s1 hs1 =>
    (hinode.touched_clear hs1 clear).granted (hinode.touched hs1).1 (stamp_fits hinode.fits hinode.fits.size s.vol.now_lt)
  obtain ⟨hcont, hcap'⟩ := hw.contents hcap hoff
  have hcount := hw.count
  refine ⟨w, s', hrun, by omega, by rw [hw.node]; exact hw.size, ?_, ?_⟩
  · rw [← hcont]
    exact hw.file.readsAs (hleads s' own' ps' hw.confined hw.file.space) hw.node hcap'
  · by_cases hall : offset + size ≤ 4096 * n'.blocks
    · exact Or.inl (by omega)
    · have hblocks := hw.blocks
      exact Or.inr ⟨own', ps', hw.file.space, hw.rounds.resolve_left hall, by rw [hw.node]; omega⟩

/-! A file of 524 blocks: the next one takes two pages. Three blocks are free, and word 0 of
the second one is `w`. -/

theorem bigSize : 531 < 2 ^ 52 := by decide

def bigNode : Node := filledNode 0x81A4 (4096 * 524) 12288

def bigOwn (b : Nat) : Option Pos := if b = 8192 then some (.data 4096 0) else filledOwn 12288 4352 b

def bigSys (w : Nat) : Sys :=
  fileSys 531 bigSize (12288 + 4096 * 525) bigNode (filledData 12288 zeros [12288 + 4096 * 526, 12288 + 4096 * 527] w)

theorem bigNode_fits : bigNode.Fits := filledNode_fits (by decide) (by decide) (by decide)

section
variable {w : Nat} (hw : w < 2 ^ 64)

include hw

theorem bigSys_pages : FilledPages 12288 [12288 + 4096 * 526, 12288 + 4096 * 527] w (bigSys w).vol.bytes :=
  filledData_pages (by decide) (by decide) (by simp) hw fun x hx => fileSys_data (h := bigSize) (by omega)

theorem bigSys_space : Space ⟨8192, 4096 * 531⟩ (.all (bigSys w).vol) bigOwn [12288 + 4096 * 525] ∧
    freeOrder (.all (bigSys w).vol) [12288 + 4096 * 525] = [12288 + 4096 * 526, 12288 + 4096 * 527, 12288 + 4096 * 525] := by
  have hsuper : word (bigSys w).vol.bytes 0 = 12288 + 4096 * 525 := by
    rw [bigSys, fileSys, rootSys_bytes]
    exact image_super (by decide)
  have hown : ∀ {u}, 524 < u → bigOwn (12288 + 4096 * u) = none := fun hu => by
    rw [bigOwn, if_neg (by omega)]
    exact filledOwn_free hu
  refine filled_space (bigSys_pages hw) (by decide) (by decide) hsuper (by decide) (fun b hb => ?_) (by simp) (hown (by decide))
    (by decide) (by decide) (by decide) (Nat.le_refl _) (show (0 : Int) ≤ 3 by decide) fun b hb => ?_
  · rcases List.mem_cons.mp hb with rfl | hb
    · exact ⟨by decide, by decide, by decide, hown (by decide)⟩
    · obtain rfl := List.mem_singleton.mp hb
      exact ⟨by decide, by decide, by decide, hown (by decide)⟩
  · unfold bigOwn at hb
    split at hb
    · rename_i e
      subst e
      exact ⟨by decide, Nat.le_refl _, by decide⟩
    · exact filledOwn_has (by decide) (by decide) (by decide) hb

theorem bigSys_sound : Sound ⟨8192, 4096 * 531⟩ (bigSys w).vol bigOwn [12288 + 4096 * 525] ∧ InUse (bigSys w).vol.bytes 4352 := by
  have hdata : ∀ i < 524, bigOwn (12288 + 4096 * i) = some (.data 4352 i) := fun i hi => by
    rw [bigOwn, if_neg (by omega)]
    exact filledOwn_data (by decide) hi
  have hpage : bigOwn (12288 + 4096 * 524) = some (.page 4352 12 []) := by
    rw [bigOwn, if_neg (by decide)]
    exact filledOwn_page
  exact fileSys_sound (bigSys_space hw).1 (by decide) rfl bigNode_fits (by show 0x81A4 ≠ 0; decide)
    (by show isDir 0x81A4 = false; decide) (filledNode_maps (bigSys_pages hw) (by decide) (fun _ => trivial) hdata hpage) (Nat.le_refl _)

end

theorem bigSys_node {w : Nat} : nodeAt (bigSys w).vol.bytes 4352 = bigNode := fileSys_node bigNode_fits

/-- Without a word in it, the second free block is clear. -/
theorem bigSys_zero : Clear (.all (bigSys 0).vol) (12288 + 4096 * 527) := by
  intro x hx
  have hbyte : (bigSys 0).vol.bytes (12288 + 4096 * 527 + x) = filledData 12288 zeros _ 0 (12288 + 4096 * 527 + x) :=
    fileSys_data (h := bigSize) (by omega)
  refine ⟨?_, trivial⟩
  rw [all_vol, hbyte, filledData, if_neg (by omega), filledWord, if_neg (by omega), if_neg (by omega), ite_self]
  exact leByte_zero _

/-- Two bytes, one of them in a block that needs both pages. -/
theorem tfsWrite_overlay_double : ReadsAs [47, 70] (bigSys 0) (contents (bigSys 0).vol.bytes bigNode) ∧
    ∃ (w : Nat) (s' : Sys), tfsWrite [47, 70] (leByte 0x4241) 2 (4096 * 524 - 1) (bigSys 0) = some ((w : Int), s') ∧ w ≤ 2 ∧
      (nodeAt s'.vol.bytes 4352).size = max (4096 * 524) (4096 * 524 - 1 + w) ∧
      ReadsAs [47, 70] s' (overlay (contents (bigSys 0).vol.bytes bigNode) (4096 * 524 - 1) ((List.range w).map (leByte 0x4241))) ∧
      (w = 2 ∨ ∃ own' ps', Space ⟨8192, 4096 * 531⟩ (.all s'.vol) own' ps' ∧ (freeOrder (.all s'.vol) ps').length ≤ 1 ∧
        4096 * 524 - 1 + w = 4096 * (nodeAt s'.vol.bytes 4352).blocks) := by
  obtain ⟨hsound, huse⟩ := bigSys_sound (w := 0) (by decide)
  have hnode := bigSys_node (w := 0)
  have hord := (bigSys_space (w := 0) (by decide)).2
  refine tfsWrite_overlay hsound fileSys_resolve.1 fileSys_resolve.2 (by rw [hnode]; show isDir 0x81A4 = false; decide) hnode
    (show 4096 * 524 - 1 ≤ 4096 * 524 by decide) (by decide) (by decide) ⟨fun t ht _ k hk q hq _ => ?_, Or.inl (by decide +kernel)⟩
  -- the second block is the only page of pages
  obtain rfl : t = 0 := Nat.lt_one_iff.mp ht
  obtain rfl : k = 0 := by
    have hle : newPages (bigSys 0).vol.bytes bigNode 524 1 ≤ 1 := Nat.count_le _
    have hk : k < newPages (bigSys 0).vol.bytes bigNode 524 1 := hk
    omega
  rw [hord] at hq
  obtain rfl : 12288 + 4096 * 527 = q := Option.some.inj hq
  exact bigSys_zero

/-! ## Over a page that was not wiped -/

/-- The next `left` calls that return a block put it behind the others. -/
def PutsEach (a : Nat) : (left : Nat) → Sys → Node → Prop
  | 0, _, _ => True
  | left + 1, s, n => ∀ b n' s', addBlockToNode n a s = some ((b, n'), s') → b ≠ 0 → Puts n s b n' s' ∧ PutsEach a left s' n'

/-- A block whose page holds nothing cannot be read. -/
theorem tfsRead_none {q : Nat} (hfind : Runs K (findPathNode path) a K) (hv : ∀ x, K.vis x) (ha : a ≠ 0) (hn : nodeAt K.vol.bytes a = n)
    (hb : n.blocks = 525) (hs : n.size = 4096 * 524 + 8) (h1 : IsBlock K.vol.size n.dblIndirect) (h0 : IsBlock K.vol.size q)
    (ha1 : a + 208 ≤ n.dblIndirect) (ha0 : a + 208 ≤ q) (hroot : slot K.vol.bytes n.dblIndirect 0 = q)
    (hleaf : slot K.vol.bytes q 0 = 0) : ∃ K', Runs K (tfsRead path buff 8 (4096 * 524)) (0, []) K' := by
  have hin := h0.inside
  have hout : ∀ {p f}, a + 208 ≤ p → slot (K.tick.store a 208 f).vol.bytes p 0 = slot K.vol.bytes p 0 := fun hp =>
    slot_congr (fun x h1 _ => put_out (by omega)) (by decide)
  have hget := getIBlock_double (K := K.tick.store a 208 (n.accessed (K.vol.env.clock K.vol.ticks % 2 ^ 64)).encode)
    (n := n.accessed (K.vol.env.clock K.vol.ticks % 2 ^ 64)) (q := q) (by show 524 < n.blocks; omega)
    (by rw [store_size]; exact h1) (by rw [store_size]; exact h0) (fun x => Or.inl (hv x)) ((hout ha1).trans hroot)
  rw [hout ha0, hleaf] at hget
  refine ⟨K.tick.store a 208 (n.accessed (K.vol.env.clock K.vol.ticks % 2 ^ 64)).encode, ?_⟩
  have hfetch := fetchNode_runs (K := K) ha (by omega) fun _ _ => hv _
  rw [hn] at hfetch
  have hloop : Runs (K.tick.store a 208 (n.accessed (K.vol.env.clock K.vol.ticks % 2 ^ 64)).encode)
      (readLoop (n.accessed (K.vol.env.clock K.vol.ticks % 2 ^ 64)) (n.blocks - 4096 * 524 / 4096) (4096 * 524 / 4096) (4096 * 524 % 4096) 8 buff)
      [] (K.tick.store a 208 (n.accessed (K.vol.env.clock K.vol.ticks % 2 ^ 64)).encode) := by
    rw [hb, show 525 - 4096 * 524 / 4096 = 0 + 1 by decide, show 4096 * 524 / 4096 = 524 by decide, show 4096 * 524 % 4096 = 0 by decide]
    unfold readLoop
    rw [if_pos (by decide)]
    refine hget.bind ?_
    unfold readBlock
    rw [if_pos rfl]
    exact Runs.pure.bind (Runs.pure.bind Runs.pure)
  unfold tfsRead
  refine hfind.bind ?_
  rw [if_neg ha]
  refine hfetch.bind ?_
  rw [if_neg (by rw [hs]; decide), show (if (4096 * 524 + 8) % 2 ^ 64 > n.size then n.size - 4096 * 524 else 8) = 8 by rw [hs]; decide]
  exact getCurrentTimeInNsec_runs.bind ((commitInode_runs (by rw [tick_size]; omega)).bind (hloop.bind Runs.pure))

section
variable {x0 x1 : Nat} {rest : List Nat} (h : InodeAt z (.all s.vol) own ps a n) (hb : n.blocks = 524) (h13 : n.dblIndirect = 0)
  (hord : freeOrder (.all s.vol) ps = x0 :: x1 :: rest) (h1 : x1 ∉ ps) (hw : word s.vol.bytes x1 = x0)

include h hb h13 hord h1 hw

/-- The call of the loop, after the times were set. -/
theorem InodeAt.recycles {s1 : Sys} (hs1 : s1.vol = ((View.all s.vol).touch a n).vol) :
    MapAt z (.all s1.vol) own ps a (n.stamp n.size s.vol.now) ∧ ∃ (s2 : Sys) (ps2 : List Nat),
      addBlockToNode (n.stamp n.size s.vol.now) a s1 = some ((x0, (n.stamp n.size s.vol.now).doubled x1), s2) ∧
        Recycled z a (.all s1.vol) own ps (n.stamp n.size s.vol.now) x0 x1 rest (.all s2.vol) ps2 := by
  obtain ⟨hmap, hord1, hk, -⟩ := h.touched hs1
  have hhigh := h.high
  have hm1 : x1 ∈ freeOrder (.all s.vol) ps := by rw [hord]; exact List.mem_cons_of_mem _ List.mem_cons_self
  have hlow := (h.space.free x1 hm1).2.low
  have hw1 : word s1.vol.bytes x1 = x0 := (word_congr fun k hkk => hk.bytes _ (by omega)).trans hw
  obtain ⟨K', ps2, hrun, hrec⟩ := addBlockToNode_recycled hmap (stamp_fits h.fits h.fits.size s.vol.now_lt) (all_vis _) hb h13
    (hord1.trans hord) h1 hw1
  obtain ⟨s2, e2, hs2⟩ := hrun.exec (holds_all.mpr rfl)
  obtain rfl := hrec.keeps.all hs2
  exact ⟨hmap, s2, ps2, e2, hrec⟩

theorem InodeAt.puts_recycled : ∀ s1 : Sys, s1.vol = ((View.all s.vol).touch a n).vol → PutsEach a 1 s1 (n.stamp n.size s.vol.now) := by
  intro s1 hs1 b n' s' hcall _
  obtain ⟨hmap, s2, ps2, e2, hrec⟩ := h.recycles hb h13 hord h1 hw hs1
  obtain ⟨e, rfl⟩ := Prod.mk.inj (Option.some.inj (e2.symm.trans hcall))
  obtain ⟨rfl, rfl⟩ := Prod.mk.inj e
  exact ⟨hrec.puts hmap hb, trivial⟩

/-- A write of zeros behind the last block clears the page that leads to it. -/
theorem tfsWrite_loses (hnext : LeadsTo z path a s own) (hs : n.size = 4096 * 524) :
    ∃ s', tfsWrite path zeros 8 (4096 * 524) s = some (8, s') ∧
      ∀ buff, ∃ s'', tfsRead path buff 8 (4096 * 524) s' = some ((0, []), s'') := by
  have hlow := h.low
  have hhigh := h.high
  have hin : z.lo ≤ s.vol.size := h.inside
  have hn64 := h.fits.size
  have hfits := stamp_fits (s := n.size) h.fits hn64 s.vol.now_lt
  -- up to the loop
  obtain ⟨s0, e0, hs0⟩ := (hnext s own ps Confined.refl h.space).exec (holds_all.mpr rfl)
  obtain ⟨s1, e1, hs1⟩ := h.fetch.exec hs0
  obtain ⟨s2, e2, hs2⟩ := getCurrentTimeInNsec_runs.exec hs1
  obtain ⟨s3, e3, hs3⟩ := (((h.toMapAt.tick).1.sameMap (SameMap.stamp (s := n.size))).commit hfits).1.exec hs2
  have hv3 : s3.vol = ((View.all s.vol).touch a n).vol :=
    congrArg View.vol ((Keeps.tick (S := fun x => a ≤ x ∧ x < a + 208)).trans (Keeps.store fun x h1 h2 => ⟨h1, h2⟩) |>.all hs3).symm
  obtain ⟨-, -, hk3, -⟩ := h.touched hv3
  obtain ⟨hmap, s4, ps4, e4, hrec⟩ := h.recycles hb h13 hord h1 hw hv3
  have hsize : s4.vol.size = s3.vol.size := hrec.keeps.size
  have hsize3 : s3.vol.size = s.vol.size := hk3.size
  have hb0 := hrec.block
  have hb1 := hrec.page
  rw [all_vol, ← hsize] at hb0 hb1
  have hin0 := hb0.inside
  -- the block goes over its own page
  obtain ⟨s5, e5, hs5⟩ := (getIBlock_double (K := .all s4.vol) (n := (n.stamp n.size s.vol.now).doubled x1) (q := x0)
    (show 524 < n.blocks + 1 by omega) hb1 hb0 (all_vis _) hrec.root).exec (holds_all.mpr rfl)
  rw [hrec.leaf] at e5
  obtain ⟨s6, e6, hs6⟩ := (writeBlock_fits (K := .all s4.vol) (f := fun k => zeros (0 + k)) (b := x0) (n := 8) (o := 0) rfl (by decide)
    (by rw [all_vol]; omega)).exec hs5
  have hfits7 := sized_fits hrec.fits (show 4096 * 524 + 8 < 2 ^ 64 by decide)
  obtain ⟨s7, e7, hs7⟩ := (commitInode_runs (a := a) (n := ((n.stamp n.size s.vol.now).doubled x1).sized (4096 * 524 + 8))
    (show a + 208 ≤ ((View.all s4.vol).store (x0 + 0) 8 fun k => zeros (0 + k)).vol.size by rw [store_size, all_vol]; omega)).exec hs6
  have hrun : tfsWrite path zeros 8 (4096 * 524) s = some (8, s7) := by
    have hgrow : growLoop a (finalBlocks 8 (4096 * 524) - n.blocks) (n.stamp n.size s.vol.now) s3 =
        some ((n.stamp n.size s.vol.now).doubled x1, s4) := by
      rw [hb, show finalBlocks 8 (4096 * 524) - 524 = 0 + 1 by decide]
      unfold growLoop
      rw [bind_eq e4, if_neg hb0.pos]
      rfl
    have hloop : writeLoop ((n.stamp n.size s.vol.now).doubled x1) zeros (n.blocks + 1 - 4096 * 524 / 4096) (4096 * 524 / 4096)
        (4096 * 524 % 4096) 8 0 s4 = some (8, s6) := by
      rw [hb, show 524 + 1 - 4096 * 524 / 4096 = 0 + 1 by decide, show 4096 * 524 / 4096 = 524 by decide,
        show 4096 * 524 % 4096 = 0 by decide]
      unfold writeLoop
      rw [if_pos (by decide)]
      refine (bind_eq e5).trans ((bind_eq e6).trans ?_)
      rfl
    unfold tfsWrite
    rw [bind_eq e0, if_neg (by omega), bind_eq e1, bind_eq e2]
    refine (bind_eq e3).trans ?_
    dsimp only
    rw [if_pos (by rw [hs]; decide)]
    refine (bind_eq hgrow).trans ((bind_eq hloop).trans ?_)
    rw [show (if n.size > (4096 * 524 + 8) % 2 ^ 64 then n.size else (4096 * 524 + 8) % 2 ^ 64) = 4096 * 524 + 8 by rw [hs]; decide]
    exact (bind_eq e7).trans rfl
  -- what is left
  have hm0 : x0 ∈ freeOrder (.all s.vol) ps := by rw [hord]; exact List.mem_cons_self
  have hm1 : x1 ∈ freeOrder (.all s.vol) ps := by rw [hord]; exact List.mem_cons_of_mem _ List.mem_cons_self
  obtain ⟨ho0, hz0⟩ := h.space.free x0 hm0
  have hz1 := (h.space.free x1 hm1).2
  have hl0 := hz0.low
  have hl1 := hz1.low
  have hnd : (x0 :: x1 :: rest).Nodup := hord ▸ h.space.list.chain.nodup
  have hap := hz0.apart hz1 fun e => (List.nodup_cons.mp hnd).1 (e ▸ List.mem_cons_self)
  have hk7 : Keeps (fun x => x0 ≤ x ∧ x < x0 + 8 ∨ a ≤ x ∧ x < a + 208) (.all s4.vol)
      (((View.all s4.vol).store (x0 + 0) 8 fun k => zeros (0 + k)).store a 208
        (((n.stamp n.size s.vol.now).doubled x1).sized (4096 * 524 + 8)).encode) :=
    (Keeps.store fun x h1 h2 => Or.inl ⟨h1, h2⟩).trans (Keeps.store fun x h1 h2 => Or.inr ⟨h1, h2⟩)
  have hv7 := hk7.all hs7
  obtain ⟨hsp7, -⟩ := hrec.space.keep hk7 (fun x hx => by omega) fun x c hx hc => by
    have hcz := (hrec.space.free c hc).2
    have hcl := hcz.low
    rw [hrec.order] at hc
    have := hcz.apart hz0 fun e => (List.nodup_cons.mp hnd).1 (e ▸ List.mem_cons_of_mem _ hc)
    omega
  have hconf3 : Confined z (· = a) (.all s.vol) own (.all s3.vol) own := Confined.bytes hk3 fun x hx => touch_slot rfl hx.1 (by omega)
  have hconf7 : Confined z (· = a) (.all s4.vol) own (.all s7.vol) own := by
    rw [← hv7]
    refine Confined.bytes hk7 fun x hx => ?_
    rcases hx with hx | hx
    · exact touch_free hz0 ho0 hx.1 (by omega)
    · exact touch_slot rfl hx.1 (by omega)
  have hfind := hnext s7 own ps4 ((hconf3.trans (hrec.confined hmap)).trans hconf7) (hv7 ▸ hsp7)
  have hbytes : s7.vol.bytes = put (put s4.vol.bytes (x0 + 0) 8 fun k => zeros (0 + k)) a 208
      (((n.stamp n.size s.vol.now).doubled x1).sized (4096 * 524 + 8)).encode := congrArg (fun K => K.vol.bytes) hv7.symm
  have hsize7 : s7.vol.size = s4.vol.size := congrArg (fun K => K.vol.size) hv7.symm
  have hroot : slot (View.all s7.vol).vol.bytes x1 0 = x0 := by
    refine Eq.trans ?_ hrec.root
    rw [slot_of_ne hb1.pos, slot_of_ne hb1.pos]
    exact word_congr fun k hk => by rw [all_vol, hbytes, put_out (by omega), put_out (by omega)]; rfl
  have hleaf : slot (View.all s7.vol).vol.bytes x0 0 = 0 := by
    rw [slot_of_ne hb0.pos]
    exact word_eq_zero fun k hk => by rw [all_vol, hbytes, put_out (by omega), put_in (by omega) (by omega)]; rfl
  refine ⟨s7, hrun, fun buff => ?_⟩
  obtain ⟨K8, hread⟩ : ∃ K', Runs (.all s7.vol) (tfsRead path buff 8 (4096 * 524)) (0, []) K' := tfsRead_none (K := .all s7.vol)
    (n := ((n.stamp n.size s.vol.now).doubled x1).sized (4096 * 524 + 8)) (q := x0) hfind (all_vis _) (by omega) (by rw [all_vol, hbytes]; exact nodeAt_put hfits7) (congrArg (· + 1) hb) rfl
    (by rw [all_vol, hsize7]; exact hb1) (by rw [all_vol, hsize7]; exact hb0) (show a + 208 ≤ x1 by omega) (by omega) hroot hleaf
  obtain ⟨s8, e8, -⟩ := hread.exec (holds_all.mpr rfl)
  exact ⟨s8, e8⟩

end

/-- Word 0 of the second free block holds the address of the first. Both calls do what is
    granted, and the bytes that were written cannot be read. -/
theorem tfsWrite_overlay_not : Sound ⟨8192, 4096 * 531⟩ (bigSys (12288 + 4096 * 526)).vol bigOwn [12288 + 4096 * 525] ∧
    nodeAt (bigSys (12288 + 4096 * 526)).vol.bytes 4352 = bigNode ∧
    resolve (bigSys (12288 + 4096 * 526)).vol.bytes (bigSys (12288 + 4096 * 526)).vol.glob.rootNode (tokens [47, 70]) = some 4352 ∧
    Searches (bigSys (12288 + 4096 * 526)).vol.bytes (bigSys (12288 + 4096 * 526)).vol.glob.rootNode (tokens [47, 70]) ∧
    (∀ s1 : Sys, s1.vol = ((View.all (bigSys (12288 + 4096 * 526)).vol).touch 4352 bigNode).vol →
      PutsEach 4352 (finalBlocks 8 (4096 * 524) - bigNode.blocks) s1 (bigNode.stamp bigNode.size (bigSys (12288 + 4096 * 526)).vol.now)) ∧
    ∃ s', tfsWrite [47, 70] zeros 8 (4096 * 524) (bigSys (12288 + 4096 * 526)) = some (8, s') ∧
      ¬ ReadsAs [47, 70] s' (overlay (contents (bigSys (12288 + 4096 * 526)).vol.bytes bigNode) (4096 * 524) ((List.range 8).map zeros)) := by
  obtain ⟨hsound, huse⟩ := bigSys_sound (w := 12288 + 4096 * 526) (by decide)
  have hnode := bigSys_node (w := 12288 + 4096 * 526)
  have hord := (bigSys_space (w := 12288 + 4096 * 526) (by decide)).2
  have hinode := hsound.inode slotF huse
  rw [hnode] at hinode
  have hword : word (bigSys (12288 + 4096 * 526)).vol.bytes (12288 + 4096 * 527) = 12288 + 4096 * 526 :=
    bigSys_pages (by decide) 527 0 (by decide) (by decide) (by decide)
  have h13 : bigNode.dblIndirect = 0 := filledNode_root (k := 13) (by decide)
  have hleads : LeadsTo ⟨8192, 4096 * 531⟩ [47, 70] 4352 (bigSys (12288 + 4096 * 526)) bigOwn :=
    hsound.leadsTo fileSys_resolve.1 fileSys_resolve.2 (by rw [hnode]; show isDir 0x81A4 = false; decide)
  obtain ⟨s', hrun, hread⟩ := tfsWrite_loses hinode rfl h13 hord (by simp) hword hleads rfl
  refine ⟨hsound, hnode, fileSys_resolve.1, fileSys_resolve.2, hinode.puts_recycled rfl h13 hord (by simp) hword, s', hrun, fun hreads => ?_⟩
  have hlen : (contents (bigSys (12288 + 4096 * 526)).vol.bytes bigNode).length = 4096 * 524 := length_contents
  have hlen' : (overlay (contents (bigSys (12288 + 4096 * 526)).vol.bytes bigNode) (4096 * 524) ((List.range 8).map zeros)).length =
      4096 * 524 + 8 := by
    rw [length_overlay (Nat.le_of_eq hlen.symm), hlen, List.length_map, List.length_range]
    omega
  obtain ⟨s1, e1⟩ := hreads zeros 8 (4096 * 524) (by rw [hlen']; decide) (by decide) (by decide)
  obtain ⟨s2, e2⟩ := hread zeros
  have hcount : ((min 8 (4096 * 524 + 8 - 4096 * 524) : Nat) : Int) = 0 := by
    rw [← hlen']
    exact congrArg (fun r => r.1.1) (Option.some.inj (e1.symm.trans e2))
  exact absurd hcount (by decide)

end TyrantFS

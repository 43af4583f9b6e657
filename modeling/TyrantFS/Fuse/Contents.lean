/-
  TyrantFS.Fuse.Contents — the bytes of a file, and the loops of `tfs_read` and
  `tfs_write` over its blocks.

  Byte `x` stands in block `x / 4096`, at `x % 4096` (`fileByte`). Both loops take an
  unaligned first piece and whole blocks after it, up to the count or the last block.
-/
import TyrantFS.Help.Grow
import TyrantFS.Fuse.Tyrant
import TyrantFS.Lib.Overlay

namespace TyrantFS

open Lib Lib.PageTree

variable {z : Zone} {K K' : View} {own : Nat → Option Pos} {ps : List Nat} {a cnt i left loc p w x : Nat} {n n' : Node}
  {buff f : Mem} {m m' : Mem}

def fileByte (m : Mem) (n : Node) (x : Nat) : UInt8 := m (addrOf m n (x / 4096) + x % 4096)

/-- What the file holds. -/
def contents (m : Mem) (n : Node) : List UInt8 := (List.range n.size).map (fileByte m n)

theorem fileByte_at (hl : x < 4096) : fileByte m n (4096 * i + x) = m (addrOf m n i + x) := by
  rw [fileByte, show (4096 * i + x) / 4096 = i by omega, show (4096 * i + x) % 4096 = x by omega]

theorem fileByte_congr (ha : addrOf m' n' (x / 4096) = addrOf m n (x / 4096))
    (hd : ∀ k < 4096, m' (addrOf m n (x / 4096) + k) = m (addrOf m n (x / 4096) + k)) : fileByte m' n' x = fileByte m n x := by
  rw [fileByte, fileByte, ha, hd _ (Nat.mod_lt x (by decide))]

/-! ## Reading -/

/-- From byte `4096 * i + loc` on, as many bytes as there are in `left` blocks. -/
theorem readLoop_runs (h : FileAt z K own ps a n) (hv : ∀ x, K.vis x) (hloc : loc < 4096) (hl : i + left = n.blocks) :
    Runs K (readLoop n left i loc cnt buff)
      ((List.range (min cnt (4096 * left - loc))).map fun k => fileByte K.vol.bytes n (4096 * i + loc + k)) K := by
  induction left generalizing i loc cnt buff with
  | zero =>
    rw [show min cnt (4096 * 0 - loc) = 0 by omega]
    exact Runs.pure
  | succ left ih =>
    unfold readLoop
    by_cases hc : cnt = 0
    · subst hc
      rw [if_neg (fun h => h rfl), Nat.zero_min]
      exact Runs.pure
    have hi : i < n.blocks := by omega
    have hb := h.block hi
    have hin := hb.inside
    rw [if_pos hc]
    -- the piece in this block, and the rest
    have hread := readBlock_runs (K := K) (g := buff) (n := cnt) (show (loc : Int) = (loc : Nat) from rfl) hb.pos (by omega)
      (by omega) fun x _ => hv _
    have hrest : Runs K (readLoop n left (i + 1) 0 (cnt - min cnt (4096 - loc)) fun k => buff (min cnt (4096 - loc) + k)) _ K :=
      ih (by decide) (by omega)
    refine (h.get hi).bind (hread.bind (hrest.bind (Runs.pure.result ?_)))
    rw [show min cnt (4096 * (left + 1) - loc) = min cnt (4096 - loc) + min (cnt - min cnt (4096 - loc)) (4096 * left - 0) by omega,
      List.range_add, List.map_append, List.map_map]
    congr 1
    · refine List.map_congr_left fun k hk => ?_
      have hk' : k < min cnt (4096 - loc) := List.mem_range.mp hk
      rw [Nat.add_assoc (4096 * i), fileByte_at (by omega), ← Nat.add_assoc]
      dsimp only
      exact clip_lt hk'
    · refine List.map_congr_left fun k hk => ?_
      have hk' := List.mem_range.mp hk
      show _ = fileByte _ _ (4096 * i + loc + (min cnt (4096 - loc) + k))
      congr 1
      omega

/-- The inode, read at `t`. -/
def Node.accessed (n : Node) (t : Nat) : Node := { n with accessTime := t }

theorem SameMap.accessed {t : Nat} : SameMap n (n.accessed t) := ⟨rfl, fun _ => rfl⟩

theorem accessed_fits {t : Nat} (h : n.Fits) (ht : t < 2 ^ 64) : (n.accessed t).Fits := { h with accessTime := ht }

/-- What `tfs_read` puts into the buffer: as many bytes as are asked for, and there are
    up to the end and in the blocks. The access time is set, and nothing else. -/
theorem tfsRead_accesses {P : Sys → Prop} {path : List UInt8} {size offset : Nat} (hfind : Returns P (findPathNode path) a K.Holds)
    (h : FileAt z K own ps a n) (hn : nodeAt K.vol.bytes a = n) (hv : ∀ x, K.vis x) (hoff : offset < n.size) (hsize : size < 2 ^ 31)
    (hsum : offset + size < 2 ^ 63) :
    Returns P (tfsRead path buff size offset)
      (((min (min size (n.size - offset)) (4096 * n.blocks - offset) : Nat) : Int),
        (List.range (min (min size (n.size - offset)) (4096 * n.blocks - offset))).map fun k => fileByte K.vol.bytes n (offset + k))
      (K.tick.store a 208 (n.accessed (K.vol.env.clock K.vol.ticks % 2 ^ 64)).encode).Holds := by
  have hlow := h.low
  have hhigh := h.high
  have hin := h.inside
  -- the access time is set
  obtain ⟨htick, -⟩ := h.tick
  obtain ⟨hcommit, hfile, -, -, haddr⟩ := (htick.sameMap SameMap.accessed (accessed_fits (t := K.vol.env.clock K.vol.ticks % 2 ^ 64)
    h.fits (Nat.mod_lt _ (by decide)))).commit
  have hcount : (if (offset + size) % 2 ^ 64 > n.size then n.size - offset else size) = min size (n.size - offset) := by
    rw [Nat.mod_eq_of_lt (by omega)]
    split <;> omega
  have hloop : Runs (K.tick.store a 208 (n.accessed (K.vol.env.clock K.vol.ticks % 2 ^ 64)).encode)
      (readLoop (n.accessed (K.vol.env.clock K.vol.ticks % 2 ^ 64)) (n.blocks - offset / 4096) (offset / 4096) (offset % 4096)
        (min size (n.size - offset)) buff)
      ((List.range (min (min size (n.size - offset)) (4096 * n.blocks - offset))).map fun k => fileByte K.vol.bytes n (offset + k))
      (K.tick.store a 208 (n.accessed (K.vol.env.clock K.vol.ticks % 2 ^ 64)).encode) := by
    by_cases hc : offset / 4096 ≤ n.blocks
    · refine (readLoop_runs hfile (fun x => Or.inl (hv x)) (Nat.mod_lt _ (by decide))
        (show offset / 4096 + (n.blocks - offset / 4096) = n.blocks by omega)).result ?_
      rw [show 4096 * (n.blocks - offset / 4096) - offset % 4096 = 4096 * n.blocks - offset by omega]
      refine List.map_congr_left fun k hk => ?_
      have hk' := List.mem_range.mp hk
      rw [show 4096 * (offset / 4096) + offset % 4096 + k = offset + k by omega]
      have hi : (offset + k) / 4096 < n.blocks := by omega
      refine fileByte_congr ((haddr _ hi).trans SameMap.accessed.addr) fun j hj => ?_
      have := (h.has hi).low
      exact put_out (by omega)
    · rw [show n.blocks - offset / 4096 = 0 by omega, show min (min size (n.size - offset)) (4096 * n.blocks - offset) = 0 by omega]
      exact Runs.pure
  refine hfind.bind ?_
  have hfetch := fetchNode_runs (K := K) (a := a) (by omega) (by omega) fun x _ => hv _
  rw [hn] at hfetch
  rw [if_neg (by omega)]
  refine hfetch.bind ?_
  rw [if_neg (by omega), hcount]
  refine getCurrentTimeInNsec_runs.bind (hcommit.bind (hloop.bind (Runs.pure.result ?_)))
  rw [List.length_map, List.length_range, int32_ofNat (by omega)]

theorem tfsRead_reads {P : Sys → Prop} {path : List UInt8} {size offset : Nat} (hfind : Returns P (findPathNode path) a K.Holds)
    (h : FileAt z K own ps a n) (hn : nodeAt K.vol.bytes a = n) (hv : ∀ x, K.vis x) (hoff : offset < n.size) (hsize : size < 2 ^ 31)
    (hsum : offset + size < 2 ^ 63) :
    ∃ K' : View, Returns P (tfsRead path buff size offset)
      (((min (min size (n.size - offset)) (4096 * n.blocks - offset) : Nat) : Int),
        (List.range (min (min size (n.size - offset)) (4096 * n.blocks - offset))).map fun k => fileByte K.vol.bytes n (offset + k))
      K'.Holds := ⟨_, tfsRead_accesses hfind h hn hv hoff hsize hsum⟩

/-- Where the blocks reach up to the end, a part of the contents. -/
theorem tfsRead_runs {P : Sys → Prop} {path : List UInt8} {size offset : Nat} (hfind : Returns P (findPathNode path) a K.Holds)
    (h : FileAt z K own ps a n) (hn : nodeAt K.vol.bytes a = n) (hv : ∀ x, K.vis x) (hs : n.size ≤ 4096 * n.blocks)
    (hoff : offset < n.size) (hsize : size < 2 ^ 31) (hsum : offset + size < 2 ^ 63) :
    ∃ K' : View, Returns P (tfsRead path buff size offset)
      (((min size (n.size - offset) : Nat) : Int), ((contents K.vol.bytes n).drop offset).take size) K'.Holds := by
  obtain ⟨K', h1⟩ : ∃ K' : View, Returns P (tfsRead path buff size offset) _ K'.Holds := tfsRead_reads hfind h hn hv hoff hsize hsum
  refine ⟨K', ?_⟩
  rw [show min (min size (n.size - offset)) (4096 * n.blocks - offset) = min size (n.size - offset) by omega] at h1
  rwa [contents, drop_take_range]

/-! ## Writing -/

/-- A byte of the file's blocks. -/
def DataByte (K : View) (n : Node) (x : Nat) : Prop := ∃ i < n.blocks, addrOf K.vol.bytes n i ≤ x ∧ x < addrOf K.vol.bytes n i + 4096

/-- The first `w` bytes of `f` stand in the file from byte `p` on. -/
structure Written (K : View) (n : Node) (p w : Nat) (f : Mem) (K' : View) : Prop where
  keeps : Keeps (DataByte K n) K K'
  ticks : K'.vol.ticks = K.vol.ticks
  bytes : ∀ x < 4096 * n.blocks, K'.vol.bytes (addrOf K.vol.bytes n (x / 4096) + x % 4096) =
    if p ≤ x ∧ x < p + w then f (x - p) else fileByte K.vol.bytes n x

theorem Written.refl : Written K n p 0 f K := ⟨Keeps.refl, rfl, fun x _ => (if_neg (by omega)).symm⟩

/-- The first piece, and the rest behind it. -/
theorem Written.trans {K'' : View} {v : Nat} (h : Written K n p w f K')
    (ha : ∀ i < n.blocks, addrOf K'.vol.bytes n i = addrOf K.vol.bytes n i)
    (h' : Written K' n (p + w) v (fun k => f (w + k)) K'') : Written K n p (w + v) f K'' := by
  have hbyte : ∀ x, DataByte K' n x → DataByte K n x := by
    rintro x ⟨i, hi, hx⟩
    rw [ha i hi] at hx
    exact ⟨i, hi, hx⟩
  refine ⟨h.keeps.trans (h'.keeps.mono hbyte), h'.ticks.trans h.ticks, fun x hx => ?_⟩
  have hi : x / 4096 < n.blocks := by omega
  have h2 := h'.bytes x hx
  rw [fileByte, ha _ hi, h.bytes x hx] at h2
  rw [h2]
  by_cases h3 : p + w ≤ x ∧ x < p + w + v
  · rw [if_pos h3, if_pos (by omega)]
    congr 1
    omega
  · rw [if_neg h3]
    by_cases h4 : p ≤ x ∧ x < p + w
    · rw [if_pos h4, if_pos (by omega)]
    · rw [if_neg h4, if_neg (by omega)]

/-- One piece, in one block. -/
theorem writePiece_runs (h : FileAt z K own ps a n) (hi : i < n.blocks) (hloc : loc < 4096) :
    ∃ K', Runs K (writeBlock f (addrOf K.vol.bytes n i) loc cnt) (min cnt (4096 - loc) : Nat) K' ∧
      Written K n (4096 * i + loc) (min cnt (4096 - loc)) f K' := by
  have hin := (h.block hi).inside
  refine ⟨_, writeBlock_runs rfl (by omega) (by omega), Keeps.store fun x h1 h2 => ⟨i, hi, by omega, by omega⟩, rfl, fun x hx => ?_⟩
  have hxi : x / 4096 < n.blocks := by omega
  rw [store_bytes, fileByte]
  by_cases he : x / 4096 = i
  · rw [he]
    by_cases hx' : 4096 * i + loc ≤ x ∧ x < 4096 * i + loc + min cnt (4096 - loc)
    · rw [if_pos hx', put_in (by omega) (by omega)]
      congr 1
      omega
    · rw [if_neg hx', put_out (by omega)]
  · have := h.addr_apart hxi hi he
    rw [if_neg (by omega), put_out (by omega)]

theorem Written.file (hw : Written K n p w f K') (h : FileAt z K own ps a n) :
    FileAt z K' own ps a n ∧ freeOrder K' ps = freeOrder K ps ∧
      ∀ i < n.blocks, addrOf K'.vol.bytes n i = addrOf K.vol.bytes n i :=
  h.keep hw.keeps fun _ hx => Or.inr hx

/-- `bytes` have been written before. -/
theorem writeLoop_runs {bytes : Nat} (h : FileAt z K own ps a n) (hloc : loc < 4096) (hl : i + left = n.blocks)
    (hb : bytes + cnt < 2 ^ 63) :
    ∃ K', Runs K (writeLoop n buff left i loc cnt bytes) (bytes + min cnt (4096 * left - loc)) K' ∧
      Written K n (4096 * i + loc) (min cnt (4096 * left - loc)) (fun k => buff (bytes + k)) K' := by
  induction left generalizing i loc cnt bytes K with
  | zero =>
    rw [show min cnt (4096 * 0 - loc) = 0 by omega]
    exact ⟨K, Runs.pure, Written.refl⟩
  | succ left ih =>
    unfold writeLoop
    by_cases hc : cnt = 0
    · subst hc
      rw [if_neg (fun h => h rfl), Nat.zero_min]
      exact ⟨K, Runs.pure, Written.refl⟩
    have hi : i < n.blocks := by omega
    rw [if_pos hc]
    obtain ⟨K1, hrun, hw⟩ : ∃ K1, Runs K (writeBlock (fun k => buff (bytes + k)) (addrOf K.vol.bytes n i) loc cnt)
        (min cnt (4096 - loc) : Nat) K1 ∧ Written K n (4096 * i + loc) (min cnt (4096 - loc)) (fun k => buff (bytes + k)) K1 :=
      writePiece_runs h hi hloc
    obtain ⟨h1, -, haddr⟩ := hw.file h
    have hu : u64 ((min cnt (4096 - loc) : Nat) : Int) = min cnt (4096 - loc) := u64_ofNat (by omega)
    have hleft : u64 ((cnt : Int) - (min cnt (4096 - loc) : Nat)) = cnt - min cnt (4096 - loc) := by
      rw [show (cnt : Int) - (min cnt (4096 - loc) : Nat) = (cnt - min cnt (4096 - loc) : Nat) by omega, u64_ofNat (by omega)]
    have hsum : (bytes + min cnt (4096 - loc)) % 2 ^ 64 = bytes + min cnt (4096 - loc) := Nat.mod_eq_of_lt (by omega)
    obtain ⟨K2, hrest, hw2⟩ : ∃ K2, Runs K1 (writeLoop n buff left (i + 1) 0 (cnt - min cnt (4096 - loc))
        (bytes + min cnt (4096 - loc))) _ K2 ∧ Written K1 n (4096 * (i + 1) + 0) _ _ K2 := ih h1 (by decide) (by omega) (by omega)
    have hcount : min cnt (4096 * (left + 1) - loc) = min cnt (4096 - loc) + min (cnt - min cnt (4096 - loc)) (4096 * left - 0) := by
      omega
    rw [hcount]
    refine ⟨K2, (h.get hi).bind (hrun.bind ?_), hw.trans haddr ?_⟩
    · rw [hu]
      dsimp only
      rw [hleft, hsum, ← Nat.add_assoc]
      exact hrest
    · by_cases hdone : cnt - min cnt (4096 - loc) = 0
      · rw [hdone, Nat.zero_min] at hw2 ⊢
        exact ⟨hw2.keeps, hw2.ticks, fun x hx => by
          have := hw2.bytes x hx
          rwa [if_neg (by omega)] at this ⊢⟩
      · rw [show 4096 * (i + 1) + 0 = 4096 * i + loc + min cnt (4096 - loc) by omega] at hw2
        simpa only [Nat.add_assoc] using hw2

end TyrantFS

/-
  TyrantFS.Help.Indirect — `check_indirect_blk`, `check_dbl_indirect_blk` and
  `check_trpl_indirect_blk`.

  The three loops are one (`checkTree`): a tree of depth `d + 1` is searched by searching
  the trees of depth `d` its page lists, with one count of the blocks that are left. The
  `k`-th of them starts with the count at `c - k * 512 ^ d`, so it sees the leaves from
  number `k * 512 ^ d` on, and the loop stops where the count does. What is known of the
  disk are the pages on the way to the first `c` leaves and these leaves, nothing else.
  `fVia read` is `f` over the `read` it is given (`fVia_sysRead`); with one that stops the
  process elsewhere it is seen that only the leaves taken off the count are read, and the
  pages on the way to them.
-/
import TyrantFS.Help.Lookup
import TyrantFS.Help.Largest

namespace TyrantFS

open Lib Lib.PageTree

variable {K : View} {n : Node} {b buf : Mem} {c d i j k l p t : Nat} {f : Nat → Nat} {name : List UInt8} {x : Nat × Nat}

/-! ## Over a given `read` -/

section
variable (read : Mem → Nat → M (Nat × Mem))

def checkLeavesVia (block : Mem) (name : List UInt8) : (left i : Nat) → Mem → Nat → M (Nat × Nat)
  | 0, _, _, blockCount => pure (0, blockCount)
  | left + 1, i, dataBlock, blockCount =>
    if blockCount = 0 then pure (0, blockCount)
    else do
      lseekSet (word block i)
      let r ← read dataBlock 4096
      let tmpNode := checkBlock r.2 name
      if tmpNode ≠ 0 then pure (tmpNode, blockCount - 1)
      else checkLeavesVia block name left (i + 8) r.2 (blockCount - 1)

def checkIndirectBlkVia (block : Mem) (name : List UInt8) (blockCount : Nat) : M (Nat × Nat) := do
  let e ← environ
  checkLeavesVia read block name 512 0 e.junk blockCount

def checkPagesVia (inner : Mem → Nat → M (Nat × Nat)) (block : Mem) : (left i : Nat) → Mem → Nat → M (Nat × Nat)
  | 0, _, _, blockCount => pure (0, blockCount)
  | left + 1, i, dataBlock, blockCount =>
    if blockCount = 0 then pure (0, blockCount)
    else do
      lseekSet (word block i)
      let r ← read dataBlock 4096
      let t ← inner r.2 blockCount
      if t.1 ≠ 0 then pure t else checkPagesVia inner block left (i + 8) r.2 t.2

def checkDblIndirectBlkVia (block : Mem) (name : List UInt8) (blockCount : Nat) : M (Nat × Nat) := do
  let e ← environ
  checkPagesVia read (fun b c => checkIndirectBlkVia read b name c) block 512 0 e.junk blockCount

def checkTrplIndirectBlkVia (block : Mem) (name : List UInt8) (blockCount : Nat) : M (Nat × Nat) := do
  let e ← environ
  checkPagesVia read (fun b c => checkDblIndirectBlkVia read b name c) block 512 0 e.junk blockCount

end

theorem checkLeavesVia_sysRead {left : Nat} : checkLeavesVia sysRead b name left i buf c = checkLeaves b name left i buf c := by
  induction left generalizing i buf c with
  | zero => rfl
  | succ left ih =>
    unfold checkLeavesVia checkLeaves
    simp only [ih]

theorem checkPagesVia_sysRead {inner : Mem → Nat → M (Nat × Nat)} {left : Nat} :
    checkPagesVia sysRead inner b left i buf c = checkPages inner b left i buf c := by
  induction left generalizing i buf c with
  | zero => rfl
  | succ left ih =>
    unfold checkPagesVia checkPages
    simp only [ih]

theorem checkIndirectBlkVia_sysRead : checkIndirectBlkVia sysRead b name c = checkIndirectBlk b name c := by
  unfold checkIndirectBlkVia checkIndirectBlk
  simp only [checkLeavesVia_sysRead]

theorem checkDblIndirectBlkVia_sysRead : checkDblIndirectBlkVia sysRead b name c = checkDblIndirectBlk b name c := by
  unfold checkDblIndirectBlkVia checkDblIndirectBlk
  simp only [checkPagesVia_sysRead, checkIndirectBlkVia_sysRead]

theorem checkTrplIndirectBlkVia_sysRead : checkTrplIndirectBlkVia sysRead b name c = checkTrplIndirectBlk b name c := by
  unfold checkTrplIndirectBlkVia checkTrplIndirectBlk
  simp only [checkPagesVia_sysRead, checkDblIndirectBlkVia_sysRead]

/-- A `read` that stops the process where it does not start at one of the positions `ok`. -/
def sysReadOf (ok : Nat → Prop) [DecidablePred ok] (buf : Mem) (n : Nat) : M (Nat × Mem) := fun s =>
  if ok s.pos then sysRead buf n s else none

/-- At `a` it does what the kernel's does. -/
def IsReadAt (read : Mem → Nat → M (Nat × Mem)) (a : Nat) : Prop := ∀ f n s, s.pos = a → read f n s = sysRead f n s

theorem sysRead_isReadAt {a : Nat} : IsReadAt sysRead a := fun _ _ _ _ => rfl

theorem sysReadOf_isReadAt {ok : Nat → Prop} [DecidablePred ok] {a : Nat} (h : ok a) : IsReadAt (sysReadOf ok) a :=
  fun _ _ _ e => if_pos (e ▸ h)

theorem IsReadAt.at {read : Mem → Nat → M (Nat × Mem)} {a : Nat} {g : Mem} (h : IsReadAt read a) (hin : a + 4096 ≤ K.vol.size)
    (hs : K.Sees a 4096) : Returns (K.At a) (read g 4096) (4096, clip 4096 (fun i => K.vol.bytes (a + i)) g) (K.At (a + 4096)) := by
  intro s hat
  rw [h g 4096 s hat.2]
  exact sysRead_at hin hs s hat

/-! ## The first value that is not zero -/

/-- The answer of a search through the first `l` of the values `f`: the first that is not
    zero, and the count, `c` before, less the number of values that were looked at. -/
inductive FirstHit (f : Nat → Nat) (l c : Nat) : Nat × Nat → Prop
  | hit (t : Nat) : t < l → (∀ u < t, f u = 0) → f t ≠ 0 → FirstHit f l c (f t, c - (t + 1))
  | none : (∀ t < l, f t = 0) → FirstHit f l c (0, c - l)

/-- More values behind a hit. -/
theorem FirstHit.of_hit {l' : Nat} (h : FirstHit f l c x) (hx : x.1 ≠ 0) (hl : l ≤ l') : FirstHit f l' c x := by
  cases h with
  | hit t ht hu h0 => exact .hit t (Nat.lt_of_lt_of_le ht hl) hu h0
  | none hz => exact absurd rfl hx

theorem FirstHit.congr {g : Nat → Nat} (h : FirstHit f l c x) (hg : ∀ t < l, g t = f t) : FirstHit g l c x := by
  cases h with
  | hit t ht hu h0 =>
    rw [← hg t ht] at h0 ⊢
    exact .hit t ht (fun u hu' => (hg u (by omega)).trans (hu u hu')) h0
  | none hz => exact .none fun t ht => (hg t ht).trans (hz t ht)

/-- Nothing was found. -/
theorem FirstHit.zero (h : FirstHit f l c x) (hx : x.1 = 0) : (∀ t < l, f t = 0) ∧ x = (0, c - l) := by
  cases h with
  | hit t ht hu h0 => exact absurd hx h0
  | none hz => exact ⟨hz, rfl⟩

/-- Then the search goes on behind. -/
theorem FirstHit.append {l' : Nat} (h0 : ∀ t < l, f t = 0) (h : FirstHit (fun t => f (l + t)) l' (c - l) x) : FirstHit f (l + l') c x := by
  cases h with
  | hit t ht hu hne =>
    have e : c - l - (t + 1) = c - (l + t + 1) := by omega
    rw [e]
    refine .hit (l + t) (by omega) (fun u hu' => ?_) hne
    by_cases hul : u < l
    · exact h0 u hul
    · have := hu (u - l) (by omega)
      rwa [show l + (u - l) = u by omega] at this
  | none hz =>
    have e : c - l - l' = c - (l + l') := by omega
    rw [e]
    refine .none fun t ht => ?_
    by_cases htl : t < l
    · exact h0 t htl
    · have := hz (t - l) (by omega)
      rwa [show l + (t - l) = t by omega] at this

theorem FirstHit.le (h : FirstHit f l c x) : x.2 ≤ c := by
  cases h with
  | hit => exact Nat.sub_le _ _
  | none => exact Nat.sub_le _ _

/-- No more is taken off than there is to look at. -/
theorem FirstHit.least (h : FirstHit f l c x) : c - x.2 ≤ l := by
  cases h with
  | hit t ht =>
    dsimp only
    omega
  | none =>
    dsimp only
    omega

theorem FirstHit.lt (h : FirstHit f l c x) (hx : x.1 ≠ 0) (hc : 0 < c) : x.2 < c := by
  cases h with
  | hit t => exact Nat.sub_lt hc (Nat.succ_pos t)
  | none => exact absurd rfl hx

/-! ## One loop over a page -/

/-- `check_block` on the leaf at `a`. -/
def leafHit (K : View) (name : List UInt8) (a : Nat) : Nat := checkBlock (fun k => K.vol.bytes (a + k)) name

/-- The buffer holds the block at `p`. -/
def Buffers (K : View) (buf : Mem) (p : Nat) : Prop := ∀ k < 4096, buf k = K.vol.bytes (p + k)

theorem Buffers.slot (h : Buffers K buf p) (hp : p ≠ 0) (hk : k < 512) : word buf (8 * k) = slot K.vol.bytes p k := by
  rw [slot_of_ne hp, word, word]
  refine leVal_congr fun i hi => ?_
  rw [h (8 * k + i) (by omega), Nat.add_assoc]

/-- `read` is the kernel's on the way `W` to the leaves `i`, ..., `i + l - 1`. -/
def ReadsWay (W : Nat → Nat → Prop) (read : Mem → Nat → M (Nat × Mem)) (i l : Nat) : Prop :=
  ∀ u < l, ∀ a, W (i + u) a → IsReadAt read a

/-- What the loop needs of slot `k`, where `D` leaves stand behind every slot. The search
    behind it reads what it takes off the count. -/
structure Inner (K : View) (inner : (Mem → Nat → M (Nat × Mem)) → Mem → Nat → M (Nat × Nat)) (f : Nat → Nat) (W : Nat → Nat → Prop)
    (D c k a : Nat) : Prop where
  block : IsBlock K.vol.size a
  sees : K.Sees a 4096
  way : W (k * D) a
  search : ∀ buf, Buffers K buf a → ∃ x, FirstHit (fun u => f (k * D + u)) (min D (c - k * D)) (c - k * D) x ∧
    ∀ read, ReadsWay W read (k * D) (c - k * D - x.2) → Runs K (inner read buf (c - k * D)) x K

theorem checkPages_firstHit {inner : (Mem → Nat → M (Nat × Mem)) → Mem → Nat → M (Nat × Nat)} {W : Nat → Nat → Prop} {D left : Nat}
    (hD : 0 < D) (hin : ∀ k < 512, k * D < c → Inner K inner f W D c k (word b (8 * k))) (hk : k + left = 512) (old : Mem) :
    ∃ x, FirstHit (fun u => f (k * D + u)) (min (left * D) (c - k * D)) (c - k * D) x ∧
      ∀ read, ReadsWay W read (k * D) (c - k * D - x.2) → Runs K (checkPagesVia read (inner read) b left (8 * k) old (c - k * D)) x K := by
  induction left generalizing k old with
  | zero =>
    refine ⟨(0, c - k * D), ?_, fun _ _ => Runs.pure⟩
    rw [Nat.zero_mul, Nat.zero_min]
    exact .none fun t ht => absurd ht (Nat.not_lt_zero t)
  | succ left ih =>
    by_cases h0 : c - k * D = 0
    · refine ⟨(0, c - k * D), ?_, fun read _ => ?_⟩
      · rw [h0, Nat.min_zero]
        exact .none fun t ht => absurd ht (Nat.not_lt_zero t)
      · unfold checkPagesVia
        rw [if_pos h0]
        exact Runs.pure
    obtain ⟨hb, hs, hway, hsearch⟩ := hin k (by omega) (by omega)
    have hbin := hb.inside
    obtain ⟨x, hfirst, hx⟩ := hsearch (clip 4096 (fun i => K.vol.bytes (word b (8 * k) + i)) old) fun i hi => clip_lt hi
    have hstep : ∀ read y l, 0 < l → c - k * D - x.2 ≤ l → ReadsWay W read (k * D) l →
        Runs K (if x.1 ≠ 0 then Pure.pure x
          else checkPagesVia read (inner read) b left (8 * k + 8) (clip 4096 (fun i => K.vol.bytes (word b (8 * k) + i)) old) x.2) y K →
        Runs K (checkPagesVia read (inner read) b (left + 1) (8 * k) old (c - k * D)) y K := by
      intro read y l hl hle hread hy
      have hat : IsReadAt read (word b (8 * k)) := hread 0 hl _ hway
      have hrun := hx read fun u hu => hread u (Nat.lt_of_lt_of_le hu hle)
      unfold checkPagesVia
      rw [if_neg h0]
      exact (lseekSet_at (by omega)).bind ((hat.at hbin hs).bind ((Runs.bind hrun hy).pre fun s hs => hs.1))
    by_cases hx0 : x.1 = 0
    · -- nothing under this slot
      obtain ⟨hz, rfl⟩ := hfirst.zero hx0
      have hsub : c - k * D - min D (c - k * D) = c - (k + 1) * D := by
        rw [Nat.succ_mul]
        omega
      obtain ⟨y, hrest, hy⟩ := ih (k := k + 1) (by omega) (clip 4096 (fun i => K.vol.bytes (word b (8 * k) + i)) old)
      have hyle := hrest.le
      refine ⟨y, ?_, fun read hread => hstep read y _ (by omega) (by dsimp only; omega) hread ?_⟩
      · by_cases hDc : D ≤ c - k * D
        · rw [Nat.min_eq_left hDc] at hz hsub
          have hlen : min ((left + 1) * D) (c - k * D) = D + min (left * D) (c - (k + 1) * D) := by
            rw [Nat.succ_mul, ← hsub]
            omega
          rw [hlen]
          refine .append hz ?_
          rw [hsub]
          have hshift : (fun t => f (k * D + (D + t))) = fun t => f ((k + 1) * D + t) := by
            funext t
            rw [Nat.succ_mul, Nat.add_assoc]
          rw [hshift]
          exact hrest
        · -- the count has come to its end
          have hend : c - (k + 1) * D = 0 := by
            rw [Nat.succ_mul]
            omega
          rw [hend, Nat.min_zero] at hrest
          obtain rfl : y = (0, 0) := by
            cases hrest with
            | hit t ht => exact absurd ht (Nat.not_lt_zero t)
            | none => rfl
          rw [Nat.min_eq_right (by omega)] at hz
          have hlen : min ((left + 1) * D) (c - k * D) = c - k * D := by
            rw [Nat.succ_mul]
            omega
          rw [hlen]
          have e := FirstHit.none (c := c - k * D) hz
          rwa [Nat.sub_self] at e
      · rw [if_neg fun h => h rfl, hsub]
        refine hy read fun u hu a ha => hread (D + u) (by omega) a ?_
        rwa [Nat.succ_mul, Nat.add_assoc] at ha
    · have hlt := hfirst.lt hx0 (by omega)
      refine ⟨x, hfirst.of_hit hx0 ?_, fun read hread => hstep read x _ (by omega) (Nat.le_refl _) hread ?_⟩
      · rw [Nat.succ_mul]
        omega
      · rw [if_pos hx0]
        exact Runs.pure

/-! ## The three levels -/

/-- The search of a tree of depth `d`; at depth 0 it is the look at one leaf. -/
def checkTree (name : List UInt8) : Nat → (Mem → Nat → M (Nat × Mem)) → Mem → Nat → M (Nat × Nat)
  | 0, _, b, c => Pure.pure (checkBlock b name, c - 1)
  | d + 1, read, b, c => do
    let e ← environ
    checkPagesVia read (checkTree name d read) b 512 0 e.junk c

section
variable {read : Mem → Nat → M (Nat × Mem)}

theorem checkLeaves_eq {left : Nat} : checkLeavesVia read b name left i buf c = checkPagesVia read (checkTree name 0 read) b left i buf c := by
  induction left generalizing i buf c with
  | zero => rfl
  | succ left ih =>
    unfold checkLeavesVia checkPagesVia
    simp only [checkTree, pure_bind, ih]

theorem checkIndirectBlk_eq : checkIndirectBlkVia read b name c = checkTree name 1 read b c := by
  unfold checkIndirectBlkVia
  simp only [checkLeaves_eq]
  rfl

theorem checkDblIndirectBlk_eq : checkDblIndirectBlkVia read b name c = checkTree name 2 read b c := by
  unfold checkDblIndirectBlkVia
  simp only [checkIndirectBlk_eq]
  rfl

theorem checkTrplIndirectBlk_eq : checkTrplIndirectBlkVia read b name c = checkTree name 3 read b c := by
  unfold checkTrplIndirectBlkVia
  simp only [checkDblIndirectBlk_eq]
  rfl

end

/-- Leaf `t` of the tree of depth `d` at `p`. -/
def leafAt (m : Mem) (d p t : Nat) : Nat := walk (slot m) p (digits 512 d t)

/-- The first `l` leaves, and the pages on the way to them, are known blocks. -/
def Populated (K : View) : (d p l : Nat) → Prop
  | 0, p, l => 0 < l → IsBlock K.vol.size p ∧ K.Sees p 4096
  | d + 1, p, l => 0 < l → IsBlock K.vol.size p ∧ K.Sees p 4096 ∧ ∀ k < 512, k * 512 ^ d < l →
      Populated K d (slot K.vol.bytes p k) (min (512 ^ d) (l - k * 512 ^ d))

theorem Populated.page (h : Populated K d p l) (hl : 0 < l) : IsBlock K.vol.size p ∧ K.Sees p 4096 := by
  cases d with
  | zero => exact h hl
  | succ d => exact ⟨(h hl).1, (h hl).2.1⟩

/-- A tree whose first leaves can all be reached over known blocks. -/
theorem Populated.of_paths (h : ∀ t < l, ∀ π ρ, digits 512 d t = π ++ ρ → IsBlock K.vol.size (walk (slot K.vol.bytes) p π) ∧
    K.Sees (walk (slot K.vol.bytes) p π) 4096) : Populated K d p l := by
  induction d generalizing p l with
  | zero => exact fun hl => h 0 hl [] [] rfl
  | succ d ih =>
    intro hl
    obtain ⟨hb, hs⟩ := h 0 hl [] _ rfl
    refine ⟨hb, hs, fun k _ hkl => ih fun t ht π ρ e => ?_⟩
    exact h (k * 512 ^ d + t) (by omega) (k :: π) ρ (by rw [digits_child (by omega), e]; rfl)

/-- The pages on the way to leaf `t` of the tree at `p`, behind its root, and the leaf. -/
def OnWay (m : Mem) (d p t a : Nat) : Prop := ∃ π ρ, digits 512 d t = π ++ ρ ∧ π ≠ [] ∧ walk (slot m) p π = a

theorem OnWay.child {m : Mem} {u a : Nat} (h : OnWay m d (slot m p k) u a) (hu : u < 512 ^ d) : OnWay m (d + 1) p (k * 512 ^ d + u) a := by
  obtain ⟨π, ρ, e, -, rfl⟩ := h
  exact ⟨k :: π, ρ, by rw [digits_child hu, e]; rfl, List.cons_ne_nil _ _, rfl⟩

theorem OnWay.page {m : Mem} : OnWay m (d + 1) p (k * 512 ^ d) (slot m p k) := by
  refine ⟨[k], digits 512 d 0, ?_, List.cons_ne_nil _ _, rfl⟩
  exact digits_child (i := 0) (Nat.pow_pos (by decide))

/-- The search of a tree finds the first hit among its leaves, and reads those that it
    takes off the count and the pages on the way to them. -/
theorem checkTree_firstHit (hp : Populated K d p (min (512 ^ d) c)) (hb : Buffers K b p) (hc : c ≠ 0) :
    ∃ x, FirstHit (fun t => leafHit K name (leafAt K.vol.bytes d p t)) (min (512 ^ d) c) c x ∧
      ∀ read, ReadsWay (OnWay K.vol.bytes d p) read 0 (c - x.2) → Runs K (checkTree name d read b c) x K := by
  induction d generalizing p b c with
  | zero =>
    have hval : checkBlock b name = leafHit K name p := checkBlock_congr hb
    refine ⟨(leafHit K name p, c - 1), ?_, fun read _ => ?_⟩
    · rw [Nat.pow_zero, Nat.min_eq_left (by omega)]
      by_cases h0 : leafHit K name p = 0
      · rw [h0]
        exact .none fun t _ => h0
      · exact .hit (f := fun t => leafHit K name (leafAt K.vol.bytes 0 p t)) 0 (by decide) (fun u hu => absurd hu (Nat.not_lt_zero u)) h0
    · rw [checkTree, hval]
      exact Runs.pure
  | succ d ih =>
    have hD : 0 < 512 ^ d := Nat.pow_pos (by decide)
    have hpow : 512 ^ (d + 1) = 512 * 512 ^ d := Nat.pow_succ'
    obtain ⟨hpb, -, hkids⟩ := hp (by omega)
    have hinner : ∀ k < 512, k * 512 ^ d < c → Inner K (checkTree name d)
        (fun t => leafHit K name (leafAt K.vol.bytes (d + 1) p t)) (OnWay K.vol.bytes (d + 1) p) (512 ^ d) c k (word b (8 * k)) := by
      intro k hk hkc
      have hle : (k + 1) * 512 ^ d ≤ 512 * 512 ^ d := Nat.mul_le_mul_right _ hk
      rw [Nat.succ_mul] at hle
      have hkid := hkids k hk (by omega)
      have hmin : min (512 ^ d) (min (512 ^ (d + 1)) c - k * 512 ^ d) = min (512 ^ d) (c - k * 512 ^ d) := by omega
      rw [hmin] at hkid
      rw [hb.slot hpb.pos hk]
      obtain ⟨hblock, hsees⟩ := hkid.page (by omega)
      refine ⟨hblock, hsees, OnWay.page, fun buf hbuf => ?_⟩
      obtain ⟨x, hfirst, hx⟩ := ih hkid hbuf (by omega)
      have hleast := hfirst.least
      refine ⟨x, hfirst.congr fun t ht => congrArg (leafHit K name) (walk_child (by omega)), fun read hread => hx read fun u hu a ha => ?_⟩
      rw [Nat.zero_add] at ha
      exact hread u hu a (ha.child (by omega))
    obtain ⟨x, hfirst, hx⟩ := checkPages_firstHit (k := 0) hD hinner (Nat.zero_add 512) K.vol.env.junk
    simp only [Nat.zero_mul, Nat.mul_zero, Nat.sub_zero, Nat.zero_add, ← hpow] at hx hfirst
    exact ⟨x, hfirst, fun read hread => environ_runs.bind (hx read hread)⟩

/-! ## The trees of an inode -/

/-- The number of the first block below root `j`. -/
def firstOf (j : Nat) : Nat := if j = 12 then 12 else if j = 13 then 12 + 512 else 12 + 512 + 512 ^ 2

/-- The first `c` leaves of the tree below root `j` of the inode `n` are populated: what is
    known of the disk are these blocks and the pages on the way to them. `b` holds the
    contents of the root page. -/
structure Tree (K : View) (n : Node) (j : Nat) (b : Mem) (c : Nat) : Prop where
  few : c ≤ 512 ^ depth j
  known : ∀ t < c, ∀ π ρ, pathOf (firstOf j + t) = π ++ ρ →
    IsBlock K.vol.size (blockAt K.vol.bytes n j π) ∧ K.Sees (blockAt K.vol.bytes n j π) 4096
  buffers : Buffers K b (n.root j)

/-- The positions on the way to the first `l` of these leaves: the leaves, and the pages
    behind the root page. -/
def LeadsToLeaves (m : Mem) (n : Node) (j l a : Nat) : Prop :=
  ∃ t < l, ∃ π ρ, pathOf (firstOf j + t) = π ++ ρ ∧ π ≠ [] ∧ blockAt m n j π = a

/-- The search `check` of that tree, `via` over a given `read`, answers the first hit along
    the blocks that `get_i_block` numbers from `firstOf j` on, and takes those it looked at
    off the count. It does the same over a `read` that stops the process anywhere but at
    those blocks and at the pages on the way to them. -/
structure Visits (K : View) (n : Node) (j : Nat) (name : List UInt8) (c : Nat) (check : M (Nat × Nat))
    (via : (Mem → Nat → M (Nat × Mem)) → M (Nat × Nat)) : Prop where
  finds : ∃ x, Runs K check x K ∧ FirstHit (fun t => leafHit K name (addrOf K.vol.bytes n (firstOf j + t))) c c x ∧
    ∀ [DecidablePred (LeadsToLeaves K.vol.bytes n j (c - x.2))], Runs K (via (sysReadOf (LeadsToLeaves K.vol.bytes n j (c - x.2)))) x K
  original : via sysRead = check
  order : ∀ t < c, firstOf j + t < n.blocks → Runs K (getIBlock n (firstOf j + t)) (addrOf K.vol.bytes n (firstOf j + t)) K

/-- The numbers `get_i_block` gives the leaves. -/
theorem pathOf_leaf (hj : 12 ≤ j) (hj2 : j < 15) (ht : t < 512 ^ depth j) :
    rootOf (firstOf j + t) = j ∧ pathOf (firstOf j + t) = digits 512 (depth j) t := by
  obtain rfl | rfl | rfl : j = 12 ∨ j = 13 ∨ j = 14 := by omega
  · have ht' : t < 512 := ht
    rw [firstOf, if_pos rfl]
    refine ⟨by rw [rootOf, if_neg (by omega), if_pos (by omega)], ?_⟩
    rw [pathOf, if_neg (by omega), if_pos (by omega), Nat.add_sub_cancel_left]
    simp [depth, digits_succ]
  · have ht' : t < 512 ^ 2 := ht
    rw [firstOf, if_neg (by decide), if_pos rfl]
    refine ⟨by rw [rootOf, if_neg (by omega), if_neg (by omega), if_pos (by omega)], ?_⟩
    rw [pathOf, if_neg (by omega), if_neg (by omega), if_pos (by omega), show 12 + 512 + t - 12 - 512 = t by omega]
    simp [depth, digits_succ]
  · rw [firstOf, if_neg (by decide), if_neg (by decide)]
    refine ⟨rootOf_trpl (by omega), ?_⟩
    rw [pathOf_trpl (by omega), show 12 + 512 + 512 ^ 2 + t - 12 - 512 - 512 * 512 = t by omega]
    simp [depth, digits_succ]

theorem firstOf_lt (hj : 12 ≤ j) (hj2 : j < 15) (ht : t < 512 ^ depth j) : firstOf j + t < capacity := by
  unfold firstOf capacity
  obtain rfl | rfl | rfl : j = 12 ∨ j = 13 ∨ j = 14 := by omega
  · have ht' : t < 512 := ht
    rw [if_pos rfl]
    omega
  · have ht' : t < 512 ^ 2 := ht
    rw [if_neg (by decide), if_pos rfl]
    omega
  · have ht' : t < 512 ^ 3 := ht
    rw [if_neg (by decide), if_neg (by decide)]
    omega

theorem Tree.leaf (hj : 12 ≤ j) (hj2 : j < 15) (ht : t < 512 ^ depth j) (m : Mem) :
    addrOf m n (firstOf j + t) = leafAt m (depth j) (n.root j) t := by
  obtain ⟨hr, hp⟩ := pathOf_leaf hj hj2 ht
  rw [addrOf, hr, hp]
  rfl

theorem Tree.visits {check : M (Nat × Nat)} (h : Tree K n j b c) (hj : 12 ≤ j) (hj2 : j < 15) (name : List UInt8)
    (he : checkTree name (depth j) sysRead b c = check) : Visits K n j name c check fun read => checkTree name (depth j) read b c := by
  have hfew := h.few
  refine ⟨?_, he, fun t ht hb => getIBlock_of_pages hb ?_ fun π k ρ e => ?_⟩
  · by_cases hc : c = 0
    · subst hc
      obtain ⟨d, hd⟩ : ∃ d, depth j = d + 1 := ⟨j - 12, by unfold depth; omega⟩
      have hrun : ∀ read, Runs K (checkTree name (depth j) read b 0) (0, 0) K := by
        intro read
        rw [hd]
        refine environ_runs.bind ?_
        unfold checkPagesVia
        rw [if_pos rfl]
        exact Runs.pure
      exact ⟨(0, 0), he ▸ hrun sysRead, .none fun t ht => absurd ht (Nat.not_lt_zero t), hrun _⟩
    · have hmin : min (512 ^ depth j) c = c := Nat.min_eq_right hfew
      have hpop : Populated K (depth j) (n.root j) (min (512 ^ depth j) c) := by
        rw [hmin]
        exact .of_paths fun t ht π ρ e => h.known t ht π ρ ((pathOf_leaf hj hj2 (Nat.lt_of_lt_of_le ht hfew)).2.trans e)
      obtain ⟨x, hfirst, hx⟩ : ∃ x, FirstHit (fun t => leafHit K name (leafAt K.vol.bytes (depth j) (n.root j) t)) _ c x ∧ _ :=
        checkTree_firstHit hpop h.buffers hc
      rw [hmin] at hfirst
      have hleast := hfirst.least
      refine ⟨x, he ▸ hx sysRead fun _ _ _ _ => sysRead_isReadAt,
        hfirst.congr fun t ht => congrArg (leafHit K name) (Tree.leaf hj hj2 (Nat.lt_of_lt_of_le ht hfew) _), ?_⟩
      refine hx _ fun u hu a ha => sysReadOf_isReadAt ?_
      obtain ⟨π, ρ, e, hne, hat⟩ := ha
      rw [Nat.zero_add] at e
      exact ⟨u, hu, π, ρ, (pathOf_leaf hj hj2 (by omega)).2.trans e, hne, hat⟩
  · exact firstOf_lt hj hj2 (Nat.lt_of_lt_of_le ht hfew)
  · obtain ⟨hr, hp⟩ := pathOf_leaf hj hj2 (Nat.lt_of_lt_of_le ht hfew)
    have hk : k < 512 := digits_lt (Nat.lt_of_lt_of_le ht hfew) k (by rw [← hp, e]; simp)
    obtain ⟨hb, hs⟩ := h.known t ht π (k :: ρ) e
    rw [hr]
    exact ⟨hb, hs.mono (by omega) (by omega)⟩

/-- The three searches visit the blocks `get_i_block` numbers, in that order, and read no
    other. -/
theorem checks_visit (name : List UInt8) :
    (Tree K n 12 b c → Visits K n 12 name c (checkIndirectBlk b name c) fun read => checkIndirectBlkVia read b name c) ∧
    (Tree K n 13 b c → Visits K n 13 name c (checkDblIndirectBlk b name c) fun read => checkDblIndirectBlkVia read b name c) ∧
    (Tree K n 14 b c → Visits K n 14 name c (checkTrplIndirectBlk b name c) fun read => checkTrplIndirectBlkVia read b name c) := by
  simp only [← checkIndirectBlkVia_sysRead, ← checkDblIndirectBlkVia_sysRead, ← checkTrplIndirectBlkVia_sysRead, checkIndirectBlk_eq,
    checkDblIndirectBlk_eq, checkTrplIndirectBlk_eq]
  exact ⟨fun h => h.visits (by decide) (by decide) name rfl, fun h => h.visits (by decide) (by decide) name rfl,
    fun h => h.visits (by decide) (by decide) name rfl⟩

/-- The trees of a file of the greatest size. -/
theorem largest_tree (hj : 12 ≤ j) (hj2 : j < 15) : Tree (.all (largestSys 0).vol) largestNode j
    (fun k => (largestSys 0).vol.bytes (largestNode.root j + k)) (512 ^ depth j) := by
  have hs := largest_spread 0
  have hblock : ∀ u < capacity + pageCount, IsBlock (View.all (largestSys 0).vol).vol.size (unit 8192 u) := by
    intro u hu
    refine ⟨by unfold unit; omega, by unfold unit; omega, ?_⟩
    show unit 8192 u + 4096 ≤ 4096 * largestBlocks
    unfold unit largestBlocks
    omega
  refine ⟨Nat.le_refl _, fun t ht π ρ e => ⟨?_, View.Sees.all _ _ _⟩, fun _ _ => rfl⟩
  have hcap := firstOf_lt hj hj2 ht
  have hr := (pathOf_leaf hj hj2 ht).1
  cases ρ with
  | nil =>
    rw [List.append_nil] at e
    have ha := hs.addr hcap
    rw [addrOf, hr, e] at ha
    exact ha ▸ hblock _ (by omega)
  | cons k ρ =>
    obtain ⟨p, hp, hat, -⟩ := hs.page (a := 0) hcap e
    rw [hr] at hat
    exact hat ▸ hblock _ (by omega)

theorem checks_visit_largest :
    Visits (.all (largestSys 0).vol) largestNode 12 [97] 512
      (checkIndirectBlk (fun k => (largestSys 0).vol.bytes (largestNode.root 12 + k)) [97] 512)
      (fun read => checkIndirectBlkVia read (fun k => (largestSys 0).vol.bytes (largestNode.root 12 + k)) [97] 512) ∧
    Visits (.all (largestSys 0).vol) largestNode 13 [97] (512 ^ 2)
      (checkDblIndirectBlk (fun k => (largestSys 0).vol.bytes (largestNode.root 13 + k)) [97] (512 ^ 2))
      (fun read => checkDblIndirectBlkVia read (fun k => (largestSys 0).vol.bytes (largestNode.root 13 + k)) [97] (512 ^ 2)) ∧
    Visits (.all (largestSys 0).vol) largestNode 14 [97] (512 ^ 3)
      (checkTrplIndirectBlk (fun k => (largestSys 0).vol.bytes (largestNode.root 14 + k)) [97] (512 ^ 3))
      (fun read => checkTrplIndirectBlkVia read (fun k => (largestSys 0).vol.bytes (largestNode.root 14 + k)) [97] (512 ^ 3)) :=
  ⟨(checks_visit [97]).1 (largest_tree (by decide) (by decide)), (checks_visit [97]).2.1 (largest_tree (by decide) (by decide)),
    (checks_visit [97]).2.2 (largest_tree (by decide) (by decide))⟩

end TyrantFS

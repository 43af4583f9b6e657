/-
  TyrantFS.Help.Filled — an inode of 524 blocks, laid out on a disk.

  Its direct blocks and its first index page are full: the next block needs the double
  tree, whose root and first page have to be taken. The blocks follow each other from `D`
  on, then come the index page and the page of the free list, which lists blocks behind
  it. The last of these, number 527, may hold an address in its first word.
-/
import TyrantFS.Help.Frame

namespace TyrantFS

open Lib Lib.PageTree

variable {D a b i k u w : Nat} {es : List Nat} {m : Mem} {n : Node} {K : View} {own : Nat → Option Pos}

def filledNode (mode size D : Nat) : Node :=
  { plainNode mode size 12 D 1 with blocks := 524, indirectBlocks := D + 4096 * 524 }

/-- Word `k` of block number `u`: the free list is `es`, and `w` the word of block 527. -/
def filledWord (D : Nat) (es : List Nat) (w u k : Nat) : Nat :=
  if u = 524 then D + 4096 * (12 + k) else if u = 525 then es.getD k 0 else if u = 527 ∧ k = 0 then w else 0

/-- The bytes from block `D` on, `content` in the blocks of the inode. -/
def filledData (D : Nat) (content : Mem) (es : List Nat) (w : Nat) : Mem := fun x =>
  if x < D + 4096 * 524 then content x else leByte (filledWord D es w ((x - D) / 4096) (x % 4096 / 8)) (x % 8)

/-- The pages lie there. -/
def FilledPages (D : Nat) (es : List Nat) (w : Nat) (m : Mem) : Prop :=
  ∀ u k, 524 ≤ u → u < 528 → k < 512 → word m (D + 4096 * u + 8 * k) = filledWord D es w u k

/-- Who owns the blocks of the inode at `a`. -/
def filledOwn (D a : Nat) : Nat → Option Pos := fun b =>
  if b % 4096 = 0 ∧ D ≤ b ∧ b < D + 4096 * 524 then some (.data a ((b - D) / 4096))
  else if b = D + 4096 * 524 then some (.page a 12 []) else none

theorem filledData_pages {content : Mem} (hD : D % 4096 = 0) (hlt : D < 2 ^ 50) (hes : ∀ x ∈ es, x < 2 ^ 64) (hw : w < 2 ^ 64)
    (hm : ∀ x, D + 4096 * 524 ≤ x → m x = filledData D content es w x) : FilledPages D es w m := by
  intro u k h1 h2 hk
  have hfits : filledWord D es w u k < 2 ^ 64 := by
    unfold filledWord
    split
    · omega
    split
    · by_cases he : k < es.length
      · rw [List.getD_eq_getElem _ _ he]
        exact hes _ (List.getElem_mem he)
      · rw [List.getD_eq_default _ _ (by omega)]
        decide
    · split <;> omega
  have e : leVal 8 (fun b => m (D + 4096 * u + 8 * k + b)) = leVal 8 (leByte (filledWord D es w u k)) := by
    refine leVal_congr fun b hb => ?_
    rw [hm _ (by omega), filledData, if_neg (by omega), show (D + 4096 * u + 8 * k + b - D) / 4096 = u by omega,
      show (D + 4096 * u + 8 * k + b) % 4096 / 8 = k by omega, show (D + 4096 * u + 8 * k + b) % 8 = b by omega]
  rw [word, e, leVal_leByte]
  exact Nat.mod_eq_of_lt (by simpa using hfits)

theorem filledOwn_data (hD : D % 4096 = 0) (hi : i < 524) : filledOwn D a (D + 4096 * i) = some (.data a i) := by
  rw [filledOwn, if_pos (by omega), show (D + 4096 * i - D) / 4096 = i by omega]

theorem filledOwn_page : filledOwn D a (D + 4096 * 524) = some (.page a 12 []) := by
  rw [filledOwn, if_neg (by omega), if_pos rfl]

theorem filledOwn_free (hu : 524 < u) : filledOwn D a (D + 4096 * u) = none := by
  rw [filledOwn, if_neg (by omega), if_neg (by omega)]

theorem filledOwn_has {z : Zone} (hD : D % 4096 = 0) (hl : z.lo ≤ D) (hh : D + 4096 * 525 ≤ z.hi) (hb : filledOwn D a b ≠ none) : z.Has b := by
  unfold filledOwn at hb
  split at hb
  · exact ⟨by omega, by omega, by omega⟩
  split at hb
  · exact ⟨by omega, by omega, by omega⟩
  · exact absurd rfl hb

section
variable {mode size : Nat}

theorem filledNode_fits (hm : mode < 2 ^ 32) (hs : size < 2 ^ 64) (hlt : D < 2 ^ 50) : (filledNode mode size D).Fits := by
  have h : (plainNode mode size 12 D 1).Fits := plainNode_fits hm hs (by decide) (by decide) (by omega)
  exact { h with
    blocks := show 524 < 2 ^ 64 by decide
    indirectBlocks := show D + 4096 * 524 < 2 ^ 64 by omega }

theorem filledNode_root (h : 12 < k) : (filledNode mode size D).root k = 0 := by
  obtain ⟨-, h2, h3⟩ := plainNode_indirect mode size 12 D 1
  rw [Node.root, if_neg (by omega), if_neg (by omega)]
  split
  · exact h2
  · exact h3

theorem filledNode_addr (hp : FilledPages D es w m) (hpos : 0 < D) (hi : i < 524) :
    addrOf m (filledNode mode size D) i = D + 4096 * i := by
  by_cases h : i < 12
  · rw [addrOf_direct h]
    show (plainNode mode size 12 D 1).direct i = _
    exact plainNode_direct h h
  · have hroot : (filledNode mode size D).root 12 = D + 4096 * 524 := rfl
    rw [addrOf, rootOf, pathOf, if_neg h, if_neg h, if_pos (by omega), if_pos (by omega), blockAt, hroot, walk_cons, walk_nil,
      slot_of_ne (by omega), hp 524 (i - 12) (Nat.le_refl _) (by decide) (by omega), filledWord, if_pos rfl, show 12 + (i - 12) = i by omega]

theorem filledNode_maps (hp : FilledPages D es w K.vol.bytes) (hpos : 0 < D) (hv : ∀ x, K.vis x)
    (hd : ∀ i < 524, own (D + 4096 * i) = some (.data a i)) (ho : own (D + 4096 * 524) = some (.page a 12 [])) :
    Maps K own a (filledNode mode size D) := by
  refine ⟨show 524 ≤ capacity by decide +kernel, fun i hi => ?_, fun j path hj hpath hl h0 => ?_, fun _ _ _ _ _ _ _ _ => hv _,
    fun _ _ _ _ _ _ _ => hv _⟩
  · rw [filledNode_addr hp hpos hi]
    exact hd i hi
  · -- the only page is the root of the first tree
    by_cases h12 : j = 12
    · subst h12
      obtain rfl : path = [] := List.eq_nil_of_length_eq_zero (by unfold depth at hl; omega)
      exact ho
    · rw [blockAt, filledNode_root (by omega)] at h0
      exact absurd (walk_zero fun _ => slot_zero) h0

end

/-- The free list: the blocks `es`, which lie behind its page, and the page. -/
theorem filled_space {z : Zone} {v : Vol} (hp : FilledPages D es w v.bytes) (hD : D % 4096 = 0) (hpos : 0 < D)
    (hhead : word v.bytes 0 = D + 4096 * 525) (hlen : es.length ≤ 511)
    (hes : ∀ b ∈ es, b % 4096 = 0 ∧ D + 4096 * 525 < b ∧ b + 4096 ≤ z.hi ∧ own b = none) (hnd : es.Nodup)
    (hfree : own (D + 4096 * 525) = none) (hin : D + 4096 * 526 ≤ z.hi) (hl : z.lo ≤ D) (h8 : 8 ≤ z.lo) (hhi : z.hi ≤ v.size)
    (hd : 0 ≤ v.glob.drive) (ho : ∀ b, own b ≠ none → z.Has b) :
    Space z (.all v) own [D + 4096 * 525] ∧ freeOrder (.all v) [D + 4096 * 525] = es ++ [D + 4096 * 525] := by
  refine Space.page _ hhead (fun k hk => ?_) hlen (fun b hb => ?_) ?_ h8 hhi hd ho
  · rw [slot_of_ne (by omega), hp 525 k (by decide) (by decide) hk, filledWord, if_neg (by decide), if_pos rfl]
  · rcases List.mem_append.mp hb with hb | hb
    · obtain ⟨h1, h2, h3, h4⟩ := hes b hb
      exact ⟨⟨h1, by omega, h3⟩, h4⟩
    · obtain rfl := List.mem_singleton.mp hb
      exact ⟨⟨by omega, by omega, by omega⟩, hfree⟩
  · refine List.nodup_append.mpr ⟨hnd, List.nodup_singleton _, fun x hx y hy e => ?_⟩
    obtain rfl := List.mem_singleton.mp hy
    have := (hes x hx).2.1
    omega

end TyrantFS

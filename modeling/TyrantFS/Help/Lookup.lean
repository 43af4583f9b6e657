/-
  TyrantFS.Help.Lookup — `find_path_node`.

  `lookup`, `resolve`: what a name, and a path, stand for, read off the entries of the
  directories. `Searches`: the directories on the way are directories, and each name is
  looked up in one of at most 12 blocks or stands in its first 12. Then
  `findPathNode_runs`: the code finds what the path stands for, and changes nothing.
  (Beyond the direct blocks it writes to the index page instead of reading it.)
-/
import TyrantFS.Help.Removal
import Mathlib.Data.List.Find

namespace TyrantFS

open Lib Lib.PageTree

variable {z : Zone} {K : View} {own : Nat → Option Pos} {ps : List Nat} {a c e i left cnt : Nat} {m m' : Mem} {n n' : Node}
  {name : List UInt8} {tmp : Mem}

/-! ## Names and paths -/

/-- The address under `name` in the directory `n`, 0 if there is none. -/
def lookup (m : Mem) (n : Node) (name : List UInt8) : Nat :=
  match (List.range (n.size / 256)).find? (fun e => nameOf m n e == name) with
  | some e => childOf m n e
  | none => 0

/-- The inode that the path of the names from the inode `a` leads to. -/
def resolve (m : Mem) : Nat → List (List UInt8) → Option Nat
  | a, [] => some a
  | a, name :: rest =>
    if isDir (nodeAt m a).mode ∧ lookup m (nodeAt m a) name ≠ 0 then resolve m (lookup m (nodeAt m a) name) rest else none

/-- The entries of a directory have different names. -/
def NamesDiffer (m : Mem) (n : Node) : Prop :=
  ∀ e f, e < n.size / 256 → f < n.size / 256 → nameOf m n e = nameOf m n f → e = f

/-- The search for `name` ends within the direct blocks. -/
def Near (m : Mem) (n : Node) (name : List UInt8) : Prop :=
  n.blocks ≤ 12 ∨ ∃ e < 192, e < n.size / 256 ∧ nameOf m n e = name ∧ childOf m n e ≠ 0

/-- Every search on the path goes through a directory, and ends within its direct
    blocks. -/
def Searches (m : Mem) : Nat → List (List UInt8) → Prop
  | _, [] => True
  | a, name :: rest => isDir (nodeAt m a).mode ∧ Near m (nodeAt m a) name ∧
      (lookup m (nodeAt m a) name ≠ 0 → Searches m (lookup m (nodeAt m a) name) rest)

theorem lookup_eq (hd : NamesDiffer m n) (he : e < n.size / 256) (hn : nameOf m n e = name) :
    lookup m n name = childOf m n e := by
  unfold lookup
  cases hf : (List.range (n.size / 256)).find? (fun e => nameOf m n e == name) with
  | none =>
    have := List.find?_eq_none.mp hf e (List.mem_range.mpr he)
    simp [hn] at this
  | some f =>
    have h1 : nameOf m n f = name := by simpa using List.find?_some hf
    have h2 := List.mem_range.mp (List.mem_of_find?_eq_some hf)
    rw [hd e f he h2 (hn.trans h1.symm)]

theorem lookup_zero (h : ∀ e < n.size / 256, nameOf m n e = name → childOf m n e = 0) : lookup m n name = 0 := by
  unfold lookup
  cases hf : (List.range (n.size / 256)).find? (fun e => nameOf m n e == name) with
  | none => rfl
  | some f => exact h f (List.mem_range.mp (List.mem_of_find?_eq_some hf)) (by simpa using List.find?_some hf)

/-- Where a name stands for something, an entry does. -/
theorem lookup_ne_zero (h : lookup m n name ≠ 0) :
    ∃ e < n.size / 256, nameOf m n e = name ∧ childOf m n e = lookup m n name := by
  unfold lookup at h ⊢
  cases hf : (List.range (n.size / 256)).find? (fun e => nameOf m n e == name) with
  | none => simp [hf] at h
  | some f => exact ⟨f, List.mem_range.mp (List.mem_of_find?_eq_some hf), by simpa using List.find?_some hf, rfl⟩

/-- The same entries have the name, and lead to the same inodes. -/
theorem lookup_filter (hs : n'.size / 256 = n.size / 256)
    (hn : ∀ e < n.size / 256, nameOf m' n' e = name ↔ nameOf m n e = name)
    (hc : ∀ e < n.size / 256, childOf m' n' e = childOf m n e) : lookup m' n' name = lookup m n name := by
  have hfind : (List.range (n'.size / 256)).find? (fun e => nameOf m' n' e == name) =
      (List.range (n.size / 256)).find? (fun e => nameOf m n e == name) := by
    rw [hs]
    exact List.find?_congr fun e he => Bool.eq_iff_iff.mpr (by simpa using hn e (List.mem_range.mp he))
  unfold lookup
  rw [hfind]
  cases hf : (List.range (n.size / 256)).find? (fun e => nameOf m n e == name) with
  | none => rfl
  | some f => exact hc f (List.mem_range.mp (List.mem_of_find?_eq_some hf))

/-- Equal entries, equal answers. -/
theorem lookup_congr (hs : n'.size / 256 = n.size / 256)
    (h : ∀ e < n.size / 256, nameOf m' n' e = nameOf m n e ∧ childOf m' n' e = childOf m n e) :
    lookup m' n' name = lookup m n name :=
  lookup_filter hs (fun e he => by rw [(h e he).1]) fun e he => (h e he).2

/-! ## Searching a block -/

theorem checkSlots_congr {f g : Mem} {u : Nat} (h : ∀ k, k < u + 256 * left → f k = g k) :
    checkSlots f name left u = checkSlots g name left u := by
  induction left generalizing u with
  | zero => rfl
  | succ left ih =>
    unfold checkSlots
    have hname : (cstr 248 fun k => f (u + k)) = cstr 248 fun k => g (u + k) := cstr_congr fun k hk => h _ (by omega)
    have hword : word f (u + 256 - 8) = word g (u + 256 - 8) := word_congr fun k hk => h _ (by omega)
    rw [hname, hword, ih fun k hk => h k (by omega)]

theorem checkBlock_congr {f g : Mem} (h : ∀ k < 4096, f k = g k) : checkBlock f name = checkBlock g name :=
  checkSlots_congr fun k hk => h k (by omega)

/-- Behind the entries in use every name is empty. -/
theorem Laid.name_rest (h : Laid K n) (h1 : n.size / 256 ≤ e) (h2 : e / 16 < n.blocks) : nameOf K.vol.bytes n e = [] := by
  refine entryName_eq_nil.mpr ?_
  have := h.rest e h1 (by omega) 0 (by decide)
  rwa [Nat.add_zero] at this

/-- The block holds no inode under the name. -/
theorem checkBlock_zero (hl : Laid K n) (hd : NamesDiffer K.vol.bytes n) (hi : i < n.blocks) (hne : name ≠ [])
    (hno : ∀ e < n.size / 256, e / 16 = i → nameOf K.vol.bytes n e = name → childOf K.vol.bytes n e = 0) :
    checkBlock (fun k => K.vol.bytes (addrOf K.vol.bytes n i + k)) name = 0 := by
  by_cases hex : ∃ j < 16, nameOf K.vol.bytes n (16 * i + j) = name
  · obtain ⟨j, hj, hname⟩ := hex
    have hused : 16 * i + j < n.size / 256 := by
      by_contra hc
      rw [hl.name_rest (by omega) (by omega)] at hname
      exact hne hname.symm
    rw [checkBlock_first hj (fun j' hj' => ?_) (by rw [slot_name hj, hname]), slot_addr hj]
    · exact hno _ hused (by omega) hname
    · rw [slot_name (by omega)]
      intro h'
      have := hd _ _ (by omega) hused (h'.trans hname.symm)
      omega
  · refine checkBlock_none fun j hj => ?_
    rw [slot_name hj]
    exact fun h => hex ⟨j, hj, h⟩

theorem checkBlock_hit (hd : NamesDiffer K.vol.bytes n) (he : e < n.size / 256) (hname : nameOf K.vol.bytes n e = name) :
    checkBlock (fun k => K.vol.bytes (addrOf K.vol.bytes n (e / 16) + k)) name = childOf K.vol.bytes n e := by
  have hj : e % 16 < 16 := Nat.mod_lt _ (by decide)
  have heq : 16 * (e / 16) + e % 16 = e := by omega
  rw [checkBlock_first hj (fun j hj' => ?_) (by rw [slot_name hj, heq, hname]), slot_addr hj, heq]
  rw [slot_name (by omega)]
  intro h'
  have := hd _ _ (by omega) he (h'.trans hname.symm)
  omega

/-! ## The search through one directory -/

section
variable {r : Option (Nat × Nat × Mem)}

/-- One round of the loop over the direct blocks: block `i` is in the buffer. -/
theorem findDirect_step (name : List UInt8) (left : Nat) (tmp : Mem) (h : InodeAt z K own ps a n) (hp : Laid K n)
    (hi : i < n.blocks) (h12 : i < 12) (hc : cnt ≠ 0) :
    ∃ tmp', (∀ k < 4096, tmp' k = K.vol.bytes (addrOf K.vol.bytes n i + k)) ∧
      ∀ r, Runs K (if checkBlock tmp' name ≠ 0 then pure (some (checkBlock tmp' name, cnt - 1, tmp'))
        else findDirect n name left (i + 1) (cnt - 1) tmp') r K → Runs K (findDirect n name (left + 1) i cnt tmp) r K := by
  have hb := h.block hi
  have hin := hb.inside
  have haddr : n.direct i = addrOf K.vol.bytes n i := (addrOf_direct h12).symm
  have hread := sysRead_at (g := tmp) hin (hp.sees i hi)
  refine ⟨clip 4096 (fun k => K.vol.bytes (addrOf K.vol.bytes n i + k)) tmp, fun k hk => clip_lt hk, fun r hr => ?_⟩
  unfold findDirect
  rw [if_neg hc, haddr, if_neg hb.pos]
  exact (lseekSet_at (by omega)).bind (hread.bind (hr.pre fun s hs => hs.1))

theorem findDirect_found (h : InodeAt z K own ps a n) (hp : Packed K n) (hd : NamesDiffer K.vol.bytes n) (hne : name ≠ [])
    (he : e < n.size / 256) (hname : nameOf K.vol.bytes n e = name) (hchild : childOf K.vol.bytes n e ≠ 0) (h12 : e < 192)
    (hi : i ≤ e / 16) (hl : i + left = 12) (hc : cnt + i = n.blocks) :
    ∃ cnt' tmp', Runs K (findDirect n name left i cnt tmp) (some (childOf K.vol.bytes n e, cnt', tmp')) K := by
  have hlt := hp.lt he
  induction left generalizing i cnt tmp with
  | zero => omega
  | succ left ih =>
    obtain ⟨tmp', hbuf, hstep⟩ := findDirect_step name left tmp h hp.toLaid (by omega : i < n.blocks) (by omega)
      (by omega : cnt ≠ 0)
    have hcheck : checkBlock tmp' name = checkBlock (fun k => K.vol.bytes (addrOf K.vol.bytes n i + k)) name := checkBlock_congr hbuf
    by_cases hin : e / 16 = i
    · subst hin
      rw [checkBlock_hit hd he hname] at hcheck
      refine ⟨cnt - 1, tmp', hstep _ ?_⟩
      rw [if_pos (by rwa [hcheck]), hcheck]
      exact Runs.pure
    · rw [checkBlock_zero hp.toLaid hd (by omega) hne fun f hf hfi hfn => absurd (hd f e hf he (hfn.trans hname.symm)) (by
        rintro rfl
        exact hin hfi)] at hcheck
      obtain ⟨cnt', tmp2, hrest⟩ : ∃ cnt' tmp2, Runs K (findDirect n name left (i + 1) (cnt - 1) tmp')
          (some (childOf K.vol.bytes n e, cnt', tmp2)) K := ih (by omega) (by omega) (by omega)
      refine ⟨cnt', tmp2, hstep _ ?_⟩
      rw [if_neg (by rw [hcheck]; exact fun h => h rfl)]
      exact hrest

theorem findDirect_none (h : InodeAt z K own ps a n) (hp : Packed K n) (hd : NamesDiffer K.vol.bytes n) (hne : name ≠ [])
    (hno : ∀ e < n.size / 256, nameOf K.vol.bytes n e = name → childOf K.vol.bytes n e = 0) (h12 : n.blocks ≤ 12)
    (hl : i + left = 12) (hc : cnt + i = n.blocks) :
    ∃ r, Runs K (findDirect n name left i cnt tmp) r K ∧ (r = none ∨ ∃ tmp', r = some (0, 0, tmp')) := by
  induction left generalizing i cnt tmp with
  | zero =>
    obtain rfl : cnt = 0 := by omega
    exact ⟨_, Runs.pure, Or.inr ⟨_, rfl⟩⟩
  | succ left ih =>
    by_cases hcnt : cnt = 0
    · refine ⟨none, ?_, Or.inl rfl⟩
      unfold findDirect
      rw [if_pos hcnt]
      exact Runs.pure
    obtain ⟨tmp', hbuf, hstep⟩ := findDirect_step name left tmp h hp.toLaid (by omega : i < n.blocks) (by omega) hcnt
    have hcheck : checkBlock tmp' name = checkBlock (fun k => K.vol.bytes (addrOf K.vol.bytes n i + k)) name := checkBlock_congr hbuf
    rw [checkBlock_zero hp.toLaid hd (by omega) hne fun f hf _ => hno f hf] at hcheck
    obtain ⟨r, hr, hrest⟩ : ∃ r, Runs K (findDirect n name left (i + 1) (cnt - 1) tmp') r K ∧
        (r = none ∨ ∃ tmp2, r = some (0, 0, tmp2)) := ih (by omega) (by omega)
    refine ⟨r, hstep r ?_, hrest⟩
    rw [if_neg (by rw [hcheck]; exact fun h => h rfl)]
    exact hr

/-- The name stands in none of the direct blocks: the search is left with the others, and
    with the last direct block in the buffer. -/
theorem findDirect_misses (h : InodeAt z K own ps a n) (hp : Packed K n) (hd : NamesDiffer K.vol.bytes n) (hne : name ≠ [])
    (hno : ∀ e < 192, e < n.size / 256 → nameOf K.vol.bytes n e = name → childOf K.vol.bytes n e = 0) (h12 : 12 < n.blocks)
    (hl : i + left = 12) (h0 : 0 < left) (hc : cnt + i = n.blocks) :
    ∃ tmp', Runs K (findDirect n name left i cnt tmp) (some (0, n.blocks - 12, tmp')) K ∧
      ∀ k < 4096, tmp' k = K.vol.bytes (addrOf K.vol.bytes n 11 + k) := by
  induction left generalizing i cnt tmp with
  | zero => omega
  | succ left ih =>
    obtain ⟨tmp', hbuf, hstep⟩ := findDirect_step name left tmp h hp.toLaid (by omega : i < n.blocks) (by omega) (by omega : cnt ≠ 0)
    have hcheck : checkBlock tmp' name = 0 := by
      rw [checkBlock_congr hbuf, checkBlock_zero hp.toLaid hd (by omega) hne fun f hf hfi => hno f (by omega) hf]
    by_cases hlast : left = 0
    · subst hlast
      obtain rfl : i = 11 := by omega
      refine ⟨tmp', hstep _ ?_, hbuf⟩
      rw [if_neg fun h => h hcheck, show cnt - 1 = n.blocks - 12 by omega]
      exact Runs.pure
    · obtain ⟨tmp2, hrest, hbuf2⟩ : ∃ tmp2, Runs K (findDirect n name left (i + 1) (cnt - 1) tmp') (some (0, n.blocks - 12, tmp2)) K ∧
          ∀ k < 4096, tmp2 k = K.vol.bytes (addrOf K.vol.bytes n 11 + k) := ih (by omega) (by omega) (by omega)
      refine ⟨tmp2, hstep _ ?_, hbuf2⟩
      rw [if_neg fun h => h hcheck]
      exact hrest

end

/-! ## The search along a path -/

section
variable {rest : List (List UInt8)} {x y : Nat}

/-- The step to the inode under a name; what follows may be anything. -/
theorem findLoop_step {T : Nat → Sys → Prop} (h : InodeAt z K own ps a n) (hp : Packed K n) (hd : NamesDiffer K.vol.bytes n)
    (hne : name ≠ []) (hnear : Near K.vol.bytes n name) (hc : lookup K.vol.bytes n name = c) (hc0 : c ≠ 0)
    (hs : c + 208 ≤ K.vol.size) (hv : K.Sees c 208)
    (hrest : ∀ tmp', Ensures K.Holds (findLoop rest (nodeAt K.vol.bytes c) tmp' c) T) :
    Ensures K.Holds (findLoop (name :: rest) n tmp x) T := by
  obtain ⟨e, he, hname, hchild⟩ := lookup_ne_zero (hc ▸ hc0)
  rw [hc] at hchild
  have h12 : e < 192 := by
    rcases hnear with hb | ⟨f, hf, hf', hfn, -⟩
    · have := hp.lt he
      omega
    · rw [hd e f he hf' (hname.trans hfn.symm)]
      exact hf
  obtain ⟨cnt', tmp', hr⟩ : ∃ cnt' tmp', Runs K (findDirect n name 12 0 n.blocks tmp)
      (some (childOf K.vol.bytes n e, cnt', tmp')) K :=
    findDirect_found h hp hd hne he hname (hchild ▸ hc0) h12 (Nat.zero_le _) (Nat.zero_add 12) rfl
  rw [hchild] at hr
  unfold findLoop
  refine hr.next ?_
  simp only [hc0, ne_eq, not_false_eq_true, if_true]
  refine (Runs.pure (K := K)).next ?_
  rw [if_neg hc0]
  exact (fetchInode_runs hc0 hs hv).next (hrest tmp')

theorem findLoop_found (h : InodeAt z K own ps a n) (hp : Packed K n) (hd : NamesDiffer K.vol.bytes n) (hne : name ≠ [])
    (hnear : Near K.vol.bytes n name) (hc : lookup K.vol.bytes n name = c) (hc0 : c ≠ 0) (hs : c + 208 ≤ K.vol.size)
    (hv : K.Sees c 208) (hrest : ∀ tmp', Runs K (findLoop rest (nodeAt K.vol.bytes c) tmp' c) y K) :
    Runs K (findLoop (name :: rest) n tmp x) y K := by
  refine Returns.of_ensures ?_
  exact findLoop_step h hp hd hne hnear hc hc0 hs hv fun tmp' => (hrest tmp').ensures fun s hs => ⟨rfl, hs⟩

theorem findLoop_none (h : InodeAt z K own ps a n) (hp : Packed K n) (hd : NamesDiffer K.vol.bytes n) (hne : name ≠ [])
    (hnear : Near K.vol.bytes n name) (hc : lookup K.vol.bytes n name = 0) : Runs K (findLoop (name :: rest) n tmp x) 0 K := by
  have hno : ∀ e < n.size / 256, nameOf K.vol.bytes n e = name → childOf K.vol.bytes n e = 0 := fun e he hn =>
    (lookup_eq hd he hn).symm.trans hc
  have h12 : n.blocks ≤ 12 := by
    rcases hnear with hb | ⟨f, -, hf', hfn, hf0⟩
    · exact hb
    · exact absurd (hno f hf' hfn) hf0
  obtain ⟨r, hr, hrn⟩ : ∃ r, Runs K (findDirect n name 12 0 n.blocks tmp) r K ∧ (r = none ∨ ∃ tmp', r = some (0, 0, tmp')) :=
    findDirect_none h hp hd hne hno h12 (Nat.zero_add 12) rfl
  unfold findLoop
  refine hr.bind ?_
  rcases hrn with rfl | ⟨tmp', rfl⟩
  · exact Runs.pure
  · exact (show Runs K (findIndirect n name tmp' 0) 0 K from Runs.pure).bind Runs.pure

end

end TyrantFS

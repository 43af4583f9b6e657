/-
  TyrantFS.Fuse.Sound — well-formed disks.

  `Sound`: the blocks are either free or owned by one inode, every inode in use has a
  sound map, every directory is packed, with different names, and what its entries lead
  to is in use. On such a disk `find_path_node` finds what a path stands for
  (`findPathNode_runs`), as long as it keeps to the direct blocks.
-/
import TyrantFS.Help.Lookup
import TyrantFS.Fuse.Tyrant

namespace TyrantFS

open Lib Lib.PageTree

variable {z : Zone} {v v' : Vol} {own own' : Nat → Option Pos} {ps ps' : List Nat} {a c e : Nat} {n : Node}
  {path before name : List UInt8} {names : List (List UInt8)}

structure Directory (z : Zone) (v : Vol) (n : Node) : Prop extends Packed (.all v) n where
  names : NamesDiffer v.bytes n
  /-- An entry leads to an inode in use; ".." may lead nowhere. -/
  child : ∀ e < n.size / 256, childOf v.bytes n e = 0 ∨ IsSlot z.lo (childOf v.bytes n e) ∧ InUse v.bytes (childOf v.bytes n e)

structure Sound (z : Zone) (v : Vol) (own : Nat → Option Pos) (ps : List Nat) : Prop where
  boundary : v.glob.inodeByteBoundary = z.lo
  low : 4096 ≤ z.lo
  aligned : z.lo % 256 = 0
  high : z.lo ≤ v.size
  space : Space z (.all v) own ps
  root : IsSlot z.lo v.glob.rootNode ∧ InUse v.bytes v.glob.rootNode ∧ isDir (nodeAt v.bytes v.glob.rootNode).mode
  maps : ∀ a, IsSlot z.lo a → InUse v.bytes a → Maps (.all v) own a (nodeAt v.bytes a)
  dirs : ∀ a, IsSlot z.lo a → InUse v.bytes a → isDir (nodeAt v.bytes a).mode → Directory z v (nodeAt v.bytes a)
  files : ∀ a, IsSlot z.lo a → InUse v.bytes a → isDir (nodeAt v.bytes a).mode = false →
    (nodeAt v.bytes a).size ≤ 4096 * (nodeAt v.bytes a).blocks

section
variable (h : Sound z v own ps)

include h

theorem Sound.slot_high (ha : IsSlot z.lo a) : a + 256 ≤ z.lo := by
  have := ha.high
  have := ha.aligned
  have := h.aligned
  omega

theorem Sound.inode (ha : IsSlot z.lo a) (hu : InUse v.bytes a) : InodeAt z (.all v) own ps a (nodeAt v.bytes a) := by
  have := ha.low
  exact ⟨⟨h.space, by omega, h.slot_high ha, h.high, View.Sees.all _ _ _, h.maps a ha hu⟩, rfl⟩

theorem Sound.beside {b : Nat} (ha : IsSlot z.lo a) (hb : IsSlot z.lo b) (hne : b ≠ a) : Beside z a b := by
  have h1 := hb.low
  have h2 := hb.aligned
  have h3 := ha.aligned
  exact ⟨by omega, h.slot_high hb, by omega⟩

/-- What a name in a directory stands for is in use. -/
theorem Sound.lookup (ha : IsSlot z.lo a) (hu : InUse v.bytes a) (hd : isDir (nodeAt v.bytes a).mode)
    (hc : lookup v.bytes (nodeAt v.bytes a) name = c) (hc0 : c ≠ 0) : IsSlot z.lo c ∧ InUse v.bytes c := by
  obtain ⟨e, he, -, hchild⟩ := lookup_ne_zero (hc ▸ hc0)
  rw [hc] at hchild
  rcases (h.dirs a ha hu hd).child e he with h0 | hin
  · exact absurd (hchild.symm.trans h0) hc0
  · rwa [hchild] at hin

theorem Sound.resolve (ha : IsSlot z.lo a) (hu : InUse v.bytes a) (hc : resolve v.bytes a names = some c) :
    IsSlot z.lo c ∧ InUse v.bytes c := by
  induction names generalizing a with
  | nil =>
    obtain rfl : a = c := Option.some.inj hc
    exact ⟨ha, hu⟩
  | cons name rest ih =>
    unfold TyrantFS.resolve at hc
    split at hc
    · rename_i hd
      obtain ⟨h1, h2⟩ := h.lookup ha hu hd.1 rfl hd.2
      exact ih h1 h2 hc
    · cases hc

/-- The search from the inode `a` on. -/
theorem findLoop_runs (ha : IsSlot z.lo a) (hu : InUse v.bytes a) (hs : Searches v.bytes a names) (hne : ∀ x ∈ names, x ≠ [])
    {tmp : Mem} : Runs (.all v) (findLoop names (nodeAt v.bytes a) tmp a) ((resolve v.bytes a names).getD 0) (.all v) := by
  induction names generalizing a tmp with
  | nil => exact Runs.pure
  | cons name rest ih =>
    obtain ⟨hd, hnear, hrest⟩ := hs
    have hdir := h.dirs a ha hu hd
    unfold resolve
    by_cases hc0 : lookup v.bytes (nodeAt v.bytes a) name = 0
    · rw [if_neg fun hc => hc.2 hc0]
      exact findLoop_none (h.inode ha hu) hdir.toPacked hdir.names (hne _ (by simp)) hnear hc0
    · rw [if_pos ⟨hd, hc0⟩]
      obtain ⟨h1, h2⟩ := h.lookup ha hu hd rfl hc0
      have h3 := h.slot_high h1
      have h4 := h.high
      exact findLoop_found (h.inode ha hu) hdir.toPacked hdir.names (hne _ (by simp)) hnear rfl hc0 (by rw [all_vol]; omega)
        (View.Sees.all _ _ _) fun tmp' => ih h1 h2 (hrest hc0) fun x hx => hne x (by simp [hx])

theorem findPathNode_runs (hs : Searches v.bytes v.glob.rootNode (tokens path)) :
    Runs (.all v) (findPathNode path) ((resolve v.bytes v.glob.rootNode (tokens path)).getD 0) (.all v) := by
  obtain ⟨h1, h2, -⟩ := h.root
  have h3 := h1.low
  have h4 := h.slot_high h1
  have h5 := h.high
  unfold findPathNode
  refine globals_runs.bind ?_
  rw [all_vol, if_neg (by omega)]
  refine environ_runs.bind ((fetchInode_runs (by omega) (by rw [all_vol]; omega) (View.Sees.all _ _ _)).bind ?_)
  refine findLoop_runs h h1 h2 hs fun x hx => ?_
  simpa [tokens] using (List.mem_filter.mp hx).2

theorem findParent_runs (hs : Searches v.bytes v.glob.rootNode (tokens before)) :
    Runs (.all v) (findParent before) ((resolve v.bytes v.glob.rootNode (tokens before)).getD 0) (.all v) := by
  unfold findParent
  refine globals_runs.bind ?_
  split
  · rename_i hb
    rw [hb]
    exact Runs.pure
  · exact findPathNode_runs h hs

end

/-! ## The last component -/

theorem splitLast_none (h : splitLast path = none) : (47 : UInt8) ∉ path := by
  induction path with
  | nil => exact List.not_mem_nil
  | cons c cs ih =>
    unfold splitLast at h
    split at h
    · cases h
    · rename_i hs
      split at h
      · cases h
      · rename_i hc
        intro hm
        rcases List.mem_cons.mp hm with e | hm
        · exact hc e.symm
        · exact ih hs hm

theorem splitLast_eq (h : splitLast path = some (before, name)) : path = before ++ 47 :: name ∧ (47 : UInt8) ∉ name := by
  induction path generalizing before with
  | nil => cases h
  | cons c cs ih =>
    unfold splitLast at h
    split at h
    · rename_i p n hs
      obtain ⟨rfl, rfl⟩ := Prod.mk.inj (Option.some.inj h)
      obtain ⟨h1, h2⟩ := ih hs
      exact ⟨by rw [h1]; rfl, h2⟩
    · rename_i hs
      split at h
      · rename_i hc
        obtain ⟨rfl, rfl⟩ := Prod.mk.inj (Option.some.inj h)
        exact ⟨by rw [hc]; rfl, splitLast_none hs⟩
      · cases h

theorem splitSlash_ne_nil : splitSlash path ≠ [] := by
  cases path with
  | nil => exact List.cons_ne_nil _ _
  | cons c cs =>
    unfold splitSlash
    split
    · exact List.cons_ne_nil _ _
    · split <;> exact List.cons_ne_nil _ _

theorem splitSlash_append {p q : List UInt8} : splitSlash (p ++ 47 :: q) = splitSlash p ++ splitSlash q := by
  induction p with
  | nil => rfl
  | cons c p ih =>
    rw [List.cons_append, splitSlash, splitSlash, ih]
    split
    · rfl
    · cases hp : splitSlash p with
      | nil => exact absurd hp splitSlash_ne_nil
      | cons x xs => rfl

theorem splitSlash_single (h : (47 : UInt8) ∉ name) : splitSlash name = [name] := by
  induction name with
  | nil => rfl
  | cons c cs ih =>
    rw [splitSlash, if_neg fun e => h (by simp [e]), ih fun hm => h (by simp [hm])]

/-- The components of a path are those before the last '/', and the last one. -/
theorem tokens_splitLast (h : splitLast path = some (before, name)) (hn : name ≠ []) : tokens path = tokens before ++ [name] := by
  obtain ⟨rfl, h2⟩ := splitLast_eq h
  rw [tokens, splitSlash_append, splitSlash_single h2, List.filter_append, tokens]
  simp [hn]

section
variable {m : Mem} {rest : List (List UInt8)}

theorem resolve_append : resolve m a (names ++ rest) = (resolve m a names).bind fun c => resolve m c rest := by
  induction names generalizing a with
  | nil => rfl
  | cons x xs ih =>
    rw [List.cons_append, resolve, resolve]
    split
    · exact ih
    · rfl

theorem searches_append (h : Searches m a (names ++ rest)) : Searches m a names := by
  induction names generalizing a with
  | nil => trivial
  | cons x xs ih => exact ⟨h.1, h.2.1, fun h0 => ih (h.2.2 h0)⟩

/-- One more search, in the directory the others lead to. -/
theorem searches_snoc (h : Searches m a names)
    (hl : ∀ c, resolve m a names = some c → isDir (nodeAt m c).mode ∧ Near m (nodeAt m c) name) : Searches m a (names ++ [name]) := by
  induction names generalizing a with
  | nil =>
    obtain ⟨h1, h2⟩ := hl a rfl
    exact ⟨h1, h2, fun _ => trivial⟩
  | cons x xs ih =>
    refine ⟨h.1, h.2.1, fun h0 => ih (h.2.2 h0) fun c hc => hl c ?_⟩
    rw [resolve, if_pos ⟨h.1, h0⟩]
    exact hc

/-- The directory that holds the last component, and what it holds. -/
theorem resolve_parent (hn : name ≠ []) (hl : splitLast path = some (before, name)) (h : resolve m a (tokens path) = some c) :
    ∃ p, resolve m a (tokens before) = some p ∧ isDir (nodeAt m p).mode ∧ lookup m (nodeAt m p) name = c ∧ c ≠ 0 := by
  rw [tokens_splitLast hl hn, resolve_append] at h
  obtain ⟨p, hp, hc⟩ := Option.bind_eq_some_iff.mp h
  refine ⟨p, hp, ?_⟩
  unfold resolve at hc
  split at hc
  · rename_i hd
    obtain rfl : lookup m (nodeAt m p) name = c := Option.some.inj hc
    exact ⟨hd.1, rfl, hd.2⟩
  · cases hc

end

/-! ## Disks with one directory block -/

def rootDir (es : List (List UInt8 × Nat)) : Node := plainNode rootMode (256 * es.length) 1 8192 1

/-- A disk whose root directory has the entries `es`, in the block behind the inode table;
    the other slots of the table hold what `table` says, and behind that block there is
    `data`. -/
def rootSys (blocks : Nat) (h : blocks < 2 ^ 52) (head : Nat) (es : List (List UInt8 × Nat)) (table : Nat → Option Node)
    (data : Mem) : Sys :=
  imageSys blocks h head (fun a => if a = 4096 then some (rootDir es) else table a)
    (fun x => if x < 12288 then dirBlocks es (x - 8192) else data x) zeros

section
variable {blocks head : Nat} {h : blocks < 2 ^ 52} {es : List (List UInt8 × Nat)} {table : Nat → Option Node} {data : Mem}

@[simp] theorem rootSys_bytes : (rootSys blocks h head es table data).vol.bytes =
    image head (fun a => if a = 4096 then some (rootDir es) else table a)
      (fun x => if x < 12288 then dirBlocks es (x - 8192) else data x) := rfl

@[simp] theorem rootSys_rootNode : (rootSys blocks h head es table data).vol.glob.rootNode = 4096 := rfl

@[simp] theorem rootSys_size : (rootSys blocks h head es table data).vol.size = 4096 * blocks := rfl

theorem rootSys_data {x : Nat} (hx : 12288 ≤ x) : (rootSys blocks h head es table data).vol.bytes x = data x := by
  rw [rootSys_bytes, image_data (by omega), if_neg (by omega)]

theorem rootSys_node (ha : IsSlot 8192 a) (hne : a ≠ 4096) (ht : table a = some n) (hf : n.Fits) :
    nodeAt (rootSys blocks h head es table data).vol.bytes a = n := by
  rw [rootSys_bytes]
  exact image_node ha.low ha.high ha.aligned (by rw [if_neg hne]; exact ht) hf

/-- The root directory is what it should be. -/
theorem rootSys_root (h1 : es.length ≤ 16) (h0 : es ≠ []) (hn : ∀ e (he : e < es.length), IsName es[e].1) :
    nodeAt (rootSys blocks h head es table data).vol.bytes 4096 = rootDir es ∧
      Packed (.all (rootSys blocks h head es table data).vol) (rootDir es) ∧
      ∀ e (he : e < es.length), es[e].2 < 2 ^ 64 → nameOf (rootSys blocks h head es table data).vol.bytes (rootDir es) e = es[e].1 ∧
        childOf (rootSys blocks h head es table data).vol.bytes (rootDir es) e = es[e].2 := by
  have hlen := List.length_pos_of_ne_nil h0
  have hf : (rootDir es).Fits := plainNode_fits (by decide) (by omega) (by decide) (by decide) (by decide)
  have hbyte : ∀ x < 4096 * 1, (rootSys blocks h head es table data).vol.bytes (8192 + x) = dirBlocks es x := by
    intro x hx
    rw [rootSys_bytes, image_data (by omega), if_pos (by omega), Nat.add_sub_cancel_left]
  obtain ⟨hp, hat⟩ : Packed (.all (rootSys blocks h head es table data).vol) (rootDir es) ∧ ∀ e < 16 * 1,
      entryAt (rootSys blocks h head es table data).vol.bytes (rootDir es) e = 8192 + 256 * e :=
    plainNode_packed (by decide) (by omega) (all_vis _) hn hbyte
  refine ⟨?_, hp, fun e he hc => ?_⟩
  · rw [rootSys_bytes]
    exact image_node (Nat.le_refl 4096) (by decide) (by decide) (if_pos rfl) hf
  have hm : ∀ k < 256, (rootSys blocks h head es table data).vol.bytes (8192 + 256 * e + k) = dirBlocks es (256 * e + k) := by
    intro k hk
    rw [Nat.add_assoc]
    exact hbyte _ (by omega)
  have hname := dirBlocks_name he (hn e he) hm
  have hchild := dirBlocks_addr he hc hm
  rw [nameOf, childOf, hat e (by omega)]
  exact ⟨hname, hchild⟩

theorem rootSys_unused (ha : IsSlot 8192 a) (hne : a ≠ 4096) (ht : table a = none) :
    ¬ InUse (rootSys blocks h head es table data).vol.bytes a := by
  rw [rootSys_bytes]
  exact image_unused ha.low ha.high ha.aligned (by rw [if_neg hne]; exact ht)

/-- The whole disk is sound when each of the other inodes is. -/
theorem rootSys_sound (hsp : Space ⟨8192, 4096 * blocks⟩ (.all (rootSys blocks h head es table data).vol) own ps)
    (h2 : 2 ≤ blocks) (h1 : es.length ≤ 16) (h0 : es ≠ []) (hn : ∀ e (he : e < es.length), IsName es[e].1)
    (hd : (es.map Prod.fst).Nodup) (hown : own 8192 = some (.data 4096 0))
    (hc : ∀ e (he : e < es.length), IsSlot 8192 es[e].2 ∧ (es[e].2 = 4096 ∨ ∃ n, table es[e].2 = some n ∧ n.mode ≠ 0))
    (ht : ∀ a n, IsSlot 8192 a → table a = some n → n.Fits ∧ Maps (.all (rootSys blocks h head es table data).vol) own a n ∧
      (isDir n.mode → Directory ⟨8192, 4096 * blocks⟩ (rootSys blocks h head es table data).vol n) ∧
      (isDir n.mode = false → n.size ≤ 4096 * n.blocks)) :
    Sound ⟨8192, 4096 * blocks⟩ (rootSys blocks h head es table data).vol own ps := by
  obtain ⟨hroot, hp, hent⟩ : nodeAt (rootSys blocks h head es table data).vol.bytes 4096 = rootDir es ∧
      Packed (.all (rootSys blocks h head es table data).vol) (rootDir es) ∧ _ := rootSys_root h1 h0 hn
  have hsz : (rootDir es).size / 256 = es.length := Nat.mul_div_cancel_left es.length (by decide)
  have hslot : IsSlot 8192 4096 := ⟨Nat.le_refl 4096, by decide, by decide⟩
  have huse : InUse (rootSys blocks h head es table data).vol.bytes 4096 := by
    unfold InUse
    rw [hroot]
    show rootMode ≠ 0
    decide
  -- what a slot in use holds
  have hcase : ∀ a, IsSlot 8192 a → InUse (rootSys blocks h head es table data).vol.bytes a →
      a = 4096 ∨ a ≠ 4096 ∧ ∃ n, table a = some n ∧ nodeAt (rootSys blocks h head es table data).vol.bytes a = n := by
    intro a ha hu
    by_cases hne : a = 4096
    · exact Or.inl hne
    · cases hta : table a with
      | none => exact absurd hu (rootSys_unused ha hne hta)
      | some n => exact Or.inr ⟨hne, n, rfl, rootSys_node ha hne hta (ht a n ha hta).1⟩
  have hchild : ∀ e (he : e < es.length), childOf (rootSys blocks h head es table data).vol.bytes (rootDir es) e = es[e].2 ∧
      nameOf (rootSys blocks h head es table data).vol.bytes (rootDir es) e = es[e].1 := by
    intro e he
    have := (hc e he).1.high
    obtain ⟨h3, h4⟩ := hent e he (by omega)
    exact ⟨h4, h3⟩
  have hdir : Directory ⟨8192, 4096 * blocks⟩ (rootSys blocks h head es table data).vol (rootDir es) := by
    refine { hp with names := fun e f he hf hef => ?_, child := fun e he => Or.inr ?_ }
    · rw [hsz] at he hf
      rw [(hchild e he).2, (hchild f hf).2] at hef
      have he' : e < (es.map Prod.fst).length := by simpa
      have hf' : f < (es.map Prod.fst).length := by simpa
      exact hd.getElem_inj_iff.mp (show (es.map Prod.fst)[e] = (es.map Prod.fst)[f] by simpa using hef)
    · rw [hsz] at he
      rw [(hchild e he).1]
      obtain ⟨hs, hor⟩ := hc e he
      refine ⟨hs, ?_⟩
      rcases hor with h4 | ⟨n, htn, hm⟩
      · rw [h4]
        exact huse
      · by_cases h4 : es[e].2 = 4096
        · rw [h4]
          exact huse
        · unfold InUse
          rw [rootSys_node hs h4 htn (ht _ n hs htn).1]
          exact hm
  have hmap : Maps (.all (rootSys blocks h head es table data).vol) own 4096 (rootDir es) :=
    plainNode_maps (by decide) fun i hi => by cases i with | zero => exact hown | succ i => exact absurd hi (by simp)
  have hin : 8192 ≤ (rootSys blocks h head es table data).vol.size := by
    simp only [rootSys_size]
    omega
  refine ⟨rfl, show 4096 ≤ 8192 by decide, show 8192 % 256 = 0 by decide, hin, hsp,
    ?_, fun a ha hu => ?_, fun a ha hu hda => ?_, fun a ha hu hda => ?_⟩
  · rw [rootSys_rootNode]
    exact ⟨hslot, huse, by rw [hroot]; show isDir rootMode; decide⟩
  · rcases hcase a ha hu with rfl | ⟨hne, n, hta, hna⟩
    · rw [hroot]
      exact hmap
    · rw [hna]
      exact (ht a n ha hta).2.1
  · rcases hcase a ha hu with rfl | ⟨hne, n, hta, hna⟩
    · rw [hroot]
      exact hdir
    · rw [hna] at hda ⊢
      exact (ht a n ha hta).2.2.1 hda
  · rcases hcase a ha hu with rfl | ⟨hne, n, hta, hna⟩
    · rw [hroot] at hda
      exact absurd hda (by show ¬ isDir rootMode = false; decide)
    · rw [hna] at hda ⊢
      exact (ht a n ha hta).2.2.2 hda

end

/-- The file F, with the inode `n`, in the root directory. -/
def fileSys (blocks : Nat) (h : blocks < 2 ^ 52) (head : Nat) (n : Node) (data : Mem) : Sys :=
  rootSys blocks h head [([70], 4352)] (fun a => if a = 4352 then some n else none) data

section
variable {blocks head t : Nat} {h : blocks < 2 ^ 52} {data : Mem}

theorem oneName (c : Nat) : ∀ e (h : e < [([(70 : UInt8)], c)].length), IsName [([(70 : UInt8)], c)][e].1 := by
  intro e he
  cases e with
  | zero => exact ⟨List.cons_ne_nil _ _, show 1 < 248 by decide, by simp⟩
  | succ e => exact absurd he (by simp)

theorem fileSys_full (h2 : 2 ≤ blocks) (ho : ∀ b, own b ≠ none → Zone.Has ⟨8192, 4096 * blocks⟩ b) :
    Space ⟨8192, 4096 * blocks⟩ (.all (fileSys blocks h 0 n data).vol) own [] := image_space (h := h) h2 ho

theorem fileSys_data {x : Nat} (hx : 12288 ≤ x) : (fileSys blocks h head n data).vol.bytes x = data x := rootSys_data (h := h) hx

theorem slotF : IsSlot 8192 4352 := ⟨by decide, by decide, by decide⟩

theorem fileSys_node (hf : n.Fits) : nodeAt (fileSys blocks h head n data).vol.bytes 4352 = n :=
  rootSys_node slotF (by decide) (if_pos rfl) hf

/-- The path of the file leads to it. -/
theorem fileSys_resolve : resolve (fileSys blocks h head n data).vol.bytes 4096 [[70]] = some 4352 ∧
    Searches (fileSys blocks h head n data).vol.bytes 4096 [[70]] := by
  obtain ⟨hroot, -, hent⟩ : nodeAt (fileSys blocks h head n data).vol.bytes 4096 = rootDir [([70], 4352)] ∧
      Packed (.all (fileSys blocks h head n data).vol) (rootDir [([70], 4352)]) ∧ _ :=
    rootSys_root (by decide) (List.cons_ne_nil _ _) (oneName 4352)
  obtain ⟨h1, h2⟩ := hent 0 (by decide) (by decide)
  have hl : lookup (fileSys blocks h head n data).vol.bytes (rootDir [([70], 4352)]) [70] = 4352 := by
    refine (lookup_eq (fun e f he hf _ => ?_) (by decide) h1).trans h2
    have he' : e < 1 := he
    have hf' : f < 1 := hf
    omega
  have hd : isDir (rootDir [([70], 4352)]).mode := by show isDir rootMode; decide
  rw [resolve, Searches, hroot, hl]
  exact ⟨if_pos ⟨hd, by decide⟩, hd, Or.inl (by decide), fun _ => trivial⟩

theorem fileSys_sound (hsp : Space ⟨8192, 4096 * blocks⟩ (.all (fileSys blocks h head n data).vol) own ps) (h2 : 2 ≤ blocks)
    (hown : own 8192 = some (.data 4096 0)) (hf : n.Fits) (h0 : n.mode ≠ 0) (hd : isDir n.mode = false)
    (hm : Maps (.all (fileSys blocks h head n data).vol) own 4352 n) (hs : n.size ≤ 4096 * n.blocks) :
    Sound ⟨8192, 4096 * blocks⟩ (fileSys blocks h head n data).vol own ps ∧
      InUse (fileSys blocks h head n data).vol.bytes 4352 := by
  refine ⟨rootSys_sound hsp h2 (by decide) (List.cons_ne_nil _ _) (oneName 4352) (by decide) hown (fun e he => ?_)
    fun a m ha hn => ?_, ?_⟩
  · cases e with
    | zero => exact ⟨slotF, Or.inr ⟨n, if_pos rfl, h0⟩⟩
    | succ e => exact absurd he (by simp)
  · split at hn
    · obtain rfl := Option.some.inj hn
      subst a
      exact ⟨hf, hm, fun hc => absurd hc (by simp [hd]), fun _ => hs⟩
    · cases hn
  · unfold InUse
    rw [fileSys_node hf]
    exact h0

/-- Looking the file up. -/
theorem fileSys_find (hs : Sound ⟨8192, 4096 * blocks⟩ (fileSys blocks h head n data).vol own ps) :
    ∃ s, s.vol = (fileSys blocks h head n data).vol ∧ findPathNode [47, 70] (fileSys blocks h head n data) = some (4352, s) := by
  have htok : tokens [47, 70] = [[70]] := rfl
  have hroot : (fileSys blocks h head n data).vol.glob.rootNode = 4096 := rfl
  have hruns := findPathNode_runs hs (by rw [htok]; exact fileSys_resolve.2)
  rw [htok, hroot, fileSys_resolve.1] at hruns
  obtain ⟨s, hf, hK⟩ := hruns.exec (holds_all.mpr rfl)
  exact ⟨s, holds_all.mp hK, hf⟩

/-! A file of `t` blocks, all in use, which follow that of the directory, on a disk without
a free block. -/

def fileOwn (t c : Nat) : Option Pos :=
  if c = 8192 then some (.data 4096 0)
  else if 12288 ≤ c ∧ c % 4096 = 0 ∧ c < 12288 + 4096 * t then some (.data 4352 ((c - 12288) / 4096))
  else none

theorem fileOwn_has (ht : 3 + t ≤ blocks) : ∀ c, fileOwn t c ≠ none → Zone.Has ⟨8192, 4096 * blocks⟩ c := by
  intro c hc
  unfold fileOwn at hc
  split at hc
  · rename_i h
    subst h
    exact ⟨by decide, Nat.le_refl 8192, by show 8192 + 4096 ≤ 4096 * blocks; omega⟩
  split at hc
  · exact ⟨by omega, by show 8192 ≤ c; omega, by show c + 4096 ≤ 4096 * blocks; omega⟩
  · exact absurd rfl hc

theorem fileOwn_data {i : Nat} (hi : i < t) : fileOwn t (12288 + 4096 * i) = some (.data 4352 i) := by
  rw [fileOwn, if_neg (by omega), if_pos (by omega), show (12288 + 4096 * i - 12288) / 4096 = i by omega]

def fullNode (t : Nat) : Node := plainNode 0x81A4 (4096 * t) t 12288 1

def fullSys (t : Nat) (h : 3 + t < 2 ^ 52) : Sys := fileSys (3 + t) h 0 (fullNode t) zeros

theorem fullNode_fits (ht : t ≤ 12) : (fullNode t).Fits :=
  plainNode_fits (by decide) (by omega) (by omega) (by decide) (by decide)

theorem fullSys_sound (ht : t ≤ 12) {h : 3 + t < 2 ^ 52} :
    Sound ⟨8192, 4096 * (3 + t)⟩ (fullSys t h).vol (fileOwn t) [] ∧ InUse (fullSys t h).vol.bytes 4352 :=
  fileSys_sound (fileSys_full (by omega) (fileOwn_has (Nat.le_refl _))) (by omega) (if_pos rfl) (fullNode_fits ht)
    (by show 0x81A4 ≠ 0; decide) (by show isDir 0x81A4 = false; decide) (plainNode_maps ht fun i hi => fileOwn_data hi)
    (Nat.le_refl _)

theorem fullSys_find (ht : t ≤ 12) {h : 3 + t < 2 ^ 52} : ∃ s, s.vol = (fullSys t h).vol ∧
    findPathNode [47, 70] (fullSys t h) = some (4352, s) ∧
    InodeAt ⟨8192, 4096 * (3 + t)⟩ (.all s.vol) (fileOwn t) [] 4352 (fullNode t) := by
  obtain ⟨hsound, huse⟩ := fullSys_sound ht (h := h)
  obtain ⟨s, hs, hf⟩ : ∃ s, s.vol = (fullSys t h).vol ∧ findPathNode [47, 70] (fullSys t h) = some (4352, s) :=
    fileSys_find hsound
  have hnode : nodeAt (fullSys t h).vol.bytes 4352 = fullNode t := fileSys_node (fullNode_fits ht)
  have hi := hsound.inode slotF huse
  rw [hnode, ← hs] at hi
  exact ⟨s, hs, hf, hi⟩

end

end TyrantFS

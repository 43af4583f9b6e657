/-
  TyrantFS.Fuse.Spare — what a growing file leaves alone.

  A call of `add_block_to_node` that returns a block writes to the superblock, its inode,
  the index pages of that inode and blocks that were free (`Spares`). It does so when the
  free blocks that become pages of pages hold only zeros (`addBlockToNode_spares`). One that
  was not wiped is looked into: where it holds the address of a block in use, the new
  block is entered there (`addBlockToNode_spares_not`).
-/
import TyrantFS.Fuse.Unlink
import TyrantFS.Fuse.Write

namespace TyrantFS

open Lib Lib.PageTree

variable {z : Zone} {K K' : View} {own own' own0 : Nat → Option Pos} {ps ps' : List Nat} {a b x : Nat} {n : Node} {s : Sys}

/-- `b` is a block of data of the inode `n`, or one of its index pages. -/
def BlockOf (m : Mem) (n : Node) (b : Nat) : Prop := (∃ i < n.blocks, addrOf m n i = b) ∨ PageOf m n b

/-- The inode at `a` has grown by a block, and the disk went from `v` to `v'`. -/
structure Spares (z : Zone) (a : Nat) (ps : List Nat) (v v' : Vol) : Prop where
  changed : ∀ x, v'.bytes x ≠ v.bytes x → x < 8 ∨ a ≤ x ∧ x < a + 256 ∨
    ∃ b, (b ∈ freeOrder (.all v) ps ∨ PageOf v.bytes (nodeAt v.bytes a) b) ∧ b ≤ x ∧ x < b + 4096
  data : ∀ i < (nodeAt v.bytes a).blocks, ∀ k < 4096,
    v'.bytes (addrOf v.bytes (nodeAt v.bytes a) i + k) = v.bytes (addrOf v.bytes (nodeAt v.bytes a) i + k)
  others : ∀ c, IsSlot z.lo c → InUse v.bytes c → c ≠ a → ∀ b, BlockOf v.bytes (nodeAt v.bytes c) b → ∀ k < 4096,
    v'.bytes (b + k) = v.bytes (b + k)
  slots : ∀ c, IsSlot z.lo c → c ≠ a → ∀ k < 256, v'.bytes (c + k) = v.bytes (c + k)
  /-- A page on the way to the new block was there, or was free and is not free now. -/
  path : ∃ ps', FreeList (.all v') ps' ∧ ∀ t < depth (rootOf (nodeAt v.bytes a).blocks), ∀ p,
    blockAt v'.bytes (nodeAt v'.bytes a) (rootOf (nodeAt v.bytes a).blocks) ((pathOf (nodeAt v.bytes a).blocks).take t) = p →
      PageOf v.bytes (nodeAt v.bytes a) p ∨ p ∈ freeOrder (.all v) ps ∧ p ∉ freeOrder (.all v') ps'

/-- The owners may forget the pages that hang nowhere. -/
theorem MapAt.tidy (h : MapAt z K own ps a n) : ∃ own', MapAt z K own' ps a n ∧
    (∀ b p, own b = some p → p.inode ≠ a → own' b = some p) ∧ ∀ b j π, own' b = some (.page a j π) → PageOf K.vol.bytes n b := by
  classical
  have hkeep : ∀ b p, own b = some p → (p.inode = a → (∀ j π, p ≠ .page a j π) ∨ PageOf K.vol.bytes n b) →
      (if (∃ j π, own b = some (.page a j π)) ∧ ¬ PageOf K.vol.bytes n b then none else own b) = some p := by
    intro b p hb hp
    rw [if_neg, hb]
    intro hc
    obtain ⟨⟨j, π, hpage⟩, hno⟩ := hc
    obtain rfl : p = .page a j π := Option.some.inj (hb.symm.trans hpage)
    exact (hp rfl).elim (fun h => h j π rfl) hno
  refine ⟨fun b => if (∃ j π, own b = some (.page a j π)) ∧ ¬ PageOf K.vol.bytes n b then none else own b,
    { h with space := ?_, maps := ?_ }, fun b p hb hp => hkeep b p hb fun e => absurd e hp, fun b j π hb => ?_⟩
  · refine { h.space with free := fun b hb => ⟨?_, (h.space.free b hb).2⟩, owned := fun b hb => h.space.owned b fun h0 => hb ?_ }
    · rw [(h.space.free b hb).1, ite_self]
    · rw [h0, ite_self]
  · refine { h.maps with data := fun i hi => hkeep _ _ (h.maps.data i hi) fun _ => Or.inl nofun, page := fun j π hj hπ hl h0 => ?_ }
    exact hkeep _ _ (h.maps.page j π hj hπ hl h0) fun _ => Or.inr ⟨h0, j, π, hj, hπ, hl, rfl⟩
  · by_contra hno
    simp only at hb
    split at hb
    · cases hb
    · rename_i hc
      exact hc ⟨⟨j, π, hb⟩, hno⟩

/-- A growing inode does not touch what others own. -/
theorem MapAt.growByte_other {p : Pos} (h : MapAt z K own ps a n) (hb : own b = some p) (hp : p.inode ≠ a) (h1 : b ≤ x) (h2 : x < b + 4096) :
    ¬ GrowByte K own ps a x := by
  have hhas := h.space.owned b (by simp [hb])
  have hlow := hhas.low
  have h8 := h.space.low
  have hhigh := h.high
  rintro (hx | hx | ⟨c, hc, hx⟩ | ⟨c, j, π, hc, hx⟩)
  · omega
  · omega
  · have := hhas.apart (h.space.free c hc).2 fun e => h.space.owned_notFree hb (e ▸ hc)
    omega
  · have := hhas.apart (h.space.owned c (by simp [hc])) fun e => by
      rw [e, hc] at hb
      exact hp (congrArg Pos.inode (Option.some.inj hb).symm)
    omega

/-- A growing inode does not touch the other slots. -/
theorem MapAt.growByte_slot {c : Nat} (h : MapAt z K own ps a n) (hc : Beside z a c) (h1 : c ≤ x) (h2 : x < c + 256) : ¬ GrowByte K own ps a x := by
  have hlow := hc.low
  have hhigh := hc.high
  have hap := hc.apart
  rintro (hx | hx | ⟨b, hb, hx⟩ | ⟨b, j, π, hb, hx⟩)
  · omega
  · omega
  · have := (h.space.free b hb).2.low
    omega
  · have := (h.space.owned b (by simp [hb])).low
    omega

/-- What an inode has is owned by it. -/
theorem Maps.blockOf (h : Maps K own a n) (hb : BlockOf K.vol.bytes n b) : ∃ p : Pos, own b = some p ∧ p.inode = a := by
  rcases hb with ⟨i, hi, rfl⟩ | ⟨h0, j, π, hj, hπ, hl, rfl⟩
  · exact ⟨_, h.data i hi, rfl⟩
  · exact ⟨_, h.page j π hj hπ hl h0, rfl⟩

/-- A call that has added a block. -/
theorem Added.spares {v v' : Vol} {r : Nat × Node} (hs : Sound z v own0 ps) (ha : IsSlot z.lo a) (hc : (nodeAt v.bytes a).blocks < capacity)
    (h : MapAt z (.all v) own ps a (nodeAt v.bytes a)) (hown : ∀ b p, own0 b = some p → p.inode ≠ a → own b = some p)
    (hpage : ∀ b j π, own b = some (.page a j π) → PageOf v.bytes (nodeAt v.bytes a) b)
    (had : Added z a (.all v) own ps (nodeAt v.bytes a) r (.all v') own' ps') (h0 : r.1 ≠ 0) : Spares z a ps v v' := by
  have hpath := pathOf_isPath hc
  have hnode : nodeAt v'.bytes a = r.2 := had.onDisk.resolve_right fun hc => h0 hc.1
  refine ⟨fun x hx => ?_, fun i hi k hk => ?_, fun c hc hu hca b hb k hk => ?_, fun c hc hca k hk => ?_, ps', had.space.list, fun t ht p hp => ?_⟩
  · have hbyte : GrowByte (.all v) own ps a x := by
      by_contra hno
      exact hx (had.keeps.bytes x hno)
    rcases hbyte with h8 | hslot | ⟨b, hb, hin⟩ | ⟨b, j, π, hb, hin⟩
    · exact Or.inl h8
    · exact Or.inr (Or.inl ⟨hslot.1, by omega⟩)
    · exact Or.inr (Or.inr ⟨b, Or.inl hb, hin⟩)
    · exact Or.inr (Or.inr ⟨b, Or.inr (hpage b j π hb), hin⟩)
  · exact had.keeps.bytes _ (h.growByte_data hi (Nat.le_add_right _ _) (by rw [all_vol]; omega))
  · obtain ⟨p, hp, hpc⟩ := (hs.maps c hc hu).blockOf hb
    have hne : p.inode ≠ a := by rw [hpc]; exact hca
    exact had.keeps.bytes _ (h.growByte_other (hown b p hp hne) hne (Nat.le_add_right _ _) (by omega))
  · exact had.keeps.bytes _ (h.growByte_slot (hs.beside ha hc hca) (Nat.le_add_right _ _) (by omega))
  · -- the page was on the way before, or an empty place was
    rw [hnode] at hp
    have hne : p ≠ 0 := by
      rw [← hp]
      exact had.present h0 t ht
    have hlen : ((pathOf (nodeAt v.bytes a).blocks).take t).length < depth (rootOf (nodeAt v.bytes a).blocks) := by
      rw [List.length_take]
      omega
    have hj : 12 ≤ rootOf (nodeAt v.bytes a).blocks := by
      unfold depth at ht
      omega
    rw [← List.take_append_drop t (pathOf _)] at hpath
    have hnew : own' p = some (.page a (rootOf (nodeAt v.bytes a).blocks) ((pathOf (nodeAt v.bytes a).blocks).take t)) := by
      rw [← hp]
      exact had.maps.page _ _ hj hpath.prefix hlen (by rw [all_vol, hp]; exact hne)
    rcases had.owner p with hsame | ⟨hfree, -⟩
    · exact Or.inl (hpage p _ _ (hsame ▸ hnew))
    · refine Or.inr ⟨hfree, fun hm => ?_⟩
      rw [(had.space.free p hm).1] at hnew
      cases hnew

/-- Growing a file touches nobody else's data, where the pages it takes are clear. -/
theorem addBlockToNode_spares (h : Sound z s.vol own ps) (ha : IsSlot z.lo a) (hu : InUse s.vol.bytes a)
    (hc : (nodeAt s.vol.bytes a).blocks < capacity) (hz : PagesClear (.all s.vol) ps (nodeAt s.vol.bytes a)) :
    ∃ b n' s', addBlockToNode (nodeAt s.vol.bytes a) a s = some ((b, n'), s') ∧ (b ≠ 0 → Spares z a ps s.vol s'.vol) := by
  have hinode := h.inode ha hu
  obtain ⟨own1, hmap, hown, hpage⟩ := hinode.toMapAt.tidy
  obtain ⟨⟨b, n'⟩, K', hrun, own2, ps2, had⟩ := addBlockToNode_runs hmap.space hmap.maps hinode.fits hmap.low hmap.high hc hz
  obtain ⟨s', hcall, hs'⟩ := hrun.exec (holds_all.mpr rfl)
  obtain rfl := had.keeps.all hs'
  exact ⟨b, n', s', hcall, fun h0 => had.spares h ha hc hmap hown hpage h0⟩

/-- A call that takes both pages of the double tree. -/
theorem addBlockToNode_spares_double : ∃ b n' s', addBlockToNode bigNode 4352 (bigSys 0) = some ((b, n'), s') ∧ b ≠ 0 ∧
    Spares ⟨8192, 4096 * 531⟩ 4352 [12288 + 4096 * 525] (bigSys 0).vol s'.vol := by
  obtain ⟨hsound, huse⟩ := bigSys_sound (w := 0) (by decide)
  have hnode := bigSys_node (w := 0)
  have hord := (bigSys_space (w := 0) (by decide)).2
  have hcap : bigNode.blocks < capacity := by decide +kernel
  have hclear : PagesClear (.all (bigSys 0).vol) [12288 + 4096 * 525] bigNode := by
    intro k hk q hq _
    obtain rfl : k = 0 := by
      have hle := Nat.lt_of_lt_of_le hk missing_le
      have : depth (rootOf bigNode.blocks) = 2 := by decide
      omega
    rw [hord] at hq
    obtain rfl : 12288 + 4096 * 527 = q := Option.some.inj hq
    exact bigSys_zero
  obtain ⟨b, n', s', hcall, hspares⟩ := addBlockToNode_spares hsound slotF huse (by rw [hnode]; exact hcap) (by rw [hnode]; exact hclear)
  rw [hnode] at hcall
  have h0 : b ≠ 0 := by
    -- three blocks are free, and no more are needed
    intro h0
    have hinode := hsound.inode slotF huse
    rw [hnode] at hinode
    obtain ⟨⟨b1, n1⟩, K', hrun, own', ps', had⟩ :=
      addBlockToNode_runs hinode.space hinode.maps hinode.fits hinode.low hinode.high hcap hclear
    obtain ⟨s1, hcall1, -⟩ := hrun.exec (holds_all.mpr rfl)
    obtain ⟨e, -⟩ := Prod.mk.inj (Prod.mk.inj (Option.some.inj (hcall1.symm.trans hcall))).1
    have hfew := (had.failed (e.trans h0)).2
    have hle : missing (bigSys 0).vol.bytes bigNode (rootOf bigNode.blocks) (pathOf bigNode.blocks) 0 2 ≤ 2 := missing_le
    rw [hord, all_vol, show depth (rootOf bigNode.blocks) = 2 by decide] at hfew
    have hthree : [12288 + 4096 * 526, 12288 + 4096 * 527, 12288 + 4096 * 525].length = 3 := rfl
    omega
  exact ⟨b, n', s', hcall, h0, hspares h0⟩

/-- The block the unwiped page leads to is taken for its page. -/
theorem InodeAt.enters {x0 x1 y : Nat} {rest : List Nat} (h : InodeAt z (.all s.vol) own ps a n) (hb : n.blocks = 524) (h13 : n.dblIndirect = 0)
    (hord : freeOrder (.all s.vol) ps = x0 :: x1 :: rest) (h1 : x1 ∉ ps) (hw : word s.vol.bytes x1 = y) (hy : IsBlock s.vol.size y)
    (hay : a + 208 ≤ y) : ∃ s', addBlockToNode n a s = some ((x0, n.doubled x1), s') ∧ x0 ≠ 0 ∧ word s'.vol.bytes y = x0 := by
  have hm0 : x0 ∈ freeOrder (.all s.vol) ps := by rw [hord]; exact List.mem_cons_self
  have hb0 := h.space.list.block x0 hm0
  obtain ⟨K1, ps1, K2, ps2, hk1, hk2, -, hrun⟩ := addBlockToNode_looks h.toMapAt (all_vis _) hb h13 hord h1 hw hy hay
  have hsize : K2.vol.size = s.vol.size := hk2.keeps.size.trans hk1.keeps.size
  have hkeeps : Keeps (fun _ => True) (.all s.vol) (K2.recycle a n x0 x1 y) :=
    ((hk1.keeps.mono fun _ _ => trivial).trans (hk2.keeps.mono fun _ _ => trivial)).trans
      (Keeps.recycle (fun _ _ _ => trivial) fun _ _ _ => trivial)
  obtain ⟨s', hcall, hs'⟩ := hrun.exec (holds_all.mpr rfl)
  have hleaf : slot (K2.recycle a n x0 x1 y).vol.bytes y 0 = x0 :=
    recycle_leaf (hsize ▸ hb0) (hsize ▸ hy) hay
  rw [slot_of_ne hy.pos, hkeeps.all hs'] at hleaf
  exact ⟨s', hcall, hb0.pos, hleaf⟩

/-- Word 0 of the second free block holds the address of the block of the root directory:
    the new block of the file is entered there, over the first name. -/
theorem addBlockToNode_spares_not : Sound ⟨8192, 4096 * 531⟩ (bigSys 8192).vol bigOwn [12288 + 4096 * 525] ∧ IsSlot 8192 4352 ∧
    InUse (bigSys 8192).vol.bytes 4352 ∧ nodeAt (bigSys 8192).vol.bytes 4352 = bigNode ∧ bigNode.blocks < capacity ∧
    ∃ b n' s', addBlockToNode bigNode 4352 (bigSys 8192) = some ((b, n'), s') ∧ b ≠ 0 ∧
      ¬ Spares ⟨8192, 4096 * 531⟩ 4352 [12288 + 4096 * 525] (bigSys 8192).vol s'.vol := by
  obtain ⟨hsound, huse⟩ := bigSys_sound (w := 8192) (by decide)
  have hnode := bigSys_node (w := 8192)
  have hord := (bigSys_space (w := 8192) (by decide)).2
  have hinode := hsound.inode slotF huse
  rw [hnode] at hinode
  have hword : word (bigSys 8192).vol.bytes (12288 + 4096 * 527) = 8192 :=
    bigSys_pages (by decide) 527 0 (by decide) (by decide) (by decide)
  have h13 : bigNode.dblIndirect = 0 := filledNode_root (k := 13) (by decide)
  have hblock : IsBlock (bigSys 8192).vol.size 8192 := ⟨by decide, by decide, by decide⟩
  obtain ⟨s', hcall, h0, hover⟩ := hinode.enters rfl h13 hord (by simp) hword hblock (by decide)
  refine ⟨hsound, slotF, huse, hnode, by decide +kernel, _, _, s', hcall, h0, fun hspares => ?_⟩
  have hroot : nodeAt (bigSys 8192).vol.bytes 4096 = rootDir [([70], 4352)] := fileSys_root.1
  have hfirst : BlockOf (bigSys 8192).vol.bytes (nodeAt (bigSys 8192).vol.bytes 4096) 8192 := by
    rw [hroot]
    exact Or.inl ⟨0, Nat.one_pos, rfl⟩
  have hsame : word s'.vol.bytes 8192 = word (bigSys 8192).vol.bytes 8192 := word_congr fun k hk =>
    hspares.others 4096 hsound.root.1 hsound.root.2.1 (by decide) 8192 hfirst k (by omega)
  -- the name of the file starts with F
  have hletter : (bigSys 8192).vol.bytes 8192 = 70 := by
    rw [bigSys, fileSys, rootSys_bytes, image_data (Nat.le_refl _), if_pos (by decide)]
    rfl
  have hmod := word_mod (bigSys 8192).vol.bytes 8192
  rw [← hsame, hover, hletter] at hmod
  exact absurd hmod (by decide)

end TyrantFS

/-
  TyrantFS.Fuse.Overlap — an entry that is written over an index page.

  A directory of 524 full blocks grows by a block and two pages. Where the first of these
  was not wiped and leads to the new block, that block becomes its own page
  (`addBlockToNode_recycled`). `add_to_directory` wipes it and writes the entry there, and
  the letters of the name are then taken for an address (`addToDirectory_recycled`).
-/
import TyrantFS.Fuse.Crowd
import TyrantFS.Help.Insertion
import TyrantFS.Help.Recycled

namespace TyrantFS

open Lib Lib.PageTree

variable {z : Zone} {K : View} {own own' : Nat → Option Pos} {ps ps' rest : List Nat} {a b c i x0 x1 : Nat} {n n' : Node}
  {s s' : Sys} {name : List UInt8} {temp : Mem}

/-- The entry goes into the first slot of a block of zeros. -/
theorem addAddr_blank (ha : a ≠ 0) (hah : a + 256 ≤ K.vol.size) (hc : c ≠ 0) (hch : c + 256 ≤ K.vol.size) (hb : IsBlock K.vol.size b)
    (hv : ∀ x, K.vis x) (h0 : K.vol.bytes b = 0) :
    Runs K (addAddr a b c name) 0 (K.insert b a c (nodeAt K.vol.bytes a) (nodeAt K.vol.bytes c) (strBuf name K.vol.env.junk)) := by
  have hpos := hb.pos
  have hscan : Runs K (addAddrScan a b c (nodeAt K.vol.bytes a) (nodeAt K.vol.bytes c) (strBuf name K.vol.env.junk) 16 (256 * 0) 0) 0
      (K.insert (b + 256 * 0) a c (nodeAt K.vol.bytes a) (nodeAt K.vol.bytes c) (strBuf name K.vol.env.junk)) :=
    addAddrScan_runs hb (fun _ _ => hv _) hah hch (Nat.le_refl 0) (by decide) (Nat.zero_add 16) (fun j _ hj => absurd hj (Nat.not_lt_zero j))
      (by rwa [Nat.mul_zero, Nat.add_zero])
  unfold addAddr
  rw [if_neg (by omega)]
  exact environ_runs.bind ((fetchNode_runs ha (by omega) fun _ _ => hv _).bind ((fetchNode_runs hc (by omega) fun _ _ => hv _).bind hscan))

section
variable (h : InodeAt z (.all s.vol) own ps a n) (hb : n.blocks = 524) (h13 : n.dblIndirect = 0)
  (hord : freeOrder (.all s.vol) ps = x0 :: x1 :: rest) (h1 : x1 ∉ ps) (hw : word s.vol.bytes x1 = x0)

include h hb h13 hord h1 hw

/-- What the call that adds the block does. -/
theorem InodeAt.recycled_puts {s1 : Sys} (hs1 : s1.vol = s.vol) (hcall : addBlockToNode n a s1 = some ((b, n'), s')) : Puts n s1 b n' s' := by
  rw [← hs1] at h hord hw
  obtain ⟨K', ps1, hrun, hrec⟩ := addBlockToNode_recycled h.toMapAt h.fits (all_vis _) hb h13 hord h1 hw
  obtain ⟨s2, e2, hs2⟩ := hrun.exec (holds_all.mpr rfl)
  obtain rfl := hrec.keeps.all hs2
  obtain ⟨e, rfl⟩ := Prod.mk.inj (Option.some.inj (e2.symm.trans hcall))
  obtain ⟨rfl, rfl⟩ := Prod.mk.inj e
  exact hrec.puts h.toMapAt hb

/-- The call returns 0, and the last block of the directory is where no block can be. -/
theorem addToDirectory_recycled (hc : Beside z a c) (hn : IsName name) (hs : n.size = 4096 * 524) :
    ∃ s', addToDirectory a c name s = some (0, s') ∧ (nodeAt s'.vol.bytes a).blocks = 525 ∧
      addrOf s'.vol.bytes (nodeAt s'.vol.bytes a) 524 % 4096 ≠ 0 := by
  have hlow := h.low
  have hhigh := h.high
  have hin : z.lo ≤ s.vol.size := h.inside
  have hclow := hc.low
  have hchigh := hc.high
  have hcap := hc.apart
  obtain ⟨K1, ps1, hrun, hrec⟩ := addBlockToNode_recycled h.toMapAt h.fits (all_vis _) hb h13 hord h1 hw
  have hsize : K1.vol.size = s.vol.size := hrec.keeps.size
  have hb0 := hrec.block
  have hb1 := hrec.page
  rw [all_vol, ← hsize] at hb0 hb1
  have hm0 : x0 ∈ freeOrder (.all s.vol) ps := by rw [hord]; exact List.mem_cons_self
  have hm1 : x1 ∈ freeOrder (.all s.vol) ps := by rw [hord]; exact List.mem_cons_of_mem _ List.mem_cons_self
  have hz0 := (h.space.free x0 hm0).2
  have hz1 := (h.space.free x1 hm1).2
  have hl0 := hz0.low
  have hl1 := hz1.low
  have hap := hz0.apart hz1 fun e => by
    have hnd : (freeOrder (.all s.vol) ps).Nodup := h.space.list.chain.nodup
    rw [hord, e] at hnd
    exact (List.nodup_cons.mp hnd).1 List.mem_cons_self
  have hin0 := hb0.inside
  have hv1 : ∀ x, K1.vis x := fun x => hrec.keeps.vis x trivial
  -- the block is wiped, then the entry is written
  have hwipe : Runs K1 (writeBlock zeros x0 0 4096) 4096 (K1.store x0 4096 zeros) := writeBlock_fits (o := 0) rfl (by omega) (by omega)
  have hnode : nodeAt (K1.store x0 4096 zeros).vol.bytes a = n.doubled x1 := (nodeAt_put_out (by omega)).trans hrec.node
  have hentry : Runs (K1.store x0 4096 zeros) (addAddr a x0 c name) 0 _ :=
    addAddr_blank (by omega) (by rw [store_size]; omega) (by omega) (by rw [store_size]; omega) (by rw [store_size]; exact hb0)
      (fun x => Or.inl (hv1 x)) ((put_in (Nat.le_refl x0) (by omega)).trans rfl)
  rw [hnode] at hentry
  obtain ⟨K3, hK3, hcall⟩ : ∃ K3, K3 = (K1.store x0 4096 zeros).insert x0 a c (n.doubled x1) (nodeAt (K1.store x0 4096 zeros).vol.bytes c)
      (strBuf name (K1.store x0 4096 zeros).vol.env.junk) ∧ Runs (.all s.vol) (addToDirectory a c name) 0 K3 := by
    refine ⟨_, rfl, ?_⟩
    unfold addToDirectory
    rw [if_neg (by omega)]
    refine h.fetch.bind ((fetchNode_runs (by omega) (by rw [all_vol]; omega) fun _ _ => all_vis _ _).bind ?_)
    rw [if_pos (by rw [hs])]
    refine hrun.bind ?_
    dsimp only
    rw [if_neg hb0.pos]
    exact hwipe.bind hentry
  obtain ⟨s', e, hK⟩ := hcall.exec (holds_all.mpr rfl)
  have hkeeps : Keeps (fun _ => True) (.all s.vol) K3 := by
    rw [hK3]
    exact (hrec.keeps.mono fun _ _ => trivial).trans ((Keeps.store fun _ _ _ => trivial).trans (insert_keeps.mono fun _ _ => trivial))
  have hbytes : s'.vol.bytes = K3.vol.bytes := congrArg (fun K => K.vol.bytes) (hkeeps.all hK).symm
  rw [hK3, insert_bytes] at hbytes
  -- the inode and its pages
  have hfits : ((n.doubled x1).stamp ((n.doubled x1).size + 256) (K1.store x0 4096 zeros).vol.now).Fits :=
    stamp_fits hrec.fits (show n.size + 256 < 2 ^ 64 by omega) (Vol.now_lt _)
  have hnode' : nodeAt s'.vol.bytes a = (n.doubled x1).stamp ((n.doubled x1).size + 256) (K1.store x0 4096 zeros).vol.now := by
    have hsum : ((n.doubled x1).size + 256) % 2 ^ 64 = (n.doubled x1).size + 256 := Nat.mod_eq_of_lt (show n.size + 256 < 2 ^ 64 by omega)
    rw [hbytes, nodeAt_put_out (by omega), hsum, nodeAt_put hfits]
  have hroot : slot s'.vol.bytes x1 0 = x0 := by
    refine Eq.trans ?_ hrec.root
    rw [slot_of_ne hb1.pos, slot_of_ne hb1.pos]
    exact word_congr fun k hk => by
      rw [hbytes, put_out (by omega), put_out (by omega), putWord, put_out (by omega), put_out (by omega)]
      exact put_out (by omega)
  have hletter : s'.vol.bytes x0 = strBuf name (K1.store x0 4096 zeros).vol.env.junk 0 := by
    rw [hbytes, put_out (by omega), put_out (by omega), putWord, put_out (by omega), put_in (by omega) (by omega), Nat.sub_self]
  refine ⟨s', e, by rw [hnode']; exact congrArg (· + 1) hb, fun h0 => ?_⟩
  have hword : addrOf s'.vol.bytes (nodeAt s'.vol.bytes a) 524 = word s'.vol.bytes x0 := by
    have hroot13 : (nodeAt s'.vol.bytes a).root 13 = x1 := by rw [hnode']; rfl
    rw [addrOf, show rootOf 524 = 13 by decide, show pathOf 524 = [0, 0] by decide, blockAt, hroot13, walk_cons, walk_cons, walk_nil, hroot,
      slot_of_ne hb0.pos]
    rfl
  -- the first letter is the lowest byte of the address
  have hmod := word_mod s'.vol.bytes x0
  rw [hword] at h0
  rw [hletter, show word s'.vol.bytes x0 % 256 = 0 by omega] at hmod
  obtain ⟨l, rest, rfl⟩ := List.exists_cons_of_ne_nil hn.nonempty
  exact hn.noNul l List.mem_cons_self (UInt8.toNat_inj.mp hmod.symm)

end

/-! The root directory names 8384 inodes, its 524 blocks are full, and word 0 of the second free
block holds the address of the first. -/

def laidRoot : Node := filledNode rootMode (256 * (16 * 524)) (crowdLo 524)

theorem laid_size : 1053 < 2 ^ 52 := by decide

def laidSys : Sys :=
  crowdSys 524 1053 laid_size (crowdLo 524 + 4096 * 525) laidRoot
    (filledData (crowdLo 524) zeros [crowdLo 524 + 4096 * 526, crowdLo 524 + 4096 * 527] (crowdLo 524 + 4096 * 526))

theorem laid_pages : FilledPages (crowdLo 524) [crowdLo 524 + 4096 * 526, crowdLo 524 + 4096 * 527] (crowdLo 524 + 4096 * 526)
    laidSys.vol.bytes :=
  filledData_pages (by decide) (by decide) (by decide) (by decide) fun x hx => crowd_tail (by unfold crowdLo at *; omega)

theorem laid_crowded : Crowded 524 laidSys.vol.bytes laidRoot :=
  ⟨by decide, by decide +kernel, rfl, rfl, rfl, filledNode_fits (by decide) (by decide) (by decide),
    fun _ hi => filledNode_addr laid_pages (by decide) hi⟩

theorem laid_space : Space ⟨crowdLo 524, 4096 * 1053⟩ (.all laidSys.vol) (filledOwn (crowdLo 524) 4096) [crowdLo 524 + 4096 * 525] ∧
    freeOrder (.all laidSys.vol) [crowdLo 524 + 4096 * 525] =
      [crowdLo 524 + 4096 * 526, crowdLo 524 + 4096 * 527, crowdLo 524 + 4096 * 525] :=
  filled_space laid_pages (by decide) (by decide) (crowd_super (by decide)) (by decide) (fun b hb => by
    rcases List.mem_cons.mp hb with rfl | hb
    · exact ⟨by decide, by decide, by decide, filledOwn_free (by decide)⟩
    · obtain rfl := List.mem_singleton.mp hb
      exact ⟨by decide, by decide, by decide, filledOwn_free (by decide)⟩) (by decide) (filledOwn_free (by decide)) (by decide)
    (Nat.le_refl _) (by decide) (Nat.le_refl _) (show (0 : Int) ≤ 3 by decide) fun b hb => filledOwn_has (by decide) (Nat.le_refl _) (by decide) hb

theorem laid_maps : Maps (.all laidSys.vol) (filledOwn (crowdLo 524) 4096) 4096 laidRoot :=
  filledNode_maps laid_pages (by decide) (all_vis _) (fun _ hi => filledOwn_data (by decide) hi) filledOwn_page

theorem crowdName_other {e : Nat} : crowdName e ≠ [81] := by
  unfold crowdName
  split
  · decide
  split
  · decide
  · intro h
    exact absurd (congrArg List.length h) (by simp)

/-- Adding Q: the call adds a block, returns 0 and has not added the entry. -/
theorem addToDirectory_inserts_not :
    Sound ⟨crowdLo 524, 4096 * 1053⟩ laidSys.vol (filledOwn (crowdLo 524) 4096) [crowdLo 524 + 4096 * 525] ∧
    InodeAt ⟨crowdLo 524, 4096 * 1053⟩ (.all laidSys.vol) (filledOwn (crowdLo 524) 4096) [crowdLo 524 + 4096 * 525] 4096 laidRoot ∧
    Packed (.all laidSys.vol) laidRoot ∧ Beside ⟨crowdLo 524, 4096 * 1053⟩ 4096 4352 ∧ IsName [81] ∧
    (∀ e < laidRoot.size / 256, nameOf laidSys.vol.bytes laidRoot e ≠ [81]) ∧
    (∀ (s1 : Sys) (b : Nat) (n' : Node) (s' : Sys), s1.vol = laidSys.vol → addBlockToNode laidRoot 4096 s1 = some ((b, n'), s') →
      Puts laidRoot s1 b n' s') ∧
    ∃ s', addToDirectory 4096 4352 [81] laidSys = some (0, s') ∧
      ¬ ∃ own' ps' n', Inserted ⟨crowdLo 524, 4096 * 1053⟩ 4096 4352 [81] (.all laidSys.vol) (filledOwn (crowdLo 524) 4096) laidRoot
        (.all s'.vol) own' ps' n' := by
  have hsound : Sound ⟨crowdLo 524, 4096 * 1053⟩ laidSys.vol (filledOwn (crowdLo 524) 4096) [crowdLo 524 + 4096 * 525] :=
    crowd_sound laid_crowded laid_space.1 laid_maps
  have hnode : nodeAt laidSys.vol.bytes 4096 = laidRoot := crowd_root (by decide) laid_crowded.fits
  have hinode : InodeAt ⟨crowdLo 524, 4096 * 1053⟩ (.all laidSys.vol) (filledOwn (crowdLo 524) 4096) [crowdLo 524 + 4096 * 525] 4096 laidRoot :=
    hnode ▸ hsound.inode hsound.root.1 hsound.root.2.1
  have hbeside : Beside ⟨crowdLo 524, 4096 * 1053⟩ 4096 4352 := ⟨by decide, by decide, Or.inr (by decide)⟩
  have hname : IsName [81] := ⟨List.cons_ne_nil _ _, by decide, by simp⟩
  have h13 : laidRoot.dblIndirect = 0 := filledNode_root (k := 13) (by decide)
  have hpage : crowdLo 524 + 4096 * 527 ∉ [crowdLo 524 + 4096 * 525] := by decide
  have hword : word laidSys.vol.bytes (crowdLo 524 + 4096 * 527) = crowdLo 524 + 4096 * 526 :=
    laid_pages 527 0 (by decide) (by decide) (by decide)
  obtain ⟨s', e, hblocks, hbad⟩ : ∃ s', addToDirectory 4096 4352 [81] laidSys = some (0, s') ∧ _ :=
    addToDirectory_recycled hinode rfl h13 laid_space.2 hpage hword hbeside hname rfl
  refine ⟨hsound, hinode, laid_crowded.packed, hbeside, hname, fun e he h0 => ?_,
    fun s1 b n' s' hs1 hcall => hinode.recycled_puts rfl h13 laid_space.2 hpage hword hs1 hcall, s', e, ?_⟩
  · rw [laid_crowded.entries] at he
    rw [show nameOf laidSys.vol.bytes laidRoot e = crowdName e from (laid_crowded.names he).1] at h0
    exact crowdName_other h0
  · intro hex
    obtain ⟨own', ps', n', hins⟩ := hex
    rw [show nodeAt s'.vol.bytes 4096 = n' from hins.inode.node] at hblocks hbad
    have hown := hins.inode.maps.data 524 (by omega)
    have hhas := hins.inode.space.owned _ (Option.ne_none_iff_exists'.mpr ⟨_, hown⟩)
    exact hbad hhas.aligned

end TyrantFS

/-
  TyrantFS.Help.Insertion — `add_to_directory` on a packed directory.

  The new entry goes into the first slot of the last block whose first byte is 0; when
  the last block is full, `add_block_to_node` gives the directory another one, which is
  wiped first. `Inserted` is what a call that succeeds leaves, `addToDirectory_inserts`
  that it does, when the blocks that become pages of pages are zero before the call.
-/
import TyrantFS.Help.Ahead
import TyrantFS.Help.Limit
import TyrantFS.Help.Removal

namespace TyrantFS

open Lib Lib.PageTree

variable {z : Zone} {K K' : View} {own own' : Nat → Option Pos} {ps ps' : List Nat} {a b c e i t u left : Nat}
  {n n' p q : Node} {name : List UInt8} {temp : Mem}

/-! ## The slot -/

/-- The view with an entry for `addr` at `e`, whose name is in the buffer `temp`. -/
def View.addEntry (K : View) (e : Nat) (temp : Mem) (addr : Nat) : View := (K.store e 248 temp).storeWord (e + 248) addr

/-- What the clock answers next. -/
def Vol.now (v : Vol) : Nat := v.env.clock v.ticks % 2 ^ 64

theorem Vol.now_lt (v : Vol) : v.now < 2 ^ 64 := Nat.mod_lt _ (by decide)

/-- The inode with one more link, changed at `t`. -/
def Node.linked (n : Node) (t : Nat) : Node := { n with links := (n.links + 1) % 2 ^ 32, changeTime := t }

theorem linked_fits (h : n.Fits) {t : Nat} (ht : t < 2 ^ 64) : (n.linked t).Fits :=
  { h with links := Nat.mod_lt _ (by decide), changeTime := ht }

/-- What `add_addr` writes, once it has found the slot at `e`. -/
def View.insert (K : View) (e a c : Nat) (p q : Node) (temp : Mem) : View :=
  ((K.addEntry e temp c).tick.store a 208
    (p.stamp ((p.size + 256) % 2 ^ 64) K.vol.now).encode).store c 208
    (q.linked K.vol.now).encode

@[simp] theorem addEntry_size : (K.addEntry e temp c).vol.size = K.vol.size := by
  rw [View.addEntry, storeWord_size, store_size]

@[simp] theorem insert_size : (K.insert e a c p q temp).vol.size = K.vol.size := by
  rw [View.insert, store_size, store_size, tick_size, addEntry_size]

@[simp] theorem insert_bytes : (K.insert e a c p q temp).vol.bytes = put (put (putWord (put K.vol.bytes e 248 temp) (e + 248) c)
    a 208 (p.stamp ((p.size + 256) % 2 ^ 64) K.vol.now).encode) c 208
    (q.linked K.vol.now).encode := rfl

/-- The scan stops at the first slot whose first byte is 0. -/
theorem addAddrScan_runs (hb : IsBlock K.vol.size b) (hv : K.Sees b 4096) (ha : a + 256 ≤ K.vol.size)
    (hc : c + 256 ≤ K.vol.size) (hu : u ≤ t) (ht : t < 16) (hl : u + left = 16)
    (hused : ∀ j, u ≤ j → j < t → K.vol.bytes (b + 256 * j) ≠ 0) (hfree : K.vol.bytes (b + 256 * t) = 0) {x : UInt8} :
    Runs K (addAddrScan a b c p q temp left (256 * u) x) 0 (K.insert (b + 256 * t) a c p q temp) := by
  have hin := hb.inside
  induction left generalizing u x with
  | zero => omega
  | succ left ih =>
    unfold addAddrScan
    refine (readBlock_fits (o := 256 * u) rfl hb.pos (by omega) (by omega) (hv.mono (by omega) (by omega))).bind ?_
    simp only [clip_lt (Nat.zero_lt_one), Nat.add_zero]
    by_cases h : u = t
    · subst h
      rw [if_pos hfree]
      have hname : Runs K (writeBlock temp b (256 * u : Nat) 248) 248 (K.store (b + 256 * u) 248 temp) :=
        writeBlock_fits rfl (by omega) (by omega)
      have haddr : Runs (K.store (b + 256 * u) 248 temp) (writeAddr c b ((256 * u : Nat) + 256 - 8)) 8
          (K.addEntry (b + 256 * u) temp c) := by
        rw [View.addEntry, Nat.add_assoc]
        exact writeAddr_runs (o := 256 * u + 248) (by omega) (by lia) (by rw [store_size]; lia)
      have hp := commitInode_runs (K := (K.addEntry (b + 256 * u) temp c).tick) (a := a)
        (n := p.stamp ((p.size + 256) % 2 ^ 64) K.vol.now)
        (by rw [tick_size, addEntry_size]; omega)
      have hq := commitInode_runs (a := c) (K := (K.addEntry (b + 256 * u) temp c).tick.store a 208
          (p.stamp ((p.size + 256) % 2 ^ 64) K.vol.now).encode)
        (n := q.linked K.vol.now)
        (by rw [store_size, tick_size, addEntry_size]; omega)
      exact hname.bind (haddr.bind (getCurrentTimeInNsec_runs.bind (hp.bind (hq.bind Runs.pure))))
    · rw [if_neg (hused u (Nat.le_refl u) (by omega))]
      exact ih (u := u + 1) (by omega) (by omega) fun j h1 h2 => hused j (by omega) h2

/-! ## A directory with room -/

/-- What adding the entry `name`, `c` to the directory `n` should leave. -/
structure Inserted (z : Zone) (a c : Nat) (name : List UInt8) (K : View) (own : Nat → Option Pos) (n : Node)
    (K' : View) (own' : Nat → Option Pos) (ps' : List Nat) (n' : Node) : Prop where
  inode : InodeAt z K' own' ps' a n'
  packed : Packed K' n'
  size : n'.size = n.size + 256
  attrs : n'.mode = n.mode ∧ n'.links = n.links
  /-- The old entries stand in their slots. -/
  old : ∀ e < n.size / 256, ∀ k < 256, K'.vol.bytes (entryAt K'.vol.bytes n' e + k) = K.vol.bytes (entryAt K.vol.bytes n e + k)
  name : nameOf K'.vol.bytes n' (n.size / 256) = name
  child : childOf K'.vol.bytes n' (n.size / 256) = c
  links : nodeAt K'.vol.bytes c = (nodeAt K.vol.bytes c).linked (nodeAt K'.vol.bytes c).changeTime
  keeps : Keeps (fun x => Touch z (· = a) own x ∨ c ≤ x ∧ x < c + 256) K K'
  owner : ∀ b p, own b = some p → p.inode ≠ a → own' b = some p

theorem Inserted.entries (h : Inserted z a c name K own n K' own' ps' n') :
    entries K'.vol.bytes n' = entries K.vol.bytes n ++ [(name, c)] := by
  have hsz : n'.size / 256 = n.size / 256 + 1 := by
    have := h.size
    omega
  unfold TyrantFS.entries
  rw [hsz, List.range_succ, List.map_append, List.map_singleton, h.name, h.child]
  refine congrArg (· ++ _) (List.map_congr_left fun e he => ?_)
  have he' := List.mem_range.mp he
  rw [nameOf, childOf, entryName_congr (m := K.vol.bytes) (e := entryAt K.vol.bytes n e) fun k hk => h.old e he' k (by omega),
    entryAddr_congr fun k hk => h.old e he' k hk]
  rfl

theorem addAddr_runs (name : List UInt8) (h : InodeAt z K own ps a n) (hl : Laid K n) (hr : n.blocks = n.size / 4096 + 1) (hc : Beside z a c) :
    Runs K (addAddr a (addrOf K.vol.bytes n (n.blocks - 1)) c name) 0
      (K.insert (entryAt K.vol.bytes n (n.size / 256)) a c n (nodeAt K.vol.bytes c) (strBuf name K.vol.env.junk)) := by
  have hwhole := hl.whole
  have hlow := h.low
  have hhigh := h.high
  have hin := h.inside
  have hclow := hc.low
  have hchigh := hc.high
  have hlast : n.blocks - 1 < n.blocks := by omega
  have hb := h.block hlast
  have hat : ∀ {j}, j < 16 → entryAt K.vol.bytes n (16 * (n.blocks - 1) + j) = addrOf K.vol.bytes n (n.blocks - 1) + 256 * j := by
    intro j hj
    rw [entryAt, show (16 * (n.blocks - 1) + j) / 16 = n.blocks - 1 by omega, show (16 * (n.blocks - 1) + j) % 16 = j by omega]
  have hnew : n.size / 256 = 16 * (n.blocks - 1) + n.size / 256 % 16 := by omega
  have hscan : Runs K (addAddrScan a (addrOf K.vol.bytes n (n.blocks - 1)) c n (nodeAt K.vol.bytes c) (strBuf name K.vol.env.junk)
      16 (256 * 0) 0) 0 (K.insert (addrOf K.vol.bytes n (n.blocks - 1) + 256 * (n.size / 256 % 16)) a c n (nodeAt K.vol.bytes c)
        (strBuf name K.vol.env.junk)) := addAddrScan_runs hb (hl.sees _ hlast)
    (by omega) (by omega) (Nat.zero_le _) (by omega) (Nat.zero_add 16)
    (fun j _ hj => by
      rw [← hat (by omega)]
      exact hl.named _ (by omega))
    (by
      have := hl.rest (n.size / 256) (Nat.le_refl _) (by omega) 0 (by decide)
      rwa [hnew, hat (by omega), Nat.add_zero] at this)
  rw [← hat (by omega), ← hnew] at hscan
  unfold addAddr
  have hb0 := hb.pos
  rw [if_neg (by omega)]
  exact environ_runs.bind (h.fetch.bind
    ((fetchNode_runs (by omega) (by omega) (h.sees.mono (by omega) (by omega))).bind hscan))

/-- The entry, and the two inodes. -/
theorem insert_keeps : Keeps (fun x => e ≤ x ∧ x < e + 256 ∨ a ≤ x ∧ x < a + 208 ∨ c ≤ x ∧ x < c + 208) K (K.insert e a c p q temp) := by
  refine (Keeps.store fun x h1 h2 => Or.inl ⟨h1, by omega⟩).trans ((Keeps.storeWord fun x h1 h2 => Or.inl ⟨by omega, by lia⟩).trans
    (Keeps.tick.trans ((Keeps.store fun x h1 h2 => ?_).trans (Keeps.store fun x h1 h2 => ?_))))
  · exact Or.inr (Or.inl ⟨h1, h2⟩)
  · exact Or.inr (Or.inr ⟨h1, h2⟩)

/-- The map of the directory stays, and the free list. -/
theorem insert_map (h : MapAt z K own ps a n) (hb : e / 16 < n.blocks) (hc : Beside z a c) :
    MapAt z (K.insert (entryAt K.vol.bytes n e) a c p q temp) own ps a n ∧
      freeOrder (K.insert (entryAt K.vol.bytes n e) a c p q temp) ps = freeOrder K ps ∧
      ∀ i < n.blocks, addrOf (K.insert (entryAt K.vol.bytes n e) a c p q temp).vol.bytes n i = addrOf K.vol.bytes n i := by
  have hclow := hc.low
  have hchigh := hc.high
  have hlow := h.low
  have hhigh := h.high
  refine h.keep insert_keeps fun x hx => ?_
  rcases hx with hx | hx | hx
  · exact Or.inr ⟨_, hb, by unfold entryAt at hx; omega⟩
  · exact Or.inl (by omega)
  · exact Or.inl (by omega)

/-- The entry is the next one of the directory. -/
theorem insert_inserted (h : InodeAt z K own ps a n) (hl : Laid K n) (hr : n.blocks = n.size / 4096 + 1) (hc : Beside z a c)
    (hn : IsName name) : Inserted z a c name K own n
      (K.insert (entryAt K.vol.bytes n (n.size / 256)) a c n (nodeAt K.vol.bytes c) (strBuf name K.vol.env.junk)) own ps
      (n.stamp (n.size + 256) K.vol.now) := by
  have hwhole := hl.whole
  have hlow := h.low
  have hhigh := h.high
  have hin := h.inside
  have hclow := hc.low
  have hchigh := hc.high
  have hcap := hc.apart
  have hlt := K.vol.size_lt
  have hnow := K.vol.now_lt
  have hnb : n.size / 256 / 16 < n.blocks := by omega
  have hsz : n.size < 2 ^ 40 := by
    have := h.maps.cap
    unfold capacity at this
    omega
  have hEz : ∀ {e}, e / 16 < n.blocks → z.lo ≤ entryAt K.vol.bytes n e := fun {e} he => by
    have := (h.has he).low
    unfold entryAt
    omega
  have hmod : (n.size + 256) % 2 ^ 64 = n.size + 256 := by omega
  have hk : Keeps _ K (K.insert (entryAt K.vol.bytes n (n.size / 256)) a c n (nodeAt K.vol.bytes c) (strBuf name K.vol.env.junk)) :=
    insert_keeps
  obtain ⟨hm, ho, ha⟩ : MapAt z (K.insert _ a c n (nodeAt K.vol.bytes c) (strBuf name K.vol.env.junk)) own ps a n ∧ _ :=
    insert_map h.toMapAt hnb hc
  have hf' : (n.stamp (n.size + 256) K.vol.now).Fits := stamp_fits h.fits (by omega) hnow
  have hat : ∀ {e}, e / 16 < n.blocks → entryAt (K.insert (entryAt K.vol.bytes n (n.size / 256)) a c n
      (nodeAt K.vol.bytes c) (strBuf name K.vol.env.junk)).vol.bytes (n.stamp (n.size + 256) K.vol.now) e = entryAt K.vol.bytes n e := by
    intro e he
    rw [entryAt, SameMap.stamp.addr, ha _ he, entryAt]
  -- what stands at the other entries
  have hsame : ∀ {e k}, e / 16 < n.blocks → e ≠ n.size / 256 → k < 256 → (K.insert (entryAt K.vol.bytes n (n.size / 256)) a c n
      (nodeAt K.vol.bytes c) (strBuf name K.vol.env.junk)).vol.bytes (entryAt K.vol.bytes n e + k) =
      K.vol.bytes (entryAt K.vol.bytes n e + k) := by
    intro e k he hne hk'
    refine hk.bytes _ fun hx => ?_
    have h1 := h.toMapAt.entry_apart he hnb hne
    have h2 := hEz he
    omega
  have hEn := hEz hnb
  have hname : entryName (K.insert (entryAt K.vol.bytes n (n.size / 256)) a c n
      (nodeAt K.vol.bytes c) (strBuf name K.vol.env.junk)).vol.bytes (entryAt K.vol.bytes n (n.size / 256)) = name := by
    rw [insert_bytes, entryName_put_out (by omega), entryName_put_out (by omega), putWord, entryName_put_out (by omega)]
    exact entryName_put hn.short (Nat.le_refl _) hn.noNul
  have haddr : entryAddr (K.insert (entryAt K.vol.bytes n (n.size / 256)) a c n
      (nodeAt K.vol.bytes c) (strBuf name K.vol.env.junk)).vol.bytes (entryAt K.vol.bytes n (n.size / 256)) = c := by
    rw [insert_bytes, entryAddr_put_out (by omega), entryAddr_put_out (by omega)]
    exact entryAddr_putWord (by omega)
  have hnode : nodeAt (K.insert (entryAt K.vol.bytes n (n.size / 256)) a c n (nodeAt K.vol.bytes c)
      (strBuf name K.vol.env.junk)).vol.bytes c = (nodeAt K.vol.bytes c).linked K.vol.now := by
    rw [insert_bytes, nodeAt_put (linked_fits (nodeAt_fits _ _) hnow)]
  refine ⟨⟨hm.sameMap SameMap.stamp, ?_⟩, ⟨⟨?_, fun i hi => ?_, fun e he => ?_, fun e h1 h2 k hk' => ?_⟩, ?_⟩, rfl, ⟨rfl, rfl⟩,
    fun e he k hk' => ?_, ?_, ?_, ?_, hk.mono fun x hx => ?_, fun _ _ hb _ => hb⟩
  · rw [insert_bytes, nodeAt_put_out (by omega), hmod, nodeAt_put hf']
  · rw [stamp_size]
    omega
  · rw [SameMap.stamp.addr, ha i hi]
    exact hk.sees (hl.sees i hi)
  · rw [stamp_size] at he
    rw [hat (by omega)]
    by_cases hne : e = n.size / 256
    · rw [hne]
      intro h0
      exact hn.nonempty (hname.symm.trans (entryName_eq_nil.mpr h0))
    · have := hsame (e := e) (k := 0) (by omega) hne (by decide)
      rw [Nat.add_zero] at this
      rw [this]
      exact hl.named e (by omega)
  · rw [stamp_size] at h1
    rw [stamp_blocks] at h2
    rw [hat (by omega), hsame (by omega) (by omega) hk']
    exact hl.rest e (by omega) h2 k hk'
  · rw [stamp_size, stamp_blocks]
    omega
  · rw [hat (by omega), hsame (by omega) (by omega) hk']
  · rw [nameOf, hat hnb, hname]
  · rw [childOf, hat hnb, haddr]
  · rw [hnode]
    rfl
  · rcases hx with hx | hx | hx
    · exact Or.inl (h.toMapAt.touch rfl hnb (by unfold entryAt at hx; omega) (by unfold entryAt at hx; omega))
    · exact Or.inl (touch_slot rfl hx.1 (by omega))
    · exact Or.inr ⟨hx.1, by omega⟩

/-! ## A directory that grows first -/

/-- A change of the directory before the entry is added. -/
theorem Inserted.after {K1 : View} {own1 : Nat → Option Pos} {n1 : Node} (h : Inserted z a c name K1 own1 n1 K' own' ps' n')
    (hcf : Confined z (· = a) K own K1 own1) (hc : Beside z a c)
    (hold : ∀ e < n.size / 256, ∀ k < 256, K1.vol.bytes (entryAt K1.vol.bytes n1 e + k) = K.vol.bytes (entryAt K.vol.bytes n e + k))
    (hs : n1.size = n.size) (ha : n1.mode = n.mode ∧ n1.links = n.links) : Inserted z a c name K own n K' own' ps' n' := by
  have hnode : nodeAt K1.vol.bytes c = nodeAt K.vol.bytes c := nodeAt_congr fun k hk =>
    hcf.slot hc.low hc.high (fun x hx => hx ▸ hc.apart.symm) (by omega) (by omega)
  refine ⟨h.inode, h.packed, by rw [h.size, hs], ⟨h.attrs.1.trans ha.1, h.attrs.2.trans ha.2⟩, fun e he k hk => ?_, hs ▸ h.name,
    hs ▸ h.child, ?_, ?_, fun b p hb hp => h.owner b p (hcf.owner b p hb hp) hp⟩
  · rw [h.old e (by rwa [hs]) k hk]
    exact hold e he k hk
  · rw [← hnode]
    exact h.links
  · exact (hcf.keeps.mono fun x hx => Or.inl hx).trans (h.keeps.mono fun x hx => hx.imp_left fun hx => hx.back hcf)

/-- The new block is wiped. -/
theorem Added.wiped {K1 : View} {own1 : Nat → Option Pos} {ps1 : List Nat} {r : Nat × Node}
    (hadd : Added z a K own ps n r K1 own1 ps1) (h : InodeAt z K own ps a n) (hb : r.1 ≠ 0) :
    MapAt z (K1.store r.1 4096 zeros) own1 ps1 a r.2 ∧ freeOrder (K1.store r.1 4096 zeros) ps1 = freeOrder K1 ps1 ∧
      ∀ i < r.2.blocks, addrOf (K1.store r.1 4096 zeros).vol.bytes r.2 i = addrOf K1.vol.bytes r.2 i := by
  have hblocks := hadd.blocks hb
  have hm1 : MapAt z K1 own1 ps1 a r.2 := ⟨hadd.space, h.low, h.high, by rw [hadd.keeps.size]; exact h.inside,
    hadd.keeps.sees h.sees, hadd.maps⟩
  have hk : Keeps (fun x => r.1 ≤ x ∧ x < r.1 + 4096) K1 (K1.store r.1 4096 zeros) := Keeps.store fun x h1 h2 => ⟨h1, h2⟩
  exact hm1.keep hk fun x hx => Or.inr ⟨n.blocks, by omega, by rw [hadd.entered hb]; exact hx⟩

/-- The block that `add_block_to_node` added, wiped, has room for the entry. -/
theorem Added.room {K1 : View} {own1 : Nat → Option Pos} {ps1 : List Nat} {r : Nat × Node}
    (hadd : Added z a K own ps n r K1 own1 ps1) (h : InodeAt z K own ps a n) (hp : Packed K n) (hm : n.size % 4096 = 0)
    (hb : r.1 ≠ 0) :
    InodeAt z (K1.store r.1 4096 zeros) own1 ps1 a r.2 ∧ Laid (K1.store r.1 4096 zeros) r.2 ∧
      addrOf (K1.store r.1 4096 zeros).vol.bytes r.2 n.blocks = r.1 ∧
      Confined z (· = a) K own (K1.store r.1 4096 zeros) own1 ∧
      ∀ e < n.size / 256, ∀ k < 256, (K1.store r.1 4096 zeros).vol.bytes
        (entryAt (K1.store r.1 4096 zeros).vol.bytes r.2 e + k) = K.vol.bytes (entryAt K.vol.bytes n e + k) := by
  have hblocks := hadd.blocks hb
  have hent := hadd.entered hb
  have hsize : r.2.size = n.size := by rw [hadd.attrs]; rfl
  have hceil := hp.ceil
  have hfree := h.space.free _ (hadd.wasFree hb)
  have hk : Keeps (fun x => r.1 ≤ x ∧ x < r.1 + 4096) K1 (K1.store r.1 4096 zeros) := Keeps.store fun x h1 h2 => ⟨h1, h2⟩
  obtain ⟨hm2, ho2, ha2⟩ := hadd.wiped h hb
  have hnode : nodeAt (K1.store r.1 4096 zeros).vol.bytes a = r.2 := by
    have hlow := hfree.2.low
    have hhigh := h.high
    rw [store_bytes, nodeAt_put_out (by omega)]
    exact hadd.onDisk.resolve_right fun hx => hb hx.1
  have haddr : ∀ i < n.blocks, addrOf (K1.store r.1 4096 zeros).vol.bytes r.2 i = addrOf K.vol.bytes n i := fun i hi =>
    (ha2 i (by omega)).trans (hadd.addr i hi)
  have hbytes : ∀ i < n.blocks, ∀ x, addrOf K.vol.bytes n i ≤ x → x < addrOf K.vol.bytes n i + 4096 →
      (K1.store r.1 4096 zeros).vol.bytes x = K.vol.bytes x := by
    intro i hi x h1 h2
    have hown := h.maps.data i hi
    have hap := (h.has hi).apart hfree.2 fun e => h.space.owned_notFree hown (e ▸ hadd.wasFree hb)
    rw [store_bytes, put_out (by omega)]
    exact hadd.keeps.bytes x (h.growByte_data hi h1 h2)
  refine ⟨⟨hm2, hnode⟩, ⟨?_, fun i hi => ?_, fun e he h0 => ?_, fun e h1 h2 k hk' => ?_⟩, ?_, ?_, fun e he k hk' => ?_⟩
  · rw [hsize]
    exact hp.whole
  · by_cases hi' : i < n.blocks
    · rw [haddr i hi']
      exact hk.sees (hadd.keeps.sees (hp.sees i hi'))
    · obtain rfl : i = n.blocks := by omega
      rw [ha2 _ hi, hent]
      exact fun k hk' => Or.inr ⟨by omega, by omega⟩
  · have hlt := hp.lt (hsize ▸ he)
    rw [entryAt, haddr _ hlt, hbytes _ hlt _ (by omega) (by omega)] at h0
    exact hp.named e (hsize ▸ he) h0
  · rw [hsize] at h1
    rw [entryAt, show e / 16 = n.blocks by omega, ha2 _ (by omega), hent, store_bytes, put_in (by omega) (by omega)]
    rfl
  · rw [ha2 _ (by omega), hent]
  · have hown := hadd.maps.data n.blocks (by omega)
    rw [hent] at hown
    exact (hadd.confined (A := (· = a)) h.space rfl).trans (Confined.bytes hk fun x hx =>
      touch_owned (hadd.space.owned _ (by simp [hown])) hown rfl hx.1 hx.2)
  · have hlt := hp.lt he
    rw [entryAt, haddr _ hlt, hbytes _ hlt _ (by omega) (by omega), entryAt]

/-! ## `add_to_directory` -/

/-- `check_block` finds the new entry in the last block. -/
theorem Inserted.found (h : Inserted z a c name K own n K' own' ps' n') (hnew : ∀ e < n.size / 256, nameOf K.vol.bytes n e ≠ name) :
    checkBlock (fun k => K'.vol.bytes (addrOf K'.vol.bytes n' (n'.blocks - 1) + k)) name = c := by
  have hs := h.size
  have hw := h.packed.whole
  have hc := h.packed.ceil
  have hlast : n.size / 256 = 16 * (n'.blocks - 1) + n.size / 256 % 16 := by omega
  have hold : ∀ e < n.size / 256, nameOf K'.vol.bytes n' e ≠ name := fun e he => by
    rw [nameOf, entryName_congr fun k hk => h.old e he k (by omega)]
    exact hnew e he
  have hfirst : checkBlock (fun k => K'.vol.bytes (addrOf K'.vol.bytes n' (n'.blocks - 1) + k)) name = _ :=
    checkBlock_first (t := n.size / 256 % 16) (Nat.mod_lt _ (by decide)) (fun j hj => ?_) ?_
  · rw [hfirst, slot_addr (Nat.mod_lt _ (by decide)), ← hlast, h.child]
  · rw [slot_name (by omega)]
    exact hold _ (by omega)
  · rw [slot_name (Nat.mod_lt _ (by decide)), ← hlast, h.name]

section
variable {s s' : Sys}

/-- With room in the last block. -/
theorem addToDirectory_room (name : List UInt8) (h : InodeAt z K own ps a n) (hp : Packed K n) (hc : Beside z a c) (hm : n.size % 4096 ≠ 0) :
    Runs K (addToDirectory a c name) 0
      (K.insert (entryAt K.vol.bytes n (n.size / 256)) a c n (nodeAt K.vol.bytes c) (strBuf name K.vol.env.junk)) := by
  have hceil := hp.ceil
  have hwhole := hp.whole
  have hlow := h.low
  have hhigh := h.high
  have hin := h.inside
  have hclow := hc.low
  have hchigh := hc.high
  have hlt := h.fits.blocks
  have hu : u64 ((n.blocks : Int) - 1) = n.blocks - 1 := by
    rw [show (n.blocks : Int) - 1 = (n.blocks - 1 : Nat) by omega, u64_ofNat (by omega)]
  unfold addToDirectory
  rw [if_neg (by omega)]
  refine h.fetch.bind ((fetchNode_runs (by omega) (by omega) (h.sees.mono (by omega) (by omega))).bind ?_)
  rw [if_neg hm, hu]
  exact (h.get (by omega)).bind (addAddr_runs name h hp.toLaid (by omega) hc)

/-- With a full last block: the outcome hangs on `add_block_to_node`. -/
theorem addToDirectory_extends (h : InodeAt z K own ps a n) (hp : Packed K n) (hc : Beside z a c) (hn : IsName name)
    (hm : n.size % 4096 = 0) (hg : Ends K (addBlockToNode n a) (Grown z a K own ps n)) :
    Ends K (addToDirectory a c name) fun r K' =>
      (r = 0 ∧ ∃ own' ps' n', Inserted z a c name K own n K' own' ps' n' ∧
          n' = (n.withMap n').stamp n'.size n'.changeTime ∧
          ∃ K1 q, q.1 ≠ 0 ∧ Added z a K own ps n q K1 own' ps' ∧ SameMap q.2 n' ∧ freeOrder K' ps' = freeOrder K1 ps' ∧
            ∀ i < n'.blocks, addrOf K'.vol.bytes n' i = addrOf K1.vol.bytes q.2 i) ∨
        r = -1 ∧ ∃ q, q.1 = 0 ∧ Grown z a K own ps n q K' := by
  have hlow := h.low
  have hhigh := h.high
  have hin := h.inside
  have hclow := hc.low
  have hchigh := hc.high
  have hceil := hp.ceil
  have hwhole := hp.whole
  obtain ⟨r, K1, hr, hgr⟩ := hg
  unfold addToDirectory
  rw [if_neg (by omega)]
  refine h.fetch.then ((fetchNode_runs (by omega) (by omega) (h.sees.mono (by omega) (by omega))).then ?_)
  rw [if_pos hm]
  refine hr.then ?_
  by_cases hb : r.1 = 0
  · simp only [hb, if_true]
    exact Ends.pure (Or.inr ⟨rfl, r, hb, hgr⟩)
  simp only [hb, if_false]
  obtain ⟨own1, ps1, hadd⟩ := hgr
  obtain ⟨hi, hl, haddr, hcf, hold⟩ := hadd.room h hp hm hb
  have hblocks := hadd.blocks hb
  have hsize : r.2.size = n.size := by rw [hadd.attrs]; rfl
  have hblkin := (h.space.block (h.space.free _ (hadd.wasFree hb)).2).inside
  have hwipe : Runs K1 (writeBlock zeros r.1 0 4096) 4096 (K1.store r.1 4096 zeros) :=
    writeBlock_fits (o := 0) rfl (by omega) (by rw [hadd.keeps.size]; omega)
  have hrun := addAddr_runs name hi hl (by omega) hc
  rw [show r.2.blocks - 1 = n.blocks by omega, haddr] at hrun
  have hins := (insert_inserted hi hl (by omega) hc hn).after hcf hc hold hsize (by rw [hadd.attrs]; exact ⟨rfl, rfl⟩)
  obtain ⟨-, hord, hkept⟩ : MapAt z ((K1.store r.1 4096 zeros).insert _ a c r.2 (nodeAt (K1.store r.1 4096 zeros).vol.bytes c)
      (strBuf name (K1.store r.1 4096 zeros).vol.env.junk)) own1 ps1 a r.2 ∧ _ :=
    insert_map hi.toMapAt (show r.2.size / 256 / 16 < r.2.blocks by omega) hc
  obtain ⟨-, hord1, hkept1⟩ := hadd.wiped h hb
  refine (hwipe.bind hrun).ends (Or.inl ⟨rfl, _, _, _, hins, ?_, K1, r, hb, hadd, SameMap.stamp, hord.trans hord1, fun i hi => ?_⟩)
  · rw [hadd.attrs]
    rfl
  · exact SameMap.stamp.addr.trans ((hkept i hi).trans (hkept1 i hi))

theorem addToDirectory_grow (h : InodeAt z K own ps a n) (hp : Packed K n) (hc : Beside z a c) (hn : IsName name)
    (hm : n.size % 4096 = 0) (hg : Ends K (addBlockToNode n a) (Grown z a K own ps n)) :
    Ends K (addToDirectory a c name) fun r K' =>
      (r = 0 ∧ ∃ own' ps' n', Inserted z a c name K own n K' own' ps' n') ∨
        r = -1 ∧ ∃ q, q.1 = 0 ∧ Grown z a K own ps n q K' := by
  obtain ⟨r, K', hrun, hor⟩ := addToDirectory_extends h hp hc hn hm hg
  exact ⟨r, K', hrun, hor.imp_left fun ⟨h0, own', ps', n', hins, _⟩ => ⟨h0, own', ps', n', hins⟩⟩

/-- At the limit of the map, and with one free block at most, no block is added. -/
theorem addToDirectory_full (h : InodeAt z (.all s.vol) own ps a n) (hc : Beside z a c) (hm : n.size % 4096 = 0)
    (hcap : capacity ≤ n.blocks) (hfew : (freeOrder (.all s.vol) ps).length ≤ 1) : addToDirectory a c name s ≠ some (0, s') := by
  intro hret
  have hlow := h.low
  have hin := h.inside
  have hclow := hc.low
  have hchigh := hc.high
  unfold addToDirectory at hret
  rw [if_neg (by omega)] at hret
  obtain ⟨s1, hs1, hret⟩ := h.fetch.then_some (holds_all.mpr rfl) hret
  obtain ⟨s2, hs2, hret⟩ := (fetchNode_runs (a := c) (by omega) (by omega) (h.sees.mono (by omega) (by omega))).then_some hs1 hret
  rw [if_pos hm] at hret
  have hv : s2.vol = s.vol := holds_all.mp hs2
  rw [← hv] at h hfew
  obtain ⟨s3, hadd, -⟩ := (h.toMapAt.file h.fits).base.refuses hcap (Or.inl hfew)
  rw [bind_eq hadd] at hret
  cases hret

/-- A call that succeeds adds the entry, when it finds nothing in the pages it takes. -/
theorem addToDirectory_inserts (h : InodeAt z (.all s.vol) own ps a n) (hp : Packed (.all s.vol) n) (hc : Beside z a c)
    (hn : IsName name) (hnew : ∀ e < n.size / 256, nameOf s.vol.bytes n e ≠ name)
    (clear : n.size % 4096 = 0 → GrowsClear (.all s.vol) ps n 1) (hret : addToDirectory a c name s = some (0, s')) :
    ∃ own' ps' n', Inserted z a c name (.all s.vol) own n (.all s'.vol) own' ps' n' ∧
      checkBlock (fun k => s'.vol.bytes (addrOf s'.vol.bytes n' (n'.blocks - 1) + k)) name = c := by
  have hceil := hp.ceil
  suffices hins : ∃ own' ps' n', Inserted z a c name (.all s.vol) own n (.all s'.vol) own' ps' n' by
    obtain ⟨own', ps', n', hi⟩ := hins
    exact ⟨own', ps', n', hi, hi.found hnew⟩
  by_cases hm : n.size % 4096 = 0
  · -- the directory grows
    have hz := clear hm
    by_cases hcap : n.blocks < capacity
    · obtain ⟨r, K', hrun, hor⟩ := addToDirectory_grow h hp hc hn hm
        (addBlockToNode_runs h.space h.maps h.fits h.low h.high hcap (hz.first hcap))
      obtain ⟨s1, hs1, hK⟩ := hrun.exec (holds_all.mpr rfl)
      obtain ⟨rfl, rfl⟩ := Prod.mk.inj (Option.some.inj (hs1.symm.trans hret))
      rcases hor with ⟨-, own', ps', n', hins⟩ | ⟨h0, -⟩
      · rw [hins.keeps.all hK] at hins
        exact ⟨own', ps', n', hins⟩
      · cases h0
    · have hfew := hz.room.resolve_left (by omega)
      rw [show capacity - n.blocks = 0 by omega] at hfew
      exact absurd hret (addToDirectory_full h hc hm (Nat.le_of_not_lt hcap) hfew)
  · obtain ⟨s1, hs1, hK⟩ := (addToDirectory_room name h hp hc hm).exec (holds_all.mpr rfl)
    obtain ⟨-, rfl⟩ := Prod.mk.inj (Option.some.inj (hs1.symm.trans hret))
    have hins := insert_inserted h hp.toLaid (by omega) hc hn
    rw [hins.keeps.all hK] at hins
    exact ⟨_, _, _, hins⟩

/-- Adding Q to A, ..., P takes the free block. -/
theorem addToDirectory_inserts_seventeenth : ∃ s' own' ps' n',
    addToDirectory 4096 5376 [81] (lettersSys 4 (by decide) 12288 16) = some (0, s') ∧
      Inserted ⟨8192, 4096 * 4⟩ 4096 5376 [81] (.all (lettersSys 4 (by decide) 12288 16).vol) lettersOwn (lettersDir 16)
        (.all s'.vol) own' ps' n' ∧
      checkBlock (fun k => s'.vol.bytes (addrOf s'.vol.bytes n' (n'.blocks - 1) + k)) [81] = 5376 := by
  obtain ⟨hsp, hfree⟩ : Space ⟨8192, 4096 * 4⟩ (.all (lettersSys 4 (by decide) 12288 16).vol) lettersOwn [12288] ∧
      freeOrder (.all (lettersSys 4 (by decide) 12288 16).vol) [12288] = [12288] :=
    image_space_one ⟨by decide, by decide, by decide⟩ (fun k hk => by
      have : dirBlocks (letters 16) (256 * (16 + k / 256) + k % 256) = 0 := dirBlocks_rest (by simp) (by omega)
      rwa [show 256 * (16 + k / 256) + k % 256 = 12288 + k - 8192 by omega] at this)
    (lettersOwn_has (by decide)) rfl
  obtain ⟨hi, hp, hs, hchild⟩ := letters_wf hsp (by decide) (by decide) (by decide)
  have hclear : PagesClear (.all (lettersSys 4 (by decide) 12288 16).vol) [12288] (lettersDir 16) := fun s hs =>
    absurd hs (Nat.not_lt_zero s)
  have hname : IsName [81] := ⟨List.cons_ne_nil _ _, by decide, by simp⟩
  have hbeside : Beside ⟨8192, 4096 * 4⟩ 4096 5376 :=
    ⟨by decide, show 5376 + 256 ≤ 8192 by decide, Or.inr (show 4096 + 256 ≤ 5376 by decide)⟩
  have hgrow := addBlockToNode_runs hi.space hi.maps hi.fits hi.low hi.high (by decide) hclear
  obtain ⟨r, K', hr, hout⟩ := addToDirectory_grow hi hp hbeside hname (by rw [hs]) hgrow
  obtain ⟨s', hs', -⟩ := hr.exec (holds_all.mpr rfl)
  have hr0 : r = 0 := by
    rcases hout with ⟨h0, -⟩ | ⟨-, q, hq, own', ps', hadd⟩
    · exact h0
    · have hlen : (freeOrder (.all (lettersSys 4 (by decide) 12288 16).vol) [12288]).length = 1 := congrArg List.length hfree
      have hlt := (hadd.failed hq).2
      rw [hlen] at hlt
      exact absurd hlt (Nat.lt_irrefl 1)
  subst hr0
  obtain ⟨own', ps', n', hins⟩ := addToDirectory_inserts hi hp hbeside hname (fun e he => by
    rw [hs] at he
    rw [(hchild e (by omega)).1]
    intro h0
    have := congrArg UInt8.toNat (List.cons.inj h0).1
    simp at this
    omega) (fun _ => .low (by decide)) hs'
  exact ⟨s', own', ps', n', hs', hins⟩

end

end TyrantFS

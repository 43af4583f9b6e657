/-
  TyrantFS.Help.Renaming — `rename_from_parent` on a packed directory.

  The name in the first entry that leads to the inode is overwritten; whether another
  entry has the new name is not looked at. `Renamed` is what is left.
-/
import TyrantFS.Help.Insertion
import TyrantFS.Help.Walk

namespace TyrantFS

open Lib Lib.PageTree

variable {z : Zone} {K K' : View} {own : Nat → Option Pos} {ps : List Nat} {a c e f : Nat} {n n' : Node} {name : List UInt8}

/-- Entry `e` of the directory `n` has got the name. -/
structure Renamed (z : Zone) (a e : Nat) (name : List UInt8) (K : View) (own : Nat → Option Pos) (ps : List Nat) (n : Node)
    (K' : View) (n' : Node) : Prop where
  inode : InodeAt z K' own ps a n'
  same : SameMap n n'
  size : n'.size = n.size
  mode : n'.mode = n.mode
  order : freeOrder K' ps = freeOrder K ps
  confined : Confined z (· = a) K own K' own
  names : ∀ f < n.size / 256, nameOf K'.vol.bytes n' f = if f = e then name else nameOf K.vol.bytes n f
  children : ∀ f < n.size / 256, childOf K'.vol.bytes n' f = childOf K.vol.bytes n f

/-- The two stores over the name. -/
def View.rename (K : View) (b : Nat) (name : List UInt8) : View :=
  (K.store b 248 zeros).store b name.length (strBuf name zeros)

theorem rename_keeps (hn : IsName name) {b : Nat} : Keeps (fun x => b ≤ x ∧ x < b + 248) K (K.rename b name) := by
  have hshort := hn.short
  exact (Keeps.store fun x h1 h2 => ⟨h1, h2⟩).trans (Keeps.store fun x h1 h2 => ⟨h1, by omega⟩)

theorem rename_name (hn : IsName name) {b : Nat} : entryName (K.rename b name).vol.bytes b = name := by
  have hshort := hn.short
  refine cstr_of_prefix hshort hn.noNul (fun k hk => ?_) ?_
  · rw [View.rename, store_bytes, put_in (by omega) (by omega), Nat.add_sub_cancel_left, strBuf_lt hk]
  · rw [View.rename, store_bytes, put_out (by omega), store_bytes, put_in (by omega) (by omega)]
    rfl

theorem renameEntry_stamps (h : InodeAt z K own ps a n) (hp : Packed K n) (he : e < n.size / 256) (hn : IsName name) :
    ∃ K' t, Runs K (renameEntry a n name (addrOf K.vol.bytes n (e / 16)) (e / 16) (256 * (e % 16))) 0 K' ∧
      Renamed z a e name K own ps n K' (n.stamp n.size t) ∧
      Keeps (fun x => entryAt K.vol.bytes n e ≤ x ∧ x < entryAt K.vol.bytes n e + 248 ∨ a ≤ x ∧ x < a + 208) K K' := by
  have hshort := hn.short
  have heb := hp.lt he
  have hE : entryAt K.vol.bytes n e = addrOf K.vol.bytes n (e / 16) + 256 * (e % 16) := rfl
  obtain ⟨hE0, hEin⟩ := h.entry_in heb
  have hpos := (h.block heb).pos
  -- the stores
  have hk1 : Keeps (EntryByte K.vol.bytes n e e) K (K.rename (entryAt K.vol.bytes n e) name) :=
    (rename_keeps hn).mono fun x hx => Or.inl (by omega)
  obtain ⟨hm1, ho1, ha1⟩ := h.toMapAt.keep hk1 fun x hx => Or.inr (hx.block heb heb)
  have hclear : Runs K (writeBlock zeros (addrOf K.vol.bytes n (e / 16)) (256 * (e % 16) : Nat) 248) 248
      (K.store (entryAt K.vol.bytes n e) 248 zeros) := writeBlock_fits rfl (by omega) (by omega)
  have hname : Runs (K.store (entryAt K.vol.bytes n e) 248 zeros)
      (writeBlock (strBuf name zeros) (addrOf K.vol.bytes n (e / 16)) (256 * (e % 16) : Nat) name.length) name.length
      (K.rename (entryAt K.vol.bytes n e) name) := writeBlock_fits rfl (by omega) (by rw [store_size]; omega)
  have hsee : (K.rename (entryAt K.vol.bytes n e) name).Sees (addrOf K.vol.bytes n (e / 16) + 256 * (e % 16)) 248 :=
    (((hp.sees _ heb).mono (by omega) (by omega)).store).store
  have hread := readBlock_fits (K := K.rename (entryAt K.vol.bytes n e) name) (g := zeros) (n := 248) (o := 256 * (e % 16))
    (b := addrOf K.vol.bytes n (e / 16)) rfl hpos (by omega) (by rw [View.rename, store_size, store_size]; omega) hsee
  -- the times
  obtain ⟨hm2, ho2⟩ := hm1.tick
  generalize ht : (K.rename (entryAt K.vol.bytes n e) name).vol.env.clock (K.rename (entryAt K.vol.bytes n e) name).vol.ticks % 2 ^ 64 = t
  have hlt : t < 2 ^ 64 := by omega
  obtain ⟨hr3, hi3, ho3⟩ := (hm2.sameMap (SameMap.stamp (s := n.size) (t := t))).commit (stamp_fits h.fits h.fits.size hlt)
  have hk3 : Keeps (fun x => a ≤ x ∧ x < a + 208) (K.rename (entryAt K.vol.bytes n e) name)
      ((K.rename (entryAt K.vol.bytes n e) name).tick.store a 208 (n.stamp n.size t).encode) :=
    Keeps.tick.trans (Keeps.store fun x h1 h2 => ⟨h1, h2⟩)
  have hhigh := h.high
  obtain ⟨-, -, ha3⟩ := hm1.keep hk3 fun x hx => Or.inl (by have := h.low; omega)
  -- the entries
  have haddr : ∀ i < n.blocks, addrOf ((K.rename (entryAt K.vol.bytes n e) name).tick.store a 208 (n.stamp n.size t).encode).vol.bytes
      (n.stamp n.size t) i = addrOf K.vol.bytes n i := fun i hi => by
    rw [SameMap.stamp.addr, ha3 i hi, ha1 i hi]
  have hat : ∀ f < n.size / 256, entryAt ((K.rename (entryAt K.vol.bytes n e) name).tick.store a 208 (n.stamp n.size t).encode).vol.bytes
      (n.stamp n.size t) f = entryAt K.vol.bytes n f := fun f hf => entryAt_congr (haddr _ (hp.lt hf))
  have hbyte : ∀ f < n.size / 256, ∀ k < 256, ((K.rename (entryAt K.vol.bytes n e) name).tick.store a 208
      (n.stamp n.size t).encode).vol.bytes (entryAt K.vol.bytes n f + k) =
      (K.rename (entryAt K.vol.bytes n e) name).vol.bytes (entryAt K.vol.bytes n f + k) := by
    intro f hf k hk
    refine hk3.bytes _ fun hx => ?_
    have hlow := (h.has (hp.lt hf)).low
    unfold entryAt at hx
    omega
  have hother : ∀ f < n.size / 256, f ≠ e → ∀ k < 256, (K.rename (entryAt K.vol.bytes n e) name).vol.bytes
      (entryAt K.vol.bytes n f + k) = K.vol.bytes (entryAt K.vol.bytes n f + k) := by
    intro f hf hfe k hk
    refine (rename_keeps hn).bytes _ fun hx => ?_
    have := h.entry_apart (hp.lt hf) heb hfe
    omega
  refine ⟨_, t, ?_, ⟨hi3, SameMap.stamp, rfl, rfl, ?_, ?_, fun f hf => ?_, fun f hf => ?_⟩,
    ((rename_keeps hn).mono fun x => Or.inl).trans (hk3.mono fun x => Or.inr)⟩
  · unfold renameEntry
    rw [if_neg (by omega)]
    refine hclear.bind (hname.bind (hread.bind (getCurrentTimeInNsec_runs.bind ?_)))
    rw [ht]
    exact hr3.bind Runs.pure
  · rw [ho3, ho2, ho1]
  · refine (Confined.bytes hk1 fun x hx => ?_).trans (Confined.bytes hk3 fun x hx => touch_slot rfl hx.1 (by omega))
    obtain ⟨i, hi, h1, h2⟩ := hx.block heb heb
    exact h.touch rfl hi h1 h2
  · rw [nameOf, hat f hf]
    split
    · rename_i hfe
      subst hfe
      exact (entryName_congr fun k hk => hbyte f hf k (by omega)).trans (rename_name hn)
    · rename_i hfe
      exact entryName_congr fun k hk => (hbyte f hf k (by omega)).trans (hother f hf hfe k (by omega))
  · rw [childOf, hat f hf]
    by_cases hfe : f = e
    · subst hfe
      refine word_congr fun k hk => ?_
      rw [Nat.add_assoc, hbyte f hf _ (by omega)]
      exact (rename_keeps hn).bytes _ (by omega)
    · exact entryAddr_congr fun k hk => (hbyte f hf k hk).trans (hother f hf hfe k hk)

/-- The first entry of the inode that is seen gets the name, or there is none. -/
theorem renameFromParent_stamps (h : InodeAt z K own ps a n) (hp : Packed K n) (hc : c ≠ 0) (hn : IsName name) :
    (∀ f < n.size / 256, Seen f → childOf K.vol.bytes n f ≠ c) ∧ Runs K (renameFromParent a c name) (-1) K ∨
      ∃ e K' t, e < n.size / 256 ∧ childOf K.vol.bytes n e = c ∧ Runs K (renameFromParent a c name) 0 K' ∧
        Renamed z a e name K own ps n K' (n.stamp n.size t) ∧
        Keeps (fun x => entryAt K.vol.bytes n e ≤ x ∧ x < entryAt K.vol.bytes n e + 248 ∨ a ≤ x ∧ x < a + 208) K K' := by
  have hlow := h.low
  unfold renameFromParent
  rw [if_neg (by omega), if_neg hc]
  by_cases hex : ∃ f, f < n.size / 256 ∧ Seen f ∧ childOf K.vol.bytes n f = c
  · obtain ⟨he, hs, hchild⟩ := Nat.find_spec hex
    obtain ⟨K', t, hr, hren, hk⟩ := renameEntry_stamps h hp he hn
    refine Or.inr ⟨Nat.find hex, K', t, he, hchild, ?_, hren, hk⟩
    refine h.fetch.bind (scanBlocks_some h.toMapAt hp hc he hs (Nat.zero_le _) hchild (fun f _ hf hseen hf' => ?_) (Nat.zero_add _) hr)
    exact Nat.find_min hex hf ⟨by omega, hseen, hf'⟩
  · have hno : ∀ f < n.size / 256, Seen f → childOf K.vol.bytes n f ≠ c := fun f hf hs hf' => hex ⟨f, hf, hs, hf'⟩
    exact Or.inl ⟨hno, h.fetch.bind (scanBlocks_none h.toMapAt hp hc (fun f _ => hno f) (Nat.zero_add _))⟩

theorem renameFromParent_cases (h : InodeAt z K own ps a n) (hp : Packed K n) (hc : c ≠ 0) (hn : IsName name) :
    (∀ f < n.size / 256, Seen f → childOf K.vol.bytes n f ≠ c) ∧ Runs K (renameFromParent a c name) (-1) K ∨
      ∃ e K' n', e < n.size / 256 ∧ childOf K.vol.bytes n e = c ∧ Runs K (renameFromParent a c name) 0 K' ∧
        Renamed z a e name K own ps n K' n' := by
  rcases renameFromParent_stamps h hp hc hn with hno | ⟨e, K', t, he, hc, hrun, hren, -⟩
  · exact Or.inl hno
  · exact Or.inr ⟨e, K', _, he, hc, hrun, hren⟩

end TyrantFS

/-
  TyrantFS.Help.Walk — the directories on the way of a path.

  `Walks`: from the inode `a` the names lead to `c`, through directories that satisfy
  `D`. That is all `find_path_node` depends on (`Walks.find`), and a change confined to
  inodes beside those directories keeps it (`Walks.confined`).
-/
import TyrantFS.Help.Lookup

namespace TyrantFS

open Lib Lib.PageTree

variable {z : Zone} {K K' : View} {own own' : Nat → Option Pos} {ps ps' : List Nat} {a c d e : Nat} {n : Node}
  {path name : List UInt8} {names : List (List UInt8)} {D E A : Nat → Prop}

inductive Walks (z : Zone) (K : View) (own : Nat → Option Pos) (ps : List Nat) (D : Nat → Prop) :
    Nat → List (List UInt8) → Nat → Prop where
  | nil {a : Nat} : Walks z K own ps D a [] a
  | cons {a c d : Nat} {n : Node} {name : List UInt8} {rest : List (List UInt8)} : InodeAt z K own ps a n → Packed K n → NamesDiffer K.vol.bytes n → D a → name ≠ [] →
      Near K.vol.bytes n name → lookup K.vol.bytes n name = c → c ≠ 0 → c + 256 ≤ z.lo → Walks z K own ps D c rest d →
      Walks z K own ps D a (name :: rest) d

theorem Walks.mono (h : Walks z K own ps D a names c) (hD : ∀ x, D x → E x) : Walks z K own ps E a names c := by
  induction h with
  | nil => exact .nil
  | cons hi hp hd hD' hne hnear hl hc0 hc _ ih => exact .cons hi hp hd (hD _ hD') hne hnear hl hc0 hc ih

theorem Walks.findLoop {tmp : Mem} (h : Walks z K own ps D a names c) :
    Runs K (findLoop names (nodeAt K.vol.bytes a) tmp a) c K := by
  induction h generalizing tmp with
  | nil => exact Runs.pure
  | cons hi hp hd _ hne hnear hl hc0 hc _ ih =>
    have hin := hi.inside
    rw [hi.node]
    exact findLoop_found hi hp hd hne hnear hl hc0 (by omega) (hi.sees.mono (by omega) (by omega)) fun tmp' => ih

theorem Walks.find (h : Walks z K own ps D K.vol.glob.rootNode (tokens path) c) (h0 : K.vol.glob.rootNode ≠ 0)
    (hs : K.vol.glob.rootNode + 208 ≤ K.vol.size) (hv : K.Sees K.vol.glob.rootNode 208) : Runs K (findPathNode path) c K := by
  unfold findPathNode
  refine globals_runs.bind ?_
  rw [if_neg h0]
  exact environ_runs.bind ((fetchInode_runs h0 hs hv).bind h.findLoop)

/-! ## After a change elsewhere -/

section
variable (ha : ∀ i < n.blocks, addrOf K'.vol.bytes n i = addrOf K.vol.bytes n i ∧
  ∀ k < 4096, K'.vol.bytes (addrOf K.vol.bytes n i + k) = K.vol.bytes (addrOf K.vol.bytes n i + k))

include ha

/-- The entries of a directory whose blocks are what they were. -/
theorem entry_kept (he : e / 16 < n.blocks) : entryAt K'.vol.bytes n e = entryAt K.vol.bytes n e ∧
    ∀ k < 256, K'.vol.bytes (entryAt K'.vol.bytes n e + k) = K.vol.bytes (entryAt K.vol.bytes n e + k) := by
  have hat : entryAt K'.vol.bytes n e = entryAt K.vol.bytes n e := by rw [entryAt, entryAt, (ha _ he).1]
  refine ⟨hat, fun k hk => ?_⟩
  rw [hat, entryAt, Nat.add_assoc]
  exact (ha _ he).2 _ (by omega)

theorem name_kept (he : e / 16 < n.blocks) : nameOf K'.vol.bytes n e = nameOf K.vol.bytes n e :=
  entryName_congr fun k hk => (entry_kept ha he).2 k (by omega)

theorem child_kept (he : e / 16 < n.blocks) : childOf K'.vol.bytes n e = childOf K.vol.bytes n e :=
  entryAddr_congr fun k hk => (entry_kept ha he).2 k hk

theorem Packed.kept (hp : Packed K n) (hv : ∀ x, K.vis x → K'.vis x) : Packed K' n := by
  refine { hp with sees := fun i hi x hx => ?_, named := fun e he => ?_, rest := fun e h1 h2 k hk => ?_ }
  · rw [(ha i hi).1]
    exact hv _ (hp.sees i hi x hx)
  · have := (entry_kept ha (hp.lt he)).2 0 (by decide)
    rw [Nat.add_zero, Nat.add_zero] at this
    rw [this]
    exact hp.named e he
  · rw [(entry_kept ha (by omega)).2 k hk]
    exact hp.rest e h1 h2 k hk

theorem NamesDiffer.kept (hp : Packed K n) (hd : NamesDiffer K.vol.bytes n) : NamesDiffer K'.vol.bytes n := by
  intro e f he hf h
  rw [name_kept ha (hp.lt he), name_kept ha (hp.lt hf)] at h
  exact hd e f he hf h

theorem lookup_kept (hp : Packed K n) : lookup K'.vol.bytes n name = lookup K.vol.bytes n name :=
  lookup_congr rfl fun _ he => ⟨name_kept ha (hp.lt he), child_kept ha (hp.lt he)⟩

theorem Near.kept (hp : Packed K n) (h : Near K.vol.bytes n name) : Near K'.vol.bytes n name := by
  rcases h with h | ⟨e, h1, h2, h3, h4⟩
  · exact Or.inl h
  · exact Or.inr ⟨e, h1, h2, (name_kept ha (hp.lt h2)).trans h3, by rwa [child_kept ha (hp.lt h2)]⟩

end

theorem Walks.confined (h : Walks z K own ps D a names d) (hc : Confined z A K own K' own') (hsp : Space z K' own' ps')
    (hD : ∀ a, D a → ∀ c, A c → Beside z a c) : Walks z K' own' ps' D a names d := by
  induction h with
  | nil => exact .nil
  | cons hi hp hd hD' hne hnear hl hc0 hch _ ih =>
    obtain ⟨hi', ha⟩ := hi.other hc hsp (hD _ hD')
    exact .cons hi' (hp.kept ha hc.keeps.vis) (hd.kept ha hp) hD' hne (hnear.kept ha hp) ((lookup_kept ha hp).trans hl) hc0 hch ih

end TyrantFS

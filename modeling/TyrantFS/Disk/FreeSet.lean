/-
  TyrantFS.Disk.FreeSet — the allocator refines a set of free blocks.

  The abstract machine holds a set. A client takes a block, gives back a block that is
  not in the set, or writes into such a block (`SetStep`). The device holds the set `F`
  when a well-formed free list starts in its superblock whose pages and listed blocks
  are `F` (`IsFree`); what clients may ask of it is `Req.Allowed`.

  Proved: every request a client may make is answered, and is a step of the set machine
  (`step_refines`); so every run of requests is a run of the set machine
  (`served_refines`), and `allocator_exact` puts the two together with what follows for
  the blocks handed out.
-/
import TyrantFS.Disk.Allocator
import Mathlib.Data.Set.Insert

namespace TyrantFS.FreeSet

open Lib Lib.PageChain

inductive Req where
  | alloc
  | free (b : Nat)
  /-- `write_block` into a client's block. -/
  | write (f : Mem) (b : Nat) (offset : Int) (n : Nat)

def Req.call (fd : Int) : Req → M Int
  | .alloc => do
    let b ← allocateBlock fd
    pure b
  | .free b => freeBlock fd b
  | .write f b offset n => writeBlock f b offset n

/-- Clients free, and write into, blocks of the device that are not free. -/
def Req.Allowed (size : Nat) (F : Set Nat) : Req → Prop
  | .alloc => True
  | .free b => IsBlock size b ∧ b ∉ F
  | .write _ b _ _ => IsBlock size b ∧ b ∉ F

inductive SetStep : Set Nat → Req → Int → Set Nat → Prop
  | empty : SetStep ∅ .alloc 0 ∅
  | take {F : Set Nat} {b : Nat} : b ∈ F → b ≠ 0 → SetStep F .alloc b (F \ {b})
  | free {F : Set Nat} {b : Nat} : b ∉ F → SetStep F (.free b) 0 (insert b F)
  | write {F : Set Nat} {f : Mem} {b : Nat} {offset : Int} {n : Nat} {x : Int} : SetStep F (.write f b offset n) x F

inductive SetRun : Set Nat → List (Req × Int) → Set Nat → Prop
  | nil {F : Set Nat} : SetRun F [] F
  | cons {F F1 F' : Set Nat} {r : Req} {x : Int} {t : List (Req × Int)} :
    SetStep F r x F1 → SetRun F1 t F' → SetRun F ((r, x) :: t) F'

/-- The device holds a well-formed free list, and `F` are its blocks. -/
def IsFree (s : Sys) (F : Set Nat) : Prop :=
  ∃ ps, FreeList (.all s.vol) ps ∧ F = {b | b ∈ freeOrder (.all s.vol) ps}

/-- A run of allowed requests with their results. -/
inductive Served (fd : Int) : Sys → List (Req × Int) → Sys → Prop
  | nil {s : Sys} : Served fd s [] s
  | cons {s s1 s' : Sys} {F : Set Nat} {r : Req} {x : Int} {t : List (Req × Int)} :
    IsFree s F → r.Allowed s.vol.size F → r.call fd s = some (x, s1) → Served fd s1 t s' → Served fd s ((r, x) :: t) s'

/-! ## The set machine -/

/-- A block that is not in the set enters it only by being freed. -/
theorem step_notMem {F F' : Set Nat} {r : Req} {x : Int} {b : Nat} (h : SetStep F r x F') (hb : b ∉ F)
    (hr : r ≠ .free b) : b ∉ F' := by
  cases h with
  | empty => exact hb
  | take _ _ => exact fun hm => hb hm.1
  | free _ =>
    intro hm
    rcases Set.mem_insert_iff.mp hm with rfl | hm
    · exact hr rfl
    · exact hb hm
  | write => exact hb

theorem run_notMem {F F' : Set Nat} {t : List (Req × Int)} {b : Nat} (h : SetRun F t F') (hb : b ∉ F)
    (ht : ∀ e ∈ t, e.1 ≠ .free b) : b ∉ F' := by
  induction h with
  | nil => exact hb
  | cons hs _ ih => exact ih (step_notMem hs hb (ht _ List.mem_cons_self)) fun e he => ht e (List.mem_cons_of_mem _ he)

theorem run_append {F F' : Set Nat} {t u : List (Req × Int)} (h : SetRun F (t ++ u) F') :
    ∃ F1, SetRun F t F1 ∧ SetRun F1 u F' := by
  induction t generalizing F with
  | nil => exact ⟨F, .nil, h⟩
  | cons e t ih =>
    cases h with
    | cons hs hr =>
      obtain ⟨F1, h1, h2⟩ := ih hr
      exact ⟨F1, .cons hs h1, h2⟩

theorem take_mem {F F' : Set Nat} {b : Nat} (h : SetStep F .alloc b F') (hb : b ≠ 0) : b ∈ F ∧ b ∉ F' := by
  generalize hx : (b : Int) = x at h
  cases h with
  | empty => omega
  | @take _ c hc _ =>
    obtain rfl : b = c := by omega
    exact ⟨hc, fun hm => hm.2 rfl⟩

/-- A block handed out twice was freed in between. -/
theorem run_once {F F' : Set Nat} {t u v : List (Req × Int)} {b : Nat} (hb : b ≠ 0)
    (h : SetRun F (t ++ (.alloc, (b : Int)) :: (u ++ (.alloc, (b : Int)) :: v)) F') : ∃ x, (.free b, x) ∈ u := by
  obtain ⟨F1, _, h1⟩ := run_append h
  cases h1 with
  | cons hs h2 =>
    obtain ⟨F3, h3, h4⟩ := run_append h2
    cases h4 with
    | cons hs' _ =>
      by_contra hc
      refine run_notMem h3 (take_mem hs hb).2 (fun e he hf => hc ⟨e.2, ?_⟩) (take_mem hs' hb).1
      rw [← hf]
      exact he

/-! ## The device -/

/-- A write into a block that is not free leaves the free list alone. -/
theorem FreeList.write {K : View} {ps : List Nat} {b a n : Nat} {f : Mem} (h : FreeList K ps) (hb : IsBlock K.vol.size b)
    (hn : b ∉ freeOrder K ps) (h1 : b ≤ a) (h2 : a + n ≤ b + 4096) :
    FreeList (K.store a n f) ps ∧ freeOrder (K.store a n f) ps = freeOrder K ps := by
  have hal := hb.aligned
  have hpos := hb.pos
  refine h.keep rfl (fun x hx => put_out (by omega)) (fun q hq x h3 h4 => put_out ?_) fun x hx => Or.inl hx
  have hqm := mem_order (r := slot K.vol.bytes) (L := 511).mpr (Or.inl hq)
  have hqa := (h.block q hqm).aligned
  have hqb : q ≠ b := fun e => hn (e ▸ hqm)
  omega

theorem IsFree.of {w : Vol} {K : View} {ps : List Nat} {s : Sys} (h : FreeList K ps) (hk : ∀ x, (View.all w).vis x → K.vis x)
    (hs : K.Holds s) : IsFree s {b | b ∈ freeOrder K ps} := by
  have e : s.vol.bytes = K.vol.bytes := funext fun x => hs.bytes x (hk x trivial)
  refine ⟨ps, ⟨?_, ?_, View.Sees.all _ _ _, fun _ _ => View.Sees.all _ _ _, ?_⟩, ?_⟩
  · rw [all_vol, e]
    exact h.chain
  · rw [all_vol, e, hs.size]
    exact h.block
  · rw [all_vol, hs.size]
    exact h.room
  · simp only [freeOrder, all_vol, e]

theorem alloc_call {fd : Int} {K K' : View} {b : Nat} (h : Runs K (allocateBlock fd) b K') :
    Runs K (Req.alloc.call fd) b K' := h.bind Runs.pure

theorem step_refines {fd : Int} (hfd : 0 ≤ fd) {s : Sys} {F : Set Nat} (h : IsFree s F) {r : Req}
    (hr : r.Allowed s.vol.size F) :
    ∃ x s' F', r.call fd s = some (x, s') ∧ IsFree s' F' ∧ SetStep F r x F' ∧ s'.vol.size = s.vol.size ∧
      (F = ∅ → r = .alloc → s'.vol = s.vol) := by
  obtain ⟨ps, hl, rfl⟩ := h
  have hs : (View.all s.vol).Holds s := holds_all.mpr rfl
  cases r with
  | alloc =>
    rcases ps with _ | ⟨p, ps⟩
    · obtain ⟨s', hc, hs'⟩ := (alloc_call (allocateBlock_none fd hl)).exec hs
      refine ⟨_, s', ∅, hc, ?_, ?_, hs'.size, fun _ _ => holds_all.mp hs'⟩
      · refine ⟨[], ?_, by simp [freeOrder]⟩
        rw [holds_all.mp hs']
        exact hl
      · simp only [freeOrder, order_nil, List.not_mem_nil, Set.ofPred_false]
        exact SetStep.empty
    · obtain ⟨b, rest, hb⟩ : ∃ b rest, freeOrder (.all s.vol) (p :: ps) = b :: rest := by
        rcases he : freeOrder (.all s.vol) (p :: ps) with _ | ⟨b, rest⟩
        · simp [freeOrder] at he
        · exact ⟨b, rest, rfl⟩
      obtain ⟨K', ps', hrun, ht⟩ := allocateBlock_some fd hl hb
      obtain ⟨s', hc, hs'⟩ := (alloc_call hrun).exec hs
      have hn : (b :: freeOrder K' ps').Nodup := by
        rw [← ht.order]
        exact hl.chain.nodup
      have he : ({x | x ∈ freeOrder (.all s.vol) (p :: ps)} : Set Nat) \ {b} = {x | x ∈ freeOrder K' ps'} := by
        ext x
        simp only [ht.order, Set.mem_sdiff, Set.mem_ofPred_eq, List.mem_cons, Set.mem_singleton_iff]
        constructor
        · rintro ⟨rfl | hx, hne⟩
          · exact absurd rfl hne
          · exact hx
        · intro hx
          exact ⟨Or.inr hx, fun e => (List.nodup_cons.mp hn).1 (e ▸ hx)⟩
      have hm : b ∈ freeOrder (.all s.vol) (p :: ps) := by simp [hb]
      refine ⟨_, s', _, hc, IsFree.of ht.free ht.keeps.vis hs', ?_, by rw [hs'.size, ht.keeps.size]; rfl, fun hF => ?_⟩
      · rw [← he]
        exact .take hm (hl.block b hm).pos
      · exact absurd (show b ∈ ({x | x ∈ freeOrder (.all s.vol) (p :: ps)} : Set Nat) from hm) (by simp [hF])
  | free b =>
    obtain ⟨K', ps', hrun, hg⟩ := freeBlock_runs hl hfd hr.1 hr.2
    obtain ⟨s', hc, hs'⟩ := hrun.exec hs
    have he : (insert b {x | x ∈ freeOrder (.all s.vol) ps} : Set Nat) = {x | x ∈ freeOrder K' ps'} := by
      ext x
      simp only [Set.mem_insert_iff, Set.mem_ofPred_eq, hg.order.mem_iff, List.mem_cons]
    refine ⟨_, s', _, hc, IsFree.of hg.free hg.keeps.vis hs', ?_, by rw [hs'.size, hg.keeps.size]; rfl, by simp⟩
    rw [← he]
    exact .free hr.2
  | write f b offset n =>
    by_cases ho : offset > 4096 ∨ offset < 0
    · refine ⟨0, s, _, ?_, ⟨ps, hl, rfl⟩, .write, rfl, by simp⟩
      simp only [Req.call, writeBlock, if_pos ho]
      rfl
    · obtain ⟨o, rfl⟩ := Int.eq_ofNat_of_zero_le (by omega : 0 ≤ offset)
      have hin := hr.1.inside
      have hrun := writeBlock_runs (K := .all s.vol) (f := f) (b := b) (n := n) (o := o) rfl (by omega)
        (by rw [all_vol]; omega)
      obtain ⟨s', hc, hs'⟩ := hrun.exec hs
      obtain ⟨hl', he⟩ := FreeList.write (f := f) (a := b + o) (n := min n (4096 - o)) hl hr.1 hr.2 (by omega) (by omega)
      refine ⟨_, s', _, hc, IsFree.of (w := s.vol) hl' (fun x hx => Or.inl hx) hs', ?_, hs'.size, by simp⟩
      rw [he]
      exact .write

theorem isFree_unique {s : Sys} {F F' : Set Nat} (h : IsFree s F) (h' : IsFree s F') : F = F' := by
  obtain ⟨ps, hl, rfl⟩ := h
  obtain ⟨ps', hl', rfl⟩ := h'
  rw [linked_unique hl.chain.linked hl'.chain.linked]

theorem served_refines {fd : Int} (hfd : 0 ≤ fd) {s s' : Sys} {F : Set Nat} {t : List (Req × Int)} (h : IsFree s F)
    (hr : Served fd s t s') : ∃ F', IsFree s' F' ∧ SetRun F t F' := by
  induction hr generalizing F with
  | nil => exact ⟨F, h, .nil⟩
  | cons hF ha hc _ ih =>
    obtain rfl := isFree_unique h hF
    obtain ⟨x, s1, F1, hc', h1, hs, _⟩ := step_refines hfd h ha
    obtain ⟨rfl, rfl⟩ := Prod.mk.inj (Option.some.inj (hc.symm.trans hc'))
    obtain ⟨F', h', hr'⟩ := ih h1
    exact ⟨F', h', .cons hs hr'⟩

/-- The allocator is an exact set: after every run of allowed requests the free list is
    well formed, its blocks are those of the set machine, the next allowed request is
    answered by a step of the set machine, `allocate_block` on the empty set leaves the
    device as it is, and a block handed out twice was freed in between. -/
theorem allocator_exact {fd : Int} (hfd : 0 ≤ fd) {s s' : Sys} {F : Set Nat} {t : List (Req × Int)} (h : IsFree s F)
    (hr : Served fd s t s') :
    ∃ F', IsFree s' F' ∧ SetRun F t F' ∧
      (∀ r : Req, r.Allowed s'.vol.size F' → ∃ x s'' F'', r.call fd s' = some (x, s'') ∧ IsFree s'' F'' ∧
        SetStep F' r x F'' ∧ (F' = ∅ → r = .alloc → s''.vol = s'.vol)) ∧
      ∀ u v w b, b ≠ 0 → t = u ++ (.alloc, ((b : Nat) : Int)) :: (v ++ (.alloc, (b : Int)) :: w) →
        ∃ x, (.free b, x) ∈ v := by
  obtain ⟨F', h', hrun⟩ := served_refines hfd h hr
  refine ⟨F', h', hrun, fun r ha => ?_, fun u v w b hb ht => ?_⟩
  · obtain ⟨x, s'', F'', hc, h'', hs, _, he⟩ := step_refines hfd h' ha
    exact ⟨x, s'', F'', hc, h'', hs, he⟩
  · subst ht
    exact run_once hb hrun

/-! Two blocks of a small device are taken; the first is written to and given back. -/

theorem listedDisk_free : IsFree listedDisk {b | b ∈ listedBlocks ++ [8192]} :=
  ⟨[8192], listedDisk_list, by rw [listedDisk_order]⟩

theorem alloc_inv {F F' : Set Nat} {x : Int} {c : Nat} (h : SetStep F .alloc x F') (hc : c ∈ F) :
    ∃ b ∈ F, b ≠ 0 ∧ x = b ∧ F' = F \ {b} := by
  cases h with
  | empty => exact absurd hc (Set.notMem_empty c)
  | take hb h0 => exact ⟨_, hb, h0, rfl, rfl⟩

theorem free_inv {F F' : Set Nat} {x : Int} {b : Nat} (h : SetStep F (.free b) x F') : x = 0 ∧ F' = insert b F := by
  cases h
  exact ⟨rfl, rfl⟩

theorem write_inv {F F' : Set Nat} {f : Mem} {x o : Int} {b n : Nat} (h : SetStep F (.write f b o n) x F') : F' = F := by
  cases h
  rfl

theorem allocator_exact_listed : ∃ (b c : Nat) (x : Int) (s : Sys) (F : Set Nat), b ≠ 0 ∧ c ≠ 0 ∧ c ≠ b ∧
    Served 3 listedDisk [(.alloc, b), (.write zeros b 0 4096, x), (.alloc, c), (.free b, 0)] s ∧ IsFree s F ∧ b ∈ F ∧ c ∉ F ∧
    SetRun {e | e ∈ listedBlocks ++ [8192]} [(.alloc, b), (.write zeros b 0 4096, x), (.alloc, c), (.free b, 0)] F ∧
    ∃ y s' F', Req.alloc.call 3 s = some (y, s') ∧ IsFree s' F' ∧ SetStep F .alloc y F' := by
  have hfd : (0 : Int) ≤ 3 := by decide
  obtain ⟨x1, s1, F1, e1, h1, hs1, hz1, -⟩ := step_refines hfd listedDisk_free (r := .alloc) trivial
  obtain ⟨b, hb, hb0, rfl, rfl⟩ := alloc_inv hs1 (c := 8192) (by decide)
  obtain ⟨hal, hlow, hhigh⟩ := mem_listedBlocks hb
  have hblock : IsBlock s1.vol.size b := ⟨hal, hb0, by rw [hz1]; exact hhigh⟩
  have hout : b ∉ {e | e ∈ listedBlocks ++ [8192]} \ {b} := fun h => h.2 rfl
  obtain ⟨x, s2, F2, e2, h2, hs2, hz2, -⟩ := step_refines hfd h1 (r := .write zeros b 0 4096) ⟨hblock, hout⟩
  obtain rfl := write_inv hs2
  obtain ⟨x3, s3, F3, e3, h3, hs3, hz3, -⟩ := step_refines hfd h2 (r := .alloc) trivial
  -- another block is free
  obtain ⟨d, hd⟩ : ∃ d, d ∈ ({e | e ∈ listedBlocks ++ [8192]} \ {b} : Set Nat) := by
    by_cases h : b = 8192
    · exact ⟨12288, by decide, fun e => absurd ((Set.mem_singleton_iff.mp e).trans h) (by decide)⟩
    · exact ⟨8192, by decide, fun e => h (Set.mem_singleton_iff.mp e).symm⟩
  obtain ⟨c, hc, hc0, rfl, rfl⟩ := alloc_inv hs3 hd
  have hcb : c ≠ b := fun e => hc.2 e
  have hblock3 : IsBlock s3.vol.size b := ⟨hal, hb0, by rw [hz3, hz2]; exact hblock.inside⟩
  obtain ⟨x4, s4, F4, e4, h4, hs4, -, -⟩ := step_refines hfd h3 (r := .free b) ⟨hblock3, fun h => hout h.1⟩
  obtain ⟨rfl, rfl⟩ := free_inv hs4
  have hr : Served 3 listedDisk [(.alloc, b), (.write zeros b 0 4096, x), (.alloc, c), (.free b, 0)] s4 :=
    .cons listedDisk_free trivial e1 (.cons h1 ⟨hblock, hout⟩ e2 (.cons h2 trivial e3 (.cons h3 ⟨hblock3, fun h => hout h.1⟩ e4 .nil)))
  obtain ⟨F, hF, hrun, hnext, -⟩ := allocator_exact hfd listedDisk_free hr
  obtain rfl := isFree_unique hF h4
  obtain ⟨y, s', F', e5, h5, hs5, -⟩ := hnext .alloc trivial
  refine ⟨b, c, x, s4, _, hb0, hc0, hcb, hr, h4, Set.mem_insert b _, fun h => ?_, hrun, y, s', F', e5, h5, hs5⟩
  rcases h with h | h
  · exact hcb h
  · exact h.2 rfl

end TyrantFS.FreeSet

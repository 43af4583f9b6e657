/-
  TyrantFS.Lib.FileTree — trees of directories and files.

  A store holds objects under identifiers: directories, with named entries, and files,
  with bytes; every object has attributes. It is a file tree when the entries make a tree
  of names (`NameTree`) and no directory has a name twice. `Step`: what a file system
  does to it, one object made, dropped, renamed, written or given other attributes at a
  time. Every step keeps the tree (`Tree.step`).

  `Leads`: where a path leads. In a tree it leads to one place, and two paths from the
  root never lead to the same (`Tree.path_inj`). After a step the paths that do not take
  the entry in question lead where they led (`Tree.drop_leads`, `Tree.label_leads`), and
  those that do are gone or begin with the new name (`Tree.label_moves`). A new name can
  be taken back (`label_back`).
-/
import TyrantFS.Lib.NameTree
import Mathlib.Logic.Function.Basic
import Mathlib.Data.List.Induction
import Mathlib.Data.List.Nodup

namespace Lib

open Function Relation

inductive Body (ν ι β : Type) where
  | dir (entries : List (ν × ι))
  | file (bytes : List β)

structure Obj (ν ι α β : Type) where
  attrs : α
  body : Body ν ι β

abbrev Store (ν ι α β : Type) := ι → Option (Obj ν ι α β)

namespace Store

variable {ν ι α β : Type} {s s' : Store ν ι α β} {a b c d e r : ι} {x y : ν} {p q rest : List ν}
  {es : List (ν × ι)} {o : Obj ν ι α β}

/-- The entries of `d`, none if it is not a directory. -/
def entries (s : Store ν ι α β) (d : ι) : List (ν × ι) :=
  match s d with
  | some ⟨_, .dir es⟩ => es
  | _ => []

def kids (s : Store ν ι α β) (d : ι) : List ι := (s.entries d).map Prod.snd

def names (s : Store ν ι α β) (d : ι) : List ν := (s.entries d).map Prod.fst

def IsDir (s : Store ν ι α β) (d : ι) : Prop := ∃ t es, s d = some ⟨t, .dir es⟩

def IsFile (s : Store ν ι α β) (d : ι) : Prop := ∃ t bs, s d = some ⟨t, .file bs⟩

/-- The path of the names leads from one object to the other. -/
inductive Leads (s : Store ν ι α β) : ι → List ν → ι → Prop
  | here {a : ι} : Leads s a [] a
  | down {a b c : ι} {x : ν} {rest : List ν} : (x, b) ∈ s.entries a → Leads s b rest c → Leads s a (x :: rest) c

structure Tree (r : ι) (s : Store ν ι α β) : Prop where
  tree : NameTree r {a | s a ≠ none} s.kids
  names : ∀ d, (s.names d).Nodup
  root : s.IsDir r

theorem entries_dir {t : α} (h : s d = some ⟨t, .dir es⟩) : s.entries d = es := by
  unfold entries
  rw [h]

theorem IsFile.entries (h : s.IsFile d) : s.entries d = [] := by
  obtain ⟨t, bs, h⟩ := h
  unfold Store.entries
  rw [h]

theorem entries_congr (h : s' d = s d) : s'.entries d = s.entries d := by
  unfold Store.entries
  rw [h]

theorem entries_none (h : s d = none) : s.entries d = [] := by
  unfold Store.entries
  rw [h]

theorem IsDir.of_mem (h : (x, c) ∈ s.entries d) : s.IsDir d := by
  unfold Store.entries at h
  split at h
  · rename_i t es hd
    exact ⟨t, es, hd⟩
  · cases h

/-! ## Steps -/

section
variable [DecidableEq ι]

def set (s : Store ν ι α β) (a : ι) (o : Option (Obj ν ι α β)) : Store ν ι α β := update s a o

/-- The object at `a` with another body. -/
def setBody (s : Store ν ι α β) (a : ι) (b : Body ν ι β) : Store ν ι α β := s.set a ((s a).map fun o => ⟨o.attrs, b⟩)

/-- The object at `a` with other attributes. -/
def setAttrs (s : Store ν ι α β) (a : ι) (t : α) : Store ν ι α β := s.set a ((s a).map fun o => ⟨t, o.body⟩)

/-- The new object `o`, under `a`, entered in `d` as `x`. -/
def make (s : Store ν ι α β) (d : ι) (x : ν) (a : ι) (o : Obj ν ι α β) : Store ν ι α β :=
  (s.set a (some o)).setBody d (.dir (s.entries d ++ [(x, a)]))

/-- The object `c` is gone, and `es` are left in `d`. -/
def drop (s : Store ν ι α β) (d c : ι) (es : List (ν × ι)) : Store ν ι α β := (s.set c none).setBody d (.dir es)

/-- The entry `x` of `d` is called `y`. -/
def label [DecidableEq ν] (s : Store ν ι α β) (d : ι) (x y : ν) : Store ν ι α β :=
  s.setBody d (.dir ((s.entries d).map fun w => if w.1 = x then (y, w.2) else w))

/-- Nothing but the directory `r`, without entries. -/
def bare (r : ι) (t : α) : Store ν ι α β := set (fun _ => none) r (some ⟨t, .dir []⟩)

/-- A new object names nothing. -/
def Fresh (o : Obj ν ι α β) : Prop := o.body = .dir [] ∨ ∃ bs, o.body = .file bs

inductive Step [DecidableEq ν] (s : Store ν ι α β) : Store ν ι α β → Prop
  | same : Step s s
  | make (d : ι) (x : ν) (a : ι) (o : Obj ν ι α β) : s.IsDir d → x ∉ s.names d → s a = none → Fresh o → Step s (s.make d x a o)
  | drop (d : ι) (x : ν) (c : ι) (es : List (ν × ι)) : s.IsFile c → (s.entries d).Perm ((x, c) :: es) → Step s (s.drop d c es)
  | label (d : ι) (x y : ν) : s.IsDir d → (y = x ∨ y ∉ s.names d) → Step s (s.label d x y)
  | write (a : ι) (bs : List β) : s.IsFile a → Step s (s.setBody a (.file bs))
  | attrs (a : ι) (t : α) : Step s (s.setAttrs a t)

@[simp] theorem set_self {w : Option (Obj ν ι α β)} : s.set a w a = w := update_self _ _ _

theorem set_ne {w : Option (Obj ν ι α β)} (h : d ≠ a) : s.set a w d = s d := update_of_ne h _ _

theorem setBody_ne {b : Body ν ι β} (h : d ≠ a) : s.setBody a b d = s d := set_ne h

theorem setBody_self {b : Body ν ι β} : s.setBody a b a = (s a).map fun o => ⟨o.attrs, b⟩ := set_self

theorem setBody_dir (h : s.IsDir a) : (s.setBody a (.dir es)).IsDir a ∧ (s.setBody a (.dir es)).entries a = es := by
  obtain ⟨t, es', h⟩ := h
  have hs : s.setBody a (.dir es) a = some ⟨t, .dir es⟩ := by rw [setBody_self, h]; rfl
  exact ⟨⟨t, es, hs⟩, entries_dir hs⟩

theorem used_setBody {b : Body ν ι β} : s.setBody a b d ≠ none ↔ s d ≠ none := by
  by_cases h : d = a
  · subst h
    rw [setBody_self, Option.map_eq_none_iff.ne]
  · rw [setBody_ne h]

/-- Attributes say nothing about entries. -/
theorem entries_setAttrs {t : α} : (s.setAttrs a t).entries d = s.entries d := by
  by_cases h : d = a
  · subst h
    unfold Store.entries
    rw [setAttrs, set_self]
    rcases s d with _ | ⟨t, es | bs⟩ <;> rfl
  · exact entries_congr (set_ne h)

theorem used_setAttrs {t : α} : s.setAttrs a t d ≠ none ↔ s d ≠ none := by
  by_cases h : d = a
  · subst h
    rw [setAttrs, set_self, Option.map_eq_none_iff.ne]
  · rw [setAttrs, set_ne h]

/-- The attributes that are there. -/
theorem setAttrs_same {t : α} {b : Body ν ι β} (h : s a = some ⟨t, b⟩) : s.setAttrs a t = s := by
  rw [setAttrs, h]
  exact update_eq_self_iff.mpr h.symm

/-- The body that is there. -/
theorem setBody_same {t : α} {b : Body ν ι β} (h : s a = some ⟨t, b⟩) : s.setBody a b = s := by
  rw [setBody, h]
  exact update_eq_self_iff.mpr h.symm

theorem isDir_setAttrs {t : α} (h : s.IsDir d) : (s.setAttrs a t).IsDir d := by
  obtain ⟨t', es, hd⟩ := h
  by_cases e : d = a
  · subst e
    exact ⟨t, es, by rw [setAttrs, set_self, hd]; rfl⟩
  · exact ⟨t', es, by rw [setAttrs, set_ne e, hd]⟩

end

/-! ## Steps keep the tree -/

/-- The entries are the same, and so are the objects there are. -/
theorem Tree.same (h : Tree r s) (hu : ∀ a, s' a ≠ none ↔ s a ≠ none) (he : ∀ d, s'.entries d = s.entries d) (hr : s'.IsDir r) :
    Tree r s' := by
  have hk : s'.kids = s.kids := funext fun d => by rw [kids, kids, he]
  have hset : {a | s' a ≠ none} = {a | s a ≠ none} := Set.ext hu
  refine ⟨?_, fun d => ?_, hr⟩
  · rw [hk, hset]
    exact h.tree
  · rw [Store.names, he]
    exact h.names d

section
variable [DecidableEq ι]

theorem Tree.bare {t : α} : Tree r (bare r t : Store ν ι α β) := by
  have hr : (Store.bare r t : Store ν ι α β) r = some ⟨t, .dir []⟩ := set_self
  have hne : ∀ d, d ≠ r → (Store.bare r t : Store ν ι α β) d = none := fun d hd => set_ne hd
  have hent : ∀ d, (Store.bare r t : Store ν ι α β).entries d = [] := by
    intro d
    by_cases hd : d = r
    · subst hd
      exact entries_dir hr
    · exact entries_none (hne d hd)
  have hused : {a | (Store.bare r t : Store ν ι α β) a ≠ none} = {r} := by
    ext a
    by_cases ha : a = r
    · subst ha
      exact iff_of_true (by rw [Set.mem_ofPred, hr]; exact Option.some_ne_none _) rfl
    · exact iff_of_false (fun h => h (hne a ha)) ha
  refine ⟨?_, fun d => by rw [Store.names, hent]; exact List.nodup_nil, ⟨t, [], hr⟩⟩
  rw [hused]
  exact .single fun d => by rw [kids, hent, List.map_nil]

/-- The new object names nothing, and the directory has one more entry. -/
theorem make_entries (hd : s.IsDir d) (ha : s a = none) (ho : Fresh o) : (s.make d x a o).IsDir d ∧
    (s.make d x a o).entries d = s.entries d ++ [(x, a)] ∧ ∀ e, e ≠ d → (s.make d x a o).entries e = s.entries e := by
  have hda : d ≠ a := by
    intro heq
    subst heq
    obtain ⟨t, es, hd⟩ := hd
    rw [ha] at hd
    cases hd
  have hd' : (s.set a (some o)).IsDir d := by
    obtain ⟨t, es, hd⟩ := hd
    exact ⟨t, es, by rw [set_ne hda, hd]⟩
  obtain ⟨hdir, hent⟩ : (s.make d x a o).IsDir d ∧ (s.make d x a o).entries d = s.entries d ++ [(x, a)] := setBody_dir hd'
  refine ⟨hdir, hent, fun e he => ?_⟩
  by_cases hea : e = a
  · subst hea
    have hs : s.make d x e o e = some o := by rw [Store.make, setBody_ne he, set_self]
    rw [entries_none ha]
    obtain ⟨t, b⟩ := o
    rcases ho with ho | ⟨bs, ho⟩ <;> obtain rfl : b = _ := ho
    · exact entries_dir hs
    · exact IsFile.entries ⟨t, bs, hs⟩
  · exact entries_congr (by rw [Store.make, setBody_ne he, set_ne hea])

theorem Tree.make (h : Tree r s) (hd : s.IsDir d) (hx : x ∉ s.names d) (ha : s a = none) (ho : Fresh o) : Tree r (s.make d x a o) := by
  obtain ⟨hdir, hent, hother⟩ : _ ∧ (s.make d x a o).entries d = _ ∧ _ := make_entries hd ha ho
  have hused : {b | s.make d x a o b ≠ none} = insert a {b | s b ≠ none} := by
    ext b
    by_cases hba : b = a
    · subst hba
      refine iff_of_true ?_ (Or.inl rfl)
      rw [Set.mem_ofPred, Store.make, used_setBody, set_self]
      exact Option.some_ne_none o
    · rw [Set.mem_ofPred, Store.make, used_setBody, set_ne hba, Set.mem_insert_iff, Set.mem_ofPred]
      exact (or_iff_right hba).symm
  refine ⟨?_, fun e => ?_, ?_⟩
  · rw [hused]
    refine h.tree.create (d := d) ?_ (fun hc => hc ha) ?_ fun e he => by rw [kids, kids, hother e he]
    · obtain ⟨t, es, hd⟩ := hd
      show s d ≠ none
      rw [hd]
      exact Option.some_ne_none _
    · rw [kids, hent, List.map_append]
      exact List.perm_append_singleton a (s.kids d)
  · by_cases he : e = d
    · subst he
      rw [Store.names, hent, List.map_append]
      refine List.nodup_append.mpr ⟨h.names e, List.nodup_singleton x, fun y hy z hz => ?_⟩
      obtain rfl := List.mem_singleton.mp hz
      intro heq
      subst heq
      exact hx hy
    · rw [Store.names, hother e he]
      exact h.names e
  · by_cases hr : r = d
    · subst hr
      exact hdir
    · have hra : r ≠ a := by
        intro heq
        subst heq
        exact h.tree.root ha
      obtain ⟨t, es, hrd⟩ := h.root
      exact ⟨t, es, by rw [Store.make, setBody_ne hr, set_ne hra, hrd]⟩

/-- The directory has the entries that are left. -/
theorem drop_entries (hd : s.IsDir d) (hc : s.IsFile c) : (s.drop d c es).IsDir d ∧
    (s.drop d c es).entries d = es ∧ ∀ e, e ≠ d → (s.drop d c es).entries e = s.entries e := by
  have hdc : d ≠ c := by
    intro heq
    subst heq
    obtain ⟨t, es', hd⟩ := hd
    obtain ⟨t', bs, hc⟩ := hc
    rw [hc] at hd
    cases hd
  have hd' : (s.set c none).IsDir d := by
    obtain ⟨t, es', hd⟩ := hd
    exact ⟨t, es', by rw [set_ne hdc, hd]⟩
  obtain ⟨hdir, hent⟩ : (s.drop d c es).IsDir d ∧ (s.drop d c es).entries d = es := setBody_dir hd'
  refine ⟨hdir, hent, fun e he => ?_⟩
  by_cases hec : e = c
  · subst hec
    rw [hc.entries]
    exact entries_none (by rw [Store.drop, setBody_ne he, set_self])
  · exact entries_congr (by rw [Store.drop, setBody_ne he, set_ne hec])

theorem Tree.drop (h : Tree r s) (hc : s.IsFile c) (hp : (s.entries d).Perm ((x, c) :: es)) : Tree r (s.drop d c es) := by
  have hmem : (x, c) ∈ s.entries d := hp.mem_iff.mpr List.mem_cons_self
  have hkid : c ∈ s.kids d := List.mem_map_of_mem (f := Prod.snd) hmem
  have hnil : s.kids c = [] := by rw [kids, hc.entries, List.map_nil]
  obtain ⟨hdir, hent, hother⟩ : (s.drop d c es).IsDir d ∧ (s.drop d c es).entries d = es ∧ _ := drop_entries (.of_mem hmem) hc
  have hused : {b | s.drop d c es b ≠ none} = {b | s b ≠ none} \ {c} := by
    ext b
    rw [Set.mem_ofPred, Store.drop, used_setBody, Set.mem_sdiff, Set.mem_singleton_iff, Set.mem_ofPred]
    by_cases hbc : b = c
    · subst hbc
      rw [set_self]
      exact iff_of_false (fun h => h rfl) fun h => h.2 rfl
    · rw [set_ne hbc]
      exact (and_iff_left hbc).symm
  have hnames := hp.map Prod.fst
  refine ⟨?_, fun e => ?_, ?_⟩
  · rw [hused]
    refine h.tree.remove hkid hnil ?_ fun e he => by rw [kids, kids, hother e he]
    rw [kids, kids, hent]
    exact hp.map Prod.snd
  · by_cases he : e = d
    · subst he
      rw [Store.names, hent]
      exact (List.nodup_cons.mp (hnames.nodup_iff.mp (h.names e))).2
    · rw [Store.names, hother e he]
      exact h.names e
  · by_cases hr : r = d
    · subst hr
      exact hdir
    · have hrc : r ≠ c := fun e => (h.tree.live d c hkid).2.2 e.symm
      obtain ⟨t, es', hrd⟩ := h.root
      exact ⟨t, es', by rw [Store.drop, setBody_ne hr, set_ne hrc, hrd]⟩

theorem Tree.make_drop (h : Tree r s) (hd : s.IsDir d) (hx : x ∉ s.names d) (ha : s a = none) (ho : Fresh o)
    (hc : (s.make d x a o).IsFile c) (hp : ((s.make d x a o).entries d).Perm ((x, c) :: es)) :
    (((s.make d x a o).drop d c es).entries d).Perm (s.entries d) ∧ ∀ b, b ≠ d → (s.make d x a o).drop d c es b = s b := by
  obtain ⟨hdir, hent, -⟩ : _ ∧ (s.make d x a o).entries d = _ ∧ _ := make_entries hd ha ho
  obtain ⟨-, hent', -⟩ : _ ∧ ((s.make d x a o).drop d c es).entries d = es ∧ _ := drop_entries hdir hc
  have hmem : (x, a) ∈ (s.make d x a o).entries d := by
    rw [hent]
    simp
  have hac : (x, a) = (x, c) :=
    List.inj_on_of_nodup_map ((h.make hd hx ha ho).names d) hmem (hp.mem_iff.mpr List.mem_cons_self) rfl
  obtain rfl := (Prod.mk.inj hac).2
  rw [hent] at hp
  rw [hent']
  refine ⟨((List.perm_append_singleton _ _).symm.trans hp).cons_inv.symm, fun b hb => ?_⟩
  rw [Store.drop, setBody_ne hb]
  by_cases hba : b = a
  · subst hba
    rw [set_self, ha]
  · rw [set_ne hba, Store.make, setBody_ne hb, set_ne hba]

theorem Tree.write {bs : List β} (h : Tree r s) (ha : s.IsFile a) : Tree r (s.setBody a (.file bs)) := by
  refine h.same (fun _ => used_setBody) (fun d => ?_) ?_
  · by_cases hd : d = a
    · subst hd
      obtain ⟨t, bs', hs⟩ := id ha
      rw [ha.entries]
      exact IsFile.entries ⟨t, bs, by rw [setBody_self, hs]; rfl⟩
    · exact entries_congr (setBody_ne hd)
  · obtain ⟨t, es, hr⟩ := h.root
    refine ⟨t, es, (setBody_ne ?_).trans hr⟩
    intro heq
    subst heq
    obtain ⟨t', bs', ha⟩ := ha
    rw [ha] at hr
    cases hr

/-- The entries after an entry got another name. -/
theorem label_entries [DecidableEq ν] (hd : s.IsDir d) :
    (s.label d x y).entries d = (s.entries d).map (fun w => if w.1 = x then (y, w.2) else w) ∧ (s.label d x y).kids = s.kids := by
  have hent : (s.label d x y).entries d = _ := (setBody_dir hd).2
  refine ⟨hent, funext fun e => ?_⟩
  by_cases he : e = d
  · subst he
    rw [kids, hent, List.map_map, kids]
    refine List.map_congr_left fun w _ => ?_
    simp only [comp]
    split <;> rfl
  · have hsame : (s.label d x y).entries e = s.entries e := entries_congr (setBody_ne he)
    rw [kids, kids, hsame]

/-- A label is taken back. -/
theorem label_back [DecidableEq ν] (hd : s.IsDir d) (hy : y = x ∨ y ∉ s.names d) : (s.label d x y).label d y x = s := by
  have hent : (s.label d x y).entries d = _ := (label_entries hd).1
  have hsame : ((s.entries d).map fun w => if w.1 = x then (y, w.2) else w).map (fun w => if w.1 = y then (x, w.2) else w) =
      s.entries d := by
    rw [List.map_map]
    refine (List.map_congr_left fun w hw => ?_).trans (List.map_id _)
    have hwy : y = x ∨ w.1 ≠ y := hy.imp_right fun hno e => hno (e ▸ List.mem_map_of_mem hw)
    obtain ⟨z, k⟩ := w
    by_cases hz : z = x
    · subst hz
      simp
    · have hzy : z ≠ y := hwy.elim (fun e => e ▸ hz) id
      simp [hz, hzy]
  funext e
  by_cases he : e = d
  · subst he
    obtain ⟨t, es, hs⟩ := hd
    rw [Store.label, hent, hsame, entries_dir hs, setBody_self, Store.label, setBody_self, hs]
    rfl
  · rw [Store.label, setBody_ne he, Store.label, setBody_ne he]

theorem Tree.label [DecidableEq ν] (h : Tree r s) (hd : s.IsDir d) (hy : y = x ∨ y ∉ s.names d) : Tree r (s.label d x y) := by
  obtain ⟨hent, hkids⟩ : (s.label d x y).entries d = _ ∧ (s.label d x y).kids = s.kids := label_entries hd
  have hused : {b | s.label d x y b ≠ none} = {b | s b ≠ none} := Set.ext fun b => used_setBody
  refine ⟨?_, fun e => ?_, ?_⟩
  · rw [hused, hkids]
    exact h.tree
  · by_cases he : e = d
    · subst he
      have hnames : (s.label e x y).names e = (s.names e).map fun z => if z = x then y else z := by
        rw [Store.names, hent, List.map_map, Store.names, List.map_map]
        refine List.map_congr_left fun w _ => ?_
        simp only [comp]
        split <;> rfl
      rw [hnames]
      refine (h.names e).map_on fun z hz w hw hzw => ?_
      rcases hy with rfl | hy
      · split at hzw <;> split at hzw <;> simp_all
      · split at hzw
        · rename_i hzx
          split at hzw
          · rename_i hwx
            exact hzx.trans hwx.symm
          · exact absurd (hzw ▸ hw) hy
        · split at hzw
          · exact absurd (hzw ▸ hz) hy
          · exact hzw
    · have hsame : (s.label d x y).entries e = s.entries e := entries_congr (setBody_ne he)
      rw [Store.names, hsame]
      exact h.names e
  · by_cases hr : r = d
    · subst hr
      exact (setBody_dir hd).1
    · obtain ⟨t, es, hrd⟩ := h.root
      exact ⟨t, es, (setBody_ne hr).trans hrd⟩

theorem Tree.step [DecidableEq ν] (h : Tree r s) (hs : Step s s') : Tree r s' := by
  cases hs with
  | same => exact h
  | make d x a o hd hx ha ho => exact h.make hd hx ha ho
  | drop d x c es hc hp => exact h.drop hc hp
  | label d x y hd hy => exact h.label hd hy
  | write a bs ha => exact h.write ha
  | attrs a t => exact h.same (fun _ => used_setAttrs) (fun _ => entries_setAttrs) (isDir_setAttrs h.root)

end

/-! ## Paths -/

theorem Leads.append (h : Leads s a p b) (h' : Leads s b q c) : Leads s a (p ++ q) c := by
  induction h with
  | here => exact h'
  | down hx _ ih => exact .down hx (ih h')

theorem leads_append : Leads s a (p ++ q) c ↔ ∃ b, Leads s a p b ∧ Leads s b q c := by
  refine ⟨fun h => ?_, fun ⟨b, h1, h2⟩ => h1.append h2⟩
  induction p generalizing a with
  | nil => exact ⟨a, .here, h⟩
  | cons x p ih =>
    cases h with
    | down hx h =>
      obtain ⟨b, h1, h2⟩ := ih h
      exact ⟨b, .down hx h1, h2⟩

theorem leads_nil : Leads s a [] c ↔ c = a :=
  ⟨fun h => by cases h; rfl, fun h => h ▸ .here⟩

/-- Entries that are still there lead where they led. -/
theorem Leads.mono (h : ∀ d x c, (x, c) ∈ s.entries d → (x, c) ∈ s'.entries d) (hp : Leads s a p b) : Leads s' a p b := by
  induction hp with
  | here => exact .here
  | down hx _ ih => exact .down (h _ _ _ hx) ih

theorem leads_single : Leads s a [x] c ↔ (x, c) ∈ s.entries a := by
  refine ⟨fun h => ?_, fun h => .down h .here⟩
  cases h with
  | down hx h =>
    cases h
    exact hx

/-- But for its end, the path leads through directories. -/
def Walkable (s : Store ν ι α β) (a : ι) (p : List ν) : Prop := ∀ q x rest b, p = q ++ x :: rest → Leads s a q b → s.IsDir b

theorem Walkable.dir (h : Walkable s a (x :: p)) : s.IsDir a := h [] x p a rfl .here

theorem Walkable.down (h : Walkable s a (x :: p)) (hx : (x, b) ∈ s.entries a) : Walkable s b p :=
  fun q y rest c hp hq => h (x :: q) y rest c (by rw [hp]; rfl) (.down hx hq)

theorem Walkable.left (h : Walkable s a (p ++ q)) : Walkable s a p :=
  fun q' y rest c hp hq => h q' y (rest ++ q) c (by rw [hp, List.append_assoc]; rfl) hq

theorem Walkable.last (h : Walkable s a (p ++ [x])) (hp : Leads s a p b) : s.IsDir b := h p x [] b rfl hp

/-- A name stands for one object. -/
theorem Tree.entry_inj (h : Tree r s) (h1 : (x, b) ∈ s.entries d) (h2 : (x, c) ∈ s.entries d) : b = c := by
  have := List.inj_on_of_nodup_map (h.names d) h1 h2 rfl
  exact (Prod.mk.inj this).2

theorem Tree.leads_inj (h : Tree r s) (h1 : Leads s a p b) (h2 : Leads s a p c) : b = c := by
  induction h1 with
  | here => exact (leads_nil.mp h2).symm
  | down hx _ ih =>
    cases h2 with
    | down hy h2 =>
      obtain rfl := h.entry_inj hx hy
      exact ih h2

/-- An entry's object is in one place only. -/
theorem Tree.place_inj (h : Tree r s) (h1 : (x, c) ∈ s.entries d) (h2 : (y, c) ∈ s.entries e) : d = e ∧ x = y := by
  have hk1 : c ∈ s.kids d := List.mem_map_of_mem (f := Prod.snd) h1
  have hk2 : c ∈ s.kids e := List.mem_map_of_mem (f := Prod.snd) h2
  obtain rfl := h.tree.one d e c hk1 hk2
  exact ⟨rfl, (Prod.mk.inj (List.inj_on_of_nodup_map (h.tree.once d) h1 h2 rfl)).1⟩

theorem Tree.used (h : Tree r s) (hp : Leads s r p c) : s c ≠ none := by
  rcases List.eq_nil_or_concat p with rfl | ⟨p', x, rfl⟩
  · rw [leads_nil.mp hp]
    exact h.tree.root
  · rw [List.concat_eq_append] at hp
    obtain ⟨b, -, hb⟩ := leads_append.mp hp
    exact (h.tree.live b c (List.mem_map_of_mem (f := Prod.snd) (leads_single.mp hb))).2.1

/-- Two paths from the root to the same object are the same. -/
theorem Tree.path_inj (h : Tree r s) (hp : Leads s r p c) (hq : Leads s r q c) : p = q := by
  induction p using List.reverseRecOn generalizing q c with
  | nil =>
    obtain rfl := leads_nil.mp hp
    rcases List.eq_nil_or_concat q with rfl | ⟨q', x, rfl⟩
    · rfl
    · rw [List.concat_eq_append] at hq
      obtain ⟨b, -, hb⟩ := leads_append.mp hq
      exact absurd rfl (h.tree.live b c (List.mem_map_of_mem (f := Prod.snd) (leads_single.mp hb))).2.2
  | append_singleton p x ih =>
    obtain ⟨b, hb, hx⟩ := leads_append.mp hp
    rcases List.eq_nil_or_concat q with rfl | ⟨q', y, rfl⟩
    · obtain rfl := leads_nil.mp hq
      exact absurd rfl (h.tree.live b c (List.mem_map_of_mem (f := Prod.snd) (leads_single.mp hx))).2.2
    · rw [List.concat_eq_append] at hq ⊢
      obtain ⟨b', hb', hy⟩ := leads_append.mp hq
      obtain ⟨rfl, rfl⟩ := h.place_inj (leads_single.mp hx) (leads_single.mp hy)
      rw [ih hb hb']

/-- A path that leads somewhere leads through directories. -/
theorem Tree.walkable (h : Tree r s) (hp : Leads s a p c) : Walkable s a p := by
  intro q x rest b heq hq
  subst heq
  obtain ⟨b', hb', hrest⟩ := leads_append.mp hp
  obtain rfl := h.leads_inj hb' hq
  cases hrest with
  | down hx _ => exact .of_mem hx

/-- Where only the entry `x` of `d` is gone, a path from `a` that does not take it leads
    where it led; `o` and `q` lead from the root to `a` and to `d`. -/
theorem Tree.leads_keep {o : List ν} (h : Tree r s) (hd : Leads s r q d) (ho : Leads s r o a)
    (hk : ∀ e y c, (y, c) ∈ s.entries e → (e = d → y ≠ x) → (y, c) ∈ s'.entries e) (hp : Leads s a p b)
    (hno : ∀ p', p' ++ [x] <+: p → o ++ p' ≠ q) : Leads s' a p b := by
  induction p using List.reverseRecOn generalizing b with
  | nil =>
    obtain rfl := leads_nil.mp hp
    exact .here
  | append_singleton p y ih =>
    obtain ⟨e, he, hy⟩ := leads_append.mp hp
    refine (ih he fun p' hp' => hno p' (hp'.trans (List.prefix_append p [y]))).append (leads_single.mpr ?_)
    apply hk e y b (leads_single.mp hy)
    intro heq heq1
    subst heq heq1
    exact hno p (List.prefix_refl _) (h.path_inj (ho.append he) hd)

/-- Every object has a path. -/
theorem Tree.path (h : Tree r s) (hc : s c ≠ none) : ∃ p, Leads s r p c := by
  induction h.tree.reach c hc with
  | refl => exact ⟨[], .here⟩
  | tail _ hk ih =>
    obtain ⟨w, hw, rfl⟩ := List.mem_map.mp hk
    obtain ⟨p, hp⟩ := ih ((h.tree.live _ _ hk).1)
    exact ⟨p ++ [w.1], hp.append (leads_single.mpr hw)⟩

/-! ### After a step -/

section
variable [DecidableEq ι] {bs : List β} {w : α}

theorem setBody_leads (hb : s.IsFile b) (hp : Leads s a p c) : Leads (s.setBody b (.file bs)) a p c := by
  refine hp.mono fun d x e hx => ?_
  have hd : (s.setBody b (.file bs)).entries d = s.entries d := entries_congr (setBody_ne (by
    intro heq
    subst heq
    rw [hb.entries] at hx
    cases hx))
  rwa [hd]

theorem setAttrs_leads (hp : Leads s a p c) : Leads (s.setAttrs b w) a p c :=
  hp.mono fun d x e hx => by rwa [entries_setAttrs]

theorem make_leads (hd : s.IsDir d) (hb : s b = none) (ho : Fresh o) (hp : Leads s a p c) : Leads (s.make d x b o) a p c := by
  obtain ⟨-, hent, hother⟩ : _ ∧ (s.make d x b o).entries d = _ ∧ _ := make_entries hd hb ho
  refine hp.mono fun e y k hy => ?_
  by_cases he : e = d
  · subst he
    rw [hent]
    exact List.mem_append_left _ hy
  · rwa [hother e he]

/-- The new object is where it was made. -/
theorem make_leads_new (hd : s.IsDir d) (hb : s b = none) (ho : Fresh o) (hp : Leads s a p d) : Leads (s.make d x b o) a (p ++ [x]) b := by
  obtain ⟨-, hent, -⟩ : _ ∧ (s.make d x b o).entries d = _ ∧ _ := make_entries hd hb ho
  refine (make_leads hd hb ho hp).append (leads_single.mpr ?_)
  rw [hent]
  exact List.mem_append_right _ List.mem_cons_self

/-- The other paths lead where they led. -/
theorem Tree.drop_leads (h : Tree r s) (hc : s.IsFile c) (he : (s.entries d).Perm ((x, c) :: es)) (hd : Leads s r q d)
    (hp : Leads s r p a) (hno : ¬ q ++ [x] <+: p) : Leads (s.drop d c es) r p a := by
  obtain ⟨-, hent, hother⟩ : _ ∧ (s.drop d c es).entries d = es ∧ _ := drop_entries (.of_mem (he.mem_iff.mpr List.mem_cons_self)) hc
  refine h.leads_keep hd .here (fun e y k hy hyx => ?_) hp fun p' hp' e => hno (e ▸ hp')
  by_cases hed : e = d
  · subst hed
    rw [hent]
    rcases List.mem_cons.mp (he.mem_iff.mp hy) with hyk | hyk
    · exact absurd (Prod.mk.inj hyk).1 (hyx rfl)
    · exact hyk
  · rwa [hother e hed]

/-- The name that was dropped leads nowhere. -/
theorem Tree.drop_gone (h : Tree r s) (hc : s.IsFile c) (he : (s.entries d).Perm ((x, c) :: es)) (hd : Leads s r q d) :
    ¬ Leads (s.drop d c es) r (q ++ [x]) a := by
  intro ha
  have ht := h.drop hc he
  have hmem : (x, c) ∈ s.entries d := he.mem_iff.mpr List.mem_cons_self
  obtain ⟨-, hent, -⟩ : _ ∧ (s.drop d c es).entries d = es ∧ _ := drop_entries (.of_mem hmem) hc
  have hd' : Leads (s.drop d c es) r q d := h.drop_leads hc he hd hd fun hpre => by
    have := hpre.length_le
    rw [List.length_append, List.length_singleton] at this
    omega
  obtain ⟨e, hq, hx⟩ := leads_append.mp ha
  obtain rfl := ht.leads_inj hq hd'
  have hin := List.mem_map_of_mem (f := Prod.fst) (leads_single.mp hx)
  rw [hent] at hin
  exact (List.nodup_cons.mp ((he.map Prod.fst).nodup_iff.mp (h.names e))).1 hin

section
variable [DecidableEq ν] (h : Tree r s) (hd : Leads s r q d) (hx : (x, c) ∈ s.entries d)

include h hd hx

theorem Tree.label_leads {o : List ν} (ho : Leads s r o a) (hp : Leads s a p b) (hno : ∀ p', p' ++ [x] <+: p → o ++ p' ≠ q) :
    Leads (s.label d x y) a p b := by
  obtain ⟨hent, -⟩ : (s.label d x y).entries d = _ ∧ _ := label_entries (.of_mem hx)
  refine h.leads_keep hd ho (fun e z k hz hzx => ?_) hp hno
  by_cases hed : e = d
  · subst hed
    rw [hent]
    refine List.mem_map.mpr ⟨(z, k), hz, if_neg (hzx rfl)⟩
  · have hother : (s.label d x y).entries e = s.entries e := entries_congr (setBody_ne hed)
    rwa [hother]

theorem Tree.label_dir : Leads (s.label d x y) r q d :=
  h.label_leads hd hx .here hd fun p' hp' e => by
    obtain rfl : p' = q := e
    have := hp'.length_le
    rw [List.length_append, List.length_singleton] at this
    omega

/-- What is below the entry moves along with it. -/
theorem Tree.label_moves (hp : Leads s c p b) : Leads (s.label d x y) r (q ++ y :: p) b := by
  have hlong : ∀ p', q ++ [x] ++ p' ≠ q := fun p' e => by
    have := congrArg List.length e
    rw [List.length_append, List.length_append, List.length_singleton] at this
    omega
  have hp' : Leads (s.label d x y) c p b := h.label_leads hd hx (hd.append (leads_single.mpr hx)) hp fun p' _ => hlong p'
  obtain ⟨hent, -⟩ : (s.label d x y).entries d = _ ∧ _ := label_entries (.of_mem hx)
  refine (h.label_dir hd hx).append (.down ?_ hp')
  rw [hent]
  exact List.mem_map.mpr ⟨(x, c), hx, if_pos rfl⟩

/-- The old name leads nowhere, and nothing is found below it. -/
theorem Tree.label_gone (hy : y ∉ s.names d) (hxy : y ≠ x) : ¬ Leads (s.label d x y) r (q ++ x :: p) b := by
  intro hb
  obtain ⟨hent, -⟩ : (s.label d x y).entries d = _ ∧ _ := label_entries (.of_mem hx)
  obtain ⟨d', hq, hrest⟩ := leads_append.mp hb
  obtain rfl := (h.label (.of_mem hx) (Or.inr hy)).leads_inj (h.label_dir hd hx) hq
  cases hrest with
  | down hx' _ =>
    rw [hent] at hx'
    obtain ⟨w, -, hw⟩ := List.mem_map.mp hx'
    split at hw
    · exact hxy (Prod.mk.inj hw).1
    · rename_i hne
      exact hne (congrArg Prod.fst hw)

end

end

/-- No directory is an entry of its own. -/
theorem Tree.not_self (h : Tree r s) : (x, a) ∉ s.entries a := by
  intro hx
  obtain ⟨p, hp⟩ := h.path (h.tree.live a a (List.mem_map_of_mem (f := Prod.snd) hx)).1
  have := congrArg List.length (h.path_inj hp (hp.append (leads_single.mpr hx)))
  rw [List.length_append, List.length_singleton] at this
  omega

end Store

end Lib

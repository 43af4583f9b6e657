/-
  TyrantFS.Fuse.Effects — what one call means to the later ones.

  A call changes what it names, and nothing else: as long as no call writes, truncates,
  unlinks or renames a path, or renames a directory above it, the path leads where it led,
  and a file there has the bytes it had (`run_keeps`). So a read returns what was written,
  in however many pieces and however long ago (`write_read`), and the attributes are those
  that were set (`set_stat`).
-/
import TyrantFS.Fuse.Growth

namespace TyrantFS

open Lib Lib.Store

variable {f f' : Fs} {c : Call} {r : Reply} {s s' s'' : Sys} {es : List Event} {path before before' name x y newName data bs : List UInt8}
  {a b d e i off size : Nat} {w w' : Attrs} {buff : Mem} {o : Obj (List UInt8) Nat Attrs UInt8}

/-- The call changes the file at the path, or where the path leads. -/
def Call.Touches : Call → List (List UInt8) → Prop
  | .write path _ _, p | .truncate path _, p => tokens path = p
  | .unlink path, p | .rename path _, p => tokens path <+: p
  | _, _ => False

/-- The call changes the attributes of what is at the path. -/
def Call.Labels : Call → List (List UInt8) → Prop
  | .chmod path _, p | .chown path _ _, p => tokens path = p
  | _, _ => False

/-- The file at `a`, after a call: its bytes, and its attributes if they are kept. -/
def FileKept (t t' : FileTree) (a : Nat) (labels : Prop) : Prop :=
  ∀ w bs, t a = some ⟨w, .file bs⟩ → ∃ w', t' a = some ⟨w', .file bs⟩ ∧ (¬ labels → w' = w)

theorem FileKept.same {t t' : FileTree} {l : Prop} (h : ∀ w bs, t a = some ⟨w, .file bs⟩ → t' a = t a) : FileKept t t' a l :=
  fun w bs ha => ⟨w, (h w bs ha).trans ha, fun _ => rfl⟩

/-- What a call does not touch stays where it is, with the bytes that it has. -/
theorem Does.keeps (h : Does f c r f') (ht : Lib.Store.Tree 4096 f.tree) (hat : f.At path a) (hn : ¬ c.Touches (tokens path)) :
    f'.At path a ∧ FileKept f.tree f'.tree a (c.Labels (tokens path)) := by
  have hdir : ∀ {w bs d}, f.tree a = some ⟨w, .file bs⟩ → f.tree.IsDir d → a ≠ d := by
    intro w bs d ha hdir heq
    obtain ⟨t, es, hd⟩ := hdir
    subst heq
    rw [ha] at hd
    cases hd
  have hmake : ∀ {d x b o l}, f.tree.IsDir d → f.tree b = none → Fresh o → Leads (f.tree.make d x b o) 4096 (tokens path) a ∧
      FileKept f.tree (f.tree.make d x b o) a l := fun {d x b o l} hd hb ho => ⟨make_leads hd hb ho hat, .same fun w bs ha => by
    rw [Store.make, setBody_ne (hdir ha hd), set_ne]
    intro heq
    subst heq
    rw [hb] at ha
    cases ha⟩
  have hattrs : ∀ {p b w l}, f.At p b → (tokens p = tokens path → l) →
      Leads (f.tree.setAttrs b w) 4096 (tokens path) a ∧ FileKept f.tree (f.tree.setAttrs b w) a l := fun {p b w l} hp hl =>
    ⟨setAttrs_leads hat, fun w' bs ha => by
      by_cases hab : a = b
      · subst hab
        exact ⟨w, by rw [Store.setAttrs, set_self, ha]; rfl, fun hno => absurd (hl (ht.path_inj hp hat)) hno⟩
      · exact ⟨w', by rw [Store.setAttrs, set_ne hab, ha], fun _ => rfl⟩⟩
  have hbody : ∀ {p b bs' l}, f.At p b → f.tree.IsFile b → tokens p ≠ tokens path →
      Leads (f.tree.setBody b (.file bs')) 4096 (tokens path) a ∧ FileKept f.tree (f.tree.setBody b (.file bs')) a l := fun {p b bs' l} hp hb hne =>
    ⟨setBody_leads hb hat, .same fun w bs ha => setBody_ne (by
      intro heq
      subst heq
      exact hne (ht.path_inj hp hat))⟩
  cases h with
  | missing | getattr | readdir | openFile | read | readEnd | mknodFull | mkdirFull | utime | flush => exact ⟨hat, .same fun _ _ _ => rfl⟩
  | write p data offset b w bs k hp hb => exact hbody hp ⟨w, bs, hb⟩ hn
  | truncate p length b w bs hp hb => exact hbody hp ⟨w, bs, hb⟩ hn
  | mknod p before name m d b _ _ hd _ hb => exact hmake hd hb (Or.inr ⟨[], rfl⟩)
  | mkdir p before name m d b _ _ hd _ hb => exact hmake hd hb (Or.inl rfl)
  | chmod p m b w o hp => exact hattrs hp id
  | chown p owner group b w o hp => exact hattrs hp id
  | unlink p before x d b es hl hx0 hd hb hperm =>
    have hno : ¬ tokens before ++ [x] <+: tokens path := by rwa [← tokens_splitLast hl hx0]
    refine ⟨ht.drop_leads hb hperm hd hat hno, .same fun w bs ha => ?_⟩
    have hmem := hperm.mem_iff.mpr List.mem_cons_self
    have hab : a ≠ b := by
      intro heq
      subst heq
      exact hno (ht.path_inj hat (hd.append (leads_single.mpr hmem)) ▸ List.prefix_refl _)
    show f.tree.drop d b es a = _
    rw [Store.drop, setBody_ne (hdir ha (.of_mem hmem)), set_ne hab]
  | rename p newName before x before' y d b hl hx0 _ hd hx _ =>
    have hno : ¬ tokens before ++ [x] <+: tokens path := by rwa [← tokens_splitLast hl hx0]
    exact ⟨ht.label_leads hd hx .here hat fun p' hp' e => hno (e ▸ hp'), .same fun w bs ha => setBody_ne (hdir ha (.of_mem hx))⟩

/-- The event changes attributes at the path. -/
def Event.Labels (ev : Event) (p : List (List UInt8)) : Prop := ∃ c r, ev = .call c r ∧ c.Labels p

theorem Sees.keeps {ev : Event} (h : Sees f ev f') (ht : Lib.Store.Tree 4096 f.tree) (hat : f.At path a)
    (hn : ∀ c r, ev = .call c r → ¬ c.Touches (tokens path)) : f'.At path a ∧ FileKept f.tree f'.tree a (ev.Labels (tokens path)) := by
  cases h with
  | call c r _ hd =>
    obtain ⟨hat', hk⟩ := hd.keeps ht hat (hn c r rfl)
    refine ⟨hat', fun w bs ha => ?_⟩
    obtain ⟨w', ha', hw⟩ := hk w bs ha
    exact ⟨w', ha', fun hno => hw fun hl => hno ⟨c, r, rfl, hl⟩⟩
  | mount => exact ⟨hat, .same fun _ _ _ => rfl⟩

/-- What a path leads to over a whole run that does not touch it. -/
theorem InOrder.keeps (h : InOrder s) (hs : Steps Serves s es s') (hq : ∀ c r, .call c r ∈ es → ¬ c.Touches (tokens path))
    (hat : s.vol.fs.At path a) :
    InOrder s' ∧ s'.vol.fs.At path a ∧ FileKept s.vol.tree s'.vol.tree a (∃ ev ∈ es, ev.Labels (tokens path)) := by
  refine hs.invariant (I := fun s1 => InOrder s1 ∧ s1.vol.fs.At path a ∧
    FileKept s.vol.tree s1.vol.tree a (∃ ev ∈ es, ev.Labels (tokens path))) (fun s1 ev s2 he ⟨hi, hat, hf⟩ hst => ?_)
    ⟨h, hat, .same fun _ _ _ => rfl⟩
  obtain ⟨hi2, hsee, -⟩ := hi.step hst
  obtain ⟨hat', hf'⟩ := hsee.keeps hi.tree hat fun c r hc => hq c r (hc ▸ he)
  refine ⟨hi2, hat', fun w bs ha => ?_⟩
  obtain ⟨w1, ha1, hw1⟩ := hf w bs ha
  obtain ⟨w2, ha2, hw2⟩ := hf' w1 bs ha1
  exact ⟨w2, ha2, fun hno => (hw2 fun hl => hno ⟨ev, he, hl⟩).trans (hw1 hno)⟩

/-- The calls that cannot fail on what is there. -/
def Call.Sure : Call → Prop
  | .truncate _ _ | .unlink _ | .rename _ _ | .utime _ _ _ | .chmod _ _ | .chown _ _ _ => True
  | _ => False

theorem Does.sure (h : Does f c r f') (hc : c.Sure) (hp : c.target = some path) (hat : f.At path a) : r = answer 0 := by
  cases h with
  | missing _ p hp' hno => exact absurd (Option.some.inj (hp'.symm.trans hp) ▸ hat) (hno a)
  | truncate | unlink | rename | utime | chmod | chown => rfl
  | getattr | readdir | openFile | read | readEnd | write | mknod | mkdir | mknodFull | mkdirFull | flush => exact hc.elim

/-- As long as nobody touches a path, it leads where it led, and to the same bytes. -/
theorem run_keeps (h : Reached s) (hs : Steps Serves s es s') (hq : ∀ c r, .call c r ∈ es → ¬ c.Touches (tokens path))
    (hat : s.vol.fs.At path a) :
    s'.vol.fs.At path a ∧ ∀ w bs, s.vol.tree a = some ⟨w, .file bs⟩ → ∃ w', s'.vol.tree a = some ⟨w', .file bs⟩ := by
  obtain ⟨-, hat', hk⟩ := h.inOrder.keeps hs hq hat
  refine ⟨hat', fun w bs ha => ?_⟩
  obtain ⟨w', ha', -⟩ := hk w bs ha
  exact ⟨w', ha'⟩

/-- Its mode is changed. -/
def lockFile : Call := .chmod [47, 97] 0x8100

theorem lockFile_allowed : withFile.vol.fs.Allowed lockFile := by
  obtain ⟨hpath, -, a, hat, ha⟩ := withFile_file
  refine ⟨hpath, by decide, fun a' hat' => iff_of_false ?_ (by decide)⟩
  obtain rfl := withFile_reached.inOrder.tree.leads_inj hat hat'
  intro hex
  obtain ⟨t, es, hd⟩ := hex
  exact absurd (ha.symm.trans hd) (by simp)

theorem lockFile_made : lockFile.run withFile = some (answer 0, lockFile.after withFile) := by
  obtain ⟨-, -, a, hat, -⟩ := withFile_file
  obtain ⟨r, hrun, hd⟩ := withFile_reached.inOrder.after lockFile_allowed
  rwa [hd.sure trivial rfl hat] at hrun

theorem run_keeps_small : ∃ a, withFile.vol.fs.At [47, 97] a ∧ (lockFile.after withFile).vol.fs.At [47, 97] a ∧
    ∀ w bs, withFile.vol.tree a = some ⟨w, .file bs⟩ → ∃ w', (lockFile.after withFile).vol.tree a = some ⟨w', .file bs⟩ := by
  obtain ⟨-, -, a, hat, -⟩ := withFile_file
  have hs : Steps Serves withFile [.call lockFile (answer 0)] (lockFile.after withFile) :=
    .cons (.call lockFile _ _ lockFile_allowed lockFile_made) .nil
  refine ⟨a, hat, run_keeps withFile_reached hs (fun c r hc => ?_) hat⟩
  obtain ⟨rfl, -⟩ := Event.call.inj (List.mem_singleton.mp hc)
  exact id

/-! ## Attributes -/

/-- What `tfs_chmod` and `tfs_chown` make of the attributes `w`, and where. -/
def Call.sets (w : Attrs) : Call → Option (List UInt8 × Attrs)
  | .chmod path m => some (path, ⟨m.toNat, w.userId, w.groupId⟩)
  | .chown path owner group => some (path, ⟨w.mode, owner.toNat, group.toNat⟩)
  | _ => none

theorem Does.stat (h : Does f (.getattr path) r f') (ht : Lib.Store.Tree 4096 f.tree) (hat : f.At path a) (hf : f.tree a = some o) :
    ∃ st, r = { answer 0 with stat := some st } ∧ Describes o a st := by
  cases h with
  | missing _ p htarget hno => exact absurd (Option.some.inj htarget ▸ hat) (hno a)
  | getattr _ a' o' st hat' hf' hst =>
    obtain rfl := ht.leads_inj hat hat'
    obtain rfl := Option.some.inj (hf.symm.trans hf')
    exact ⟨st, rfl, hst⟩

theorem Does.sets (h : Does f c (answer 0) f') (ht : Lib.Store.Tree 4096 f.tree) (hset : c.sets w = some (path, w')) (hat : f.At path a)
    (hf : f.tree a = some ⟨w, .file bs⟩) : f'.At path a ∧ f'.tree a = some ⟨w', .file bs⟩ := by
  have hattrs : ∀ {b u w0 b0}, f.At path b → f.tree b = some ⟨w0, b0⟩ → (w = w0 → u = w') →
      Leads (f.tree.setAttrs b u) 4096 (tokens path) a ∧ f.tree.setAttrs b u a = some ⟨w', .file bs⟩ := fun {b u w0 b0} hb hb0 hu => by
    obtain rfl := ht.leads_inj hat hb
    obtain rfl := hu (congrArg Obj.attrs (Option.some.inj (hf.symm.trans hb0)))
    exact ⟨setAttrs_leads hat, by rw [Store.setAttrs, set_self, hf]; rfl⟩
  generalize hr : answer 0 = r at h
  cases h with
  | chmod _ m b w0 b0 hb hb0 =>
    obtain ⟨rfl, hw⟩ := Prod.mk.inj (Option.some.inj hset)
    exact hattrs hb hb0 fun e => e ▸ hw
  | chown _ owner group b w0 b0 hb hb0 =>
    obtain ⟨rfl, hw⟩ := Prod.mk.inj (Option.some.inj hset)
    exact hattrs hb hb0 fun e => e ▸ hw
  | missing => exact absurd (congrArg Reply.status hr) (by decide)
  | getattr | readdir | openFile | read | readEnd | write | truncate | mknod | mkdir | mknodFull | mkdirFull | unlink | rename | utime | flush =>
    cases hset

/-- A new mode or owner is what `tfs_getattr` reports, until it is set again, with the
    inode's number, the one link and the size of the file. -/
theorem set_stat (h : Reached s) (hc : s.vol.fs.Allowed c) (hset : c.sets w = some (path, w')) (hat : s.vol.fs.At path a)
    (hf : s.vol.tree a = some ⟨w, .file bs⟩) (hrun : c.run s = some (answer 0, s')) (hs : Steps Serves s' es s'')
    (hq : ∀ c r, .call c r ∈ es → ¬ c.Touches (tokens path) ∧ ¬ c.Labels (tokens path)) :
    ∃ st s3, (Call.getattr path).run s'' = some ({ answer 0 with stat := some st }, s3) ∧ Describes ⟨w', .file bs⟩ a st := by
  have hplain : Plain (tokens path) := by
    cases c <;> cases hset
    · exact hc.1.plain
    · exact hc.plain
  obtain ⟨hi, hsee, -⟩ := h.inOrder.step (.call _ _ _ hc hrun)
  obtain ⟨hat1, hf1⟩ := hsee.call_inv.sets h.inOrder.tree hset hat hf
  obtain ⟨hi2, hat2, hk⟩ := hi.keeps hs (fun c r hc => (hq c r hc).1) hat1
  obtain ⟨w2, hf2, hw2⟩ := hk w' bs hf1
  obtain rfl := hw2 fun ⟨ev, he, c, r, hev, hl⟩ => (hq c r (hev ▸ he)).2 hl
  obtain ⟨r, s3, hrun3, -, hd, -⟩ := hi2.does (c := .getattr path) ⟨hplain, hi2.tree.walkable hat2⟩
  obtain ⟨st, rfl, hst⟩ := hd.stat hi2.tree hat2 hf2
  exact ⟨st, s3, hrun3, hst⟩

theorem set_stat_small : ∃ a st s3, (Call.getattr [47, 97]).run ⟨(lockFile.after withFile).vol.mounted .still 3, 0⟩ =
    some ({ answer 0 with stat := some st }, s3) ∧ Describes ⟨⟨0x8100, 0, 0⟩, .file []⟩ a st := by
  obtain ⟨-, -, a, hat, ha⟩ := withFile_file
  have hs : Steps Serves (lockFile.after withFile) [.mount .still 3] ⟨(lockFile.after withFile).vol.mounted .still 3, 0⟩ :=
    .cons (.mount .still 3 _ (by decide) (mount_eq (by decide))) .nil
  refine ⟨a, set_stat withFile_reached lockFile_allowed rfl hat ha lockFile_made hs fun c r hc => ?_⟩
  cases List.mem_singleton.mp hc

/-! ## Writing and reading -/

/-- The file at the path `p` is written piece after piece, from byte `off` on. Whatever
    happens in between does not touch it. -/
inductive Streams (p : List (List UInt8)) : Nat → List Event → List UInt8 → Prop
  | nil {off : Nat} : Streams p off [] []
  | other {off : Nat} {ev : Event} {es : List Event} {data : List UInt8} :
      (∀ c r, ev = .call c r → ¬ c.Touches p) → Streams p off es data → Streams p off (ev :: es) data
  | piece {off : Nat} {path d : List UInt8} {es : List Event} {data : List UInt8} :
      tokens path = p → Streams p (off + d.length) es data →
      Streams p off (.call (.write path d off) (answer d.length) :: es) (d ++ data)

/-- A write that was answered in full. -/
theorem Does.writes (h : Does f (.write path data off) (answer data.length) f') (ht : Lib.Store.Tree 4096 f.tree) (hat : f.At path a)
    (hf : f.tree a = some ⟨w, .file bs⟩) : f'.At path a ∧ f'.tree a = some ⟨w, .file (overlay bs off data)⟩ := by
  generalize hr : answer data.length = r at h
  cases h with
  | missing _ p htarget hno => exact absurd (Option.some.inj htarget ▸ hat) (hno a)
  | write _ _ _ a' w' bs' k hat' hf' hoff hk =>
    obtain ⟨rfl, rfl, rfl⟩ := hat.file_inj ht hf hat' hf'
    obtain rfl : data.length = k := Int.ofNat_inj.mp (congrArg Reply.status hr)
    refine ⟨setBody_leads ⟨w, bs, hf⟩ hat, ?_⟩
    show f.tree.setBody a _ a = _
    rw [setBody_self, hf, List.take_length]
    rfl

/-- The pieces end up next to each other. -/
theorem Streams.writes (h : Streams (tokens path) off es data) (hi : InOrder s) (hs : Steps Serves s es s') (hat : s.vol.fs.At path a)
    (hf : s.vol.tree a = some ⟨w, .file bs⟩) (hoff : off ≤ bs.length) :
    InOrder s' ∧ s'.vol.fs.At path a ∧ ∃ w', s'.vol.tree a = some ⟨w', .file (overlay bs off data)⟩ := by
  generalize hp : tokens path = p at h
  induction h generalizing s w bs with
  | nil =>
    cases hs
    exact ⟨hi, hat, w, by rw [hf, overlay_nil]⟩
  | other hq _ ih =>
    cases hs with
    | cons hst hs =>
      obtain ⟨hi', hsee, -⟩ := hi.step hst
      obtain ⟨hat', hf'⟩ := hsee.keeps hi.tree hat fun c r hc => hp ▸ hq c r hc
      obtain ⟨w', ha', -⟩ := hf' w bs hf
      exact ih hi' hs hat' ha' hoff
  | @piece off path' d _ _ hpath _ ih =>
    cases hs with
    | cons hst hs =>
      obtain ⟨hi', hsee, -⟩ := hi.step hst
      have hat1 : s.vol.fs.At path' a := by
        rw [Fs.At, hpath, ← hp]
        exact hat
      obtain ⟨hat', ha'⟩ : _ ∧ _ := hsee.call_inv.writes hi.tree hat1 hf
      obtain ⟨hi2, hat2, w2, ha2⟩ := ih hi' hs (by rw [Fs.At, hp, ← hpath]; exact hat') ha' (by rw [length_overlay hoff]; omega)
      exact ⟨hi2, hat2, w2, by rw [ha2, overlay_overlay hoff]⟩

/-- A read within a file. -/
theorem Does.reads (h : Does f (.read path buff size off) r f') (ht : Lib.Store.Tree 4096 f.tree) (hat : f.At path a)
    (hf : f.tree a = some ⟨w, .file bs⟩) (hoff : off < bs.length) :
    r = { answer (min size (bs.length - off) : Nat) with bytes := (bs.drop off).take size } := by
  cases h with
  | missing _ p htarget hno => exact absurd (Option.some.inj htarget ▸ hat) (hno a)
  | read _ _ _ _ a' w' bs' hat' hf' _ =>
    obtain ⟨-, -, rfl⟩ := hat.file_inj ht hf hat' hf'
    rfl
  | readEnd _ _ _ _ a' w' bs' hat' hf' hend =>
    obtain ⟨-, -, rfl⟩ := hat.file_inj ht hf hat' hf'
    omega

/-- What was written, in pieces and with any other calls between them and after them, is
    what a read returns. -/
theorem write_read (h : Reached s) (hpath : s.vol.fs.Path path) (hs : Steps Serves s es s') (hst : Streams (tokens path) off es data)
    (hat : s.vol.fs.At path a) (hf : s.vol.tree a = some ⟨w, .file bs⟩) (hoff : off ≤ bs.length) (h0 : 0 < size) (hi : i + size ≤ data.length)
    (hsize : size < 2 ^ 31) (hsum : off + i + size < 2 ^ 63) :
    ∃ s'', (Call.read path buff size (off + i)).run s' = some ({ answer size with bytes := (data.drop i).take size }, s'') := by
  obtain ⟨hord, hat', w', hf'⟩ := hst.writes h.inOrder hs hat hf hoff
  have hlen : (overlay bs off data).length = max bs.length (off + data.length) := length_overlay hoff
  obtain ⟨r, s'', hrun, -, hd, -⟩ := hord.does (c := .read path buff size (off + i)) ⟨⟨hpath.plain, hord.tree.walkable hat'⟩, fun a' ha' => by
    obtain rfl := hord.tree.leads_inj hat' ha'
    exact ⟨w', _, hf'⟩, hsize, hsum⟩
  have hr := hd.reads hord.tree hat' hf' (by omega)
  rw [show min size ((overlay bs off data).length - (off + i)) = size by omega, take_drop_overlay hoff hi] at hr
  exact ⟨s'', hr ▸ hrun⟩

theorem write_read_small : ∃ s'', (Call.read [47, 97] zeros 2 1).run ⟨withBytes.vol.mounted .still 3, 0⟩ =
    some ({ answer 2 with bytes := [2, 3] }, s'') := by
  obtain ⟨hpath, -, a, hat, ha⟩ := withFile_file
  have hs : Steps Serves withFile [.call writeFile (answer 3), .mount .still 3] ⟨withBytes.vol.mounted .still 3, 0⟩ :=
    .cons (.call writeFile _ _ writeFile_allowed withBytes_made) (.cons (.mount .still 3 _ (by decide) (mount_eq (by decide))) .nil)
  have hst : Streams (tokens [47, 97]) 0 [.call writeFile (answer 3), .mount .still 3] [1, 2, 3] :=
    .piece (d := [1, 2, 3]) rfl (.other (fun c r hc => by cases hc) .nil)
  show ∃ s'', (Call.read [47, 97] zeros 2 (0 + 1)).run _ = some ({ answer (2 : Nat) with bytes := ([1, 2, 3].drop 1).take 2 }, s'')
  exact write_read withFile_reached hpath hs hst hat ha (by decide) (by decide) (by decide) (by decide) (by decide)

end TyrantFS

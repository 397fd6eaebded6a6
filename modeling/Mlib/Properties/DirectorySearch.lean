import Mlib.Properties.CopiedPaths
import Mlib.Properties.DroppedPrefix

/-! What a search of a directory tree finds. Each directory is gone through twice, and the second time `ret`
is tested behind every entry, whether a subdirectory has set it or not. -/
namespace Mlib
open Foundation

def joined (path file : CStr) : CStr := ⟨path.val ++ slash :: file.val, fun h => by
  rcases List.mem_append.mp h with h | h
  · exact path.2 h
  · exact file.2 ((List.mem_cons.mp h).resolve_left (by decide))⟩

mutual

/-- The directories that an entry of a directory brings, each with its path, in the order in which they are searched. -/
def Entry.dirs (cwd : CStr) : Entry → List (CStr × List Entry)
  | .dir name ents => (joined cwd name, ents) :: subdirs (joined cwd name) ents
  | _ => []

def subdirs (cwd : CStr) : List Entry → List (CStr × List Entry)
  | [] => []
  | ent :: ents => ent.dirs cwd ++ subdirs cwd ents

end

def allDirs (cwd : CStr) (ents : List Entry) : List (CStr × List Entry) := (cwd, ents) :: subdirs cwd ents

def filesIn (cwd : CStr) (ents : List Entry) : List CStr := (ents.filter (!·.isDir)).map (joined cwd ·.dName)

def filesOf (dirs : List (CStr × List Entry)) : List CStr := dirs.flatMap fun (cwd, ents) => filesIn cwd ents

def Entry.IsSub : Entry → Prop
  | .dir _ _ => True
  | _ => False

/-- By the time `ret` is tested it is zero, or the search of a subdirectory has set it. -/
def RetSet (ret : Int) : List Entry → Prop
  | [] => True
  | ent :: _ => ret = 0 ∨ ent.IsSub

/-- What `drop_prefix` leaves of a path. -/
def dropped (mediaPrefix file : CStr) : Outcome CStr := do
  let off ← dropPrefix file.mem mediaPrefix.mem
  readStr (file.mem.drop off)

namespace Genlib
variable (g : Genlib)

def passes (mediaPrefix file : CStr) : Outcome Bool := do
  let off ← dropPrefix file.mem mediaPrefix.mem
  g.filter file.mem off

def accepted (mediaPrefix file : CStr) : Option CStr :=
  match dropped mediaPrefix file, g.passes mediaPrefix file with
  | .ok elem, .ok true => some elem
  | _, _ => none

def added (mediaPrefix : CStr) (r : Record) (file : CStr) : Record :=
  match g.accepted mediaPrefix file with
  | none => r
  | some elem => r.holding elem

/-- Each file in its turn: the prefix can be dropped, and the name is in `.global` by then, or the filter comes
back. -/
def AllAnswer (mediaPrefix : CStr) : Record → List CStr → Prop
  | _, [] => True
  | r, file :: files =>
    (∃ elem, dropped mediaPrefix file = .ok elem ∧
      (elem ∈ r.paths ∨ ∃ pass, g.passes mediaPrefix file = .ok pass)) ∧
      AllAnswer mediaPrefix (g.added mediaPrefix r file) files

/-- What the search of these directories takes: `ret` is set where it is tested, all files answer, and the
library with their names stays below 4 GiB. -/
structure Finishes (I : Image) (l u : List Record) (r : Record) (dirs : List (CStr × List Entry)) : Prop where
  set : ∀ dir ∈ dirs, RetSet (g.garbage dir.1) dir.2
  answer : g.AllAnswer I.mediaPrefix r (filesOf dirs)
  size : (I.withRecs (l ++ (filesOf dirs).foldl (g.added I.mediaPrefix) r :: u)).size < 2 ^ 32

/-- The search returns zero, and `.global` has its old paths and the names of all files that pass, and no others. -/
def FindsAll (mediaPrefix : CStr) (s : Lib) (cwd : CStr) (ents : List Entry) : Prop :=
  ∃ t, g.doSearch cwd ents s = .ok (some 0, t) ∧ ∀ p, HasPath g.env.endian t.mem dotGlobal p ↔
    HasPath g.env.endian s.mem dotGlobal p ∨ ∃ file ∈ filesOf (allDirs cwd ents),
      g.accepted mediaPrefix file = some p

end Genlib

/-- The code comes back with the value under just this condition, and then with the image. -/
structure Comes {α : Type} (b : Nat) (o : Outcome (α × Lib)) (a : α) (C : Prop) (I : Image) : Prop where
  back : C → ∃ t, o = .ok (a, t) ∧ Holds b I t
  only : ∀ t, o = .ok (a, t) → C

section
variable {α β : Type} {b : Nat} {o : Outcome (α × Lib)} {a : α} {c : β} {C D : Prop} {I I' : Image} {s : Lib}

theorem Comes.iff (h : Comes b o a C I) (hC : C ↔ D) : Comes b o a D I :=
  ⟨fun hD => h.back (hC.mpr hD), fun t ho => hC.mp (h.only t ho)⟩

theorem Comes.here (h : Holds b I s) (ho : o = .ok (a, s)) : Comes b o a True I :=
  ⟨fun _ => ⟨s, ho, h⟩, fun _ _ => trivial⟩

theorem Comes.never (I : Image) (ho : ∀ t, o ≠ .ok (a, t)) (hC : ¬ C) : Comes b o a C I :=
  ⟨fun h => absurd h hC, fun t h => absurd h (ho t)⟩

/-- One step after the other, where the second one needs the value of the first. -/
theorem Comes.bind {x : Op α} {f : α → Op β} (hx : Comes b (x s) a C I)
    (hf : ∀ t, Holds b I t → Comes b (f a t) c D I')
    (hother : ∀ a' t t', a' ≠ a → f a' t ≠ .ok (c, t')) : Comes b ((x >>= f) s) c (C ∧ D) I' where
  back := by
    rintro ⟨hC, hD⟩
    obtain ⟨t, ht, hI⟩ := hx.back hC
    rw [Op.step ht]
    exact (hf t hI).back hD
  only t' h := by
    cases hxs : x s with
    | error why => cases (Op.step_fails hxs).symm.trans h
    | ok res =>
      obtain ⟨a', t⟩ := res
      rw [Op.step hxs] at h
      by_cases ha : a' = a
      · subst a'
        obtain ⟨t'', ht, hI⟩ := hx.back (hx.only t hxs)
        cases hxs.symm.trans ht
        exact ⟨hx.only t hxs, (hf t hI).only t' h⟩
      · exact absurd h (hother a' t t' ha)

end

variable {g : Genlib} {b : Nat} {I I' : Image} {l u : List Record} {r r' : Record} {s : Lib} {cwd mediaPrefix file p q : CStr}
  {ent : Entry} {ents : List Entry} {files : List CStr} {dirs : List (CStr × List Entry)} {n : Nat}

/-- The combined path fills its block, whatever stood there. -/
theorem pathCombine_joined {malloc : Nat → Bytes} (hlen : ∀ n, (malloc n).length = n) (path file : CStr) :
    pathCombine malloc path file = .ok (joined path file).mem := by
  obtain ⟨c, rest, hblock⟩ : ∃ c rest, malloc (path.val.length + file.val.length + 2) = c :: rest := by
    cases hm : malloc (path.val.length + file.val.length + 2) with
    | nil =>
      have := hlen (path.val.length + file.val.length + 2)
      rw [hm, List.length_nil] at this
      omega
    | cons c rest => exact ⟨c, rest, rfl⟩
  have hrest : rest.length = path.val.length + file.val.length + 1 := by
    have := hlen (path.val.length + file.val.length + 2)
    rw [hblock, List.length_cons] at this
    omega
  have hstart : put (c :: rest) 0 [0] = .ok ([] ++ 0 :: rest) := put_fits (by simp)
  have hslash : (0 : UInt8) ∉ path.val ++ [slash] := by
    rw [List.mem_append, not_or]
    exact ⟨path.2, by decide⟩
  have hfull : ((rest.drop path.val.length).drop 1).drop file.val.length = [] :=
    List.drop_eq_nil_of_le (by simp only [List.length_drop]; omega)
  have hsep : ([slash, 0] : Bytes) = [slash] ++ 0 :: [] := rfl
  rw [pathCombine, CStr.mem, CStr.mem, strlen_string path.val path.2, ok_bind,
    strlen_string file.val file.2, ok_bind,
    hblock, hstart, ok_bind, strcat_fits List.not_mem_nil path.2 (by omega), ok_bind, List.nil_append, hsep,
    strcat_fits path.2 (by decide) (by simp only [List.length_singleton, List.length_drop]; omega), ok_bind,
    strcat_fits hslash file.2 (by simp only [List.length_singleton, List.length_drop]; omega), List.length_singleton, hfull]
  simp [joined, CStr.mem]

/-- What stands behind the prefix is not read. -/
theorem dropPrefix_stop (path mediaPrefix : CStr) (rest : Bytes) :
    dropPrefix path.mem (mediaPrefix.val ++ 0 :: rest) = dropPrefix path.mem mediaPrefix.mem := by
  have hfrom : ∀ str pre : Bytes, (0 : UInt8) ∉ str →
      dropPrefixFrom (str ++ [0]) (pre ++ 0 :: rest) = dropPrefixFrom (str ++ [0]) (pre ++ [0]) := by
    intro str pre hstr
    induction str generalizing pre with
    | nil =>
      cases pre with
      | nil => cases rest <;> rfl
      | cons d pre => rfl
    | cons c str ih =>
      have hc : c ≠ 0 := fun hc => hstr (hc ▸ List.mem_cons_self)
      cases pre with
      | nil =>
        rw [List.nil_append, List.nil_append, List.cons_append, dropPrefixFrom, dropPrefixFrom, if_neg hc, if_neg hc]
      | cons d pre =>
        rw [List.cons_append, List.cons_append, List.cons_append, dropPrefixFrom, dropPrefixFrom,
          ih pre fun h => hstr (List.mem_cons_of_mem c h)]
  rw [dropPrefix, dropPrefix, CStr.mem, CStr.mem, hfrom path.val mediaPrefix.val path.2]

theorem Image.Finds.with (hf : I.Finds q l r u) (hname : r'.name = r.name) :
    (I.withRecs (l ++ r' :: u)).Finds q l r' u :=
  ⟨rfl, hname.trans hf.name, hf.first⟩

/-- The image with the record that it has. -/
theorem Image.Finds.same (hf : I.Finds q l r u) : I.withRecs (l ++ r :: u) = I := by
  rw [← hf.recs, Image.withRecs_self]

theorem Genlib.added_name (g : Genlib) (mediaPrefix : CStr) (r : Record) (file : CStr) :
    (g.added mediaPrefix r file).name = r.name := by
  unfold Genlib.added
  split
  · rfl
  · exact r.holding_name _

theorem Genlib.added_length_le (g : Genlib) (mediaPrefix : CStr) (r : Record) (file : CStr) :
    r.length ≤ (g.added mediaPrefix r file).length := by
  unfold Genlib.added
  split
  · exact Nat.le_refl _
  · rw [r.holding_length]
    exact Nat.le_add_right _ _

/-- The files that were added. -/
theorem Genlib.mem_added (g : Genlib) (mediaPrefix : CStr) (r : Record) (file p : CStr) :
    p ∈ (g.added mediaPrefix r file).paths ↔ p ∈ r.paths ∨ g.accepted mediaPrefix file = some p := by
  unfold Genlib.added
  cases g.accepted mediaPrefix file with
  | none => simp
  | some elem =>
    dsimp only
    rw [r.mem_holding, or_comm, Option.some.injEq, eq_comm (a := p)]

/-- What a fold over the files adds to `.global`. -/
theorem Genlib.foldl_added_name (g : Genlib) (mediaPrefix : CStr) (r : Record) (files : List CStr) :
    (files.foldl (g.added mediaPrefix) r).name = r.name := by
  induction files generalizing r with
  | nil => rfl
  | cons file files ih => exact (ih _).trans (g.added_name mediaPrefix r file)

theorem Genlib.foldl_added_length_le (g : Genlib) (mediaPrefix : CStr) (r : Record) (files : List CStr) :
    r.length ≤ (files.foldl (g.added mediaPrefix) r).length := by
  induction files generalizing r with
  | nil => exact Nat.le_refl _
  | cons file files ih => exact (g.added_length_le mediaPrefix r file).trans (ih _)

theorem Genlib.mem_foldl_added (g : Genlib) (mediaPrefix : CStr) (r : Record) (files : List CStr) (p : CStr) :
    p ∈ (files.foldl (g.added mediaPrefix) r).paths ↔
      p ∈ r.paths ∨ ∃ file ∈ files, g.accepted mediaPrefix file = some p := by
  induction files generalizing r with
  | nil => simp
  | cons file files ih =>
    rw [List.foldl_cons, ih, g.mem_added, or_assoc, List.exists_mem_cons_iff]

theorem size_with_le (I : Image) (l u : List Record) (h : r.length ≤ r'.length) :
    (I.withRecs (l ++ r :: u)).size ≤ (I.withRecs (l ++ r' :: u)).size := by
  rw [Image.size_split (rfl : (I.withRecs (l ++ r :: u)).recs = _),
    Image.size_split (rfl : (I.withRecs (l ++ r' :: u)).recs = _)]
  omega

/-- A path that `.global` has not got is added to it just if the library stays below 4 GiB. -/
theorem addPath_comes {env : Env} (hc : env.Calm) (h : Holds b I s) (hf : I.Finds dotGlobal l r u)
    (hp : p ∉ r.paths) :
    Comes b (mlibAddPath env dotGlobal (.own p) s) 0 ((I.withRecs (l ++ r.holding p :: u)).size < 2 ^ 32)
      (I.withRecs (l ++ r.holding p :: u)) := by
  have hroom := roundsFor_room r.gap p.mem.length
  have hgap : r.gap ≤ I.size := by
    rw [Image.size_split hf.recs, Record.length, Record.bucketLength, Record.indexOffs]
    omega
  rw [addPath_toGlobal h hf, Record.holding_new hp]
  constructor
  · intro hsize
    rw [size_add hf.recs, Record.rounds] at hsize
    obtain ⟨t, hx, ht, -⟩ := h.added hc hf.recs hp (by omega) hsize
    exact ⟨t, hx, ht⟩
  · intro t hx
    rcases addPathToPlist_takes hc h hf p with ⟨ret, I', k, s', hx', hstep, hI', -⟩ | ⟨hx', -⟩
    · cases hx.symm.trans hx'
      cases hstep with
      | added hf' hp' =>
        cases hf.found.symm.trans hf'.found
        have hsize := hI'.size
        rw [size_add hf'.recs] at hsize
        rwa [size_add hf.recs]
    · cases hx.symm.trans hx'

/-- What `drop_prefix` leaves of a path is a string in it. -/
theorem dropped_eq (h : dropPrefix file.mem mediaPrefix.mem = .ok n) :
    ∃ elem, readStr (file.mem.drop n) = .ok elem := by
  rcases prefix_or_differ file.val mediaPrefix.val with hpath | ⟨s, c, t, hpath, hpre⟩
  · cases (dropPrefix_fault mediaPrefix.2 hpath).symm.trans h
  · obtain ⟨off, name, hoff, hmem, -⟩ := dropPrefix_answers hpath hpre
    cases hoff.symm.trans h
    exact ⟨name, hmem ▸ readStr_mem name⟩

theorem Genlib.added_new (hdropped : dropped mediaPrefix file = .ok p)
    (hpass : g.passes mediaPrefix file = .ok true) :
    g.added mediaPrefix r file = r.holding p := by
  rw [Genlib.added, Genlib.accepted, hdropped, hpass]

/-- A name that `.global` has, or that does not pass, adds nothing. -/
theorem Genlib.added_kept (hdropped : dropped mediaPrefix file = .ok p)
    (h : p ∈ r.paths ∨ g.passes mediaPrefix file = .ok false) : g.added mediaPrefix r file = r := by
  by_cases hpass : g.passes mediaPrefix file = .ok true
  · rw [Genlib.added_new hdropped hpass, Record.holding_present]
    exact h.resolve_right fun hfalse => by cases hpass.symm.trans hfalse
  · rw [Genlib.added, Genlib.accepted, hdropped]
    split
    · rfl
    · split at *
      · contradiction
      · contradiction

/-- A directory is left to the second loop. -/
theorem addEntry_dir (h : Holds b I s) (hf : I.Finds dotGlobal l r u) (hdir : ent.isDir = true) :
    g.addEntry cwd ent s = .ok (true, s) := by
  rw [Genlib.addEntry, Op.step (look_ok (pathCombine_joined g.malloc_length cwd ent.dName)),
    Op.step (findPlaylist_finds h hf)]
  dsimp only
  rw [hdir]
  rfl

/-- What is done with a file goes by its dropped name, by what `.global` has, and by the filter. -/
theorem addEntry_dropped (h : Holds b I s) (hf : I.Finds dotGlobal l r u) (hfile : ent.isDir = false) :
    g.addEntry cwd ent s =
      match dropped I.mediaPrefix (joined cwd ent.dName) with
      | .error why => .error why
      | .ok elem =>
        if elem ∈ r.paths then .ok (true, s)
        else match g.passes I.mediaPrefix (joined cwd ent.dName) with
          | .error why => .error why
          | .ok false => .ok (true, s)
          | .ok true => (do return (← mlibAddPath g.env dotGlobal (.own elem)) = 0 : Op Bool) s := by
  obtain ⟨rest, hrest⟩ := @libPrefix_view b I I.size (recsBytes I.recs)
  have hpre : mlibLibPrefix s.mem = I.mediaPrefix.val ++ 0 :: rest := by rw [h.shows.mem, I.bytes_eq, hrest]
  set file := joined cwd ent.dName with hjoined
  have hlook : look (fun m => dropPrefix file.mem (mlibLibPrefix m)) s =
      (fun off => (off, s)) <$> dropPrefix file.mem I.mediaPrefix.mem := by
    rw [look, hpre, dropPrefix_stop]
  rw [Genlib.addEntry, Op.step (look_ok (pathCombine_joined g.malloc_length cwd ent.dName)),
    Op.step (findPlaylist_finds h hf)]
  dsimp only
  rw [hfile, ← hjoined, if_neg Bool.false_ne_true, dropped, Genlib.passes]
  cases hoff : dropPrefix file.mem I.mediaPrefix.mem with
  | error why =>
    rw [hoff, map_error] at hlook
    exact Op.step_fails hlook
  | ok off =>
    obtain ⟨elem, helem⟩ := dropped_eq hoff
    obtain ⟨found, hfound, hiff⟩ := @findPath_image g.env.endian b I l u r hf.recs h.size elem
    rw [hoff, map_ok] at hlook
    rw [Op.step hlook, Op.step (look_ok helem), Op.step (look_ok (h.shows.mem ▸ hfound)), ok_bind,
      ok_bind, helem]
    dsimp only
    by_cases hp : elem ∈ r.paths
    · rw [if_pos (hiff.mpr hp), if_pos hp]
      rfl
    · rw [if_neg (hiff.not.mpr hp), if_neg hp]
      cases g.filter file.mem off with
      | error why => rfl
      | ok pass =>
        cases pass with
        | false => rfl
        | true => rfl

theorem addEntry_file (hc : g.env.Calm) (h : Holds b I s) (hf : I.Finds dotGlobal l r u)
    (hfile : ent.isDir = false) :
    Comes b (g.addEntry cwd ent s) true
      ((∃ elem, dropped I.mediaPrefix (joined cwd ent.dName) = .ok elem ∧
          (elem ∈ r.paths ∨ ∃ pass, g.passes I.mediaPrefix (joined cwd ent.dName) = .ok pass)) ∧
        (I.withRecs (l ++ g.added I.mediaPrefix r (joined cwd ent.dName) :: u)).size < 2 ^ 32)
      (I.withRecs (l ++ g.added I.mediaPrefix r (joined cwd ent.dName) :: u)) := by
  rw [addEntry_dropped h hf hfile]
  cases hdropped : dropped I.mediaPrefix (joined cwd ent.dName) with
  | error why =>
    refine .never _ (fun t ht => by cases ht) ?_
    rintro ⟨⟨elem, helem, -⟩, -⟩
    cases helem
  | ok elem =>
    dsimp only
    by_cases hp : elem ∈ r.paths
    · rw [if_pos hp, Genlib.added_kept hdropped (Or.inl hp), hf.same]
      exact (Comes.here h rfl).iff (iff_of_true trivial ⟨⟨elem, rfl, Or.inl hp⟩, h.size⟩)
    rw [if_neg hp]
    cases hpass : g.passes I.mediaPrefix (joined cwd ent.dName) with
    | error why =>
      refine .never _ (fun t ht => by cases ht) ?_
      rintro ⟨⟨elem', helem', hanswer⟩, -⟩
      cases helem'
      obtain ⟨pass, hpass⟩ := hanswer.resolve_left hp
      cases hpass
    | ok pass =>
      rw [and_iff_right ⟨elem, rfl, Or.inr ⟨pass, rfl⟩⟩]
      cases pass with
      | false =>
        rw [Genlib.added_kept hdropped (Or.inr hpass), hf.same]
        exact (Comes.here h rfl).iff (iff_of_true trivial h.size)
      | true =>
        rw [Genlib.added_new hdropped hpass]
        refine (Comes.bind (addPath_comes hc h hf hp) (fun t ht => .here ht rfl) ?_).iff (iff_of_eq (and_true _))
        intro ret t t' hret hx
        injection hx with hx
        exact hret (of_decide_eq_true (Prod.ext_iff.mp hx).1)

theorem addEntries_comes (hc : g.env.Calm) (h : Holds b I s) (hf : I.Finds dotGlobal l r u) (cwd : CStr)
    (ents : List Entry) :
    Comes b (g.addEntries cwd ents s) true
      (g.AllAnswer I.mediaPrefix r (filesIn cwd ents) ∧
        (I.withRecs (l ++ (filesIn cwd ents).foldl (g.added I.mediaPrefix) r :: u)).size < 2 ^ 32)
      (I.withRecs (l ++ (filesIn cwd ents).foldl (g.added I.mediaPrefix) r :: u)) := by
  induction ents generalizing I r s with
  | nil =>
    exact (Comes.here (hf.same.symm ▸ h) rfl).iff (iff_of_true trivial ⟨trivial, hf.same.symm ▸ h.size⟩)
  | cons ent ents ih =>
    rw [Genlib.addEntries]
    cases hdir : ent.isDir with
    | true =>
      have hskip : filesIn cwd (ent :: ents) = filesIn cwd ents := by simp [filesIn, hdir]
      rw [Op.step (addEntry_dir h hf hdir), if_pos rfl, hskip]
      exact ih h hf
    | false =>
      have htake : filesIn cwd (ent :: ents) = joined cwd ent.dName :: filesIn cwd ents := by
        simp [filesIn, hdir]
      rw [htake, List.foldl_cons]
      have hname := g.added_name I.mediaPrefix r (joined cwd ent.dName)
      refine (Comes.bind (addEntry_file hc h hf hdir) (fun t ht => ih ht (hf.with hname)) ?_).iff ?_
      · intro alive t t' halive hx
        rw [if_neg halive] at hx
        cases hx
      · have hle := size_with_le I l u (g.foldl_added_length_le I.mediaPrefix
          (g.added I.mediaPrefix r (joined cwd ent.dName)) (filesIn cwd ents))
        rw [Genlib.AllAnswer]
        constructor
        · rintro ⟨⟨hanswer, -⟩, hall, hsize⟩
          exact ⟨⟨hanswer, hall⟩, hsize⟩
        · rintro ⟨⟨hanswer, hall⟩, hsize⟩
          exact ⟨⟨hanswer, hle.trans_lt hsize⟩, hall, hsize⟩

theorem Genlib.allAnswer_append (g : Genlib) (mediaPrefix : CStr) (r : Record) (files files' : List CStr) :
    g.AllAnswer mediaPrefix r (files ++ files') ↔
      g.AllAnswer mediaPrefix r files ∧ g.AllAnswer mediaPrefix (files.foldl (g.added mediaPrefix) r) files' := by
  induction files generalizing r with
  | nil => exact (iff_of_eq (true_and _)).symm
  | cons file files ih =>
    rw [List.cons_append, Genlib.AllAnswer, ih, Genlib.AllAnswer, List.foldl_cons, and_assoc]

/-- The directories that are searched are finished one after the other. -/
theorem Genlib.finishes_append (g : Genlib) (I : Image) (l u : List Record) (r : Record)
    (dirs dirs' : List (CStr × List Entry)) :
    g.Finishes I l u r (dirs ++ dirs') ↔ g.Finishes I l u r dirs ∧
      g.Finishes (I.withRecs (l ++ (filesOf dirs).foldl (g.added I.mediaPrefix) r :: u)) l u
        ((filesOf dirs).foldl (g.added I.mediaPrefix) r) dirs' := by
  have hfiles : filesOf (dirs ++ dirs') = filesOf dirs ++ filesOf dirs' := List.flatMap_append
  have hle := size_with_le I l u (g.foldl_added_length_le I.mediaPrefix ((filesOf dirs).foldl (g.added I.mediaPrefix) r)
    (filesOf dirs'))
  constructor
  · rintro ⟨hset, hanswer, hsize⟩
    rw [hfiles, g.allAnswer_append] at hanswer
    rw [hfiles, List.foldl_append] at hsize
    exact ⟨⟨fun dir hdir => hset dir (List.mem_append_left _ hdir), hanswer.1, hle.trans_lt hsize⟩,
      ⟨fun dir hdir => hset dir (List.mem_append_right _ hdir), hanswer.2, hsize⟩⟩
  · rintro ⟨⟨hset, hanswer, -⟩, hset', hanswer', hsize⟩
    refine ⟨fun dir hdir => ?_, ?_, ?_⟩
    · rcases List.mem_append.mp hdir with hdir | hdir
      · exact hset dir hdir
      · exact hset' dir hdir
    · rw [hfiles, g.allAnswer_append]
      exact ⟨hanswer, hanswer'⟩
    · rw [hfiles, List.foldl_append]
      exact hsize

/-- Everything but a directory that is searched leaves `ret` as it is. -/
theorem searchEntry_other (hent : ¬ ent.IsSub) (cwd : CStr) (ret : Int) (s : Lib) :
    g.searchEntry cwd ret ent s = .ok (some ret, s) := by
  have hne : ∀ name ents, ent = .dir name ents → False := by
    rintro name ents rfl
    exact hent trivial
  have hskip : Genlib.skipsEntry ent = .ok true := by
    cases ent with
    | dir name ents => exact absurd rfl (hne name ents)
    | file name => rfl
    | self => rfl
    | parent => rfl
  rw [Genlib.searchEntry.eq_2 g cwd ret ent hne, Op.step (look_ok (pathCombine_joined g.malloc_length cwd ent.dName)),
    Op.step (look_ok hskip)]
  rfl

theorem strcmp_other (h : p ≠ q) : ∃ d, strcmp p.mem q.mem = .ok d ∧ d ≠ 0 := by
  obtain ⟨d, hd, hzero, -⟩ := strcmp_mem p q
  exact ⟨d, hd, hzero.not.mpr h⟩

/-- The search of a subdirectory is that of its path. -/
theorem searchEntry_dir (name : FileName) (ents : List Entry) (cwd : CStr) (ret : Int) (s : Lib) :
    g.searchEntry cwd ret (.dir name ents) s = g.doSearch (joined cwd name) ents s := by
  obtain ⟨d, hd, hself⟩ := strcmp_other name.2.1
  obtain ⟨d', hd', hparent⟩ := strcmp_other name.2.2.1
  have hskip : Genlib.skipsEntry (.dir name ents) = .ok false := by
    rw [Genlib.skipsEntry]
    simp [Entry.isDir, Entry.dName, hd, hd', hself, hparent]
  rw [Genlib.searchEntry, Op.step (look_ok (pathCombine_joined g.malloc_length cwd name)),
    Op.step (look_ok hskip),
    if_neg Bool.false_ne_true, Op.step (look_ok (readStr_mem (joined cwd name))), Genlib.doSearch]

/-- A search of a directory comes back where both loops do. -/
theorem doSearch_comes (hc : g.env.Calm) (h : Holds b I s) (hf : I.Finds dotGlobal l r u) (cwd : CStr)
    (ents : List Entry)
    (hsub : ∀ {I : Image} {r : Record} {s : Lib}, Holds b I s → I.Finds dotGlobal l r u → ∀ ret,
      Comes b (g.searchEntries cwd ret ents s) (some 0)
        (RetSet ret ents ∧ g.Finishes I l u r (subdirs cwd ents))
        (I.withRecs (l ++ (filesOf (subdirs cwd ents)).foldl (g.added I.mediaPrefix) r :: u))) :
    Comes b (g.doSearch cwd ents s) (some 0) (g.Finishes I l u r (allDirs cwd ents))
      (I.withRecs (l ++ (filesOf (allDirs cwd ents)).foldl (g.added I.mediaPrefix) r :: u)) := by
  have hone : filesOf [(cwd, ents)] = filesIn cwd ents := List.append_nil _
  have hall : allDirs cwd ents = [(cwd, ents)] ++ subdirs cwd ents := rfl
  have hfiles : filesOf (allDirs cwd ents) = filesIn cwd ents ++ filesOf (subdirs cwd ents) := rfl
  rw [Genlib.doSearch, hfiles, List.foldl_append]
  have hname := g.foldl_added_name I.mediaPrefix r (filesIn cwd ents)
  refine (Comes.bind (addEntries_comes hc h hf cwd ents) (fun t ht => hsub ht (hf.with hname) (g.garbage cwd)) ?_).iff ?_
  · intro alive t t' halive hx
    rw [if_neg halive] at hx
    cases hx
  · rw [hall, g.finishes_append, hone]
    constructor
    · rintro ⟨⟨hanswer, hsize⟩, hset, hrest⟩
      refine ⟨⟨?_, by rwa [hone], by rwa [hone]⟩, hrest⟩
      intro dir hdir
      rwa [List.mem_singleton.mp hdir]
    · rintro ⟨⟨hset, hanswer, hsize⟩, hrest⟩
      rw [hone] at hanswer hsize
      exact ⟨⟨hanswer, hsize⟩, hset _ List.mem_cons_self, hrest⟩

theorem retSet_zero (ents : List Entry) : RetSet 0 ents := by
  cases ents with
  | nil => trivial
  | cons ent ents => exact Or.inl rfl

/-- Behind an entry that is not searched the loop goes on if `ret` is zero. -/
theorem searchEntries_other (hent : ¬ ent.IsSub) {ret : Int}
    (hrest : Comes b (g.searchEntries cwd 0 ents s) (some 0) (RetSet 0 ents ∧ g.Finishes I l u r (subdirs cwd ents)) I') :
    Comes b (g.searchEntries cwd ret (ent :: ents) s) (some 0)
      (RetSet ret (ent :: ents) ∧ g.Finishes I l u r (subdirs cwd (ent :: ents))) I' := by
  have hdirs : subdirs cwd (ent :: ents) = subdirs cwd ents := by
    cases ent with
    | dir name sub => exact absurd trivial hent
    | file name => rfl
    | self => rfl
    | parent => rfl
  rw [Genlib.searchEntries, Op.step (searchEntry_other hent cwd ret s), hdirs]
  dsimp only
  by_cases hret : ret = 0
  · subst hret
    rw [if_neg (not_not_intro rfl)]
    exact hrest.iff (by rw [and_iff_right (retSet_zero ents), and_iff_right (retSet_zero (ent :: ents))])
  · rw [if_pos hret]
    refine .never _ (fun t ht => by cases ht) ?_
    rintro ⟨hset, -⟩
    exact hset.elim hret hent

/-- The second loop comes back with zero where `ret` is set when it is tested and all subdirectories are finished. -/
theorem searchEntries_comes (hc : g.env.Calm) :
    ∀ (ents : List Entry) (cwd : CStr) {I : Image} {r : Record} {s : Lib},
    Holds b I s → I.Finds dotGlobal l r u → ∀ ret,
      Comes b (g.searchEntries cwd ret ents s) (some 0) (RetSet ret ents ∧
        g.Finishes I l u r (subdirs cwd ents))
        (I.withRecs (l ++ (filesOf (subdirs cwd ents)).foldl (g.added I.mediaPrefix) r :: u))
  | [], cwd, I, r, s, h, hf, ret => by
    refine (Comes.here (hf.same.symm ▸ h) rfl).iff (iff_of_true trivial ⟨trivial, ?_, trivial, hf.same.symm ▸ h.size⟩)
    exact fun dir hdir => absurd hdir List.not_mem_nil
  | .dir name sub :: ents, cwd, I, r, s, h, hf, ret => by
    have hhead := doSearch_comes hc h hf (joined cwd name) sub fun h hf => searchEntries_comes hc sub _ h hf
    rw [← searchEntry_dir name sub cwd ret] at hhead
    have hname := g.foldl_added_name I.mediaPrefix r (filesOf (allDirs (joined cwd name) sub))
    have hdirs : subdirs cwd (.dir name sub :: ents) = allDirs (joined cwd name) sub ++ subdirs cwd ents := by
      rw [subdirs, Entry.dirs, allDirs]
    have hfiles : filesOf (subdirs cwd (.dir name sub :: ents)) =
        filesOf (allDirs (joined cwd name) sub) ++ filesOf (subdirs cwd ents) := by
      rw [hdirs]
      exact List.flatMap_append
    rw [Genlib.searchEntries, hfiles, List.foldl_append, hdirs]
    refine (Comes.bind hhead (fun t ht => searchEntries_comes hc ents cwd ht (hf.with hname) 0) ?_).iff ?_
    · -- where the search of the subdirectory did not return zero, this one does not
      intro res t t' hres hx
      cases res with
      | none => cases hx
      | some ret =>
        dsimp only at hx
        rw [if_pos fun hret => hres (congrArg some hret)] at hx
        cases hx
    · have hset : RetSet ret (.dir name sub :: ents) := Or.inr trivial
      rw [g.finishes_append, and_iff_right (retSet_zero ents), and_iff_right hset]
  | .self :: ents, cwd, I, r, s, h, hf, ret => searchEntries_other id (searchEntries_comes hc ents cwd h hf 0)
  | .parent :: ents, cwd, I, r, s, h, hf, ret => searchEntries_other id (searchEntries_comes hc ents cwd h hf 0)
  | .file _ :: ents, cwd, I, r, s, h, hf, ret => searchEntries_other id (searchEntries_comes hc ents cwd h hf 0)

theorem search_comes (hc : g.env.Calm) (h : Holds b I s) (hf : I.Finds dotGlobal l r u) (cwd : CStr)
    (ents : List Entry) :
    Comes b (g.doSearch cwd ents s) (some 0) (g.Finishes I l u r (allDirs cwd ents))
      (I.withRecs (l ++ (filesOf (allDirs cwd ents)).foldl (g.added I.mediaPrefix) r :: u)) :=
  doSearch_comes hc h hf cwd ents fun h hf => searchEntries_comes hc ents cwd h hf

/-- All files of a tree are found exactly where `ret` is set by the time it is tested in each directory, all
files answer, and the library stays below 4 GiB. -/
theorem search_finds_iff (hc : g.env.Calm) (h : Holds b I s) (hf : I.Finds dotGlobal l r u) (cwd : CStr)
    (ents : List Entry) :
    g.FindsAll I.mediaPrefix s cwd ents ↔ g.Finishes I l u r (allDirs cwd ents) := by
  have hsearch := search_comes hc h hf cwd ents
  constructor
  · rintro ⟨t, hx, -⟩
    exact hsearch.only t hx
  · intro hfinishes
    obtain ⟨t, hx, ht⟩ := hsearch.back hfinishes
    refine ⟨t, hx, fun p => ?_⟩
    have hname := g.foldl_added_name I.mediaPrefix r (filesOf (allDirs cwd ents))
    rw [ht.hasPath_iff, h.hasPath_iff, (hf.with hname).has, hf.has, g.mem_foldl_added]

/-- A search with the extensions of genlib itself, where `ret` is this number at first. -/
def Genlib.steady (ret : Int) : Genlib where
  env := .steady .little
  malloc := zeros
  malloc_length := zeros_length
  customList := none
  garbage _ := ret

def songName : CStr := ⟨text "x.mp3", by decide⟩

def oneSong : List Entry := [.self, .parent, .file ⟨songName, by decide⟩]

theorem search_finds_file : ∃ s, Created (.steady .little) CStr.empty CStr.empty s ∧
    (Genlib.steady 0).FindsAll CStr.empty s nameA oneSong := by
  obtain ⟨s, hn, hp, b, hs, hI, -⟩ := @Env.steady_created CStr.empty (by decide)
  have hfinds := @Image.created_finds CStr.empty CStr.empty hn hp
  have hdropped : dropped CStr.empty (joined nameA songName) = .ok songName := by decide
  have hpass : (Genlib.steady 0).passes CStr.empty (joined nameA songName) = .ok true := by decide
  have hadded : (Genlib.steady 0).added CStr.empty (.started dotGlobal) (joined nameA songName) =
      (Record.started dotGlobal).holding songName := Genlib.added_new hdropped hpass
  refine ⟨s, hs, (search_finds_iff (Env.steady_calm .little) hI hfinds nameA _).mpr ⟨?_, ?_, ?_⟩⟩
  · intro dir hdir
    exact retSet_zero dir.2
  · exact ⟨⟨songName, hdropped, Or.inr ⟨true, hpass⟩⟩, trivial⟩
  · have hgrowth : (Record.started dotGlobal).growth songName = 0 := by decide
    have hfiles : filesOf (allDirs nameA oneSong) = [joined nameA songName] := rfl
    rw [hfiles, List.foldl_cons, List.foldl_nil]
    change (Image.withRecs _ ([] ++ (Genlib.steady 0).added CStr.empty (.started dotGlobal) (joined nameA songName) :: [])).size < _
    rw [hadded, size_holding hfinds.recs, hgrowth, Image.size_created]
    decide

/-- In an empty directory the search fails where `ret` is one at first. -/
theorem search_fails : ∃ s, Created (.steady .little) CStr.empty CStr.empty s ∧
    ¬ (Genlib.steady 1).FindsAll CStr.empty s nameA [.self, .parent] := by
  obtain ⟨s, hn, hp, b, hs, hI, -⟩ := @Env.steady_created CStr.empty (by decide)
  refine ⟨s, hs, ?_⟩
  rintro ⟨t, hx, -⟩
  have hfinishes := (search_comes (Env.steady_calm .little) hI Image.created_finds nameA [.self, .parent]).only t hx
  exact (hfinishes.set (nameA, [.self, .parent]) List.mem_cons_self).elim (by decide) id

end Mlib

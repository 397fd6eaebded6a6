import Mlib.Program.Streams

/-! The current stream is that of the entry pushed last, as long as no entry is popped while
another one is below it. -/
namespace Mlib
open Foundation

/-- `malloc` answers an address that is not in use, and `fopen` a file that is not open. -/
structure Streams.Answers (inputStreams stdin : Ptr) (s : Streams) (malloc : Option Ptr) (fopen : Option (Ptr × Bytes)) :
    Prop where
  malloc : ∀ str ∈ malloc, ∀ es, Ring s.links inputStreams es → str ∉ inputStreams :: es
  fopen : ∀ f ∈ fopen, f.1 ≠ stdin ∧ f.1 ∉ s.files.map Prod.fst

/-- The stack of streams after pushes, and pops of the only stream or of none. The list has the
streams that were pushed and not popped yet, the last one first. -/
inductive Stacked (inputStreams stdin : Ptr) : Streams → List Ptr → Prop
  | start (L : Links Ptr) (stream : Ptr → Ptr) (current : Ptr) :
      Stacked inputStreams stdin (mlibInitIo stdin ⟨initListHead inputStreams L, stream, current, []⟩) []
  | pushed {s s' : Streams} {fs : List Ptr} {stream : Option CStr} {malloc : Option Ptr} {f : Ptr × Bytes}
      (h : Stacked inputStreams stdin s fs) (ha : s.Answers inputStreams stdin malloc (some f))
      (hx : mlibPushStream inputStreams stream malloc (some f) s = (0, s')) : Stacked inputStreams stdin s' (f.1 :: fs)
  | failed {s s' : Streams} {fs : List Ptr} {stream : Option CStr} {malloc : Option Ptr} {fopen : Option (Ptr × Bytes)}
      (h : Stacked inputStreams stdin s fs) (hx : mlibPushStream inputStreams stream malloc fopen s = (-1, s')) :
      Stacked inputStreams stdin s' fs
  | popped {s s' : Streams} {fs : List Ptr} {ret : Int} (h : Stacked inputStreams stdin s fs) (hfs : fs.length ≤ 1)
      (hx : mlibPopStream inputStreams stdin s = (ret, s')) : Stacked inputStreams stdin s' fs.tail

variable {inputStreams stdin : Ptr} {s s' : Streams} {fs : List Ptr}

def Streams.AtTop (stdin : Ptr) (s : Streams) (fs : List Ptr) : Prop := s.current = fs.headD stdin

/-- The entries stand for the streams `fs`, which are the files that are open. -/
structure Streams.Holds (inputStreams stdin : Ptr) (s : Streams) (fs es : List Ptr) : Prop where
  ring : Ring s.links inputStreams es
  entries : es.map s.stream = fs
  opened : s.files.map Prod.fst = fs
  distinct : (stdin :: fs).Nodup

variable {es : List Ptr} {f : Ptr} {stream : Option CStr} {malloc : Option Ptr} {fopen : Option (Ptr × Bytes)}

/-- A push opens a stream on top of the others, or fails and leaves everything as it was. -/
theorem pushStream_cases (stream : Option CStr) (malloc : Option Ptr) (fopen : Option (Ptr × Bytes))
    (s : Streams) :
    (∃ str f, malloc = some str ∧ fopen = some f ∧ mlibPushStream inputStreams stream malloc fopen s =
      (0, ⟨listAdd str inputStreams s.links, Function.update s.stream str f.1, f.1, f :: s.files⟩)) ∨
      mlibPushStream inputStreams stream malloc fopen s = (-1, s) := by
  cases stream with
  | none => exact Or.inr rfl
  | some name =>
    cases malloc with
    | none => exact Or.inr rfl
    | some str =>
      cases fopen with
      | none => exact Or.inr rfl
      | some f => exact Or.inl ⟨str, f, rfl, rfl, rfl⟩

theorem Streams.Holds.push {str : Ptr} {f : Ptr × Bytes} (h : s.Holds inputStreams stdin fs es)
    (ha : s.Answers inputStreams stdin (some str) (some f)) :
    Streams.Holds inputStreams stdin ⟨listAdd str inputStreams s.links,
      Function.update s.stream str f.1, f.1, f :: s.files⟩
      (f.1 :: fs) (str :: es) := by
  obtain ⟨hring, hes, hopen, hnd⟩ := h
  have hstr := ha.malloc str rfl es hring
  obtain ⟨hf, hfs⟩ := ha.fopen f rfl
  rw [hopen] at hfs
  refine ⟨listAdd_first hring hstr, ?_, ?_, ?_⟩
  · have hsame : es.map (Function.update s.stream str f.1) = es.map s.stream :=
      List.map_congr_left fun e he => Function.update_of_ne (by
        rintro rfl
        exact hstr (List.mem_cons_of_mem inputStreams he)) _ _
    change Function.update s.stream str f.1 str :: es.map (Function.update s.stream str f.1) = _
    rw [Function.update_self, hsame, hes]
  · rw [List.map_cons, hopen]
  · obtain ⟨hin, hnd⟩ := List.nodup_cons.mp hnd
    exact List.nodup_cons.mpr ⟨List.mem_cons.not.mpr (not_or.mpr ⟨hf.symm, hin⟩),
      List.nodup_cons.mpr ⟨hfs, hnd⟩⟩

private theorem fclose_top {files : List (Ptr × Bytes)} (h : files.map Prod.fst = f :: fs) (hf : f ∉ fs) :
    (files.filter (·.1 ≠ f)).map Prod.fst = fs := by
  obtain ⟨x, files, rfl, rfl, rfl⟩ := List.map_eq_cons_iff.mp h
  rw [List.filter_cons_of_neg (by simp), List.filter_eq_self.mpr]
  intro y hy
  simp only [ne_eq, decide_not, Bool.not_eq_eq_eq_not, Bool.not_true, decide_eq_false_iff_not]
  exact fun he => hf (he ▸ List.mem_map_of_mem hy)

/-- A pop closes the stream on top. Only the last one to go makes another stream the current one. -/
theorem Streams.Holds.pop (h : s.Holds inputStreams stdin (f :: fs) es) :
    ∃ s' es', mlibPopStream inputStreams stdin s = (-1, s') ∧ s'.Holds inputStreams stdin fs es' ∧
      s'.current = if fs = [] then stdin else s.current := by
  obtain ⟨hring, hes, hopen, hnd⟩ := h
  obtain ⟨e, es, rfl, rfl, rfl⟩ := List.map_eq_cons_iff.mp hes
  have hne : listEmpty inputStreams s.links = false := by
    rw [Bool.eq_false_iff, Ne, listEmpty_iff hring]
    exact List.cons_ne_nil e es
  have htop : s.links.next inputStreams = e := hring.linked.1
  have hring' := listDel_first hring
  obtain ⟨hin, hnd⟩ := List.nodup_cons.mp hnd
  have hopen' := fclose_top hopen (List.nodup_cons.mp hnd).1
  have hin' : s.stream e ≠ stdin ∧ stdin ∉ es.map s.stream :=
    (not_or.mp (List.mem_cons.not.mp hin)).imp Ne.symm id
  have hholds : Streams.Holds inputStreams stdin ⟨listDel e s.links, s.stream, s.current,
    s.files.filter (·.1 ≠ s.stream e)⟩
      (es.map s.stream) es := ⟨hring', rfl, hopen', List.nodup_cons.mpr ⟨hin'.2, (List.nodup_cons.mp hnd).2⟩⟩
  have hpop : mlibPopStream inputStreams stdin s = (-1, if listEmpty inputStreams (listDel e s.links) then
      ⟨listDel e s.links, s.stream, stdin, s.files.filter (·.1 ≠ s.stream e)⟩
      else ⟨listDel e s.links, s.stream, s.current, s.files.filter (·.1 ≠ s.stream e)⟩) := by
    simp only [mlibPopStream, hne, htop, if_pos hin'.1, Streams.fclose]
    rfl
  by_cases hlast : es = []
  · rw [if_pos ((listEmpty_iff hring').mpr hlast)] at hpop
    exact ⟨_, es, hpop, ⟨hholds.ring, rfl, hholds.opened, hholds.distinct⟩, by rw [hlast]; rfl⟩
  · rw [if_neg ((listEmpty_iff hring').not.mpr hlast)] at hpop
    exact ⟨_, es, hpop, hholds, (if_neg fun h => hlast (List.map_eq_nil_iff.mp h)).symm⟩

theorem Streams.Holds.pop_empty (h : s.Holds inputStreams stdin [] es) :
    mlibPopStream inputStreams stdin s = (-1, s) := by
  rw [mlibPopStream, if_pos ((listEmpty_iff h.ring).mpr (List.map_eq_nil_iff.mp h.entries))]

/-- What every state of the stack keeps. -/
theorem Stacked.holds (h : Stacked inputStreams stdin s fs) :
    (∃ es, s.Holds inputStreams stdin fs es) ∧ s.AtTop stdin fs := by
  induction h with
  | start L stream current =>
    exact ⟨⟨[], initListHead_ring inputStreams L, rfl, rfl, List.nodup_singleton stdin⟩, rfl⟩
  | @pushed s s' fs stream malloc f h ha hx ih =>
    obtain ⟨⟨es, hs⟩, -⟩ := ih
    rcases @pushStream_cases inputStreams stream malloc (some f) s with ⟨str, f', rfl, hf, he⟩ | he
    · cases hf
      rw [he] at hx
      cases hx
      exact ⟨⟨_, hs.push ha⟩, rfl⟩
    · rw [he] at hx
      cases hx
  | @failed s s' fs stream malloc fopen h hx ih =>
    rcases @pushStream_cases inputStreams stream malloc fopen s with ⟨str, f, -, -, he⟩ | he
    · rw [he] at hx
      cases hx
    · rw [he] at hx
      cases hx
      exact ih
  | @popped s s' fs ret h hfs hx ih =>
    obtain ⟨⟨es, hs⟩, htop⟩ := ih
    cases fs with
    | nil =>
      rw [hs.pop_empty] at hx
      cases hx
      exact ⟨⟨es, hs⟩, htop⟩
    | cons f fs =>
      obtain rfl : fs = [] := List.length_eq_zero_iff.mp (by simpa using hfs)
      obtain ⟨s'', es', he, hs', hcur⟩ := hs.pop
      rw [he] at hx
      cases hx
      exact ⟨⟨es', hs'⟩, hcur⟩

/-- After pushes, failed ones included, and pops of single streams, the current stream is the top
of the stack and open. Pushing keeps it so, and popping does exactly when no stream is below. -/
theorem current_stream_iff (h : Stacked inputStreams stdin s fs) : s.AtTop stdin fs ∧
    (s.current = stdin ∨ s.current ∈ s.files.map Prod.fst) ∧
    (∀ stream malloc fopen ret s', s.Answers inputStreams stdin malloc fopen →
      mlibPushStream inputStreams stream malloc fopen s = (ret, s') →
      (ret = 0 ∧ ∃ f ∈ fopen, s'.AtTop stdin (f.1 :: fs)) ∨ (ret = -1 ∧ s'.AtTop stdin fs)) ∧
    ∀ ret s', mlibPopStream inputStreams stdin s = (ret, s') → (s'.AtTop stdin fs.tail ↔ fs.length ≤ 1) := by
  obtain ⟨⟨es, hs⟩, htop⟩ := h.holds
  refine ⟨htop, ?_, ?_, ?_⟩
  · rw [hs.opened, htop]
    cases fs with
    | nil => exact Or.inl rfl
    | cons f fs => exact Or.inr List.mem_cons_self
  · intro stream malloc fopen ret s' ha hx
    rcases @pushStream_cases inputStreams stream malloc fopen s with ⟨str, f, rfl, rfl, he⟩ | he
    · rw [he] at hx
      cases hx
      exact Or.inl ⟨rfl, f, rfl, rfl⟩
    · rw [he] at hx
      cases hx
      exact Or.inr ⟨rfl, htop⟩
  · intro ret s' hx
    cases fs with
    | nil =>
      rw [hs.pop_empty] at hx
      cases hx
      exact iff_of_true htop (Nat.zero_le 1)
    | cons f fs =>
      obtain ⟨s'', es', he, -, hcur⟩ := hs.pop
      rw [he] at hx
      cases hx
      rw [Streams.AtTop, hcur, htop]
      cases fs with
      | nil => exact iff_of_true rfl (le_refl 1)
      | cons g fs =>
        refine iff_of_false ?_ (by simp)
        rw [if_neg (List.cons_ne_nil g fs)]
        rintro (rfl : f = g)
        exact (List.nodup_cons.mp (List.nodup_cons.mp hs.distinct).2).1 List.mem_cons_self

/-- One stream is pushed and popped. -/
theorem current_stream_iff_one : ∃ s s', Stacked null ⟨5, by decide⟩ s [⟨3, by decide⟩] ∧
    mlibPopStream null ⟨5, by decide⟩ s = (-1, s') ∧ s'.current = ⟨5, by decide⟩ := by
  let s₀ := mlibInitIo ⟨5, by decide⟩ ⟨initListHead null ⟨id, id⟩, id, null, []⟩
  have h₀ : Stacked null ⟨5, by decide⟩ s₀ [] := .start ⟨id, id⟩ id null
  have ha : s₀.Answers null ⟨5, by decide⟩ (some ⟨1, by decide⟩) (some (⟨3, by decide⟩, [])) := by
    refine ⟨?_, ?_⟩
    · rintro str ⟨⟩ es hes
      obtain rfl := hes.unique (initListHead_ring null ⟨id, id⟩)
      decide
    · rintro f ⟨⟩
      decide
  have h := h₀.pushed ha (rfl : mlibPushStream null (some CStr.empty) _ _ s₀ = (0, _))
  exact ⟨_, _, h, rfl, ((current_stream_iff h).2.2.2 _ _ rfl).mpr (le_refl 1)⟩

/-- Two streams are pushed and one is popped: the current stream is the one that was closed. -/
theorem popStream_stale : ∃ s t u, mlibPushStream null (some CStr.empty) (some ⟨1, by decide⟩) (some (⟨3, by decide⟩, []))
      (mlibInitIo ⟨5, by decide⟩ ⟨initListHead null ⟨id, id⟩, id, null, []⟩) = (0, s) ∧
    mlibPushStream null (some CStr.empty) (some ⟨2, by decide⟩) (some (⟨4, by decide⟩, [])) s = (0, t) ∧
    mlibPopStream null ⟨5, by decide⟩ t = (-1, u) ∧ u.files.map Prod.fst = [⟨3, by decide⟩] ∧ u.current = ⟨4, by decide⟩ :=
  ⟨_, _, _, rfl, rfl, rfl, by decide, by decide⟩

end Mlib

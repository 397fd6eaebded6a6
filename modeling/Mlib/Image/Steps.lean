import Mlib.Image.Playlists
import Mlib.Program.Calls

/-! What each call does to an image. The code, running where every call of the system
succeeds, takes exactly these steps. -/
namespace Mlib
open Foundation

/-- `r` is the first record with the name `n`; `l` are the records before it, `u` those behind it. -/
structure Image.Finds (I : Image) (n : CStr) (l : List Record) (r : Record) (u : List Record) : Prop where
  recs : I.recs = l ++ r :: u
  name : r.name = n
  first : ∀ r' ∈ l, r'.name ≠ n

def Image.Lacks (I : Image) (n : CStr) : Prop := ∀ r ∈ I.recs, r.name ≠ n

theorem Image.Finds.added {I : Image} {n p : CStr} {l u : List Record} {r : Record}
    (h : I.Finds n l r u) (hp : p ∉ r.paths) :
    (I.withRecs (l ++ r.add p hp :: u)).Finds n l (r.add p hp) u :=
  ⟨rfl, h.name, h.first⟩

/-- Adding a path to the playlist `n`: the value returned, the image afterwards, and the
number of growths that were turned down. -/
inductive Image.AddsTo (I : Image) (n p : CStr) : Int → Image → Nat → Prop
  | missing (h : I.Lacks n) : AddsTo I n p (-1) I 0
  | present {l r u} (h : I.Finds n l r u) (hp : p ∈ r.paths) : AddsTo I n p (-1) I 0
  | refused {l r u} (h : I.Finds n l r u) (hp : p ∉ r.paths) (j : Nat) :
      AddsTo I n p (-1) (I.withRecs (l ++ r.grow (128 * j) :: u)) 1
  | added {l r u} (h : I.Finds n l r u) (hp : p ∉ r.paths) :
      AddsTo I n p 0 (I.withRecs (l ++ r.add p hp :: u)) 0

inductive Image.Steps (I : Image) : Call → Int → Image → Nat → Prop
  | startPresent {n l r u} (h : I.Finds n l r u) : Steps I (.startPlaylist n) (-1) I 0
  | startRefused {n} (h : I.Lacks n) : Steps I (.startPlaylist n) (-1) I 1
  | started {n} (h : I.Lacks n) : Steps I (.startPlaylist n) 0 (I.withRecs (I.recs ++ [.started n])) 0
  | deleteMissing {n} (h : I.Lacks n) : Steps I (.deletePlaylist n) (-1) I 0
  | deleted {n l r u} (h : I.Finds n l r u) : Steps I (.deletePlaylist n) 0 (I.withRecs (l ++ u)) 0
  | addPathToPlist {n p ret I' k} (h : I.AddsTo n p ret I' k) : Steps I (.addPathToPlist n p) ret I' k
  | addPathGlobal {p ret I' k} (h : I.AddsTo dotGlobal p ret I' k) : Steps I (.addPath dotGlobal p) ret I' k
  | addPathNoGlobal {n p} (hn : n ≠ dotGlobal) (h : I.Lacks dotGlobal) : Steps I (.addPath n p) (-1) I 0
  | addPathBoth {n p l r u ret₁ I₁ k₁ ret I' k} (hn : n ≠ dotGlobal) (hg : I.Finds dotGlobal l r u)
      (h₁ : I.AddsTo dotGlobal p ret₁ I₁ k₁) (h : I₁.AddsTo n p ret I' k) : Steps I (.addPath n p) ret I' (k₁ + k)

structure Holds (b : Nat) (I : Image) (s : Lib) : Prop where
  shows : Shows b I.bytes s
  size : I.size < 2 ^ 32

variable {env : Env} {b : Nat} {I : Image} {s : Lib} {n p : CStr} {l u : List Record} {r : Record}

theorem Image.finds_or_lacks (I : Image) (n : CStr) : I.Lacks n ∨ ∃ l r u, I.Finds n l r u := by
  rcases I.find_cases n with h | ⟨l, r, u, hI, hn, hl⟩
  · exact Or.inl h
  · exact Or.inr ⟨l, r, u, hI, hn, fun r' hr' => hn ▸ hl r' hr'⟩

theorem Env.Calm.grows (hc : env.Calm) : env.Grows :=
  ⟨hc.lseek, hc.write, fun k hint len h => ⟨hint, hc.mmap_again k hint len h⟩⟩

/-- Where nothing is moved, the file stays at its address through any number of growths. -/
theorem Env.Calm.landing (hc : env.Calm) (hb : Placed b) (k m L : Nat) : landing env k m b L = b := by
  induction k generalizing m L with
  | zero => rfl
  | succ k ih => rw [Mlib.landing, hc.mmap_again _ _ _ hb, Option.getD_some, ih]

theorem Holds.file_length (h : Holds b I s) : s.file.length = I.size := by
  rw [h.shows.file, Image.bytes_length]

theorem Holds.libLen (h : Holds b I s) (e : Endian) : mlibLibLen e s.mem = .ok I.size := by
  rw [h.shows.mem]
  exact libLen_read I I.size (recsBytes I.recs) h.size

theorem Holds.find_none (h : Holds b I s) (hn : I.Lacks n) (e : Endian) :
    mlibFindPlaylist e s.mem n = .ok none := by
  rw [h.shows.mem]
  exact findPlaylist_none h.size hn

theorem Holds.find_some (h : Holds b I s) (hf : I.Finds n l r u) (e : Endian) :
    mlibFindPlaylist e s.mem n = .ok (some (recAddr b l)) := by
  obtain ⟨hI, rfl, hl⟩ := hf
  rw [h.shows.mem]
  exact findPlaylist_some h.size hI hl

theorem Holds.forEachPls (h : Holds b I s) (e : Endian) :
    mlibForEachPls e s.mem = .ok (recAddrs b [] I.recs) := by
  rw [h.shows.mem]
  exact forEachPls_image h.size

theorem Image.Lacks.behind (h : I.Lacks n) (hr : r.name ≠ n) : (I.withRecs (I.recs ++ [r])).Lacks n := by
  intro r' hr'
  rcases List.mem_append.mp hr' with hr' | hr'
  · exact h r' hr'
  · rwa [List.mem_singleton.mp hr']

/-- A playlist that is found is a record. -/
theorem Holds.finds {e : Endian} {plist : Nat} (h : Holds b I s)
    (hfind : mlibFindPlaylist e s.mem n = .ok (some plist)) :
    ∃ l r u, I.Finds n l r u ∧ plist = recAddr b l := by
  rcases I.finds_or_lacks n with hn | ⟨l, r, u, hf⟩
  · cases (h.find_none hn e).symm.trans hfind
  · exact ⟨l, r, u, hf, (Option.some.inj (Except.ok.inj ((h.find_some hf e).symm.trans hfind))).symm⟩

theorem Holds.lacks {e : Endian} (h : Holds b I s) (hfind : mlibFindPlaylist e s.mem n = .ok none) :
    I.Lacks n := by
  rcases I.finds_or_lacks n with hn | ⟨l, r, u, hf⟩
  · exact hn
  · cases (h.find_some hf e).symm.trans hfind

theorem findPlaylist_lacks (h : Holds b I s) (hn : I.Lacks n) :
    look (mlibFindPlaylist env.endian · n) s = .ok (none, s) := look_ok (h.find_none hn env.endian)

theorem findPlaylist_finds (h : Holds b I s) (hf : I.Finds n l r u) :
    look (mlibFindPlaylist env.endian · n) s = .ok (some (recAddr b l), s) :=
    look_ok (h.find_some hf env.endian)

/-- A path is added to the playlist that is found. -/
theorem addPathToPlist_exec (h : Holds b I s) (hf : I.Finds n l r u) (p : CStr) :
    Call.exec env (.addPathToPlist n p) s = mlibAddPathToPlist env (recAddr b l) (.own p) s := by
  rw [Call.exec, Op.step (findPlaylist_finds h hf)]

/-- `op` returns and takes the image through `step`, or it copies a path past the end of the file. -/
def Takes (b : Nat) (s : Lib) (op : Op Int) (step : Int → Image → Nat → Prop) (path : Option CStr) : Prop :=
  (∃ ret I' k s', op s = .ok (ret, s') ∧ step ret I' k ∧ Holds b I' s' ∧ s'.refused = s.refused + k) ∨
    (op s = .error .fault ∧ ∃ p ∈ path, 2 ^ 32 ≤ p.val.length + 1)

/-- A path that is new is added where nothing is moved. -/
theorem Holds.added (hc : env.Calm) (h : Holds b I s) (hI : I.recs = l ++ r :: u) (hp : p ∉ r.paths)
    (hlt : p.mem.length < 2 ^ 32) (hsize : I.size + 128 * r.rounds p < 2 ^ 32) :
    ∃ t, mlibAddPathToPlist env (recAddr b l) (.own p) s = .ok (0, t) ∧
      Holds b (I.withRecs (l ++ r.add p hp :: u)) t ∧ t.refused = s.refused := by
  obtain ⟨t, hx, ht, href, -⟩ := addPathToPlist_adds h.shows hI hc.grows hp hlt hsize (hc.landing h.shows.placed _ _ _)
  exact ⟨t, hx, ⟨ht, by rwa [size_add hI]⟩, href⟩

theorem addPathToPlist_takes (hc : env.Calm) (h : Holds b I s) (hf : I.Finds n l r u) (p : CStr) :
    Takes b s (mlibAddPathToPlist env (recAddr b l) (.own p)) (I.AddsTo n p) (some p) := by
  obtain ⟨hs, hsz⟩ := h
  have hI := hf.recs
  by_cases hp : p ∈ r.paths
  · exact Or.inl ⟨-1, I, 0, s, addPathToPlist_present hs hI hsz hp, .present hf hp, ⟨hs, hsz⟩, rfl⟩
  by_cases hsize : I.size + 128 * roundsFor r.gap (u32 p.mem.length) < 2 ^ 32
  · by_cases hlt : p.mem.length < 2 ^ 32
    · rw [show u32 p.mem.length = p.mem.length from Nat.mod_eq_of_lt hlt] at hsize
      obtain ⟨s', he, hs', href⟩ := Holds.added hc ⟨hs, hsz⟩ hI hp hlt hsize
      exact Or.inl ⟨0, _, 0, s', he, .added hf hp, hs', href⟩
    · refine Or.inr ⟨addPathToPlist_faults hs hI hc.grows hp (by omega) hsize, p, rfl, ?_⟩
      rw [← CStr.mem_length]
      omega
  · obtain ⟨j, s', he, hs', hj, href⟩ := addPathToPlist_refused hs hI hc.grows hsz hp (by omega)
    rw [hc.landing hs.placed] at hs'
    exact Or.inl ⟨-1, _, 1, s', he, .refused hf hp j, ⟨hs', by rw [size_grow hI]; exact hj.1⟩, href⟩

theorem addTo_takes (hc : env.Calm) (h : Holds b I s) (n p : CStr) :
    Takes b s (Call.exec env (.addPathToPlist n p)) (I.AddsTo n p) (some p) := by
  rcases I.finds_or_lacks n with hn | ⟨l, r, u, hf⟩
  · refine Or.inl ⟨-1, I, 0, s, ?_, .missing hn, h, rfl⟩
    rw [Call.exec, Op.step (findPlaylist_lacks h hn)]
    rfl
  · simp only [Takes, addPathToPlist_exec h hf]
    exact addPathToPlist_takes hc h hf p

theorem strcmp_names (n m : CStr) :
    look (fun _ => strcmp n.mem m.mem) s = .ok (cmpStr n.val m.val, s) :=
  look_ok (strcmp_strings n.val m.val n.2 m.2 [] [])

private theorem cmpStr_names (n m : CStr) : cmpStr n.val m.val = 0 ↔ n = m := by
  rw [cmpStr_zero_iff _ _ n.2 m.2, Subtype.ext_iff]

theorem addPath_global (p : CStr) :
    Call.exec env (.addPath dotGlobal p) s = Call.exec env (.addPathToPlist dotGlobal p) s := by
  rw [Call.exec, mlibAddPath, Op.step (strcmp_names dotGlobal dotGlobal), cmpStr_self]
  rfl

theorem addPath_noGlobal (h : Holds b I s) (hn : n ≠ dotGlobal) (hg : I.Lacks dotGlobal) (p : CStr) :
    Call.exec env (.addPath n p) s = .ok (-1, s) := by
  rw [Call.exec, mlibAddPath, Op.step (strcmp_names n dotGlobal),
    if_pos ((cmpStr_names n dotGlobal).not.mpr hn),
    Op.step (findPlaylist_lacks h hg)]
  rfl

/-- A path is added to `.global` first. -/
theorem addPath_both (h : Holds b I s) (hn : n ≠ dotGlobal) (hg : I.Finds dotGlobal l r u) (p : CStr) :
    Call.exec env (.addPath n p) s =
      (mlibAddPathToPlist env (recAddr b l) (.own p) >>= fun _ => Call.exec env (.addPathToPlist n p)) s := by
  rw [Call.exec, mlibAddPath, Op.step (strcmp_names n dotGlobal),
    if_pos ((cmpStr_names n dotGlobal).not.mpr hn),
    Op.step (findPlaylist_finds h hg)]
  rfl

/-- A path that is new in `.global` and in the playlist is added to both. -/
theorem Holds.addedBoth (hc : env.Calm) (h : Holds b I s) (hn : n ≠ dotGlobal)
    (hg : I.Finds dotGlobal l r u) (hp : p ∉ r.paths)
    {l' u' : List Record} {r' : Record} (ha : (I.withRecs (l ++ r.add p hp :: u)).Finds n l' r' u')
      (hp' : p ∉ r'.paths)
    (hlt : p.mem.length < 2 ^ 32) (hsize : I.size + 128 * r.rounds p + 128 * r'.rounds p < 2 ^ 32) :
    ∃ t, Call.exec env (.addPath n p) s = .ok (0, t) ∧ Holds b (I.withRecs (l' ++ r'.add p hp' :: u')) t ∧
      t.refused = s.refused := by
  obtain ⟨s₁, hx₁, h₁, href₁⟩ := h.added hc hg.recs hp hlt (by omega)
  obtain ⟨t, hx, ht, href⟩ := h₁.added hc ha.recs hp' hlt (by rwa [size_add hg.recs])
  refine ⟨t, ?_, ht, href.trans href₁⟩
  rw [addPath_both h hn hg, Op.step hx₁, addPathToPlist_exec h₁ ha]
  exact hx

theorem addPath_takes (hc : env.Calm) (h : Holds b I s) (n p : CStr) :
    Takes b s (Call.exec env (.addPath n p)) (I.Steps (.addPath n p)) (some p) := by
  by_cases hn : n = dotGlobal
  · subst hn
    rcases addTo_takes hc h dotGlobal p with ⟨ret, I', k, s', hx, hstep, hI', href⟩ | ⟨hx, hp⟩
    · exact Or.inl ⟨ret, I', k, s', (addPath_global p).trans hx, .addPathGlobal hstep, hI', href⟩
    · exact Or.inr ⟨(addPath_global p).trans hx, hp⟩
  rcases I.finds_or_lacks dotGlobal with hg | ⟨l, r, u, hg⟩
  · exact Or.inl ⟨-1, I, 0, s, addPath_noGlobal h hn hg p, .addPathNoGlobal hn hg, h, rfl⟩
  · have he := @addPath_both env b I s n l u r h hn hg p
    rcases addPathToPlist_takes hc h hg p with ⟨ret₁, I₁, k₁, s₁, hx₁, hstep₁, hI₁, href₁⟩ | ⟨hx, hp⟩
    · rw [Op.step hx₁] at he
      rcases addTo_takes hc hI₁ n p with ⟨ret, I', k, s', hx, hstep, hI', href⟩ | ⟨hx, hp⟩
      · exact Or.inl ⟨ret, I', k₁ + k, s', he.trans hx, .addPathBoth hn hg hstep₁ hstep, hI', by omega⟩
      · exact Or.inr ⟨he.trans hx, hp⟩
    · exact Or.inr ⟨he.trans (Op.step_fails hx), hp⟩

/-- A playlist of a new name is started where nothing is moved. -/
theorem Holds.started (hc : env.Calm) (h : Holds b I s) (hn : I.Lacks n) (hsize : I.size + 272 < 2 ^ 32) :
    ∃ t, mlibStartPlaylist env n s = .ok (0, t) ∧ Holds b (I.withRecs (I.recs ++ [.started n])) t ∧
      t.refused = s.refused := by
  obtain ⟨t, hx, ht, href⟩ := startPlaylist_starts hc.grows h.shows hn hsize (hc.mmap_again _ _ _ h.shows.placed)
  rw [hc.msync, if_pos rfl] at hx
  exact ⟨t, hx, ⟨ht, by rwa [Image.size_started]⟩, href⟩

private theorem startPlaylist_takes (hc : env.Calm) (h : Holds b I s) (n : CStr) :
    Takes b s (Call.exec env (.startPlaylist n)) (I.Steps (.startPlaylist n)) none := by
  obtain ⟨hs, hsz⟩ := id h
  rcases I.finds_or_lacks n with hn | ⟨l, r, u, hf⟩
  · by_cases hsize : I.size + 272 < 2 ^ 32
    · obtain ⟨s', he, hs', href⟩ := h.started hc hn hsize
      exact Or.inl ⟨0, _, 0, s', he, .started hn, hs', href⟩
    · exact Or.inl ⟨-1, I, 1, _, startPlaylist_refused hs hsz hn (by omega), .startRefused hn,
        ⟨⟨hs.header, hs.file, hs.mapped, hs.placed⟩, hsz⟩, rfl⟩
  · obtain ⟨hI, rfl, hl⟩ := id hf
    exact Or.inl ⟨-1, I, 0, s, startPlaylist_present hs hI hsz hl, .startPresent hf, h, rfl⟩

theorem deletePlaylist_takes (ht : ∀ k, env.ftruncate k = true) (h : Holds b I s) (n : CStr) :
    Takes b s (Call.exec env (.deletePlaylist n)) (I.Steps (.deletePlaylist n)) none := by
  obtain ⟨hs, hsz⟩ := id h
  rcases I.finds_or_lacks n with hn | ⟨l, r, u, hf⟩
  · exact Or.inl ⟨-1, I, 0, s, deletePlaylist_missing hs hsz hn, .deleteMissing hn, h, rfl⟩
  · obtain ⟨hI, rfl, hl⟩ := id hf
    obtain ⟨s', he, hs', href, -⟩ := deletePlaylist_deletes hs hI hsz hl (ht s.clock)
    refine Or.inl ⟨0, _, 0, s', he, .deleted hf, ⟨hs', ?_⟩, href⟩
    rw [size_delete hI]
    omega

/-- Every call takes the image through a step of its kind, or faults on a path too long for
its 32-bit length. -/
theorem Call.exec_takes (hc : env.Calm) (h : Holds b I s) (c : Call) :
    Takes b s (c.exec env) (I.Steps c) c.path? := by
  cases c with
  | startPlaylist n => exact startPlaylist_takes hc h n
  | deletePlaylist n => exact deletePlaylist_takes hc.ftruncate h n
  | addPath n p => exact addPath_takes hc h n p
  | addPathToPlist n p =>
    rcases addTo_takes hc h n p with ⟨ret, I', k, s', hx, hstep, hI', href⟩ | hx
    · exact Or.inl ⟨ret, I', k, s', hx, .addPathToPlist hstep, hI', href⟩
    · exact Or.inr hx

end Mlib

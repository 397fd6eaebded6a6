import Mlib.Image.Listing
import Mlib.Image.Runs

/-! A call of `mlib_add_path` that fails: it leaves every playlist as it was, unless it has
added the path to `.global` by then. -/
namespace Mlib
open Foundation

/-- If the call returns a negative value, the playlists that are listed, with their names, counts and
paths, are those from before it. -/
def AddPathAtomic (env : Env) (s : Lib) (n p : CStr) : Prop :=
  ∀ ret t, mlibAddPath env n (.own p) s = .ok (ret, t) → ret < 0 →
    ∃ records, mlibListRecords env.endian s.mem = .ok records ∧ mlibListRecords env.endian t.mem = .ok records

/-- A playlist takes a path, when the file is `grown` bytes longer than now: it is there with `free`
bytes in its bucket and has not got the path, and with room for it the file stays below 4 GiB. -/
def TakesPath (e : Endian) (s : Lib) (grown : Nat) (n p : CStr) (free : Nat) : Prop :=
  ∃ plist, mlibFindPlaylist e s.mem n = .ok (some plist) ∧ mlibFindPath e s.mem plist p = .ok none ∧
    freeBytes e s.mem plist = .ok free ∧ s.file.length + grown + 128 * roundsFor free p.mem.length < 2 ^ 32

/-- The playlist is `.global`, or it takes the path after `.global` whenever `.global` takes it. -/
def BothTake (e : Endian) (s : Lib) (n p : CStr) : Prop :=
  n = dotGlobal ∨ ∀ free, TakesPath e s 0 dotGlobal p free →
    ∃ free', TakesPath e s (128 * roundsFor free p.mem.length) n p free'

variable {env : Env} {b : Nat} {I : Image} {s : Lib} {n p : CStr} {l u : List Record} {r r' : Record}

def Image.found (I : Image) (n : CStr) : Option Record := I.recs.find? (·.name = n)

theorem Image.Lacks.found (h : I.Lacks n) : I.found n = none := by
  apply List.find?_eq_none.mpr
  intro r hr
  simpa using h r hr

theorem Image.Finds.found (h : I.Finds n l r u) : I.found n = some r := by
  apply List.find?_eq_some_iff_append.mpr
  refine ⟨by simpa using h.name, l, u, h.recs, fun r' hr' => ?_⟩
  simpa using h.first r' hr'

/-- What is done to one record does not change which record has another name. -/
theorem Image.Finds.found_other (h : I.Finds dotGlobal l r u) (hn : n ≠ dotGlobal) (hr : r'.name = r.name) :
    (I.withRecs (l ++ r' :: u)).found n = I.found n := by
  have hne : r.name ≠ n := fun heq => hn (heq.symm.trans h.name)
  rw [Image.found, Image.found, h.recs, Image.withRecs_recs, List.find?_append, List.find?_append,
    List.find?_cons_of_neg (by simpa using hr ▸ hne), List.find?_cons_of_neg (by simpa using hne)]

def Image.Takes (I : Image) (grown : Nat) (n p : CStr) (free : Nat) : Prop :=
  ∃ r, I.found n = some r ∧ p ∉ r.paths ∧ r.gap = free ∧ I.size + grown + 128 * r.rounds p < 2 ^ 32

theorem Image.Lacks.not_takes (h : I.Lacks n) (grown free : Nat) : ¬ I.Takes grown n p free := by
  rintro ⟨r, hr, -⟩
  rw [h.found] at hr
  cases hr

theorem takesPath_iff (h : Holds b I s) (e : Endian) (grown free : Nat) :
    TakesPath e s grown n p free ↔ I.Takes grown n p free := by
  have hlen := h.file_length
  rcases I.finds_or_lacks n with hn | ⟨l, r, u, hf⟩
  · have hnone := h.find_none hn e
    apply iff_of_false
    · rintro ⟨plist, hfind, -⟩
      rw [hnone] at hfind
      cases hfind
    · exact hn.not_takes grown free
  have hfind := h.find_some hf e
  obtain ⟨found, hpath, hiff⟩ := @findPath_image e b I l u r hf.recs h.size p
  have hfree := @freeBytes_image e b I l u r hf.recs h.size
  rw [← h.shows.mem] at hpath hfree
  constructor
  · rintro ⟨plist, hplist, hnot, hfree', hsize⟩
    cases hfind.symm.trans hplist
    cases hpath.symm.trans hnot
    cases hfree.symm.trans hfree'
    exact ⟨r, hf.found, fun hp => Bool.false_ne_true (hiff.mpr hp), rfl, by rwa [hlen] at hsize⟩
  · rintro ⟨r', hr', hp, rfl, hsize⟩
    cases hf.found.symm.trans hr'
    have hnone : found = none := Option.not_isSome_iff_eq_none.mp (hiff.not.mpr hp)
    exact ⟨recAddr b l, hfind, hnone ▸ hpath, hfree, by rwa [hlen]⟩

/-- A path that a playlist does not take leaves all records with their names, counts and paths. -/
theorem addTo_kept (hc : env.Calm) (h : Holds b I s) (hlt : p.mem.length < 2 ^ 32) (hf : I.Finds n l r u)
    (hn : ∀ free, ¬ I.Takes 0 n p free) :
    ∃ j t, mlibAddPathToPlist env (recAddr b l) (.own p) s = .ok (-1, t) ∧
      Holds b (I.withRecs (l ++ r.grow j :: u)) t := by
  by_cases hp : p ∈ r.paths
  · refine ⟨0, s, addPathToPlist_present h.shows hf.recs h.size hp, ?_⟩
    have hsame : I.withRecs (l ++ r.grow 0 :: u) = I := by
      rw [show r.grow 0 = r from rfl, ← hf.recs, Image.withRecs_self]
    rwa [hsame]
  · have hu : u32 p.mem.length = p.mem.length := Nat.mod_eq_of_lt hlt
    have hbig : 2 ^ 32 ≤ I.size + 128 * r.rounds p := by
      by_contra hsize
      exact hn r.gap ⟨r, hf.found, hp, rfl, by omega⟩
    obtain ⟨j, t, hx, ht, hj, -⟩ := addPathToPlist_refused h.shows hf.recs hc.grows h.size hp (by rwa [hu])
    rw [hc.landing h.shows.placed] at ht
    exact ⟨128 * j, t, hx, ht, by rw [size_grow hf.recs]; exact hj.1⟩

/-- A record that got a path is listed with a larger count. -/
theorem records_add (hI : I.recs = l ++ r :: u) (hp : p ∉ r.paths) :
    (I.withRecs (l ++ r.add p hp :: u)).records ≠ I.records := by
  have hcount : (r.add p hp).paths.length = r.paths.length + 1 := List.orderedInsert_length _ _ _
  rw [Image.records, Image.records, hI, Image.withRecs_recs, List.map_append, List.map_append, List.map_cons,
    List.map_cons]
  intro heq
  have hsame := congrArg (·.2.1) (List.cons.inj (List.append_cancel_left heq)).1
  dsimp only at hsame
  omega

/-- Adding to one playlist succeeds when it takes the path, and keeps what is listed otherwise. -/
theorem addTo_cases (hc : env.Calm) (h : Holds b I s) (hlt : p.mem.length < 2 ^ 32) (n : CStr) :
    ((∃ free, I.Takes 0 n p free) ∧ ∃ t, Call.exec env (.addPathToPlist n p) s = .ok (0, t)) ∨
      ((∀ free, ¬ I.Takes 0 n p free) ∧ ∃ I' t, Call.exec env (.addPathToPlist n p) s = .ok (-1, t) ∧
        Holds b I' t ∧ I'.records = I.records) := by
  rcases I.finds_or_lacks n with hn | ⟨l, r, u, hf⟩
  · refine Or.inr ⟨hn.not_takes 0, I, s, ?_, h, rfl⟩
    rw [Call.exec, Op.step (findPlaylist_lacks h hn)]
    rfl
  rw [addPathToPlist_exec h hf]
  by_cases htakes : ∃ free, I.Takes 0 n p free
  · obtain ⟨free, r', hr', hp, -, hsize⟩ := id htakes
    cases hf.found.symm.trans hr'
    obtain ⟨t, hx, -⟩ := h.added hc hf.recs hp hlt hsize
    exact Or.inl ⟨htakes, t, hx⟩
  · obtain ⟨j, t, hx, ht⟩ := addTo_kept hc h hlt hf (not_exists.mp htakes)
    exact Or.inr ⟨not_exists.mp htakes, _, t, hx, ht, records_grow hf.recs j⟩

private theorem atomic_success {t : Lib} (hx : Call.exec env (.addPath n p) s = .ok (0, t)) :
    AddPathAtomic env s n p := by
  intro ret t' hx' hret
  cases hx.symm.trans hx'
  exact absurd hret (lt_irrefl 0)

private theorem atomic_failure {I' : Image} {t : Lib} (h : Holds b I s) (ht : Holds b I' t)
    (hx : Call.exec env (.addPath n p) s = .ok (-1, t)) : AddPathAtomic env s n p ↔ I'.records = I.records := by
  constructor
  · intro hatomic
    obtain ⟨records, hbefore, hafter⟩ := hatomic (-1) t hx (by decide)
    have hI : I.records = records := Except.ok.inj ((h.listRecords env.endian).symm.trans hbefore)
    have hI' : I'.records = records := Except.ok.inj ((ht.listRecords env.endian).symm.trans hafter)
    exact hI'.trans hI.symm
  · intro hsame ret t' hx' _
    cases hx.symm.trans hx'
    exact ⟨I.records, h.listRecords env.endian, hsame ▸ ht.listRecords env.endian⟩

private theorem takes_after (hg : I.Finds dotGlobal l r u) (hn : n ≠ dotGlobal) (hp : p ∉ r.paths)
    (free : Nat) :
    (I.withRecs (l ++ r.add p hp :: u)).Takes 0 n p free ↔ I.Takes (128 * r.rounds p) n p free := by
  simp only [Image.Takes, hg.found_other hn (rfl : (r.add p hp).name = r.name), size_add hg.recs hp,
    Nat.add_zero]

theorem addPath_atomic (hc : env.Calm) (h : Holds b I s) (hlt : p.mem.length < 2 ^ 32) (n : CStr) :
    (∃ ret t, mlibAddPath env n (.own p) s = .ok (ret, t)) ∧
      (AddPathAtomic env s n p ↔ BothTake env.endian s n p) := by
  have htakes := fun grown n free => @takesPath_iff b I s n p h env.endian grown free
  by_cases hn : n = dotGlobal
  · subst hn
    have he := @addPath_global env s p
    rcases addTo_cases hc h hlt dotGlobal with ⟨-, t, hx⟩ | ⟨-, I', t, hx, ht, hsame⟩
    · exact ⟨⟨0, t, he.trans hx⟩, iff_of_true (atomic_success (he.trans hx)) (Or.inl rfl)⟩
    · exact ⟨⟨-1, t, he.trans hx⟩, iff_of_true ((atomic_failure h ht (he.trans hx)).mpr hsame) (Or.inl rfl)⟩
  rcases I.finds_or_lacks dotGlobal with hg | ⟨l, r, u, hg⟩
  · have hx := @addPath_noGlobal env b I s n h hn hg p
    exact ⟨⟨-1, s, hx⟩, iff_of_true ((atomic_failure h h hx).mpr rfl)
      (Or.inr fun free htake => absurd ((htakes _ _ _).mp htake) (hg.not_takes 0 free))⟩
  have he := @addPath_both env b I s n l u r h hn hg p
  by_cases hglobal : ∃ free, I.Takes 0 dotGlobal p free
  · obtain ⟨free, r', hr', hp, rfl, hsize⟩ := hglobal
    cases hg.found.symm.trans hr'
    obtain ⟨s₁, hx₁, h₁, -⟩ := h.added hc hg.recs hp hlt hsize
    rw [Op.step hx₁] at he
    have hboth : BothTake env.endian s n p ↔
        ∃ free, (I.withRecs (l ++ r.add p hp :: u)).Takes 0 n p free := by
      simp only [BothTake, htakes, takes_after hg hn hp, hn, false_or]
      constructor
      · exact fun hall => hall r.gap ⟨r, hg.found, hp, rfl, hsize⟩
      · rintro hsecond free ⟨r', hr', -, rfl, -⟩
        cases hg.found.symm.trans hr'
        exact hsecond
    rcases addTo_cases hc h₁ hlt n with ⟨htake, t, hx⟩ | ⟨hnone, I', t, hx, ht, hsame⟩
    · exact ⟨⟨0, t, he.trans hx⟩, iff_of_true (atomic_success (he.trans hx)) (hboth.mpr htake)⟩
    · -- `.global` has the path now, and the call fails
      refine ⟨⟨-1, t, he.trans hx⟩, iff_of_false ?_ (hboth.not.mpr (not_exists.mpr hnone))⟩
      rw [atomic_failure h ht (he.trans hx), hsame]
      exact records_add hg.recs hp
  · have hboth : BothTake env.endian s n p := Or.inr fun free htake =>
      absurd ⟨free, (htakes _ _ _).mp htake⟩ hglobal
    obtain ⟨j, s₁, hx₁, h₁⟩ := addTo_kept hc h hlt hg (not_exists.mp hglobal)
    rw [Op.step hx₁] at he
    rcases addTo_cases hc h₁ hlt n with ⟨-, t, hx⟩ | ⟨-, I', t, hx, ht, hsame⟩
    · exact ⟨⟨0, t, he.trans hx⟩, iff_of_true (atomic_success (he.trans hx)) hboth⟩
    · refine ⟨⟨-1, t, he.trans hx⟩, iff_of_true ?_ hboth⟩
      rw [atomic_failure h ht (he.trans hx), hsame, records_grow hg.recs]

/-- In every library that is reached, adding a path returns, and a failed addition leaves all
playlists as they were exactly when the playlist takes the path whenever `.global` takes it. -/
theorem addPath_atomic_iff {kind : Call → Prop} (hc : env.Calm) (h : Reached env kind s) (n : CStr)
    (hp : p.val.length < 2 ^ 31) : (∃ ret t, mlibAddPath env n (.own p) s = .ok (ret, t)) ∧
      (AddPathAtomic env s n p ↔ BothTake env.endian s n p) := by
  obtain ⟨b, I, hI⟩ := h.image hc
  refine addPath_atomic hc hI ?_ n
  rw [CStr.mem_length]
  omega

/-- A path is added to a playlist that has it already: the call fails, and everything is as it was. -/
theorem addPath_atomic_sample : ∃ s, Reached (.steady .little) (fun _ => True) s ∧
    mlibAddPath (.steady .little) nameA (.own pathB) s = .ok (-1, s) ∧
      AddPathAtomic (.steady .little) s nameA pathB := by
  have hc := Env.steady_calm .little
  obtain ⟨s, b, h, hI, -⟩ := @sample_reached (fun _ => True) (fun _ _ => trivial) trivial
  have hg := Image.sample_global
  have hf := Image.sample_finds
  have hpresent : Call.exec (.steady .little) (.addPathToPlist nameA pathB) s = .ok (-1, s) :=
    (addPathToPlist_exec hI hf pathB).trans (addPathToPlist_present hI.shows hf.recs hI.size List.mem_cons_self)
  have hx : mlibAddPath (.steady .little) nameA (.own pathB) s = .ok (-1, s) := by
    refine (addPath_both hI (by decide) hg pathB).trans ?_
    rw [Op.step (addPathToPlist_present hI.shows hg.recs hI.size List.mem_cons_self), hpresent]
  refine ⟨s, h, hx, ((addPath_atomic_iff hc h nameA (by decide)).2).mpr (Or.inr fun free htake => ?_)⟩
  obtain ⟨r, hr, hp, -⟩ := (takesPath_iff hI _ _ _).mp htake
  cases hg.found.symm.trans hr
  exact absurd List.mem_cons_self hp

/-- A path added in a new library to a playlist that is not there: the call fails, and the path is in `.global`. -/
theorem addPath_leaves_global : ∃ s, Created (.steady .little) CStr.empty CStr.empty s ∧
    ¬ AddPathAtomic (.steady .little) s nameA nameAB := by
  obtain ⟨s, hn, hp, b, hs, hI, -⟩ := @Env.steady_created CStr.empty (by decide)
  have hlacks := @Image.created_lacks CStr.empty CStr.empty hn hp nameA (by decide)
  have hfinds := @Image.created_finds CStr.empty CStr.empty hn hp
  refine ⟨s, hs, (addPath_atomic (Env.steady_calm .little) hI (by decide) nameA).2.not.mpr ?_⟩
  rintro (heq | hall)
  · exact absurd heq (by decide)
  · obtain ⟨free, htake⟩ := hall _ ((takesPath_iff hI _ _ _).mpr ⟨_, hfinds.found, List.not_mem_nil, rfl, by
      rw [Image.size_created]; decide⟩)
    exact hlacks.not_takes _ free ((takesPath_iff hI _ _ _).mp htake)

end Mlib

import Mlib.Image.AnyPlaylists
import Mlib.Properties.CarriedRecords
import Mathlib.Data.List.Nodup

/-! What is left of a change to the playlists that returns an error. A started playlist stays when
only the `msync` behind it fails, and a deleted one is overwritten before the `ftruncate` that may fail. -/
namespace Mlib
open Foundation
variable {env : Env} {e : Endian} {b o : Nat} {f : Bytes} {s t : Lib} {offs l u : List Nat} {ret : Int} {n : CStr}

/-- The file is extended whenever that is asked for, and mapped again where it was. The calls
`msync` and `ftruncate` succeed or fail as they like. -/
structure Env.Extends (env : Env) : Prop where
  lseek : ∀ n, env.lseek n = true
  write : ∀ n, env.write n = true
  mmap_again : ∀ n hint len, Placed hint → env.mmap n hint len = some hint

/-- When it returns an error, all playlists are listed as they were before. -/
def Op.Atomic (op : Op Int) (e : Endian) (s : Lib) : Prop :=
  ∀ ret t, op s = .ok (ret, t) → ret ≠ 0 → mlibListRecords e t.mem = mlibListRecords e s.mem

/-- The playlists behind the one of this name, and then those that a walk finds in as many of the
last bytes of the library as it takes up, are itself and those behind it. -/
def LeavesItself (e : Endian) (m : Mem) (n : CStr) : Prop :=
  ∀ plist len total, mlibFindPlaylist e m n = .ok (some plist) → mlibPlistLen e m plist = .ok len →
    mlibLibLen e m = .ok total → ∃ behind last, mlibListRecordsFrom e m (plist + len) = .ok behind ∧
      mlibListRecordsFrom e m (m.base + (total - len)) = .ok last ∧
        mlibListRecordsFrom e m plist = .ok (behind ++ last)

theorem Env.Extends.grows (he : env.Extends) : env.Grows :=
  ⟨he.lseek, he.write, fun k hint len h => ⟨hint, he.mmap_again k hint len h⟩⟩

/-- An operation whose outcome is known is atomic if it succeeded or the playlists are as before. -/
theorem atomic_iff {op : Op Int} (hx : op s = .ok (ret, t)) :
    op.Atomic e s ↔ ret = 0 ∨ mlibListRecords e t.mem = mlibListRecords e s.mem := by
  constructor
  · intro h
    exact or_iff_not_imp_left.mpr (h ret t hx)
  · intro h ret' t' hx' hne
    cases hx.symm.trans hx'
    exact h.resolve_left hne

private theorem started_tiles (h : Tiled b f offs s) (hsize : f.length + 272 < 2 ^ 32) (n : CStr) :
    ∃ offs', Tiles (splice f 8 (be32 (f.length + 272)) ++ (Record.started n).bytes) 1024 (offs' ++ [f.length]) ∧
      offs'.length = offs.length := by
  have hge := h.length_ge
  have hpre : (splice f 8 (be32 (f.length + 272))).length = f.length :=
    splice_length (by rw [be32_length]; omega)
  obtain ⟨hrec, hlen⟩ := Record.wellFormed (.started n) (show 272 + 1024 < 2 ^ 32 by decide) (splice f 8 (be32 (f.length + 272))) []
  rw [List.append_nil, hpre] at hrec hlen
  set g := splice f 8 (be32 (f.length + 272)) ++ (Record.started n).bytes
  have hg : g.length = f.length + 272 := by rw [List.length_append, hpre, Record.bytes_length]; rfl
  have hsame : StandsIn 1024 1024 (f.length - 1024) f f := fun _ _ => rfl
  have hfront : StandsIn 1024 1024 (f.length - 1024) f g := by
    intro i hi
    rw [List.getElem?_append_left (by omega)]
    exact hsame.splice (by rw [be32_length]; omega) (Or.inr (by rw [be32_length]; omega)) i hi
  obtain ⟨offs', -, hspans, -, -, hcount⟩ := (tiles_iff.mp h.tiles).moved hfront (Nat.le_refl _) (by omega) .big 0 0
  rw [show 1024 + (f.length - 1024) = f.length by omega] at hspans
  refine ⟨offs', tiles_iff.mpr (spans_append.mpr ⟨_, hspans, rfl, hrec, ?_⟩), hcount⟩
  rw [hlen, hg]
  rfl

private theorem startPlaylist_listed (he : env.Extends) (h : Tiled b f offs s) (hsize : f.length + 272 < 2 ^ 32)
    (hnone : mlibFindPlaylist env.endian s.mem n = .ok none) :
    ∃ t, mlibStartPlaylist env n s = .ok (if env.msync (s.clock + 2) then 0 else -1, t) ∧
      mlibListRecords env.endian t.mem ≠ mlibListRecords env.endian s.mem := by
  have hge := h.length_ge
  rw [h.shows.mem] at hnone
  have hpre : (splice f 8 (be32 (f.length + 272))).length = f.length :=
    splice_length (by rw [be32_length]; omega)
  rcases startPlaylist_expands h.shows h.states (by omega) env hnone hsize with ⟨_, -, -, -, hng⟩ | ⟨a, s₁, -, hx, hs₁, -, hclock, hmap⟩
  · exact absurd he.grows hng
  obtain rfl : b = a := Option.some.inj ((he.mmap_again _ _ _ h.shows.placed).symm.trans hmap)
  obtain ⟨offs', htiles, hcount⟩ := started_tiles h hsize n
  rw [fillRecord_writes hs₁ (by rw [hpre])] at hx
  have hstates : word (splice f 8 (be32 (f.length + 272)) ++ (Record.started n).bytes) 8 = f.length + 272 := by
    rw [← splice_append (by rw [be32_length]; omega), word_splice (by rw [List.length_append]; omega) hsize]
  set g := splice f 8 (be32 (f.length + 272)) ++ (Record.started n).bytes
  have hg : g.length = f.length + 272 := by rw [List.length_append, hpre, Record.bytes_length]; rfl
  obtain ⟨t, hsync, ht, -⟩ := @sync_file env b g _ (hs₁.withFile (by rw [hg, List.length_append, hpre, zeros_length])) (by omega)
  rw [withFile_clock, hclock] at hsync
  refine ⟨t, hx.trans hsync, fun hsame => ?_⟩
  obtain ⟨records, hrecs, hlen⟩ := h.listRecords env.endian
  obtain ⟨records', hrecs', hlen'⟩ := (⟨ht, hstates.trans hg.symm, htiles⟩ : Tiled b g _ t).listRecords env.endian
  rw [hrecs, hrecs'] at hsame
  rw [Except.ok.inj hsame, hlen, List.length_append, hcount] at hlen'
  exact absurd hlen' (Nat.ne_of_lt (Nat.lt_succ_self _))

/-- Starting a playlist is atomic exactly where the name is taken, the library would get too long,
or the `msync` succeeds. -/
theorem startPlaylist_atomic_iff (he : env.Extends) (h : WellFormed env.endian s)
    (hplaced : Placed s.header) (n : CStr) :
    (mlibStartPlaylist env n).Atomic env.endian s ↔
      (∃ plist, mlibFindPlaylist env.endian s.mem n = .ok (some plist)) ∨
      2 ^ 32 ≤ s.file.length + 272 ∨ env.msync (s.clock + 2) = true := by
  obtain ⟨offs, h⟩ := h.tiled hplaced
  have hge := h.length_ge
  rcases h.find_cases env.endian n with hfind | ⟨l, o, u, -, hfind⟩
  · have hnone : ¬ ∃ plist, mlibFindPlaylist env.endian s.mem n = .ok (some plist) := by
      rintro ⟨plist, hsome⟩
      cases hfind.symm.trans hsome
    rw [or_iff_right hnone]
    by_cases hsize : s.file.length + 272 < 2 ^ 32
    · obtain ⟨t, hx, hlisted⟩ := startPlaylist_listed he h hsize hfind
      rw [atomic_iff hx, or_iff_left hlisted, or_iff_right (Nat.not_le.mpr hsize)]
      split <;> simp_all
    · have hx := startPlaylist_too_long h.shows h.states (by omega) (by rwa [h.shows.mem] at hfind) (by omega)
      exact iff_of_true ((atomic_iff hx).mpr (Or.inr rfl)) (Or.inl (by omega))
  · exact iff_of_true ((atomic_iff (startPlaylist_taken hfind)).mpr (Or.inr rfl)) (Or.inl ⟨_, hfind⟩)

private theorem Tiled.listed_from (h : Tiled b f offs s) (hx : Spans f o l f.length)
    {records : List (Bytes × Nat × List Bytes)}
    (hrecs : l.mapM (fun x => mlibListRecord e ⟨b, f⟩ (b + x)) = .ok records) :
    mlibListRecordsFrom e ⟨b, f⟩ (b + o) = .ok records := by
  have h12 : 12 ≤ f.length := le_trans (by decide) h.length_ge
  rw [hx.listRecordsFrom h12 h.states.ge (Nat.le_refl _) hrecs, listRecordsFrom_end h12 h.states.le,
    map_ok, List.append_nil]

section deleted
variable (h : Tiled b f (l ++ o :: u) s)
include h

private theorem Tiled.split : Spans f 1024 l o ∧ WellFormedRecord f o ∧ Spans f o (o :: u) f.length ∧
    Spans f (o + word f (o + 4)) u f.length := by
  obtain ⟨_, hl, rfl, hr, hu⟩ := spans_append.mp (tiles_iff.mp h.tiles)
  exact ⟨hl, hr, ⟨rfl, hr, hu⟩, hu⟩

private theorem uncut_records : mlibListRecords e ⟨b, uncutFile f o⟩ = mlibListRecords e ⟨b, f⟩ ↔
    ∃ behind last, mlibListRecordsFrom e ⟨b, f⟩ (b + (o + word f (o + 4))) = .ok behind ∧
      mlibListRecordsFrom e ⟨b, f⟩ (b + (f.length - word f (o + 4))) = .ok last ∧
      mlibListRecordsFrom e ⟨b, f⟩ (b + o) = .ok (behind ++ last) := by
  obtain ⟨hl, hr, hown, hu⟩ := h.split
  have hge := h.length_ge
  have hlo := hl.length_le
  have hend := hu.length_le
  have hin : o + word f (o + 4) ≤ f.length := by omega
  have hlen := uncutFile_length hin
  have hword : word (uncutFile f o) 8 = word f 8 :=
    (uncutFile_states h.states (by omega) hin).trans h.states.symm
  have hlib := h.states
  obtain ⟨hfront, hmoved, htail⟩ := uncutFile_parts hin
  have hfront' : StandsIn 1024 1024 (o - 1024) f (uncutFile f o) :=
    hfront.sub (Nat.zero_le _) (by omega) (by omega)
  obtain ⟨l', recs, hl', hrecs, hrecs', -⟩ := hl.moved hfront' (by omega) (by omega) e b b
  obtain ⟨u', behind, hu', hbehind, hbehind', -⟩ := hu.moved hmoved (Nat.le_refl _) (by omega) e b b
  rw [show 1024 + (o - 1024) = o by omega] at hl'
  rw [show o + (f.length - (o + word f (o + 4))) = f.length - word f (o + 4) by omega] at hu'
  have h12 : 12 ≤ f.length := by omega
  obtain ⟨own, hown', -⟩ := hown.listed (Nat.le_refl _) e b
  have hown := h.listed_from hown hown'
  rw [listRecords_from (hlen.symm ▸ h12), listRecords_from h12,
    hl'.listRecordsFrom (by omega) (by omega) (by omega) hrecs',
    hl.listRecordsFrom (by omega) (by omega) (by omega) hrecs, hu'.listRecordsFrom (by omega) (by omega) (by omega) hbehind',
    h.listed_from hu hbehind]
  have hto := @listRecordsFrom_tail e b f _ _ hlen hword htail h12
  have hfrom := @listRecordsFrom_tail e b _ f _ hlen.symm hword.symm htail.symm (hlen.symm ▸ h12)
  constructor
  · intro hsame
    cases hx : mlibListRecordsFrom e ⟨b, uncutFile f o⟩ (b + (f.length - word f (o + 4))) with
    | error why =>
      rw [hx, hown] at hsame
      cases hsame
    | ok last =>
      rw [hx, hown] at hsame
      exact ⟨behind, last, rfl, hfrom last hx, hown.trans (congrArg _ (List.append_cancel_left (Except.ok.inj hsame)).symm)⟩
  · rintro ⟨behind, last, hb, hx, heq⟩
    cases hb
    rw [hto last hx, heq]
    rfl

private theorem leavesItself_iff (hfind : mlibFindPlaylist e s.mem n = .ok (some (b + o))) :
    LeavesItself e s.mem n ↔ mlibListRecords e ⟨b, uncutFile f o⟩ = mlibListRecords e ⟨b, f⟩ := by
  obtain ⟨-, hr, -, hu⟩ := h.split
  have hend := hu.length_le
  have hlong := hr.length_ge
  have hlen : mlibPlistLen e ⟨b, f⟩ (b + o) = .ok (word f (o + 4)) := plistLen_word (by omega) e b
  have htotal := h.libLen e
  rw [uncut_records h, LeavesItself]
  rw [h.shows.mem] at hfind htotal ⊢
  constructor
  · intro hx
    obtain ⟨behind, last, hb, hl, heq⟩ := hx _ _ _ hfind hlen htotal
    exact ⟨behind, last, Nat.add_assoc b _ _ ▸ hb, hl, heq⟩
  · rintro ⟨behind, last, hb, hl, heq⟩ plist len total hp hlen' htotal'
    cases hfind.symm.trans hp
    cases hlen.symm.trans hlen'
    cases htotal.symm.trans htotal'
    exact ⟨behind, last, Nat.add_assoc b _ _ ▸ hb, hl, heq⟩

end deleted

/-- Deleting a playlist is atomic exactly where there is none of the name, the `ftruncate` succeeds, or
what stays at the end of the file makes up for the playlist. -/
theorem deletePlaylist_atomic_iff (env : Env) (h : WellFormed env.endian s) (hplaced : Placed s.header)
    (n : CStr) :
    (mlibDeletePlaylist env n).Atomic env.endian s ↔ mlibFindPlaylist env.endian s.mem n = .ok none ∨
      env.ftruncate s.clock = true ∨ LeavesItself env.endian s.mem n := by
  obtain ⟨offs, h⟩ := h.tiled hplaced
  rcases h.find_cases env.endian n with hfind | ⟨l, o, u, rfl, hfind⟩
  · exact iff_of_true ((atomic_iff (deletePlaylist_none hfind)).mpr (Or.inr rfl)) (Or.inl hfind)
  have hsome : mlibFindPlaylist env.endian s.mem n ≠ .ok none := by
    rw [hfind]
    exact fun hx => by cases hx
  obtain ⟨-, hlo, hin⟩ := h.tiles.record (List.mem_append_right l List.mem_cons_self)
  have hhead : o + 144 ≤ s.file.length :=
    le_trans (by omega) (h.growable (List.mem_append_right l List.mem_cons_self)).inside_head
  have hfind' := hfind
  rw [h.shows.mem] at hfind'
  rw [or_iff_right hsome, leavesItself_iff h hfind]
  cases ht : env.ftruncate s.clock with
  | true =>
    obtain ⟨s', hx, -⟩ := deletePlaylist_cuts h.shows h.states hlo hin hhead hfind' ht
    exact iff_of_true ((atomic_iff hx).mpr (Or.inl rfl)) (Or.inl rfl)
  | false =>
    obtain ⟨s', hx, hs'⟩ := deletePlaylist_uncut h.shows h.states hlo hin hhead hfind' ht
    rw [atomic_iff hx, hs'.mem, h.shows.mem, or_iff_right (by decide), or_iff_right (by decide)]

/-- Where no two playlists have one name, only the last playlist of the file makes up for itself. -/
theorem leavesItself_iff_last (h : WellFormed e s) (hplaced : Placed s.header) {plists : List Nat} {plist : Nat}
    {records : List (Bytes × Nat × List Bytes)} (hall : mlibForEachPls e s.mem = .ok plists)
    (hrecords : mlibListRecords e s.mem = .ok records) (hnames : (records.map Prod.fst).Nodup)
    (hfind : mlibFindPlaylist e s.mem n = .ok (some plist)) :
      LeavesItself e s.mem n ↔ plists.getLast? = some plist := by
  obtain ⟨offs, h⟩ := h.tiled hplaced
  rcases h.find_cases e n with hx | ⟨l, o, u, rfl, hx⟩
  · cases hx.symm.trans hfind
  cases hx.symm.trans hfind
  cases (h.forEachPls e).symm.trans hall
  have hge := h.length_ge
  obtain ⟨hl, hr, hown, hu⟩ := h.split
  obtain ⟨front, hfront, -⟩ := hl.listed (hown.length_le.trans' (Nat.le_add_right _ _)) e s.header
  obtain ⟨own, hown', -⟩ := hown.listed (Nat.le_refl _) e s.header
  obtain ⟨behind, hbehind, hcount⟩ := hu.listed (Nat.le_refl _) e s.header
  rw [leavesItself_iff h hfind, uncut_records h, h.listed_from hown hown', h.listed_from hu hbehind]
  cases u with
  | nil =>
    have hstop : o + word s.file (o + 4) = s.file.length := hu
    obtain rfl : behind = [] := List.length_eq_zero_iff.mp hcount
    refine iff_of_true ⟨[], own, rfl, ?_, rfl⟩ ?_
    · rw [← hstop, Nat.add_sub_cancel]
      exact h.listed_from hown hown'
    · rw [List.map_append, List.map_singleton, List.getLast?_concat]
  | cons o' u =>
    obtain ⟨r', rest, rfl⟩ : ∃ r' rest, behind = r' :: rest := List.exists_cons_of_length_eq_add_one hcount
    obtain ⟨r, hr'⟩ := hr.listed (by have := hu.length_le; omega) e s.header
    rw [List.mapM_cons, hr', ok_bind, hbehind, ok_bind] at hown'
    cases hown'
    rw [h.shows.mem, h.tiles.listRecords h.states, List.mapM_append, hfront, ok_bind, List.mapM_cons,
      hr', ok_bind, hbehind,
      ok_bind] at hrecords
    cases hrecords
    refine iff_of_false ?_ ?_
    · rintro ⟨behind, last, hb, -, heq⟩
      cases hb
      obtain ⟨rfl, -⟩ := List.cons.inj (Except.ok.inj heq)
      rw [List.map_append] at hnames
      exact (List.nodup_cons.mp hnames.of_append_right).1 List.mem_cons_self
    · intro hlast
      rw [List.getLast?_map, List.getLast?_append_of_ne_nil _ (List.cons_ne_nil _ _),
        List.getLast?_cons_cons] at hlast
      obtain ⟨x, hx, hxo⟩ := Option.map_eq_some_iff.mp hlast
      have hapart := hu.record (List.mem_of_getLast? hx)
      have hlong := hr.length_ge
      omega

/-- Exactly when an error of starting or deleting a playlist leaves all playlists as they were. -/
theorem changes_atomic_iff (he : env.Extends) (h : WellFormed env.endian s) (hplaced : Placed s.header)
    (n : CStr) :
    ((mlibStartPlaylist env n).Atomic env.endian s ↔
      (∃ plist, mlibFindPlaylist env.endian s.mem n = .ok (some plist)) ∨
      2 ^ 32 ≤ s.file.length + 272 ∨ env.msync (s.clock + 2) = true) ∧
    ((mlibDeletePlaylist env n).Atomic env.endian s ↔ mlibFindPlaylist env.endian s.mem n = .ok none ∨
      env.ftruncate s.clock = true ∨ LeavesItself env.endian s.mem n) :=
  ⟨startPlaylist_atomic_iff he h hplaced n, deletePlaylist_atomic_iff env h hplaced n⟩

def Env.withAnswers (msync ftruncate : Nat → Bool) : Env :=
  { Env.steady .little with msync := msync, ftruncate := ftruncate }

theorem Env.withAnswers_extends (msync ftruncate : Nat → Bool) : (Env.withAnswers msync ftruncate).Extends :=
  have h := Env.steady_calm .little
  ⟨h.lseek, h.write, h.mmap_again⟩

/-- Deleting the last of three playlists is atomic though `ftruncate` fails, and so is starting one that is there. -/
theorem changes_atomic_sample : ∃ s, Reached (.steady .little) (fun _ => True) s ∧
    (mlibStartPlaylist (.withAnswers (fun _ => false) fun _ => false) nameA).Atomic .little s ∧
    (mlibDeletePlaylist (.withAnswers (fun _ => false) fun _ => false) nameAB).Atomic .little s := by
  obtain ⟨s, b, hreached, h, -⟩ := @sample_reached (fun _ => True) (fun _ _ => trivial) trivial
  have hwf := h.wellFormed .little
  have hplaced : Placed s.header := h.shows.header ▸ h.shows.placed
  have he := Env.withAnswers_extends (fun _ => false) fun _ => false
  have hf := Image.sample_last
  have hlast : LeavesItself .little s.mem nameAB :=
    (leavesItself_iff_last hwf hplaced (h.forEachPls .little) (h.listRecords .little) (by decide) (h.find_some hf .little)).mpr (by
      rw [hf.recs, recAddrs_append, List.getLast?_concat]
      rfl)
  exact ⟨s, hreached, (changes_atomic_iff he hwf hplaced nameA).1.mpr (Or.inl ⟨_, h.find_some Image.sample_finds .little⟩),
    (changes_atomic_iff he hwf hplaced nameAB).2.mpr (Or.inr (Or.inr hlast))⟩

/-- With a second playlist behind `.global`, a deletion that cannot cut the file off returns an error and
has lost `.global`; a playlist that is started when `msync` fails is there although that is an error. -/
theorem changes_not_atomic : ∃ s, Reached (.steady .little) (fun _ => True) s ∧
    ¬ (mlibDeletePlaylist (.withAnswers (fun _ => true) fun _ => false) dotGlobal).Atomic .little s ∧
    ¬ (mlibStartPlaylist (.withAnswers (fun _ => false) fun _ => true) nameAB).Atomic .little s := by
  obtain ⟨s, hn, hp, b, hs, hI, -⟩ := @Env.steady_created CStr.empty (by decide)
  have hc := Env.steady_calm .little
  have hlack := @Image.created_lacks CStr.empty CStr.empty hn hp nameA (by decide)
  have hsize := @Image.size_created CStr.empty CStr.empty hn hp
  obtain ⟨s₁, hx₁, h₁, -⟩ := hI.started hc hlack (by rw [hsize]; decide)
  set I₁ := (Image.created CStr.empty CStr.empty hn hp).withRecs
    ((Image.created CStr.empty CStr.empty hn hp).recs ++ [.started nameA])
  have hsize₁ : I₁.size = 1568 := (Image.size_started _ nameA).trans (congrArg (· + 272) hsize)
  have hf : I₁.Finds dotGlobal [] (.started dotGlobal) [.started nameA] :=
    ⟨rfl, storedName_eq (by decide), by rintro r ⟨⟩⟩
  have hwf := h₁.wellFormed .little
  have hplaced : Placed s₁.header := h₁.shows.header ▸ h₁.shows.placed
  refine ⟨s₁, @Reached.call _ _ (.startPlaylist nameA) _ _ _ (.created hs) trivial hx₁, ?_, ?_⟩
  · intro hatomic
    rcases (deletePlaylist_atomic_iff (.withAnswers (fun _ => true) fun _ => false) hwf hplaced dotGlobal).mp hatomic with
      hx | hx | hx
    · cases (h₁.find_some hf .little).symm.trans hx
    · cases hx
    · have hlast := (leavesItself_iff_last hwf hplaced (h₁.forEachPls .little) (h₁.listRecords .little)
        (show [(storedName dotGlobal).val, (storedName nameA).val].Nodup by decide) (h₁.find_some hf .little)).mp hx
      rw [show I₁.recs = [.started dotGlobal] ++ [.started nameA] from rfl, recAddrs_append,
        List.getLast?_concat] at hlast
      exact absurd (Option.some.inj hlast) (@recAddr_lt b [] (.started dotGlobal) []).ne'
  · have hlack₁ : I₁.Lacks nameAB := (Image.created_lacks (by decide)).behind (by decide)
    intro hatomic
    rcases (startPlaylist_atomic_iff (Env.withAnswers_extends _ _) hwf hplaced nameAB).mp hatomic with ⟨plist, hx⟩ | hx | hx
    · cases (h₁.find_none hlack₁ .little).symm.trans hx
    · rw [h₁.shows.file, Image.bytes_length, hsize₁] at hx
      exact absurd hx (by decide)
    · cases hx

end Mlib

import Mlib.Image.Tail
import Mlib.Image.AnyGrowth
import Mlib.Properties.ImageInvariant

/-! What is read of a well formed library, whatever program wrote it: where the walk over its records
goes, and the name, the count, the paths and the free bytes of each of them. -/
namespace Mlib
open Foundation

structure Contains (f : Bytes) (off : Nat) (name : CStr) (paths : List CStr) : Prop where
  short : name.val.length < 116
  name : name.mem <+: f.drop (off + 12)
  count : paths.length = word f (off + 8)
  sorted : paths.Pairwise (· < ·)
  paths : ∀ i (h : i < paths.length), ∃ x, word f (off + 128 + word f (off + 136) + 4 * i) = x ∧
    x < word f (off + 140) ∧
    x + paths[i].mem.length ≤ word f (off + 140) ∧ paths[i].mem <+: f.drop (off + 144 + x) ∧
    (x = 0 ∨ f[off + 143 + x]? = some 0)

variable {e : Endian} {b off o stop x y : Nat} {f : Bytes} {s : Lib} {offs l u : List Nat} {name : CStr} {paths : List CStr}

theorem WellFormedRecord.contains (h : WellFormedRecord f off) : ∃ name paths, Contains f off name paths := by
  obtain ⟨i, hi, hnul⟩ := h.name
  obtain ⟨paths, hcount, hsorted, hpaths⟩ := h.paths
  rw [← List.getElem?_drop] at hnul
  obtain ⟨name, hname, hshort⟩ := string_of_nul hnul
  exact ⟨name, paths, by omega, hname, hcount, hsorted, hpaths⟩

theorem WellFormedRecord.length_ge (h : WellFormedRecord f off) : 160 ≤ word f (off + 4) := by
  have hstr := h.strings
  have hix := h.indexes
  have hlen := h.length
  omega

def Spans (f : Bytes) : Nat → List Nat → Nat → Prop
  | off, [], stop => off = stop
  | off, o :: offs, stop => o = off ∧ WellFormedRecord f o ∧ Spans f (o + word f (o + 4)) offs stop

theorem tiles_iff : Tiles f off offs ↔ Spans f off offs f.length := by
  induction offs generalizing off with
  | nil => exact Iff.rfl
  | cons o offs ih => exact and_congr_right' (and_congr_right' ih)

theorem spans_append : Spans f off (l ++ u) stop ↔ ∃ mid, Spans f off l mid ∧ Spans f mid u stop := by
  induction l generalizing off with
  | nil => exact ⟨fun h => ⟨off, rfl, h⟩, fun ⟨mid, hmid, h⟩ => hmid ▸ h⟩
  | cons o l ih =>
    constructor
    · rintro ⟨rfl, hr, h⟩
      obtain ⟨mid, hl, hu⟩ := ih.mp h
      exact ⟨mid, ⟨rfl, hr, hl⟩, hu⟩
    · rintro ⟨mid, ⟨rfl, hr, hl⟩, hu⟩
      exact ⟨rfl, hr, ih.mpr ⟨mid, hl, hu⟩⟩

theorem Spans.length_le (h : Spans f off offs stop) : off + 160 * offs.length ≤ stop := by
  induction offs generalizing off with
  | nil => exact Nat.le_of_eq h
  | cons o offs ih =>
    obtain ⟨rfl, hr, h⟩ := h
    have := ih h
    have := hr.length_ge
    rw [List.length_cons]
    omega

/-- Each of the records is well formed and ends where the next one starts or before. -/
theorem Spans.record (h : Spans f off offs stop) (ho : o ∈ offs) :
    WellFormedRecord f o ∧ off ≤ o ∧ o + word f (o + 4) ≤ stop := by
  induction offs generalizing off with
  | nil => cases ho
  | cons o' offs ih =>
    obtain ⟨rfl, hr, h⟩ := h
    rcases List.mem_cons.mp ho with rfl | ho
    · exact ⟨hr, Nat.le_refl o, by have := h.length_le; omega⟩
    · obtain ⟨hro, hle, hin⟩ := ih h ho
      exact ⟨hro, by omega, hin⟩

theorem Tiles.record (h : Tiles f off offs) (ho : o ∈ offs) :
    WellFormedRecord f o ∧ off ≤ o ∧ o + word f (o + 4) ≤ f.length := (tiles_iff.mp h).record ho

/-- Records do not overlap. -/
theorem Tiles.apart (h : Tiles f off offs) (hx : x ∈ offs) (hy : y ∈ offs) (hlt : x < y) :
    x + word f (x + 4) ≤ y := by
  induction offs generalizing off with
  | nil => cases hx
  | cons o offs ih =>
    obtain ⟨rfl, -, h⟩ := h
    rcases List.mem_cons.mp hx with rfl | hx'
    · exact (h.record ((List.mem_cons.mp hy).resolve_left hlt.ne')).2.1
    · rcases List.mem_cons.mp hy with rfl | hy'
      · have := (h.record hx').2.1
        omega
      · exact ih h hx' hy'

theorem Tiles.sorted (h : Tiles f off offs) : offs.Pairwise (· < ·) := by
  induction offs generalizing off with
  | nil => exact .nil
  | cons o offs ih =>
    obtain ⟨rfl, hr, h⟩ := h
    refine List.pairwise_cons.mpr ⟨fun y hy => ?_, ih h⟩
    have := (h.record hy).2.1
    have := hr.length_ge
    omega

/-- They stand in the file in the order of the walk. -/
theorem Tiles.lt_iff (h : Tiles f off offs) {i j : Nat} (hi : offs[i]? = some x) (hj : offs[j]? = some y) :
    x < y ↔ i < j := by
  obtain ⟨hi', rfl⟩ := List.getElem?_eq_some_iff.mp hi
  obtain ⟨hj', rfl⟩ := List.getElem?_eq_some_iff.mp hj
  have hsorted := List.pairwise_iff_getElem.mp h.sorted
  rcases lt_trichotomy i j with hlt | rfl | hlt
  · exact iff_of_true (hsorted i j hi' hj' hlt) hlt
  · exact iff_of_false (Nat.lt_irrefl _) (Nat.lt_irrefl _)
  · exact iff_of_false (hsorted j i hj' hi' hlt).not_gt hlt.not_gt

theorem Tiles.length_le (h : Tiles f off offs) : off + offs.length ≤ f.length := by
  have := (tiles_iff.mp h).length_le
  omega

/-- A walk visits the records one after another and goes on behind them. -/
theorem Spans.walk (h : Spans f off offs stop) (h12 : 12 ≤ f.length) (hstop : stop ≤ word f 8)
    (hin : stop ≤ f.length)
    (fuel : Nat) :
    walkFrom e f b (fuel + offs.length) off = (offs.map (b + ·) ++ ·) <$> walkFrom e f b fuel stop := by
  induction offs generalizing off with
  | nil =>
    obtain rfl : off = stop := h
    change _ = (fun x => x) <$> _
    rw [List.length_nil, Nat.add_zero]
    cases walkFrom e f b fuel off <;> rfl
  | cons o offs ih =>
    have hend := (h.record List.mem_cons_self).2.2
    obtain ⟨rfl, hr, h⟩ := h
    have hlong := hr.length_ge
    rw [List.length_cons, ← Nat.add_assoc, walk_step h12 ⟨by omega, hr.magic⟩ (by omega), ih h]
    cases walkFrom e f b fuel stop <;> rfl

/-- The walk over a tiled file visits the records and no more. -/
theorem Tiles.forEachPls (h : Tiles f 1024 offs) (hlen : word f 8 = f.length) (e : Endian) (b : Nat) :
    mlibForEachPls e ⟨b, f⟩ = .ok (offs.map (b + ·)) := by
  have hle := h.length_le
  have hlt : word f 8 < 2 ^ 32 := ofBe32_lt _
  have hend : ∀ fuel, walkFrom e f b fuel f.length = .ok [] := fun fuel => by
    rw [walkFrom, arrive, if_pos (by omega), ok_bind]
    cases fuel <;> rfl
  obtain ⟨fuel, hfuel⟩ : ∃ fuel, roundLimit = fuel + offs.length :=
    ⟨roundLimit - offs.length, by rw [roundLimit]; omega⟩
  rw [forEachPls_walk (by omega), hfuel, (tiles_iff.mp h).walk (by omega) (by omega) (Nat.le_refl _), hend, map_ok,
    List.append_nil]

section record
variable (h : WellFormedRecord f off) (hin : off + word f (off + 4) ≤ f.length)
include h hin

theorem WellFormedRecord.head_inside : off + 160 ≤ f.length := by
  have := h.length_ge
  omega

theorem freeBytes_word (e : Endian) (b : Nat) :
    freeBytes e ⟨b, f⟩ (b + off) = .ok (word f (off + 136) - (16 + word f (off + 140))) := by
  have hhead := h.head_inside hin
  rw [freeBytes, bucketIndexOffs_word (by omega), ok_bind, bucketStrBytes_word (by omega), ok_bind, sizeofMlibBucket, pure_ok]

theorem nrIndexes_word (e : Endian) (b : Nat) :
    mlibBucketNrIndexes e ⟨b, f⟩ (plistData (b + off)) = .ok (word f (off + 8)) := by
  have hhead := h.head_inside hin
  have hlt : word f (off + 132) < 2 ^ 32 := ofBe32_lt _
  rw [mlibBucketNrIndexes, bucketLength_word (by omega), ok_bind, bucketIndexOffs_word (by omega), ok_bind,
    sub32_eq h.indexes hlt, h.count, Nat.mul_div_cancel_left _ (by decide), pure_ok]

def indexedAddr (f : Bytes) (b off i : Nat) : Nat :=
  b + (off + 144 + word f (off + 128 + word f (off + 136) + 4 * i))

theorem bucketString_word (e : Endian) (b : Nat) {i : Nat} (hi : i < word f (off + 8)) :
    mlibBucketString e ⟨b, f⟩ (plistData (b + off)) i = .ok (indexedAddr f b off i) := by
  have hhead := h.head_inside hin
  have hlen := h.length
  have hix := h.indexes
  have hcount := h.count
  have hread : mlibReadl e ⟨b, f⟩ (plistData (b + off) + word f (off + 136) + 4 * i) =
      .ok (word f (off + 128 + word f (off + 136) + 4 * i)) := by
    rw [plistData, show b + off + 128 + word f (off + 136) + 4 * i = b + (off + 128 + word f (off + 136) + 4 * i) by omega,
      mlibReadl_word, if_pos (by omega)]
  rw [mlibBucketString, mlibBucketIndex, mlibBucketIndexes,
    bucketIndexOffs_word (by omega), ok_bind, pure_ok, ok_bind, hread,
    ok_bind, pure_ok, mlibBucketStringAt, bucketStrings, plistData, sizeofMlibBucket, indexedAddr]
  congr 1
  omega

theorem getPathAt_word (e : Endian) (b i : Nat) : mlibGetPathAt e ⟨b, f⟩ (b + off) i =
    .ok ((List.range (word f (off + 8))).map (indexedAddr f b off))[i]? := by
  rw [mlibGetPathAt, nrIndexes_word h hin, ok_bind, List.getElem?_map]
  by_cases hi : i < word f (off + 8)
  · rw [if_neg (by omega), bucketString_word h hin e b hi, map_ok, List.getElem?_range hi, Option.map_some]
  · rw [if_pos (by omega), List.getElem?_eq_none (by rw [List.length_range]; omega)]
    rfl

end record

theorem Contains.listPaths (hc : Contains f off name paths) (h : WellFormedRecord f off)
    (hin : off + word f (off + 4) ≤ f.length) (e : Endian) (b : Nat) :
    mlibListPaths e ⟨b, f⟩ (b + off) = .ok (paths.map (·.val)) := by
  have hcount := h.count
  have hlt : word f (off + 132) < 2 ^ 32 := ofBe32_lt _
  have hall : mlibForEachPath e ⟨b, f⟩ (b + off) = .ok ((List.range (word f (off + 8))).map (indexedAddr f b off)) :=
    forEachPath_ok (getPathAt_word h hin e b) (by rw [List.length_map, List.length_range, roundLimit]; omega)
  rw [mlibListPaths, hall, ok_bind]
  refine mapM_listed (by rw [List.length_map, List.length_range, List.length_map, hc.count]) fun i addr str hx hy => ?_
  rw [List.getElem?_map, Option.map_eq_some_iff] at hy
  obtain ⟨p, hp, rfl⟩ := hy
  obtain ⟨hi, rfl⟩ := List.getElem?_eq_some_iff.mp hp
  obtain ⟨x, hx', -, -, hstr, -⟩ := hc.paths i hi
  rw [List.getElem?_map, List.getElem?_range (hc.count ▸ hi), Option.map_some] at hx
  cases hx
  rw [indexedAddr, hx', Mem.view_drop]
  exact chars_of_starts hstr

/-- What is listed of a record is what it contains. -/
theorem Contains.listed (hc : Contains f off name paths) (h : WellFormedRecord f off)
    (hin : off + word f (off + 4) ≤ f.length) (e : Endian) (b : Nat) :
    mlibListRecord e ⟨b, f⟩ (b + off) = .ok (name.val, paths.length, paths.map (·.val)) := by
  have hname : chars ((Mem.mk b f).view (plistName (b + off))) = .ok name.val := by
    rw [plistName, Nat.add_assoc, Mem.view_drop]
    exact chars_of_starts hc.name
  have hhead := h.head_inside hin
  rw [mlibListRecord, hname, ok_bind, plistMcount_word (by omega), ok_bind, hc.listPaths h hin, ok_bind, hc.count, pure_ok]

theorem WellFormedRecord.listed (h : WellFormedRecord f off) (hin : off + word f (off + 4) ≤ f.length)
    (e : Endian) (b : Nat) :
    ∃ record, mlibListRecord e ⟨b, f⟩ (b + off) = .ok record := by
  obtain ⟨name, paths, hc⟩ := h.contains
  exact ⟨_, hc.listed h hin e b⟩

theorem Spans.listed (h : Spans f off offs stop) (hin : stop ≤ f.length) (e : Endian) (b : Nat) :
    ∃ records, offs.mapM (fun o => mlibListRecord e ⟨b, f⟩ (b + o)) = .ok records ∧
      records.length = offs.length := by
  induction offs generalizing off with
  | nil => exact ⟨[], rfl, rfl⟩
  | cons o offs ih =>
    have hend := (h.record List.mem_cons_self).2.2
    obtain ⟨rfl, hr, h⟩ := h
    obtain ⟨record, hrec⟩ := hr.listed (by omega) e b
    obtain ⟨records, hrecs, hlen⟩ := ih h
    refine ⟨record :: records, ?_, congrArg (· + 1) hlen⟩
    rw [List.mapM_cons, hrec, ok_bind, hrecs]
    rfl

/-- What is listed from an offset on: the records that follow each other from there, and then what the walk finds
behind them. -/
theorem Spans.listRecordsFrom (h : Spans f off offs stop) (h12 : 12 ≤ f.length)
    (hstop : stop ≤ word f 8) (hin : stop ≤ f.length)
    {records : List (Bytes × Nat × List Bytes)} (hrecs : offs.mapM (fun o => mlibListRecord e ⟨b, f⟩ (b + o)) = .ok records) :
    mlibListRecordsFrom e ⟨b, f⟩ (b + off) = (records ++ ·) <$> mlibListRecordsFrom e ⟨b, f⟩ (b + stop) := by
  have hlong := h.length_le
  have hlt : word f 8 < 2 ^ 32 := ofBe32_lt _
  obtain ⟨fuel, hfuel⟩ : ∃ fuel, roundLimit = fuel + offs.length :=
    ⟨roundLimit - offs.length, by rw [roundLimit]; omega⟩
  have htail : walkFrom e f b fuel stop = walkFrom e f b roundLimit stop :=
    walk_fuel h12 (by rw [roundLimit] at hfuel; omega) (by rw [roundLimit]; omega)
  have hwalk : walkFrom e f b roundLimit off = (offs.map (b + ·) ++ ·) <$> walkFrom e f b roundLimit stop := by
    rw [← htail, hfuel]
    exact h.walk h12 hstop hin fuel
  rw [listRecordsFrom_walk h12, listRecordsFrom_walk h12, hwalk]
  cases walkFrom e f b roundLimit stop with
  | error why => rfl
  | ok plists =>
    have hmap : (offs.map (b + ·)).mapM (mlibListRecord e ⟨b, f⟩) = .ok records := List.mapM_map.trans hrecs
    rw [map_ok, ok_bind, ok_bind, List.mapM_append, hmap, ok_bind]
    cases plists.mapM (mlibListRecord e ⟨b, f⟩) <;> rfl

theorem listRecords_from (h12 : 12 ≤ f.length) :
    mlibListRecords e ⟨b, f⟩ = mlibListRecordsFrom e ⟨b, f⟩ (b + 1024) := by
  have hstart : mlibListRecords e ⟨b, f⟩ = mlibForEachPls e ⟨b, f⟩ >>= (·.mapM (mlibListRecord e ⟨b, f⟩)) := rfl
  rw [hstart, forEachPls_walk h12, listRecordsFrom_walk h12]

/-- Nothing is listed from the end of the library on. -/
theorem listRecordsFrom_end (h12 : 12 ≤ f.length) (hend : word f 8 ≤ off) :
    mlibListRecordsFrom e ⟨b, f⟩ (b + off) = .ok [] := by
  rw [listRecordsFrom_walk h12, walkFrom, arrive, if_pos hend]
  rfl

theorem Tiles.listRecords (h : Tiles f 1024 offs) (hlen : word f 8 = f.length) (e : Endian) (b : Nat) :
    mlibListRecords e ⟨b, f⟩ = offs.mapM fun off => mlibListRecord e ⟨b, f⟩ (b + off) := by
  rw [mlibListRecords, h.forEachPls hlen, ok_bind, List.mapM_map]
  rfl

/-- The names are compared in full: a stored name has a NUL within its field. -/
theorem Contains.compare (hc : Contains f off name paths) (b : Nat) (n : CStr) :
    ∃ d, strncmp 116 ((Mem.mk b f).view (plistName (b + off))) n.mem = .ok d := by
  obtain ⟨rest, hrest⟩ := hc.name
  refine ⟨cmpStr name.val n.val, ?_⟩
  rw [plistName, Nat.add_assoc, Mem.view_drop, ← hrest, CStr.mem, CStr.mem, List.append_assoc]
  exact strncmp_strings 116 _ _ name.2 n.2 (by have := hc.short; omega) rest []

private theorem find_tiles (hlen : word f 8 = f.length) (h12 : 12 ≤ f.length) (n : CStr)
    (h : Tiles f off offs) (fuel : Nat)
    (hf : offs.length ≤ fuel) : (arrive f b off >>= mlibFindPlaylistFrom e ⟨b, f⟩ n fuel) = .ok none ∨
      ∃ l o u, offs = l ++ o :: u ∧ (arrive f b off >>= mlibFindPlaylistFrom e ⟨b, f⟩ n fuel) = .ok (some (b + o)) := by
  induction offs generalizing off fuel with
  | nil =>
    have hend : off = f.length := h
    left
    rw [arrive, if_pos (by omega), ok_bind]
    cases fuel <;> rfl
  | cons o offs ih =>
    have hin := (h.record List.mem_cons_self).2.2
    obtain ⟨rfl, hr, h⟩ := h
    have hlong := hr.length_ge
    obtain ⟨name, paths, hc⟩ := hr.contains
    obtain ⟨d, hd⟩ := hc.compare b n
    obtain ⟨fuel, rfl⟩ : ∃ k, fuel = k + 1 := ⟨fuel - 1, by rw [List.length_cons] at hf; omega⟩
    rw [arrive_record ⟨by omega, hr.magic⟩, ok_bind, mlibFindPlaylistFrom, mlibPlistNameLen, hd, ok_bind]
    by_cases hz : d = 0
    · rw [if_pos hz]
      exact Or.inr ⟨[], o, offs, rfl, rfl⟩
    · rw [if_neg hz, nextPlaylist_some_word h12, if_pos (by omega)]
      rcases ih h fuel (by simpa using hf) with hnone | ⟨l, o', u, rfl, hsome⟩
      · exact Or.inl hnone
      · exact Or.inr ⟨o :: l, o', u, rfl, hsome⟩

/-- The process sees a file that states its length and is tiled by the records at the offsets. -/
structure Tiled (b : Nat) (f : Bytes) (offs : List Nat) (s : Lib) : Prop where
  shows : Shows b f s
  states : word f 8 = f.length
  tiles : Tiles f 1024 offs

theorem WellFormed.tiled (h : WellFormed e s) (hplaced : Placed s.header) :
    ∃ offs, Tiled s.header s.file offs s := by
  obtain ⟨hmem, hlib, offs, -, htiles⟩ := h
  have hmapped : s.file.length ≤ s.mapped := by
    have htake : s.file.take s.mapped = s.file := congrArg Mem.bytes hmem
    rw [← htake, List.length_take]
    omega
  exact ⟨offs, ⟨rfl, rfl, hmapped, hplaced⟩, hlib, htiles⟩

namespace Tiled
variable (h : Tiled b f offs s)
include h

theorem length_ge : 1024 ≤ f.length := by
  have := h.tiles.length_le
  omega

theorem forEachPls (e : Endian) : mlibForEachPls e s.mem = .ok (offs.map (b + ·)) := by
  rw [h.shows.mem]
  exact h.tiles.forEachPls h.states e b

/-- Such a file is a well formed library wherever it is mapped. -/
theorem wellFormed (e : Endian) : WellFormed e s := by
  refine ⟨by rw [h.shows.mem, h.shows.header, h.shows.file], by rw [h.shows.file, h.states], offs, ?_, h.shows.file ▸ h.tiles⟩
  rw [h.shows.header]
  exact h.forEachPls e

theorem libLen (e : Endian) : mlibLibLen e s.mem = .ok f.length := by
  rw [h.shows.mem, libLen_word e b (by have := h.length_ge; omega), h.states]

theorem visited {plists : List Nat} {plist : Nat} (hall : mlibForEachPls e s.mem = .ok plists)
    (hp : plist ∈ plists) :
    ∃ o ∈ offs, plist = b + o := by
  cases (h.forEachPls e).symm.trans hall
  obtain ⟨o, ho, rfl⟩ := List.mem_map.mp hp
  exact ⟨o, ho, rfl⟩

theorem growable (ho : o ∈ offs) : Growable f o := by
  obtain ⟨hr, hle, hin⟩ := h.tiles.record ho
  exact ⟨by omega, hr.strings, hr.indexes, hr.length, hin⟩

theorem listRecords (e : Endian) : ∃ records, mlibListRecords e s.mem = .ok records ∧
    records.length = offs.length := by
  rw [h.shows.mem, h.tiles.listRecords h.states]
  exact (tiles_iff.mp h.tiles).listed (Nat.le_refl _) e b

theorem find_cases (e : Endian) (n : CStr) : mlibFindPlaylist e s.mem n = .ok none ∨
    ∃ l o u, offs = l ++ o :: u ∧ mlibFindPlaylist e s.mem n = .ok (some (b + o)) := by
  have hge := h.length_ge
  have hle := h.tiles.length_le
  have hlt : word f 8 < 2 ^ 32 := ofBe32_lt _
  have hstates := h.states
  rw [h.shows.mem, mlibFindPlaylist, nextPlaylist_none_word (by omega)]
  exact find_tiles h.states (by omega) n h.tiles roundLimit (by rw [roundLimit]; omega)

end Tiled

end Mlib

import Mlib.Image.Growing
import Mlib.Properties.CarriedRecords

/-! Growing one bucket of a well formed library, whatever program wrote it. The bytes go in front of the
indexes of one record; the record keeps what it holds, and all others are where they were or further on as
a block. -/
namespace Mlib
open Foundation

variable {a b o n x y : Nat} {f g : Bytes} {s t : Lib} {offs : List Nat}

/-- The bucket of the playlist that is visited as number `i` is at `bucket` now and has `n` free bytes more, and
nothing else is different: the records are in their order, those behind it further on by `n`, and hold what they held. -/
structure GrewOnly (e : Endian) (i n : Nat) (s t : Lib) (bucket : Nat) : Prop where
  wellFormed : WellFormed e t
  libLen : ∃ len, mlibLibLen e s.mem = .ok len ∧ mlibLibLen e t.mem = .ok (len + n)
  header : ∀ k < 1024, ¬ (8 ≤ k ∧ k < 12) → t.file[k]? = s.file[k]?
  records : ∃ records, mlibListRecords e s.mem = .ok records ∧ mlibListRecords e t.mem = .ok records
  playlists : ∃ plists plists', mlibForEachPls e s.mem = .ok plists ∧ mlibForEachPls e t.mem = .ok plists' ∧
    plists'.length = plists.length ∧ plists'[i]?.map plistData = some bucket ∧
    ∀ (j : Nat) plist plist', plists[j]? = some plist → plists'[j]? = some plist' →
      plist' - t.header = plist - s.header + (if i < j then n else 0) ∧
      ∃ free, freeBytes e s.mem plist = .ok free ∧
        freeBytes e t.mem plist' = .ok (free + if j = i then n else 0)

private theorem grown_freeBytes (hg : Carried f g x y n) (h : WellFormedRecord f x)
    (hin : x + word f (x + 4) ≤ f.length)
    (hin' : y + word g (y + 4) ≤ g.length) (e : Endian) (b a : Nat) :
    ∃ free, freeBytes e ⟨b, f⟩ (b + x) = .ok free ∧ freeBytes e ⟨a, g⟩ (a + y) = .ok (free + n) := by
  have hstr := h.strings
  refine ⟨_, freeBytes_word h hin e b, ?_⟩
  rw [freeBytes_word (hg.wellFormed h) hin', hg.indexOffs, hg.strBytes (by omega)]
  congr 1
  omega

private theorem grewOnly_file (h : Tiled b f offs s) (ht : Shows a g t) (hg : GrownFile f g o n) {i : Nat}
    (hi : offs[i]? = some o) (e : Endian) : GrewOnly e i n s t (plistData (a + o)) := by
  have ho := List.mem_of_getElem? hi
  have hle := (h.tiles.record ho).2.1
  have h' := h.grown ho ht hg
  have hs := h.shows
  refine ⟨h'.wellFormed e, ⟨f.length, h.libLen e, ?_⟩, ?_, h.grown_records ho ht hg e, _, _, h.forEachPls e,
    h'.forEachPls e, ?_, ?_, ?_⟩
  · rw [h'.libLen e, hg.length]
  · intro k hk hout
    rw [hs.file, ht.file]
    by_cases hk' : k < 8
    · have hsame := hg.magic k hk'
      rwa [Nat.zero_add] at hsame
    · have hsame := hg.before (k - 12) (by omega)
      rwa [show 12 + (k - 12) = k by omega] at hsame
  · simp only [List.length_map]
  · rw [List.getElem?_map, List.getElem?_map, hi, Option.map_some, Option.map_some, Option.map_some, pushed,
      if_neg (Nat.lt_irrefl o), Nat.add_zero]
  · intro j plist plist' hj hj'
    rw [List.getElem?_map, Option.map_eq_some_iff] at hj
    obtain ⟨x, hx, rfl⟩ := hj
    rw [List.getElem?_map, List.getElem?_map, hx, Option.map_some, Option.map_some] at hj'
    cases hj'
    have hxm := List.mem_of_getElem? hx
    obtain ⟨hr, -, hin⟩ := h.tiles.record hxm
    obtain ⟨-, -, hin'⟩ := h'.tiles.record (List.mem_map_of_mem hxm)
    have hback : o < x ↔ i < j := h.tiles.lt_iff hi hx
    have hfront : x < o ↔ j < i := h.tiles.lt_iff hx hi
    refine ⟨?_, ?_⟩
    · rw [hs.header, ht.header, pushed]
      split <;> split <;> omega
    · have hsame : raised o n x = if j = i then n else 0 := by
        rw [raised]
        split <;> split <;> omega
      rw [hs.mem, ht.mem, ← hsame]
      exact grown_freeBytes (hg.carried h.tiles ho hxm) hr hin hin' e b a

/-- Where the calls that extend a file succeed, a bucket of a well formed library that may still grow by `n` bytes
does so, and nothing else changes. -/
theorem bucketExpand_grewOnly {env : Env} (hg : env.Grows) (h : WellFormed env.endian s)
    (hplaced : Placed s.header)
    {plists : List Nat} (hall : mlibForEachPls env.endian s.mem = .ok plists) {i plist : Nat}
      (hi : plists[i]? = some plist)
    {n len : Nat} (hn : 0 < n) (hlen : mlibLibLen env.endian s.mem = .ok len) (hsize : len + n < 2 ^ 32) :
    ∃ bucket t, mlibBucketExpand env (plistData plist) n s = .ok (some bucket, t) ∧
      GrewOnly env.endian i n s t bucket := by
  obtain ⟨offs, ht⟩ := h.tiled hplaced
  cases (ht.forEachPls env.endian).symm.trans hall
  cases (ht.libLen env.endian).symm.trans hlen
  rw [List.getElem?_map, Option.map_eq_some_iff] at hi
  obtain ⟨o, ho, rfl⟩ := hi
  rcases bucketExpand_grown env ht.shows (ht.growable (List.mem_of_getElem? ho)) ht.states hn hsize with
    ⟨_, _, hng⟩ | ⟨a, g, t, hx, ht', hgrown⟩
  · exact absurd hg hng
  · exact ⟨_, t, hx, grewOnly_file ht ht' hgrown ho env.endian⟩

/-- The bucket of `a` grows, which has a path and stands between two other playlists. -/
theorem bucketExpand_grewOnly_sample : ∃ s plists plist, Reached (.steady .little) (fun _ => True) s ∧
    mlibForEachPls .little s.mem = .ok plists ∧ plists.length = 3 ∧ plists[1]? = some plist ∧
    mlibListPaths .little s.mem plist = .ok [pathB.val] ∧
    ∃ bucket t, mlibBucketExpand (.steady .little) (plistData plist) 5 s = .ok (some bucket, t) ∧
      GrewOnly .little 1 5 s t bucket := by
  obtain ⟨s, b, hreached, h, -⟩ := @sample_reached (fun _ => True) (fun _ _ => trivial) trivial
  have hall := h.forEachPls .little
  refine ⟨s, _, _, hreached, hall, rfl, rfl, ?_, bucketExpand_grewOnly (Env.steady_calm .little).grows (h.wellFormed .little)
    (h.shows.header ▸ h.shows.placed) hall rfl (by decide) (h.libLen .little) ?_⟩
  · rw [h.shows.mem]
    exact listPaths_image Image.sample_finds.recs h.size
  · rw [Image.sample_size]
    decide

end Mlib

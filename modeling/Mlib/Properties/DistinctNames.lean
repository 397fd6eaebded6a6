import Mlib.Image.Failing
import Mlib.Image.Meaning

/-! Names of playlists: as long as every started name is stored in full, the stored names
are distinct; and a name that was started is found again exactly when it was stored in full. -/
namespace Mlib
open Foundation
variable {env : Env} {b : Nat} {I I' : Image} {s t : Lib} {n : CStr} {l u : List Record} {ret : Int} {k : Nat}

def Call.Fits (c : Call) : Prop := ∀ n, c = .startPlaylist n → n.val.length ≤ 115

/-- No record has a name that does not fit. -/
theorem Image.lacks_long (I : Image) (h : 115 < n.val.length) : I.Lacks n := by
  rintro r - rfl
  have := r.name_length
  omega

/-- Starting a playlist that is not there yet adds its record behind all others. -/
theorem Image.Steps.started_eq (h : I.Steps (.startPlaylist n) 0 I' k) :
    I.Lacks n ∧ I' = I.withRecs (I.recs ++ [.started n]) := by
  cases h with
  | started h => exact ⟨h, rfl⟩

/-- The record of a started playlist is found exactly when its name was stored in full. -/
theorem findPlaylist_started (h : Holds b (I.withRecs (I.recs ++ [.started n])) t) (hn : I.Lacks n)
    (e : Endian) :
    mlibFindPlaylist e t.mem n = .ok (if n.val.length ≤ 115 then some (recAddr b I.recs) else none) := by
  rw [h.shows.mem]
  by_cases hfit : n.val.length ≤ 115
  · have hname : (Record.started n).name = n := storedName_eq hfit
    have hf := @findPlaylist_some e b _ I.recs [] (.started n) h.size rfl (by rwa [hname])
    rw [if_pos hfit]
    rwa [hname] at hf
  · rw [if_neg hfit]
    exact findPlaylist_none h.size (Image.lacks_long _ (by omega))

private theorem names_distinct (he : env.Settled) (h : Reached env Call.Fits s) (hm : ¬ s.Lost) :
    ∃ A : Store Bytes Bytes, mlibListPlaylists env.endian s.mem = .ok A ∧ A.names.Nodup := by
  obtain ⟨b, I, hI, hd⟩ := (h.tries he (fun I => (Store.names I.contents).Nodup) (fun _ _ _ _ => List.nodup_singleton _)
    (fun _ _ _ _ _ hk hP hs => hs.nodup hk hP)).resolve_left hm
  exact ⟨I.contents, hI.list _, hd⟩

private theorem started_found (he : env.Settled) (hI : Holds b I s)
    (hx : mlibStartPlaylist env n s = .ok (0, t)) :
    ∃ before plist, mlibForEachPls env.endian s.mem = .ok before ∧
      mlibForEachPls env.endian t.mem = .ok (before ++ [plist]) ∧
      (mlibFindPlaylist env.endian t.mem n = .ok (some plist) ↔ n.val.length ≤ 115) := by
  rcases startPlaylist_tries he hI hx with ⟨-, hret⟩ | ⟨ret', I', k, hs, hI', hret⟩
  · cases hret
  obtain rfl := hret rfl
  obtain ⟨hn, rfl⟩ := hs.started_eq
  refine ⟨recAddrs b [] I.recs, recAddr b I.recs, ?_, ?_, ?_⟩
  · exact hI.forEachPls _
  · rw [hI'.shows.mem, forEachPls_image hI'.size, Image.withRecs_recs, recAddrs_append, List.nil_append]
  · rw [findPlaylist_started hI' hn]
    by_cases hfit : n.val.length ≤ 115
    · simp [hfit]
    · simp [hfit]

/-- Where every started name fits, the names of the listing are distinct in every library
that is reached and still mapped. A playlist started in any library that is reached is found
by its name exactly when the name fits. -/
theorem names_distinct_found (he : env.Settled) :
    (∀ s, Reached env Call.Fits s → ¬ s.Lost →
      ∃ A : Store Bytes Bytes, mlibListPlaylists env.endian s.mem = .ok A ∧ A.names.Nodup) ∧
    ∀ kind s n t, Reached env kind s → mlibStartPlaylist env n s = .ok (0, t) →
      ∃ before plist, mlibForEachPls env.endian s.mem = .ok before ∧
        mlibForEachPls env.endian t.mem = .ok (before ++ [plist]) ∧
        (mlibFindPlaylist env.endian t.mem n = .ok (some plist) ↔ n.val.length ≤ 115) := by
  refine ⟨fun s h hm => names_distinct he h hm, ?_⟩
  intro kind s n t h hx
  rcases h.tries he (fun _ => True) (fun _ _ _ _ => trivial) (fun _ _ _ _ _ _ _ _ => trivial) with hl | ⟨b, I, hI, -⟩
  · rw [show mlibStartPlaylist env n s = _ from Call.exec_lost hl (.startPlaylist n)] at hx
    cases hx
  · exact started_found he hI hx

/-- A new library, and the playlist `a` made in it. -/
theorem names_distinct_found_a : ∃ s t, Reached (.steady .little) Call.Fits s ∧
    (∃ A : Store Bytes Bytes, mlibListPlaylists .little s.mem = .ok A ∧ A.names.Nodup) ∧
    mlibStartPlaylist (.steady .little) nameA s = .ok (0, t) ∧
    ∃ plist, mlibFindPlaylist .little t.mem nameA = .ok (some plist) := by
  have hc := Env.steady_calm .little
  obtain ⟨s, hn, hp, b, hs, hI, -⟩ := @Env.steady_created CStr.empty (by decide)
  obtain ⟨t, ht, -⟩ := @startPlaylist_starts (.steady .little) b _ s nameA hc.grows hI.shows
    (Image.created_lacks (by decide))
    (by rw [Image.size_created]; decide) (hc.mmap_again _ _ _ hI.shows.placed)
  obtain ⟨hnames, hfound⟩ := names_distinct_found hc.settled
  obtain ⟨before, plist, -, -, hfind⟩ := hfound Call.Fits s nameA t (.created hs) ht
  exact ⟨s, t, .created hs, hnames s (.created hs) hI.mapped, ht, plist, hfind.mpr (by decide)⟩

def longName : CStr := ⟨List.replicate 116 97, by decide⟩

private theorem start_longName (h : Holds b I s) (hsize : I.size + 272 < 2 ^ 32) :
    ∃ t, mlibStartPlaylist (.steady .little) longName s = .ok (0, t) ∧
      Holds b (I.withRecs (I.recs ++ [.started longName])) t := by
  obtain ⟨t, ht, hI', -⟩ := @startPlaylist_starts (.steady .little) b I s longName (Env.steady_calm _).grows h.shows
    (I.lacks_long (by decide)) hsize ((Env.steady_calm .little).mmap_again _ _ _ h.shows.placed)
  exact ⟨t, ht, hI', by rwa [Image.size_started]⟩

/-- Starting a playlist with a name of 116 bytes twice makes two records of one name, and
neither is found under the name that was given. -/
theorem startPlaylist_twice : ∃ s t u, Created (.steady .little) CStr.empty CStr.empty s ∧
    mlibStartPlaylist (.steady .little) longName s = .ok (0, t) ∧
    mlibStartPlaylist (.steady .little) longName t = .ok (0, u) ∧
    mlibFindPlaylist .little u.mem longName = .ok none ∧
    ∃ A : Store Bytes Bytes, mlibListPlaylists .little u.mem = .ok A ∧ ¬ A.names.Nodup := by
  obtain ⟨s, hn, hp, b, hs, hI, -⟩ := @Env.steady_created CStr.empty (by decide)
  obtain ⟨t, ht, hI₁⟩ := start_longName hI (by rw [Image.size_created]; decide)
  obtain ⟨u, hu, hI₂⟩ := start_longName hI₁ (by rw [Image.size_started, Image.size_created]; decide)
  refine ⟨s, t, u, hs, ht, hu, ?_, _, hI₂.list _, ?_⟩
  · rw [findPlaylist_started hI₂ (Image.lacks_long _ (by decide)), if_neg (by decide)]
  · intro hd
    rw [Image.contents_withRecs, names_entries, Image.withRecs_recs, List.map_append, List.map_append,
      List.append_assoc] at hd
    exact (List.nodup_cons.mp (List.nodup_append.mp hd).2.1).1 List.mem_cons_self

end Mlib

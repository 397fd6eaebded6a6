import Mlib.Image.Adding
import Mlib.Image.AnyPlaylists

/-! Starting and deleting playlists: a new record goes behind all others, and the records
behind a deleted one move down. -/
namespace Mlib
open Foundation
variable {env : Env} {e : Endian} {b addr : Nat} {I : Image} {s : Lib} {l u : List Record} {r : Record} {name : CStr}

/-- A name that a record carries is not started again. -/
theorem startPlaylist_present (hs : Shows b I.bytes s) (hI : I.recs = l ++ r :: u) (hsz : I.size < 2 ^ 32)
    (hl : ∀ r' ∈ l, r'.name ≠ r.name) : mlibStartPlaylist env r.name s = .ok (-1, s) :=
  startPlaylist_taken (hs.mem ▸ findPlaylist_some hsz hI hl)

theorem Image.bytes_length_ge (I : Image) : 1024 ≤ I.bytes.length := by
  rw [Image.bytes_length]
  exact Nat.le_add_right 1024 _

theorem startPlaylist_refused (hs : Shows b I.bytes s) (hsz : I.size < 2 ^ 32)
    (hn : ∀ r ∈ I.recs, r.name ≠ name)
    (hsize : 2 ^ 32 ≤ I.size + 272) :
    mlibStartPlaylist env name s = .ok (-1, { s with refused := s.refused + 1 }) :=
  startPlaylist_too_long hs (I.states hsz) (by have := I.bytes_length_ge; omega) (findPlaylist_none hsz hn)
    (by rwa [Image.bytes_length])

theorem Image.size_started (I : Image) (name : CStr) :
    (I.withRecs (I.recs ++ [.started name])).size = I.size + 272 := by
  have hr : (Record.started name).length = 272 := rfl
  rw [Image.size_split (rfl : (I.withRecs (I.recs ++ [.started name])).recs = _), hr, Image.size]
  rfl

theorem Image.bytes_started (I : Image) (name : CStr) :
    (I.withRecs (I.recs ++ [.started name])).bytes =
      (I.head (I.size + 272) ++ recsBytes I.recs) ++ (Record.started name).bytes := by
  rw [Image.bytes_split (rfl : (I.withRecs (I.recs ++ [.started name])).recs = _), I.size_started,
    Image.withRecs_head]
  simp

/-- Growing the library for a new playlist fails with nothing mapped any more, or the record
is filled in at the old address, wherever the library is now. -/
theorem startPlaylist_cases (env : Env) (hs : Shows b I.bytes s) (hn : ∀ r ∈ I.recs, r.name ≠ name)
    (hsize : I.size + 272 < 2 ^ 32) :
    (∃ s', mlibStartPlaylist env name s = .ok (-1, s') ∧ s'.header = b ∧ s'.mapped = 0 ∧ ¬ env.Grows) ∨
      ∃ a s₁, mlibStartPlaylist env name s = fillRecord env (b + I.size) name s₁ ∧
        Shows a ((I.head (I.size + 272) ++ recsBytes I.recs) ++ zeros 272) s₁ ∧ s₁.refused = s.refused ∧
        s₁.clock = s.clock + 2 ∧ env.mmap s.remaps b (I.size + 272) = some a := by
  have hx := startPlaylist_expands hs (I.states (by omega)) (by have := I.bytes_length_ge; omega) env
    (findPlaylist_none (by omega) hn) (by rwa [Image.bytes_length])
  rw [Image.bytes_length] at hx
  rcases hx with hfail | ⟨a, s₁, -, he, hs₁, hrest⟩
  · exact Or.inl hfail
  · rw [Image.bytes_eq, splice_head] at hs₁
    exact Or.inr ⟨a, s₁, he, hs₁, hrest⟩

/-- A record filled in where the library is mapped makes a playlist behind all others. -/
theorem fillRecord_image (hsize : I.size + 272 < 2 ^ 32)
    (hs : Shows b ((I.head (I.size + 272) ++ recsBytes I.recs) ++ zeros 272) s) :
    ∃ s', fillRecord env (b + I.size) name s = .ok (if env.msync s.clock then 0 else -1, s') ∧
      Shows b (I.withRecs (I.recs ++ [.started name])).bytes s' ∧ s'.refused = s.refused := by
  have hnew := I.size_started name
  have hs₁ : Shows b (I.withRecs (I.recs ++ [.started name])).bytes
      (s.withFile (I.withRecs (I.recs ++ [.started name])).bytes) :=
    hs.withFile (by rw [Image.bytes_length, hnew, List.length_append, List.length_append, Image.head_length,
      zeros_length, Image.size])
  obtain ⟨s', hsync, hs', href, -⟩ := @sync_file env _ _ _ hs₁ (by rw [Image.bytes_length, hnew]; omega)
  refine ⟨s', ?_, hs', href⟩
  rw [fillRecord_writes hs (by rw [List.length_append, Image.head_length, Image.size]), ← Image.bytes_started, hsync,
    withFile_clock]

/-- A new playlist, when the file is still mapped at the old address after it grew. -/
theorem startPlaylist_starts (hg : env.Grows) (hs : Shows b I.bytes s) (hn : ∀ r ∈ I.recs, r.name ≠ name)
    (hsize : I.size + 272 < 2 ^ 32) (hmap : env.mmap s.remaps b (I.size + 272) = some b) :
    ∃ s', mlibStartPlaylist env name s = .ok (if env.msync (s.clock + 2) then 0 else -1, s') ∧
      Shows b (I.withRecs (I.recs ++ [.started name])).bytes s' ∧ s'.refused = s.refused := by
  rcases startPlaylist_cases env hs hn hsize with ⟨-, -, -, -, hng⟩ | ⟨a, s₁, he, hs₁, href, hclock, hmap'⟩
  · exact absurd hg hng
  · obtain rfl : b = a := Option.some.inj (hmap.symm.trans hmap')
    obtain ⟨s', hx, hs', href'⟩ := fillRecord_image hsize hs₁
    rw [hclock] at hx
    exact ⟨s', he.trans hx, hs', href'.trans href⟩

theorem deletePlaylist_missing (hs : Shows b I.bytes s) (hsz : I.size < 2 ^ 32)
    (hn : ∀ r ∈ I.recs, r.name ≠ name) :
    mlibDeletePlaylist env name s = .ok (-1, s) :=
  deletePlaylist_none (hs.mem ▸ findPlaylist_none hsz hn)

theorem size_delete (hI : I.recs = l ++ r :: u) : (I.withRecs (l ++ u)).size = I.size - r.length := by
  have hsplit := Image.size_split hI
  simp only [Image.size, Image.withRecs_recs, recsBytes_append, List.length_append]
  rw [Image.size] at hsplit
  omega

private theorem uncutFile_image (hI : I.recs = l ++ r :: u) (hsz : I.size < 2 ^ 32) :
    splice ((uncutFile I.bytes (recAddr 0 l)).take (I.size - r.length)) 8 (be32 (I.size - r.length)) =
      (I.withRecs (l ++ u)).bytes := by
  have hsplit := Image.size_split hI
  have hlen := (recordWords_image hI hsz).1
  have hpre : (I.head I.size ++ recsBytes l).length = recAddr 0 l := by
    rw [← @Image.pre_addr 0 I l I.size, Nat.zero_add]
  have hbehind : I.bytes.drop (recAddr 0 l + r.length) = recsBytes u := by
    rw [← hpre, ← r.bytes_length, ← List.length_append, Image.bytes_split hI, ← List.append_assoc,
      List.drop_left]
  have hfront : I.bytes.take (recAddr 0 l) = I.head I.size ++ recsBytes l := by
    rw [← hpre, Image.bytes_split hI, List.take_left]
  have hkept : (I.head I.size ++ recsBytes l ++ recsBytes u).length = I.size - r.length := by
    rw [List.length_append, hpre, recAddr]
    omega
  have huncut : (uncutFile I.bytes (recAddr 0 l)).take (I.size - r.length) =
      I.head I.size ++ (recsBytes l ++ recsBytes u) := by
    rw [uncutFile, hlen, hbehind, splice, hfront, List.take_left' hkept, List.append_assoc]
  rw [huncut, splice_head, Image.bytes_eq, size_delete hI, Image.withRecs_head, Image.withRecs_recs,
    recsBytes_append]

/-- Deleting takes the record out of the file, when `ftruncate` succeeds. -/
theorem deletePlaylist_deletes (hs : Shows b I.bytes s) (hI : I.recs = l ++ r :: u) (hsz : I.size < 2 ^ 32)
    (hl : ∀ r' ∈ l, r'.name ≠ r.name) (ht : env.ftruncate s.clock = true) :
    ∃ s', mlibDeletePlaylist env r.name s = .ok (0, s') ∧ Shows b (I.withRecs (l ++ u)).bytes s' ∧
      s'.refused = s.refused ∧ s'.remaps = s.remaps := by
  have hgrow := growable_image hI hsz
  have hhead := hgrow.inside_head
  have hfind := @findPlaylist_some env.endian b I l u r hsz hI hl
  rw [recAddr_offset] at hfind
  obtain ⟨s', hx, hs', hrest⟩ := deletePlaylist_cuts hs (I.states hsz) (by rw [recAddr]; omega) hgrow.inside (by omega) hfind ht
  rw [(recordWords_image hI hsz).1, Image.bytes_length, uncutFile_image hI hsz] at hs'
  exact ⟨s', hx, hs', hrest⟩

end Mlib

import Mlib.Image.Meaning

/-! The bytes of a library refine an ordered store of named sets of paths: what the loops
over playlists and paths read back before and after a call is related as the store says. -/
namespace Mlib
open Foundation

/-- What a call may return and do, from the listing `A` to the listing `B`. -/
def Call.Agrees (A : Store Bytes Bytes) (ret : Int) (B : Store Bytes Bytes) : Call → Prop
  | .startPlaylist n =>
    (n.val ∉ A.names → ret = 0 ∧ B = A ++ [(n.val, [])]) ∧ (n.val ∈ A.names → ret = -1 ∧ B = A)
  | .deletePlaylist n =>
    (n.val ∈ A.names → ret = 0 ∧ B = A.remove n.val) ∧ (n.val ∉ A.names → ret = -1 ∧ B = A)
  | .addPath n p => n.val ∈ A.names → dotGlobal.val ∈ A.names →
    B = (A.insert dotGlobal.val p.val).insert n.val p.val ∧ (ret = 0 ↔ ¬ A.Has n.val p.val)
  | .addPathToPlist n p => n.val ∈ A.names → B = A.insert n.val p.val ∧ (ret = 0 ↔ ¬ A.Has n.val p.val)

variable {env : Env} {A B : Store Bytes Bytes} {n p : Bytes} {ret : Int} {c : Call} {s : Lib} {I : Image} {b : Nat}

/-- Adding to a playlist that is there inserts the path, and returns zero when it is new. -/
theorem addTo_agrees (hn : n ∈ A.names) (h : addTo A n p = (ret, B)) :
    B = A.insert n p ∧ (ret = 0 ↔ ¬ A.Has n p) := by
  by_cases hp : A.Has n p
  · rw [addTo, if_neg fun h => h.2 hp] at h
    cases h
    exact ⟨(Store.insert_has hp).symm, iff_of_false (by decide) (not_not_intro hp)⟩
  · rw [addTo, if_pos ⟨hn, hp⟩] at h
    cases h
    exact ⟨rfl, iff_of_true rfl hp⟩

theorem Call.means_agrees (hc : c.Short) (h : c.means A = (ret, B)) : c.Agrees A ret B := by
  cases c with
  | startPlaylist n =>
    have hn := storedName_eq (hc.1 n rfl)
    refine ⟨fun hm => ?_, fun hm => ?_⟩
    · rw [Call.means, if_neg hm, hn] at h
      cases h
      exact ⟨rfl, rfl⟩
    · rw [Call.means, if_pos hm] at h
      cases h
      exact ⟨rfl, rfl⟩
  | deletePlaylist n =>
    refine ⟨fun hm => ?_, fun hm => ?_⟩
    · rw [Call.means, if_pos hm] at h
      cases h
      exact ⟨rfl, rfl⟩
    · rw [Call.means, if_neg hm] at h
      cases h
      exact ⟨rfl, rfl⟩
  | addPath n p =>
    intro hm hg
    by_cases hn : n = dotGlobal
    · subst hn
      rw [Call.means, if_pos rfl] at h
      obtain ⟨hB, hret⟩ := addTo_agrees hg h
      rw [Store.insert_has ((Store.has_insert_self hg).mpr (Or.inl rfl))]
      exact ⟨hB, hret⟩
    · have hval : n.val ≠ dotGlobal.val := fun he => hn (Subtype.ext he)
      have hG : (addTo A dotGlobal.val p.val).2 = A.insert dotGlobal.val p.val :=
        (addTo_agrees hg (Prod.eta (addTo A dotGlobal.val p.val)).symm).1
      rw [Call.means, if_neg hn, if_pos hg, hG] at h
      obtain ⟨hB, hret⟩ := addTo_agrees (by rwa [Store.names_insert]) h
      rw [Store.has_insert_ne hval] at hret
      exact ⟨hB, hret⟩
  | addPathToPlist n p => exact fun hm => addTo_agrees hm h

/-- The lists of paths of an image are in increasing order. -/
theorem Image.contents_sorted (I : Image) : ∀ x ∈ I.contents, x.2.Pairwise (· < ·) := by
  intro x hx
  obtain ⟨r, -, rfl⟩ := List.mem_map.mp hx
  rw [List.pairwise_map]
  exact r.sorted

/-- In every library that is reached, the names of the listing are distinct and its paths are
sorted, and every call that no growth is turned down for agrees with the store. -/
theorem reached_refines (hc : env.Calm) (h : Reached env Call.Short s) :
    ∃ A : Store Bytes Bytes, mlibListPlaylists env.endian s.mem = .ok A ∧ A.names.Nodup ∧
      (∀ x ∈ A, x.2.Pairwise (· < ·)) ∧ ∀ c : Call, c.Short → ∃ ret t B, c.exec env s = .ok (ret, t) ∧
        mlibListPlaylists env.endian t.mem = .ok B ∧ (t.refused = s.refused → c.Agrees A ret B) := by
  obtain ⟨b, I, hI, hn⟩ := h.holds hc (fun I _ => (Store.names I.contents).Nodup)
    (fun _ _ _ _ => List.nodup_singleton _) (fun _ _ _ _ _ _ hk hP hs => hs.nodup hk.1 hP)
  refine ⟨I.contents, hI.list _, hn, I.contents_sorted, fun c hshort => ?_⟩
  rcases c.exec_takes hc hI with ⟨ret, I', k, t, he, hs, hI', href⟩ | ⟨-, p, hp, hlong⟩
  · refine ⟨ret, t, I'.contents, he, hI'.list _, fun hsame => ?_⟩
    exact Call.means_agrees hshort (hs.means (by omega))
  · have := hshort.2 p hp
    omega

/-- A path is added to the last of three playlists. -/
theorem reached_refines_sample : ∃ s ret t, Reached (.steady .little) Call.Short s ∧
    mlibListPlaylists .little s.mem = .ok [(text ".global", [text "/b"]), (text "a", [text "/b"]), (text "ab", [])] ∧
    Call.exec (.steady .little) (.addPathToPlist nameAB pathB) s = .ok (ret, t) ∧ ret = 0 ∧
    mlibListPlaylists .little t.mem = .ok [(text ".global", [text "/b"]), (text "a", [text "/b"]), (text "ab", [text "/b"])] := by
  have hc := Env.steady_calm .little
  have hshort : Call.Short (.addPathToPlist nameAB pathB) := ⟨by rintro n ⟨⟩, by rintro p ⟨⟩; decide⟩
  obtain ⟨s, b, hreached, h, -⟩ := @sample_reached Call.Short
    (by rintro n hn; exact ⟨by rintro n ⟨⟩; revert n; decide, by rintro p ⟨⟩⟩) ⟨by rintro n ⟨⟩, by rintro p ⟨⟩; decide⟩
  have hlist : mlibListPlaylists .little s.mem = .ok [(text ".global", [text "/b"]), (text "a", [text "/b"]), (text "ab", [])] :=
    h.list .little
  have hf := Image.sample_last
  obtain ⟨t, hx, -, hsame⟩ := h.added (p := pathB) hc hf.recs List.not_mem_nil (by decide) (by rw [Image.sample_size]; decide)
  rw [← addPathToPlist_exec h hf] at hx
  obtain ⟨A, hA, -, -, hcalls⟩ := reached_refines hc hreached
  cases hlist.symm.trans hA
  obtain ⟨ret, t', B, hx', hB, hagrees⟩ := hcalls _ hshort
  cases hx.symm.trans hx'
  obtain ⟨rfl, -⟩ := hagrees hsame (by decide)
  exact ⟨s, 0, t, hreached, hlist, hx, rfl, hB.trans (congrArg Except.ok (by decide))⟩

end Mlib

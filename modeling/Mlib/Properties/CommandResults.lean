import Mlib.Properties.GlobalPlaylist
import Mlib.Properties.DistinctNames
import Mathlib.Data.List.Duplicate

/-! What the commands `mkpls`, `plsadd` and `rmpls` return: zero exactly when what was asked for was
done, but for `rmpls`, which tests the result of the deletion the wrong way round. -/
namespace Mlib
open Foundation

def Named (e : Endian) (m : Mem) (n : CStr) : Prop := ∃ plist, mlibFindPlaylist e m n = .ok (some plist)

def HasPath (e : Endian) (m : Mem) (n p : CStr) : Prop :=
  ∃ plist paths, mlibFindPlaylist e m n = .ok (some plist) ∧ mlibListPaths e m plist = .ok paths ∧ p.val ∈ paths

variable {env : Env} {e : Endian} {b ptr next k : Nat} {I I' : Image} {s t : Lib} {n p lib : CStr} {cmd : Command}
  {c : Call} {ret : Int} {l u : List Record} {r : Record}

theorem Holds.named_iff (h : Holds b I s) (e : Endian) (n : CStr) :
    Named e s.mem n ↔ n.val ∈ Store.names I.contents := by
  rcases I.finds_or_lacks n with hn | ⟨l, r, u, hf⟩
  · refine iff_of_false ?_ hn.not_named
    rintro ⟨plist, hfind⟩
    cases (h.find_none hn e).symm.trans hfind
  · exact iff_of_true ⟨_, h.find_some hf e⟩ hf.named

theorem Holds.hasPath_iff (h : Holds b I s) (e : Endian) (n p : CStr) :
    HasPath e s.mem n p ↔ Store.Has I.contents n.val p.val := by
  rcases I.finds_or_lacks n with hn | ⟨l, r, u, hf⟩
  · apply iff_of_false
    · rintro ⟨plist, paths, hfind, -⟩
      cases (h.find_none hn e).symm.trans hfind
    · exact fun hp => hn.not_named hp.named
  · have hlist := @listPaths_image e b I l u r hf.recs h.size
    rw [← h.shows.mem] at hlist
    rw [hf.has]
    constructor
    · rintro ⟨plist, paths, hfind, hpaths, hp⟩
      cases (h.find_some hf e).symm.trans hfind
      cases hlist.symm.trans hpaths
      exact mem_val.mp hp
    · exact fun hp => ⟨_, _, h.find_some hf e, hlist, mem_val.mpr hp⟩

end Mlib

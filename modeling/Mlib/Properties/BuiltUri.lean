import Mlib.Program.Backend
import Mlib.Image.Creation

/-! The URI of an entry is put together in a block that `malloc` returns as it is: the first of the
three strings goes behind whatever string the block holds already. -/
namespace Mlib
open Foundation

def uriOf (mediaPrefix entry : CStr) : Bytes := mediaPrefix.val ++ slash :: entry.val

/-- What `__build_uri` asks `malloc` for. -/
def uriSize (mediaPrefix entry : CStr) : Nat :=
  size64 (int32 (int32 entry.val.length + int32 mediaPrefix.val.length + 2))

/-- The block holds the URI, and has the bytes that it takes and no others. -/
def BuildsUri (malloc : Malloc) (m : Mem) (mediaPrefix entry : CStr) : Prop :=
  ∃ uri, buildUri malloc m entry = .ok uri ∧ chars uri = .ok (uriOf mediaPrefix entry) ∧
    uri.length = entry.val.length + mediaPrefix.val.length + 2

variable {malloc : Malloc} {m : Mem} {p e : CStr} {g rest block uri : Bytes}

theorem uriOf_length : (uriOf p e).length = p.val.length + 1 + e.val.length := by
  simp only [uriOf, List.length_append, List.length_cons]
  omega

theorem uriOf_string : (0 : UInt8) ∉ uriOf p e := by
  simp only [uriOf, List.mem_append, List.mem_cons, not_or]
  exact ⟨p.2, by decide, e.2⟩

/-- Where the block is not of 2 GiB or more, it is as long as it has to be. -/
theorem uriSize_small (h : e.val.length + p.val.length + 2 < 2 ^ 31) :
    uriSize p e = e.val.length + p.val.length + 2 := by
  have hsum : int32 e.val.length + int32 p.val.length + 2 = ((e.val.length + p.val.length + 2 : Nat) : Int) := by
    rw [int32_nat (by omega), int32_nat (by omega)]
    omega
  rw [uriSize, hsum, int32_nat h, size64_nat (by omega)]

theorem uriSize_exact_iff (hmax : uriSize p e < 2 ^ 63) :
    uriSize p e = e.val.length + p.val.length + 2 ↔ e.val.length + p.val.length + 2 < 2 ^ 31 := by
  refine ⟨fun h => ?_, uriSize_small⟩
  simp only [uriSize, size64, int32] at h hmax
  omega

private theorem buildUri_asks (hp : chars (mlibLibPrefix m) = .ok p.val)
    (hget : malloc.get (uriSize p e) = some block) :
    ∃ y, buildUri malloc m e = (do
      let afterPrefix ← strcat block (p.val ++ 0 :: y)
      let afterSlash ← strcat afterPrefix ([slash] ++ 0 :: [])
      strcat afterSlash e.mem : Outcome Bytes) := by
  obtain ⟨y, hy⟩ := chars_split hp
  refine ⟨y, ?_⟩
  rw [uriSize] at hget
  rw [buildUri, CStr.mem, strlen_string e.val e.2, ok_bind, hy, strlen_string p.val p.2, ok_bind]
  dsimp only
  rw [hget]
  rfl

/-- The three strings go behind what the block holds, if there is room for them. -/
theorem buildUri_block (hp : chars (mlibLibPrefix m) = .ok p.val)
    (hget : malloc.get (uriSize p e) = some (g ++ 0 :: rest))
    (hg : (0 : UInt8) ∉ g) : buildUri malloc m e =
      if (uriOf p e).length ≤ rest.length then .ok (g ++ uriOf p e ++ 0 :: rest.drop (uriOf p e).length)
      else .error .fault := by
  obtain ⟨y, hx⟩ := buildUri_asks hp hget
  have hgp : (0 : UInt8) ∉ g ++ p.val := fun h => (List.mem_append.mp h).elim hg p.2
  have hslash : (0 : UInt8) ∉ [slash] := by decide
  have hgps : (0 : UInt8) ∉ g ++ p.val ++ [slash] := fun h => (List.mem_append.mp h).elim hgp hslash
  rw [hx, strcat_string hg p.2, uriOf_length]
  split
  · rw [ok_bind, strcat_string hgp hslash, List.length_drop, List.length_singleton]
    split
    · rw [ok_bind, CStr.mem, strcat_string hgps e.2]
      simp only [List.length_drop]
      split
      · rw [if_pos (by omega), List.drop_drop, List.drop_drop, ← Nat.add_assoc]
        simp only [uriOf, List.append_assoc, List.cons_append, List.nil_append]
      · rw [if_neg (by omega)]
    · rw [if_neg (by omega)]
      rfl
  · rw [if_neg (by omega)]
    rfl

/-- No end is found in a block without a NUL. -/
theorem buildUri_endless (hp : chars (mlibLibPrefix m) = .ok p.val)
    (hget : malloc.get (uriSize p e) = some block)
    (hblock : (0 : UInt8) ∉ block) : buildUri malloc m e = .error .fault := by
  obtain ⟨y, hx⟩ := buildUri_asks hp hget
  rw [hx, strcat, strlen_fault hblock]
  rfl

/-- The block that `malloc` returns gets the URI of the entry exactly where it starts with a NUL, and
its size fits into an `int`. -/
theorem buildUri_exact_iff (hp : chars (mlibLibPrefix m) = .ok p.val)
    (hget : malloc.get (uriSize p e) = some block) :
    BuildsUri malloc m p e ↔ block.head? = some 0 ∧ e.val.length + p.val.length + 2 < 2 ^ 31 := by
  have hlen := malloc.get_length _ _ hget
  have hmax := malloc.get_max _ _ hget
  rcases block_cases block with hnone | ⟨g, rest, rfl, hg⟩
  · refine iff_of_false ?_ ?_
    · rintro ⟨uri, hx, -⟩
      cases (buildUri_endless hp hget hnone).symm.trans hx
    · rintro ⟨hhead, -⟩
      exact hnone (List.mem_of_head? hhead)
  have hx := buildUri_block hp hget hg
  rw [List.length_append, List.length_cons] at hlen
  constructor
  · rintro ⟨uri, hok, hchars, htotal⟩
    rw [hx] at hok
    split at hok
    · cases hok
      rw [List.append_assoc, ← List.append_assoc, chars_string _ fun h => (List.mem_append.mp h).elim hg uriOf_string] at hchars
      obtain rfl : g = [] := by
        have := congrArg List.length (Except.ok.inj hchars)
        rw [List.length_append] at this
        exact List.length_eq_zero_iff.mp (by omega)
      refine ⟨rfl, (uriSize_exact_iff hmax).mp ?_⟩
      rw [← hlen, ← htotal]
      simp only [List.length_append, List.length_cons, List.length_drop, List.length_nil]
      omega
    · cases hok
  · rintro ⟨hhead, hsmall⟩
    obtain rfl : g = [] := by
      cases g with
      | nil => rfl
      | cons a g =>
        cases hhead
        exact absurd List.mem_cons_self hg
    rw [uriSize_small hsmall, List.length_nil] at hlen
    rw [if_pos (by rw [uriOf_length]; omega)] at hx
    refine ⟨_, hx, chars_string _ uriOf_string _, ?_⟩
    simp only [List.length_append, List.length_cons, List.length_drop, uriOf_length, List.length_nil]
    omega

def prefixOnly (mediaPrefix : CStr) : Mem := ⟨0, zeros 128 ++ mediaPrefix.mem⟩

theorem prefixOnly_chars (p : CStr) : chars (mlibLibPrefix (prefixOnly p)) = .ok p.val := by
  have hview := Mem.view_at 0 (zeros 128) p.mem
  rw [zeros_length] at hview
  rw [mlibLibPrefix, prefixOnly]
  exact (congrArg chars hview).trans (chars_string p.val p.2 [])

/-- The prefix `a` and the entry `ab`, on a heap of zeros. -/
theorem buildUri_exact_zeros : BuildsUri (.filled 0) (prefixOnly nameA) nameA nameAB := by
  have hget := Malloc.filled_get 0 (show uriSize nameA nameAB < 2 ^ 63 by decide)
  exact (buildUri_exact_iff (prefixOnly_chars nameA) hget).mpr ⟨by decide, by decide⟩

/-- On a heap of ones no end of the block is found. -/
theorem buildUri_garbage : ∃ block, (Malloc.filled 1).get (uriSize nameA nameAB) = some block ∧
    ¬ BuildsUri (.filled 1) (prefixOnly nameA) nameA nameAB := by
  have hget := Malloc.filled_get 1 (show uriSize nameA nameAB < 2 ^ 63 by decide)
  refine ⟨_, hget, ?_⟩
  rintro ⟨uri, hx, -⟩
  cases (buildUri_endless (prefixOnly_chars nameA) hget (by decide)).symm.trans hx

end Mlib

import Mlib.Foundation.Fields
import Mlib.Program.Util

/-! What `mlib_parse_list` makes of a list. It counts the delimiters, not the fields between them, and
does not put NULL behind the pointers. -/
namespace Mlib
open Foundation

/-- What is returned stands for those fields: NULL if there are none, and otherwise an array of pointers
to them with NULL behind. -/
def StandsFor (fs : List Bytes) : Option ParsedList → Prop
  | none => fs = []
  | some l =>
    fs ≠ [] ∧ (∀ (i : Nat) f, fs[i]? = some f → ∃ a, l.ptrs[i]? = some a ∧ chars (l.copy.view a) = .ok f) ∧
      l.ptrs[fs.length]? = some 0

def SplitsList (list : CStr) (delimiter : UInt8) (len : Option Int) (listMem : Nat)
    (slots : Nat → Nat) : Prop :=
  ∃ r len', mlibParseList list.mem delimiter len (some listMem) (some slots) = .ok (r, len') ∧
    StandsFor (fields delimiter list.val) r ∧ len' = len.map fun _ => ((fields delimiter list.val).length : Int)

def marked (d : UInt8) (s : Bytes) : Bytes := s.map (fun c => if c = d then 0 else c) ++ [0]

variable {d c : UInt8} {s bytes : Bytes} {list : CStr} {len : Option Int} {listMem k i n a : Nat} {slots : Nat → Nat}
  {m : Mem} {ptrs : List Nat}

theorem int32_succ (z : Int) : int32 (int32 z + 1) = int32 (z + 1) := by
  unfold int32
  omega

/-- The count is that of the delimiters with something else behind them, as an `int`. -/
theorem countDelimiters_string (hs : (0 : UInt8) ∉ s) (k : Nat) :
    countDelimiters d (s ++ [0]) (int32 k) = .ok (int32 ((k + starts d s : Nat) : Int)) := by
  induction s generalizing k with
  | nil => rfl
  | cons c s ih =>
    have hc : c ≠ 0 := fun h => hs (h ▸ List.mem_cons_self)
    have hs' : (0 : UInt8) ∉ s := fun h => hs (List.mem_cons_of_mem c h)
    obtain ⟨next, rest, hrest⟩ : ∃ next rest, s ++ [0] = next :: rest :=
      List.exists_cons_of_ne_nil (List.append_ne_nil_of_right_ne_nil s (List.cons_ne_nil 0 []))
    have hnext : (next ≠ d ∧ next ≠ 0 ↔ s ≠ [] ∧ s.head? ≠ some d) := by
      cases s with
      | nil =>
        cases hrest
        simp
      | cons b s =>
        cases hrest
        have hnext : next ≠ 0 := fun h => hs' (h ▸ List.mem_cons_self)
        simp [hnext]
    rw [List.cons_append, hrest, countDelimiters, if_neg hc, ← hrest, starts]
    simp only [hnext]
    split
    · rw [int32_succ, ← Int.natCast_succ, ih hs' (k + 1)]
      congr 3
      omega
    · rw [ih hs' k, Nat.add_zero]

theorem countDelimiters_list (d : UInt8) (list : CStr) :
    countDelimiters d list.mem 0 = .ok (int32 (starts d list.val)) := by
  have h := @countDelimiters_string d list.val list.2 0
  rwa [Nat.zero_add] at h

/-- Delimiters are replaced where the copy is not of 2 GiB or more. -/
theorem markDelimiters_string (hs : (0 : UInt8) ∉ s) (h : i + s.length < 2 ^ 31) :
    markDelimiters d i (s ++ [0]) = .ok (marked d s) := by
  induction s generalizing i with
  | nil =>
    rw [List.length_nil] at h
    rw [List.nil_append, markDelimiters, if_neg (by omega), if_pos rfl]
    rfl
  | cons c s ih =>
    have hc : c ≠ 0 := fun h => hs (h ▸ List.mem_cons_self)
    rw [List.length_cons] at h
    rw [List.cons_append, markDelimiters, if_neg (by omega), if_neg hc,
      ih (fun h => hs (List.mem_cons_of_mem c h)) (by omega)]
    rfl

theorem markDelimiters_long (hs : (0 : UInt8) ∉ s) (hi : i ≤ 2 ^ 31) (h : 2 ^ 31 ≤ i + s.length) :
    markDelimiters d i (s ++ [0]) = .error .fault := by
  induction s generalizing i with
  | nil =>
    rw [List.length_nil] at h
    rw [List.nil_append, markDelimiters, if_pos (by omega)]
  | cons c s ih =>
    have hc : c ≠ 0 := fun h => hs (h ▸ List.mem_cons_self)
    rw [List.length_cons] at h
    rw [List.cons_append, markDelimiters, if_neg hc]
    split
    · rfl
    · rw [ih (fun h => hs (List.mem_cons_of_mem c h)) (by omega) (by omega)]
      rfl

theorem fillPtrs_length (h : fillPtrs m n a = .ok ptrs) : ptrs.length = n := by
  induction n generalizing a ptrs with
  | zero =>
    cases h
    rfl
  | succ n ih =>
    obtain ⟨len, -, h⟩ := bind_ok h
    cases hf : fillPtrs m n (a + len + 1) with
    | error why =>
      rw [hf] at h
      cases h
    | ok ptrs' =>
      rw [hf] at h
      cases h
      rw [List.length_cons, ih hf]

/-- The first pointer is to the copy itself. -/
theorem fillPtrs_first (h : fillPtrs m (n + 1) a = .ok ptrs) : ptrs.head? = some a := by
  obtain ⟨len, -, h⟩ := bind_ok h
  cases hf : fillPtrs m n (a + len + 1) with
  | error why =>
    rw [hf] at h
    cases h
  | ok ptrs' =>
    rw [hf] at h
    cases h
    rfl

/-- Where something is counted, a list of 2 GiB or more is left by the loop that replaces its delimiters. -/
theorem parseList_long (hcount : int32 (starts d list.val) ≠ 0) (hlong : 2 ^ 31 ≤ list.val.length) :
    mlibParseList list.mem d len (some listMem) (some slots) = .error .fault := by
  have hchars : chars list.mem = .ok list.val := chars_string list.val list.2 []
  rw [mlibParseList, countDelimiters_list, ok_bind, if_neg hcount]
  dsimp only
  rw [hchars, ok_bind, markDelimiters_long list.2 (by omega) (by omega)]
  rfl

/-- A shorter one is copied, its delimiters are replaced, and the pointers are put in front of what the
array held. -/
theorem parseList_short (hcount : int32 (starts d list.val) ≠ 0) (hlt : list.val.length < 2 ^ 31) :
    mlibParseList list.mem d len (some listMem) (some slots) = (do
      let ptrs ← fillPtrs ⟨listMem, marked d list.val⟩ (starts d list.val) listMem
      match len with
      | none => .error .fault
      | some n => return (some ⟨⟨listMem, marked d list.val⟩, ptrs ++ [slots (starts d list.val)]⟩,
          some (if n ≠ 0 then int32 (starts d list.val - 1) else n))) := by
  have hstarts := starts_le d list.val
  have hchars : chars list.mem = .ok list.val := chars_string list.val list.2 []
  have hslots : ((List.range ((starts d list.val : Int) + 1).toNat).drop (starts d list.val : Int).toNat).map slots =
      [slots (starts d list.val)] := by
    rw [Int.toNat_natCast, show ((starts d list.val : Int) + 1).toNat = starts d list.val + 1 by omega,
      List.range_succ, List.drop_left' List.length_range]
    rfl
  rw [mlibParseList, countDelimiters_list, ok_bind, if_neg hcount]
  dsimp only
  rw [hchars, ok_bind, markDelimiters_string list.2 (by omega), ok_bind, int32_nat (by omega), hslots]
  rfl

theorem parseList_counts (hcount : int32 (starts d list.val) ≠ 0) {r : Option ParsedList} {len' : Option Int}
    (h : mlibParseList list.mem d len (some listMem) (some slots) = .ok (r, len')) :
    ∃ ptrs, fillPtrs ⟨listMem, marked d list.val⟩ (starts d list.val) listMem = .ok ptrs ∧
      r = some ⟨⟨listMem, marked d list.val⟩, ptrs ++ [slots (starts d list.val)]⟩ := by
  by_cases hlong : 2 ^ 31 ≤ list.val.length
  · cases (parseList_long hcount hlong).symm.trans h
  rw [parseList_short hcount (by omega)] at h
  obtain ⟨ptrs, hptrs, h⟩ := bind_ok h
  cases len with
  | none => cases h
  | some n =>
    cases h
    exact ⟨ptrs, hptrs, rfl⟩

/-- Where nothing is counted, NULL is returned and no number stored. -/
theorem parseList_nothing (hcount : int32 (starts d list.val) = 0) :
    mlibParseList list.mem d len (some listMem) (some slots) = .ok (none, len) := by
  rw [mlibParseList, countDelimiters_list, ok_bind, if_pos hcount]
  rfl

private theorem parsed_wrong {copy : Mem} {last : Nat}
    (hcopy : copy = ⟨listMem, marked d list.val⟩) (hne : starts d list.val ≠ 0)
    (hptrs : fillPtrs copy (starts d list.val) listMem = .ok ptrs) :
    ¬ StandsFor (fields d list.val) (some ⟨copy, ptrs ++ [last]⟩) := by
  rintro ⟨hfields, hall, hnull⟩
  have hlen := fillPtrs_length hptrs
  have hcount := fields_length d list.val
  by_cases hfront : list.val = [] ∨ list.val.head? = some d
  · -- the list starts with a delimiter, and the first pointer is to an empty string
    obtain ⟨f, fs, hf⟩ := List.exists_cons_of_ne_nil hfields
    obtain ⟨s, hs⟩ : ∃ s, list.val = d :: s := by
      rcases hfront with hnil | hhead
      · rw [hnil] at hne
        exact absurd rfl hne
      · exact List.head?_eq_some_iff.mp hhead
    obtain ⟨n, hn⟩ := Nat.exists_eq_succ_of_ne_zero hne
    rw [hn] at hptrs
    obtain ⟨a, ha, hchars⟩ := hall 0 f (by rw [hf]; rfl)
    have hfirst : ptrs[0]? = some listMem := List.head?_eq_getElem? ▸ fillPtrs_first hptrs
    have hmem : 0 < ptrs.length := by omega
    rw [List.getElem?_append_left hmem, hfirst] at ha
    cases ha
    rw [hcopy, hs, Mem.view, if_pos (Nat.le_refl _), Nat.sub_self, List.drop_zero, marked,
      List.map_cons, if_pos rfl] at hchars
    cases hchars
    exact fields_ne_nil [] (by rw [hf]; exact List.mem_cons_self) rfl
  · -- there is one field more than is counted, and no room for NULL behind it
    rw [if_neg hfront] at hcount
    have hnone : (ptrs ++ [last])[(fields d list.val).length]? = none := by
      rw [List.getElem?_eq_none_iff, List.length_append, List.length_singleton]
      omega
    cases hnone.symm.trans hnull

/-- A list is split into its fields exactly where it has none, and the number that is asked for is zero already. -/
theorem parseList_splits_iff : SplitsList list d len listMem slots ↔
    (∀ c ∈ list.val, c = d) ∧ ∀ n ∈ len, n = 0 := by
  have hcount := fields_length d list.val
  constructor
  · rintro ⟨r, len', hx, hstands, hlen⟩
    by_cases hzero : int32 (starts d list.val) = 0
    · cases (parseList_nothing hzero).symm.trans hx
      rw [StandsFor] at hstands
      refine ⟨fields_eq_nil_iff.mp hstands, fun n hn => ?_⟩
      rw [hn, hstands] at hlen
      exact Option.some.inj hlen
    · obtain ⟨ptrs, hptrs, rfl⟩ := parseList_counts hzero hx
      refine absurd hstands (parsed_wrong rfl (fun h => hzero ?_) hptrs)
      rw [h]
      rfl
  · rintro ⟨hall, hlen⟩
    have hnone := fields_eq_nil_iff.mpr hall
    rw [hnone, List.length_nil] at hcount
    have hzero : starts d list.val = 0 := by omega
    refine ⟨none, len, parseList_nothing (by rw [hzero]; rfl), hnone, ?_⟩
    rw [hnone]
    cases len with
    | none => rfl
    | some n => rw [hlen n rfl]; rfl

/-- The list `a,b`, whose fields are counted as one. -/
def listAB : CStr := ⟨[97, 44, 98], by decide⟩

/-- The two fields of `a,b` are not what is returned for it. -/
theorem parseList_loses_field : ¬ SplitsList listAB 44 (some 0) 4096 fun _ => 0 := by
  rintro ⟨r, len', hx, hstands, -⟩
  obtain ⟨ptrs, hptrs, rfl⟩ := parseList_counts (by decide) hx
  exact parsed_wrong rfl (by decide) hptrs hstands

end Mlib

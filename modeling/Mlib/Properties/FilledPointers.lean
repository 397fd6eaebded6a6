import Mlib.Properties.ParsedLists

/-! The last loop of `mlib_parse_list` looks for one NUL after another without a bound. There are enough of them
in the copy, since each delimiter that was counted has become one. -/
namespace Mlib
open Foundation

/-- The addresses that this loop reads: from each pointer that it stores up to the NUL behind it. -/
def fillReads (copy : Mem) : Nat → Nat → Outcome (List Nat)
  | 0, _ => .ok []
  | count + 1, listMem => do
    let len ← strlen (copy.view listMem)
    (List.range' listMem (len + 1) ++ ·) <$> fillReads copy count (listMem + len + 1)

/-- The loop has stored `count` pointers into the copy, and has read nothing outside it. -/
structure FillsInside (list : CStr) (delimiter : UInt8) (copy : Mem) (count : Nat) (ptrs reads : List Nat) : Prop where
  counted : countDelimiters delimiter list.mem 0 = .ok count
  copied : markDelimiters delimiter 0 list.mem = .ok copy.bytes
  size : copy.bytes.length = list.val.length + 1
  filled : fillPtrs copy count copy.base = .ok ptrs
  read : fillReads copy count copy.base = .ok reads
  inside : ∀ a ∈ reads, copy.base ≤ a ∧ a < copy.base + copy.bytes.length
  stored : ptrs.length = count
  first : ptrs.head? = some copy.base
  increasing : ptrs.Pairwise (· < ·)
  strings : ∀ p ∈ ptrs, copy.base ≤ p ∧ ∃ s, chars (copy.view p) = .ok s ∧
    p + s.length < copy.base + copy.bytes.length

variable {d : UInt8} {list : CStr} {len : Option Int} {listMem n a : Nat} {slots : Nat → Nat} {m : Mem}

/-- In front of as many NULs as there are pointers to store, the loop comes back; its pointers go up, and what
it reads and what they point to ends in the memory. -/
theorem fillPtrs_inside (ha : m.base ≤ a) (h : n ≤ (m.view a).count 0) :
    ∃ ptrs reads, fillPtrs m n a = .ok ptrs ∧
    fillReads m n a = .ok reads ∧ (∀ x ∈ reads, a ≤ x ∧ x < m.base + m.bytes.length) ∧ ptrs.Pairwise (· < ·) ∧
    ∀ p ∈ ptrs, a ≤ p ∧ ∃ s, chars (m.view p) = .ok s ∧ p + s.length < m.base + m.bytes.length := by
  induction n generalizing a with
  | zero => exact ⟨[], [], rfl, rfl, by simp, .nil, by simp⟩
  | succ n ih =>
    obtain ⟨i, hi⟩ := List.getElem?_of_mem (List.count_pos_iff.mp (by omega : 0 < (m.view a).count 0))
    obtain ⟨s, ⟨rest, hrest⟩, -⟩ := string_of_nul hi
    have hlen : strlen (m.view a) = .ok s.val.length := by
      rw [← hrest, CStr.mem, List.append_assoc]
      exact strlen_string s.val s.2 rest
    have hchars : chars (m.view a) = .ok s.val := chars_of_starts ⟨rest, hrest⟩
    have hend : a + s.val.length < m.base + m.bytes.length := by
      have hl := congrArg List.length hrest
      rw [List.length_append, CStr.mem_length, Mem.view, if_pos ha, List.length_drop] at hl
      omega
    have hview : m.view (a + s.val.length + 1) = rest := by
      have hskip : m.view (a + s.val.length + 1) = (m.view a).drop s.mem.length := by
        rw [Mem.view, Mem.view, if_pos ha, if_pos (by omega), List.drop_drop, CStr.mem_length]
        congr 1
        omega
      rw [hskip, ← hrest, List.drop_left]
    have hcount : n ≤ (m.view (a + s.val.length + 1)).count 0 := by
      have hone : s.mem.count 0 = 1 := by
        rw [CStr.mem, List.count_append, List.count_eq_zero_of_not_mem s.2]
        rfl
      rw [← hrest, List.count_append, hone] at h
      rw [hview]
      omega
    obtain ⟨ptrs, reads, hptrs, hreads, hread, hup, hin⟩ := ih (by omega) hcount
    refine ⟨a :: ptrs, List.range' a (s.val.length + 1) ++ reads, ?_, ?_, ?_, ?_, ?_⟩
    · rw [fillPtrs, hlen, ok_bind, hptrs, map_ok]
    · rw [fillReads, hlen, ok_bind, hreads, map_ok]
    · intro x hx
      rcases List.mem_append.mp hx with hx | hx
      · rw [List.mem_range'_1] at hx
        omega
      · have := hread x hx
        omega
    · refine List.pairwise_cons.mpr ⟨fun p hp => ?_, hup⟩
      have := (hin p hp).1
      omega
    · intro p hp
      rcases List.mem_cons.mp hp with rfl | hp
      · exact ⟨Nat.le_refl p, s.val, hchars, hend⟩
      · obtain ⟨hle, hs⟩ := hin p hp
        exact ⟨by omega, hs⟩

/-- What was counted is not more than the delimiters, and these are NULs now. -/
theorem starts_le_nuls (d : UInt8) (s : Bytes) : starts d s ≤ (marked d s).count 0 := by
  have hmap := @List.count_le_count_map UInt8 _ _ UInt8 _ _ s (fun c => if c = d then 0 else c) d
  rw [if_pos rfl] at hmap
  rw [marked, List.count_append]
  exact (starts_le_count d s).trans (hmap.trans (Nat.le_add_right _ _))

/-- A list that is not given back as NULL makes the loop before this one leave the copy, if it has 2 GiB or more.
Otherwise this loop stays inside; and what is returned, if `len` is not NULL, is given back as the two blocks it is. -/
theorem fillLoop_inside (hnull : mlibParseList list.mem d len (some listMem) (some slots) ≠ .ok (none, len)) :
    (2 ^ 31 ≤ list.val.length ∧ markDelimiters d 0 list.mem = .error .fault ∧
      mlibParseList list.mem d len (some listMem) (some slots) = .error .fault) ∨
    ∃ bytes count ptrs reads, FillsInside list d ⟨listMem, bytes⟩ count ptrs reads ∧ ∀ n, len = some n →
      ∃ n', mlibParseList list.mem d len (some listMem) (some slots) =
          .ok (some ⟨⟨listMem, bytes⟩, ptrs ++ [slots count]⟩, some n') ∧
        ∀ array blocks, listMem ≠ 0 → array ≠ 0 →
          mlibFreeParsedList array (ptrs ++ [slots count]) (listMem :: array :: blocks) = .ok blocks := by
  have hcount : int32 (starts d list.val) ≠ 0 := fun h => hnull (parseList_nothing h)
  have hstarts := starts_le d list.val
  by_cases hlong : 2 ^ 31 ≤ list.val.length
  · exact Or.inl ⟨hlong, markDelimiters_long list.2 (by omega) (by omega), parseList_long hcount hlong⟩
  right
  have hview : (Mem.mk listMem (marked d list.val)).view listMem = marked d list.val := by
    rw [Mem.view, if_pos (Nat.le_refl _), Nat.sub_self, List.drop_zero]
  have hsize : (marked d list.val).length = list.val.length + 1 := by
    rw [marked, List.length_append, List.length_map, List.length_singleton]
  obtain ⟨ptrs, reads, hptrs, hreads, hread, hup, hin⟩ :=
    @fillPtrs_inside (starts d list.val) listMem ⟨listMem, marked d list.val⟩ (Nat.le_refl _) (by
      rw [hview]
      exact starts_le_nuls d list.val)
  have hlen := fillPtrs_length hptrs
  have hfirst : ptrs.head? = some listMem := by
    obtain ⟨k, hk⟩ := Nat.exists_eq_succ_of_ne_zero (fun h => hcount (by rw [h]; rfl) : starts d list.val ≠ 0)
    rw [hk] at hptrs
    exact fillPtrs_first hptrs
  refine ⟨marked d list.val, starts d list.val, ptrs, reads,
    ⟨?_, markDelimiters_string list.2 (by omega), hsize, hptrs, hreads,
    hread, hlen, hfirst, hup, hin⟩, ?_⟩
  · rw [countDelimiters_list, int32_nat (by omega)]
  · rintro n rfl
    refine ⟨_, by rw [parseList_short hcount (by omega), hptrs, ok_bind]; rfl, fun array blocks hmem harray => ?_⟩
    obtain ⟨rest, rfl⟩ := List.head?_eq_some_iff.mp hfirst
    rw [List.cons_append, mlibFreeParsedList, free_head hmem, ok_bind, free_head harray]

/-- The list `a,b`. -/
theorem fillLoop_inside_ab : ∃ bytes count ptrs reads,
    FillsInside listAB 44 ⟨4096, bytes⟩ count ptrs reads := by
  have hnull : mlibParseList listAB.mem 44 (some 0) (some 4096) (some fun _ => 0) ≠ .ok (none, some 0) := by
    intro h
    obtain ⟨ptrs, -, hr⟩ := parseList_counts (by decide) h
    cases hr
  rcases fillLoop_inside hnull with ⟨hlong, -⟩ | ⟨bytes, count, ptrs, reads, h, -⟩
  · exact absurd hlong (by decide)
  · exact ⟨bytes, count, ptrs, reads, h⟩

end Mlib

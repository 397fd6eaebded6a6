import Mlib.Foundation.Search
import Mlib.Image.Creation
import Mlib.Program.Util

/-! What `mlib_filter` looks at: the end of the name of a file, whatever stands in front of an entry there,
and what stands in front of the name where an entry is longer than it is. -/
namespace Mlib
open Foundation

def dot : UInt8 := 46

def HasExtension (name : CStr) (mtypes : List CStr) : Prop := ∃ e ∈ mtypes, dot :: e.val <:+ name.val

def DecidesByExtension (m : Mem) (file : Nat) (name : CStr) (mtypes : List CStr) : Prop :=
  ∃ ret, mlibFilter m file mtypes = .ok ret ∧ (ret ≠ 0 ↔ HasExtension name mtypes)

/-- In every memory that holds the name, and be it nothing else, the answer is the same. -/
def ReadsNameOnly (name : CStr) (mtypes : List CStr) : Prop :=
  ∃ ret, ∀ m file y, m.view file = name.mem ++ y → mlibFilter m file mtypes = .ok ret

/-- Where in the name an entry is compared. -/
def filterStart (name e : CStr) : Int := int32 name.val.length - int32 e.val.length

def StartsInside (name e : CStr) : Prop := 0 ≤ filterStart name e ∧ filterStart name e ≤ name.val.length

def EndsIn (name e : CStr) : Prop := e.val = name.val.drop (filterStart name e).toNat

def filterView (m : Mem) (file : Nat) (name e : CStr) : Bytes := viewAt m (file + filterStart name e)

def Stands (m : Mem) (file : Nat) (name e : CStr) : Prop := e.mem <+: filterView m file name e

variable {m : Mem} {file : Nat} {name e filt : CStr} {mtypes : List CStr} {y : Bytes}

theorem filterCompare_eq (m : Mem) (file : Nat) (name e : CStr) :
    filterCompare m file (int32 name.val.length) e = strcmp e.mem (filterView m file name e) := by
  rw [filterCompare, CStr.mem, strlen_string e.val e.2, ok_bind, filterView, filterStart, ← Int.add_sub_assoc]

theorem filterCompare_zero_iff (m : Mem) (file : Nat) (name e : CStr) :
    filterCompare m file (int32 name.val.length) e = .ok 0 ↔ Stands m file name e := by
  rw [filterCompare_eq, strcmp_zero_iff]
  rfl

private theorem filterFrom_search (fileLen : Int) (filt : CStr) :
    mlibFilterFrom m file fileLen filt mtypes = linearSearch (filterCompare m file fileLen) (filt :: mtypes) := by
  induction mtypes generalizing filt with
  | nil => rfl
  | cons next mtypes ih =>
    rw [mlibFilterFrom, linearSearch]
    simp only [ih]

/-- The loop is a search of the entries; that the first one comes twice makes no difference. -/
theorem filter_search (hf : m.view file = name.mem ++ y) (mtypes : List CStr) :
    mlibFilter m file mtypes = linearSearch (filterCompare m file (int32 name.val.length)) mtypes := by
  have hlen : strlen (m.view file) = .ok name.val.length := by
    rw [hf, CStr.mem, List.append_assoc]
    exact strlen_string name.val name.2 y
  rw [mlibFilter, hlen, ok_bind]
  cases mtypes with
  | nil => rfl
  | cons filt mtypes =>
    dsimp only
    rw [filterFrom_search, linearSearch_again]

/-- An entry that is not longer than the name starts inside it. -/
theorem startsInside_iff (hname : name.val.length < 2 ^ 31) (he : e.val.length < 2 ^ 31) :
    StartsInside name e ↔ e.val.length ≤ name.val.length := by
  rw [StartsInside, filterStart, int32_nat hname, int32_nat he]
  omega

theorem endsIn_iff (hname : name.val.length < 2 ^ 31) (he : e.val.length ≤ name.val.length) :
    EndsIn name e ↔ e.val <:+ name.val := by
  rw [EndsIn, filterStart, int32_nat hname, int32_nat (by omega), List.suffix_iff_eq_drop]
  have hstart : ((name.val.length : Int) - e.val.length).toNat = name.val.length - e.val.length := by omega
  rw [hstart]

/-- What is seen of a name that an entry starts inside of. -/
theorem filterView_inside (hf : m.view file = name.mem ++ y) (h : StartsInside name e) :
    filterView m file name e = name.val.drop (filterStart name e).toNat ++ 0 :: y := by
  obtain ⟨hlow, hup⟩ := h
  have hnot : m.base ≤ file := by
    by_contra hbase
    rw [Mem.view, if_neg hbase] at hf
    exact absurd hf.symm (by simp [CStr.mem])
  rw [Mem.view, if_pos hnot] at hf
  have haddr : ((file : Int) + filterStart name e).toNat = file + (filterStart name e).toNat := by omega
  have hdrop : file + (filterStart name e).toNat - m.base = file - m.base + (filterStart name e).toNat := by omega
  rw [filterView, viewAt, if_pos (by omega), haddr, Mem.view, if_pos (by omega), hdrop, ← List.drop_drop, hf, CStr.mem,
    List.append_assoc, List.drop_append_of_le_length (by omega)]
  rfl

/-- The comparison of an entry that starts inside the name goes by the name alone. -/
theorem filterCompare_inside (hf : m.view file = name.mem ++ y) (h : StartsInside name e) :
    filterCompare m file (int32 name.val.length) e = .ok (cmpStr e.val (name.val.drop (filterStart name e).toNat)) := by
  rw [filterCompare_eq, filterView_inside hf h]
  exact strcmp_strings e.val _ e.2 (fun hmem => name.2 (List.mem_of_mem_drop hmem)) [] y

private theorem cmp_drop_zero_iff : cmpStr e.val (name.val.drop (filterStart name e).toNat) = 0 ↔
    EndsIn name e :=
  cmpStr_zero_iff _ _ e.2 fun hmem => name.2 (List.mem_of_mem_drop hmem)

/-- An entry that is not longer than the name stands where it is looked for just if the name ends with it. -/
theorem stands_iff_suffix (hf : m.view file = name.mem ++ y) (hname : name.val.length < 2 ^ 31)
    (he : e.val.length ≤ name.val.length) : Stands m file name e ↔ e.val <:+ name.val := by
  have hin := (startsInside_iff hname (by omega)).mpr he
  have hok := fun z : Int => @Except.ok.injEq Stop Int z 0
  rw [← filterCompare_zero_iff, filterCompare_inside hf hin, hok, cmp_drop_zero_iff, endsIn_iff hname he]

/-- In a memory with nothing but the name, an entry that does not start inside the name faults. -/
theorem filterCompare_outside (h : ¬ StartsInside name e) :
    filterCompare ⟨file, name.mem⟩ file (int32 name.val.length) e = .error .fault := by
  rw [StartsInside] at h
  have hview : filterView ⟨file, name.mem⟩ file name e = [] := by
    rw [filterView, viewAt, Mem.view]
    dsimp only
    split_ifs with hneg hbase
    · apply List.drop_eq_nil_of_le
      rw [CStr.mem, List.length_append, List.length_singleton]
      omega
    · rfl
    · rfl
  rw [filterCompare_eq, hview, CStr.mem]
  cases e.val <;> rfl

/-- Whether the file has one of the extensions is answered exactly where each comparison comes back, and an
entry stands where it is looked for just if the file has an extension. -/
theorem filter_extension_iff (hf : m.view file = name.mem ++ y) (mtypes : List CStr) :
    DecidesByExtension m file name mtypes ↔
      (∀ l e r, mtypes = l ++ e :: r → (∀ e' ∈ l, ¬ Stands m file name e') →
        ∃ d, strcmp e.mem (filterView m file name e) = .ok d) ∧
      ((∃ e ∈ mtypes, Stands m file name e) ↔ HasExtension name mtypes) := by
  have hreturns := @linearSearch_returns_iff _ (filterCompare m file (int32 name.val.length)) mtypes
  simp only [Ne, filterCompare_zero_iff] at hreturns
  simp only [filterCompare_eq] at hreturns
  have hvalue : ∀ ret, linearSearch (filterCompare m file (int32 name.val.length)) mtypes = .ok ret →
      (ret ≠ 0 ↔ ∃ e ∈ mtypes, Stands m file name e) := by
    intro ret hret
    rw [linearSearch_value hret]
    simp only [filterCompare_zero_iff]
  rw [← hreturns, DecidesByExtension, filter_search hf]
  constructor
  · rintro ⟨ret, hret, hiff⟩
    exact ⟨⟨ret, hret⟩, (hvalue ret hret).symm.trans hiff⟩
  · rintro ⟨⟨ret, hret⟩, hiff⟩
    exact ⟨ret, hret, (hvalue ret hret).trans hiff⟩

private theorem filterView_around {b : Nat} {front : Bytes} (hname : name.val.length < 2 ^ 31)
    (he : e.val.length < 2 ^ 31)
    (hin : e.val.length ≤ (front ++ name.val).length) :
    ∃ d, filterView ⟨b, front ++ (name.mem ++ y)⟩ (b + front.length) name e = d ++ 0 :: y ∧
      d.length = e.val.length ∧ d <:+ front ++ name.val := by
  refine ⟨_, ?_, ?_, List.drop_suffix ((front ++ name.val).length - e.val.length) _⟩
  · rw [List.length_append] at hin
    have hstart : (0 : Int) ≤ (b + front.length : Nat) + filterStart name e ∧
        (((b + front.length : Nat) : Int) + filterStart name e).toNat =
          b + ((front ++ name.val).length - e.val.length) := by
      rw [filterStart, int32_nat hname, int32_nat he, List.length_append]
      omega
    rw [filterView, viewAt, if_pos hstart.1, hstart.2, Mem.view, if_pos (Nat.le_add_right _ _),
      Nat.add_sub_cancel_left,
      CStr.mem, List.append_assoc, ← List.append_assoc, List.drop_append_of_le_length (Nat.sub_le _ _)]
    rfl
  · rw [List.length_drop]
    omega

/-- Where the bytes in front of the name reach down to where the longest entry is compared, the answer is right exactly if
the file has one of the extensions, or no entry is how the name and those bytes end. -/
theorem filter_extension_suffix {b : Nat} {front : Bytes} (hname : name.val.length < 2 ^ 31)
    (hshort : ∀ e ∈ mtypes, e.val.length < 2 ^ 31 ∧ e.val.length ≤ (front ++ name.val).length) :
    DecidesByExtension ⟨b, front ++ (name.mem ++ y)⟩ (b + front.length) name mtypes ↔
      HasExtension name mtypes ∨ ∀ e ∈ mtypes, ¬ e.val <:+ front ++ name.val := by
  have hf : (Mem.mk b (front ++ (name.mem ++ y))).view (b + front.length) = name.mem ++ y := by
    rw [Mem.view, if_pos (Nat.le_add_right _ _), Nat.add_sub_cancel_left, List.drop_left]
  have hstands : ∀ e ∈ mtypes, Stands ⟨b, front ++ (name.mem ++ y)⟩ (b + front.length) name e ↔
      e.val <:+ front ++ name.val := by
    intro e he
    obtain ⟨d, hd, hlen, hsuffix⟩ := @filterView_around name e y b front hname (hshort e he).1 (hshort e he).2
    rw [Stands, hd, CStr.mem]
    constructor
    · intro h
      have hpre := (List.prefix_append e.val [0]).trans h
      rwa [(List.prefix_of_prefix_length_le hpre (List.prefix_append d _) hlen.ge).eq_of_length hlen.symm]
    · intro h
      obtain rfl := (List.suffix_of_suffix_length_le h hsuffix hlen.ge).eq_of_length hlen.symm
      exact ⟨y, by rw [List.append_assoc, List.singleton_append]⟩
  have hreturns : ∀ e ∈ mtypes, ∃ d, strcmp e.mem (filterView ⟨b, front ++ (name.mem ++ y)⟩ (b + front.length) name e) = .ok d := by
    intro e he
    obtain ⟨d, hd, -⟩ := @filterView_around name e y b front hname (hshort e he).1 (hshort e he).2
    rw [hd]
    exact strcmp_returns e (List.mem_append_right _ List.mem_cons_self)
  have hlong : ∀ e : CStr, dot :: e.val <:+ name.val → e.val <:+ front ++ name.val :=
    fun e h => ((List.suffix_cons dot e.val).trans h).trans (List.suffix_append _ _)
  rw [filter_extension_iff hf, and_iff_right (by
    rintro l e r rfl -
    exact hreturns e (List.mem_append_right l List.mem_cons_self))]
  constructor
  · intro h
    by_cases hext : HasExtension name mtypes
    · exact Or.inl hext
    · exact Or.inr fun e he hends => hext (h.mp ⟨e, he, (hstands e he).mpr hends⟩)
  · rintro (⟨e, he, hends⟩ | hnone)
    · exact iff_of_true ⟨e, he, (hstands e he).mpr (hlong e hends)⟩ ⟨e, he, hends⟩
    · refine iff_of_false ?_ ?_
      · rintro ⟨e, he, hstand⟩
        exact hnone e he ((hstands e he).mp hstand)
      · rintro ⟨e, he, hends⟩
        exact hnone e he (hlong e hends)

/-- The answer goes by the name and the entries alone exactly where each entry, up to the first one that the
name ends in, is compared with a part of the name. -/
theorem filter_inside_iff (name : CStr) (mtypes : List CStr) : ReadsNameOnly name mtypes ↔
    ∀ l e r, mtypes = l ++ e :: r → (∀ e' ∈ l, ¬ EndsIn name e') → StartsInside name e := by
  constructor
  · rintro ⟨ret, hall⟩ l e r hsplit hl
    by_contra hout
    have hf : (Mem.mk 0 name.mem).view 0 = name.mem ++ [] := by
      rw [List.append_nil]
      rfl
    have hx := hall ⟨0, name.mem⟩ 0 [] hf
    rw [filter_search hf] at hx
    obtain ⟨d, hd⟩ := linearSearch_returns_iff.mp ⟨ret, hx⟩ l e r hsplit fun e' he' hzero => by
      by_cases hin : StartsInside name e'
      · rw [filterCompare_inside hf hin] at hzero
        exact hl e' he' (cmp_drop_zero_iff.mp (Except.ok.inj hzero))
      · cases (filterCompare_outside hin).symm.trans hzero
    cases (filterCompare_outside hout).symm.trans hd
  · intro hall
    let cmp : CStr → Outcome Int := fun e => .ok (cmpStr e.val (name.val.drop (filterStart name e).toNat))
    obtain ⟨ret, hret⟩ := (@linearSearch_returns_iff _ cmp mtypes).mpr fun l e r _ _ => ⟨_, rfl⟩
    refine ⟨ret, fun m file y hf => ?_⟩
    rw [filter_search hf, ← hret]
    apply linearSearch_congr
    intro l e r hsplit hl
    refine filterCompare_inside hf (hall l e r hsplit fun e' he' hend => hl e' he' ?_)
    exact congrArg Except.ok (cmp_drop_zero_iff.mpr hend)

def nameDotA : CStr := ⟨[97, 46, 97], by decide⟩

/-- It has the extension `a`. -/
theorem filter_extension_dot : DecidesByExtension ⟨0, nameDotA.mem⟩ 0 nameDotA [nameA] := by
  have hf : (Mem.mk 0 nameDotA.mem).view 0 = nameDotA.mem ++ [] := rfl
  have hin : StartsInside nameDotA nameA := (startsInside_iff (by decide) (by decide)).mpr (by decide)
  refine (filter_extension_iff hf [nameA]).mpr ⟨fun l e r hsplit _ => ?_, ?_⟩
  · obtain rfl : e = nameA := by
      have hmem : e ∈ [nameA] := hsplit ▸ List.mem_append_right l List.mem_cons_self
      exact List.mem_singleton.mp hmem
    rw [← filterCompare_eq]
    exact ⟨_, filterCompare_inside hf hin⟩
  · refine iff_of_true ⟨nameA, List.mem_cons_self, ?_⟩ ⟨nameA, List.mem_cons_self, by decide⟩
    exact (stands_iff_suffix hf (by decide) (by decide)).mpr (by decide)

/-- The name `ab` ends in the entry `b` without a dot, and passes. -/
theorem filter_without_dot : ¬ DecidesByExtension ⟨0, nameAB.mem⟩ 0 nameAB [⟨[98], by decide⟩] := by
  have hiff := @filter_extension_suffix nameAB [⟨[98], by decide⟩] [] 0 [] (by decide) (by decide)
  have hneither : ¬ (HasExtension nameAB [⟨[98], by decide⟩] ∨ ∀ e ∈ [(⟨[98], by decide⟩ : CStr)], ¬ e.val <:+ [] ++ nameAB.val) := by
    rw [HasExtension]
    decide
  exact hiff.not.mpr hneither

/-- Whether the name `b` passes for the entry `ab` depends on what stands in front of it. -/
theorem filter_reads_before : ¬ ReadsNameOnly ⟨[98], by decide⟩ [nameAB] := by
  rintro ⟨ret, hall⟩
  have hpass := hall ⟨0, [97, 98, 0]⟩ 1 [] rfl
  have hfail := hall ⟨0, [98, 98, 0]⟩ 1 [] rfl
  cases (show mlibFilter ⟨0, [97, 98, 0]⟩ 1 [nameAB] = .ok 1 by decide).symm.trans hpass
  cases (show mlibFilter ⟨0, [98, 98, 0]⟩ 1 [nameAB] = .ok 0 by decide).symm.trans hfail

end Mlib

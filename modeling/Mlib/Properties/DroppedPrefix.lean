import Mlib.Program.Genlib

/-! What `drop_prefix` leaves of a path. Where the path and the prefix stop being the same, the character of
the path is dropped too, whatever it is. -/
namespace Mlib
open Foundation

/-- A name is what is left of a path without the prefix. Separators may go with the prefix. -/
structure DropsOnly (mediaPrefix path name : Bytes) : Prop where
  removed : mediaPrefix <+: path → ∃ seps, (∀ c ∈ seps, c = slash) ∧ path = mediaPrefix ++ seps ++ name
  separated : ∀ r, r.head? ≠ some slash → path = mediaPrefix ++ slash :: r → name = r
  ending : ∀ r, r.head? ≠ some slash → mediaPrefix.getLast? = some slash → path = mediaPrefix ++ r → name = r
  foreign : ¬ mediaPrefix <+: path → name = path ∨ path = slash :: name
  fileName : ∀ cwd file, slash ∉ file → path = cwd ++ slash :: file → file <:+: name

def DropsPrefixOnly (mediaPrefix path : CStr) : Prop :=
  ∃ off name, dropPrefix path.mem mediaPrefix.mem = .ok off ∧ chars (path.mem.drop off) = .ok name ∧
    DropsOnly mediaPrefix.val path.val name

def dropSlash : Bytes → Bytes
  | [] => []
  | c :: t => if c = slash then t else c :: t

variable {mediaPrefix path name s t u : Bytes} {c d : UInt8}

theorem dropSlash_slash (t : Bytes) : dropSlash (slash :: t) = t := by
  rw [dropSlash, if_pos rfl]

theorem dropSlash_of_ne (h : t.head? ≠ some slash) : dropSlash t = t := by
  cases t with
  | nil => rfl
  | cons c t => exact if_neg fun hc => h (congrArg some hc)

theorem dropSlash_cases (t : Bytes) : t = dropSlash t ∨ t = slash :: dropSlash t := by
  cases t with
  | nil => exact Or.inl rfl
  | cons c t =>
    by_cases hc : c = slash
    · subst c
      exact Or.inr (by rw [dropSlash_slash])
    · exact Or.inl (if_neg hc).symm

theorem dropSlash_suffix (t : Bytes) : dropSlash t <:+ t := by
  rcases dropSlash_cases t with h | h
  · exact ⟨[], h.symm⟩
  · exact ⟨[slash], h.symm⟩

/-- A string that keeps its length has no slash at its start. -/
theorem dropSlash_long (h : t.length ≤ (dropSlash t).length) : t.head? ≠ some slash ∧ dropSlash t = t := by
  refine ⟨fun hhead => ?_, (dropSlash_suffix t).eq_of_length_le h⟩
  obtain ⟨t, rfl⟩ := List.head?_eq_some_iff.mp hhead
  rw [dropSlash_slash, List.length_cons] at h
  omega

/-- Two strings are the same up to the end of the first, or up to a character of it that the second does not
have there. -/
theorem prefix_or_differ (path mediaPrefix : Bytes) : path <+: mediaPrefix ∨
    ∃ s c t, path = s ++ c :: t ∧ (mediaPrefix = s ∨ ∃ d u, mediaPrefix = s ++ d :: u ∧ c ≠ d) := by
  induction path generalizing mediaPrefix with
  | nil => exact Or.inl List.nil_prefix
  | cons c path ih =>
    cases mediaPrefix with
    | nil => exact Or.inr ⟨[], c, path, rfl, Or.inl rfl⟩
    | cons d mediaPrefix =>
      by_cases hcd : c = d
      · subst d
        rcases ih mediaPrefix with hpre | ⟨s, e, t, rfl, hrest⟩
        · exact Or.inl (List.cons_prefix_cons.mpr ⟨rfl, hpre⟩)
        · refine Or.inr ⟨c :: s, e, t, rfl, ?_⟩
          rcases hrest with rfl | ⟨d, u, rfl, hne⟩
          · exact Or.inl rfl
          · exact Or.inr ⟨d, u, rfl, hne⟩
      · exact Or.inr ⟨[], c, path, rfl, Or.inr ⟨d, mediaPrefix, rfl, hcd⟩⟩

/-- The loop goes on behind the characters that differ. -/
theorem dropPrefixFrom_differ (s : Bytes) (h : c ≠ d) :
    dropPrefixFrom (s ++ c :: t) (s ++ d :: u) = .ok (s.length + 1) := by
  induction s with
  | nil => exact if_neg h
  | cons a s ih =>
    rw [List.cons_append, List.cons_append, dropPrefixFrom, if_pos rfl, ih]
    rfl

/-- What is left is what stands behind the first character that differs, without a slash. -/
theorem dropPrefix_differ (s : Bytes) (h : c ≠ d) (ht : (0 : UInt8) ∉ t) (y : Bytes) :
    ∃ off, dropPrefix (s ++ c :: (t ++ 0 :: y)) (s ++ d :: u) = .ok off ∧
      (s ++ c :: (t ++ 0 :: y)).drop off = dropSlash t ++ 0 :: y := by
  have hrest : (s ++ c :: (t ++ 0 :: y)).drop (s.length + 1) = t ++ 0 :: y := by
    rw [List.append_cons]
    exact List.drop_left' (by rw [List.length_append, List.length_singleton])
  rw [dropPrefix, dropPrefixFrom_differ s h, ok_bind, hrest]
  cases t with
  | nil => exact ⟨s.length + 1, rfl, hrest⟩
  | cons a t =>
    refine ⟨_, rfl, ?_⟩
    by_cases ha : a = slash
    · rw [if_pos ha, ← List.drop_drop, hrest, ha, dropSlash_slash]
      rfl
    · rw [if_neg ha, hrest, dropSlash_of_ne (t := a :: t) fun hc => ha (Option.some.inj hc)]

/-- A path that ends before the prefix does is read past its end. -/
theorem dropPrefix_fault (hpre : (0 : UInt8) ∉ mediaPrefix) (h : path <+: mediaPrefix) :
    dropPrefix (path ++ [0]) (mediaPrefix ++ [0]) = .error .fault := by
  obtain ⟨u, rfl⟩ := h
  cases u with
  | nil =>
    have hloop : ∀ s : Bytes, dropPrefixFrom s s = .error .fault := by
      intro s
      induction s with
      | nil => rfl
      | cons a s ih =>
        rw [dropPrefixFrom, if_pos rfl, ih]
        rfl
    rw [List.append_nil, dropPrefix, hloop]
    rfl
  | cons d u =>
    have hd : (0 : UInt8) ≠ d := fun hd => hpre (List.mem_append_right path (hd ▸ List.mem_cons_self))
    have hend : (path ++ [0]).drop (path.length + 1) = [] := List.drop_eq_nil_of_le (by simp)
    rw [dropPrefix, List.append_assoc, List.cons_append, dropPrefixFrom_differ path hd, ok_bind, hend]

/-- A path that the prefix ends in front of, or differs from, is answered with what stands behind that place. -/
theorem dropPrefix_answers {mediaPrefix path : CStr} (hpath : path.val = s ++ c :: t)
    (hpre : mediaPrefix.val = s ∨ ∃ d u, mediaPrefix.val = s ++ d :: u ∧ c ≠ d) :
    ∃ off, ∃ name : CStr, dropPrefix path.mem mediaPrefix.mem = .ok off ∧ path.mem.drop off = name.mem ∧
      name.val = dropSlash t := by
  have hc : c ≠ 0 := fun hc => path.2 (by rw [hpath, hc]; exact List.mem_append_right s List.mem_cons_self)
  have ht : (0 : UInt8) ∉ t := fun hmem => path.2 (by
    rw [hpath]
    exact List.mem_append_right s (List.mem_cons_of_mem c hmem))
  have hname : (0 : UInt8) ∉ dropSlash t := fun hmem => ht ((dropSlash_suffix t).mem hmem)
  have hmem : path.mem = s ++ c :: (t ++ 0 :: []) := by
    rw [CStr.mem, hpath, List.append_assoc]
    rfl
  rw [hmem, CStr.mem]
  rcases hpre with rfl | ⟨d, u, hpre, hcd⟩
  · obtain ⟨off, hoff, hdrop⟩ := dropPrefix_differ mediaPrefix.val hc ht []
    exact ⟨off, ⟨dropSlash t, hname⟩, hoff, hdrop, rfl⟩
  · rw [hpre, List.append_assoc]
    obtain ⟨off, hoff, hdrop⟩ := dropPrefix_differ s hcd ht []
    exact ⟨off, ⟨dropSlash t, hname⟩, hoff, hdrop, rfl⟩

/-- Behind the last slash of what follows a place there stands the whole file name. -/
theorem fileName_kept {cwd file : Bytes} (hfile : slash ∉ file) (h : s ++ slash :: t = cwd ++ slash :: file) :
    file <:+: dropSlash t := by
  have hsuffix : file <:+ t := by
    rcases List.append_eq_append_iff.mp h with ⟨a, -, ha⟩ | ⟨a, -, ha⟩
    · cases a with
      | nil => exact (List.cons.inj ha).2 ▸ List.suffix_refl t
      | cons b a => exact ⟨a ++ [slash], by rw [(List.cons.inj ha).2]; simp⟩
    · cases a with
      | nil => exact (List.cons.inj ha).2 ▸ List.suffix_refl _
      | cons b a =>
        refine absurd ?_ hfile
        rw [(List.cons.inj ha).2]
        exact List.mem_append_right a List.mem_cons_self
  rcases dropSlash_cases t with heq | heq
  · exact heq ▸ hsuffix.isInfix
  · rw [heq] at hsuffix
    rcases List.suffix_cons_iff.mp hsuffix with rfl | hsuffix
    · exact absurd List.mem_cons_self hfile
    · exact hsuffix.isInfix

/-- A path that goes on with a slash behind the prefix loses just the prefix. -/
theorem dropsOnly_separated (mediaPrefix t : Bytes) :
    DropsOnly mediaPrefix (mediaPrefix ++ slash :: t) (dropSlash t) where
  removed _ := by
    rcases dropSlash_cases t with heq | heq
    · exact ⟨[slash], by simp, by rw [← heq]; simp⟩
    · refine ⟨[slash, slash], by simp, ?_⟩
      rw [List.append_assoc]
      exact congrArg (mediaPrefix ++ ·) (congrArg (slash :: ·) heq)
  separated r hr h := by
    obtain rfl : t = r := (List.cons.inj (List.append_cancel_left h)).2
    exact dropSlash_of_ne hr
  ending r hr _ h := by
    rw [← List.append_cancel_left h] at hr
    exact absurd rfl hr
  foreign h := absurd (List.prefix_append mediaPrefix _) h
  fileName cwd file hfile h := fileName_kept hfile h

/-- A path that starts with one slash loses it to a prefix that does not. -/
theorem dropsOnly_slash (hpre : mediaPrefix.head? ≠ some slash) (ht : t.head? ≠ some slash) :
    DropsOnly mediaPrefix (slash :: t) (dropSlash t) := by
  cases mediaPrefix with
  | nil => exact dropsOnly_separated [] t
  | cons d u =>
    have hnot : ¬ d :: u <+: slash :: t := fun h => hpre (congrArg some (List.cons_prefix_cons.mp h).1)
    exact {
      removed h := absurd h hnot
      separated r _ h := absurd ⟨_, h.symm⟩ hnot
      ending r _ _ h := absurd ⟨_, h.symm⟩ hnot
      foreign _ := Or.inr (by rw [dropSlash_of_ne ht])
      fileName cwd file hfile h := fileName_kept (s := []) hfile h }

/-- A path that loses just the prefix, which ends at its character `c`, has a slash there. -/
theorem DropsOnly.slash_behind (h : DropsOnly mediaPrefix (mediaPrefix ++ c :: t) (dropSlash t)) :
    c = slash := by
  obtain ⟨seps, hseps, hsplit⟩ := h.removed (List.prefix_append mediaPrefix _)
  rw [List.append_assoc] at hsplit
  cases seps with
  | nil =>
    have hlen := congrArg List.length (List.append_cancel_left hsplit)
    have hle := (dropSlash_suffix t).length_le
    rw [List.nil_append, List.length_cons] at hlen
    omega
  | cons b seps =>
    obtain rfl : c = b := (List.cons.inj (List.append_cancel_left hsplit)).1
    exact hseps c List.mem_cons_self

/-- A path that is kept, but for a slash, differs from the prefix at its start. -/
theorem DropsOnly.slash_first (h : DropsOnly mediaPrefix (s ++ c :: t) (dropSlash t))
    (hpre : ¬ mediaPrefix <+: s ++ c :: t) : s = [] ∧ c = slash ∧ t.head? ≠ some slash := by
  have hle := (dropSlash_suffix t).length_le
  rcases h.foreign hpre with hkept | hkept
  · have hlen := congrArg List.length hkept
    rw [List.length_append, List.length_cons] at hlen
    omega
  · have hlen := congrArg List.length hkept
    rw [List.length_append, List.length_cons, List.length_cons] at hlen
    obtain rfl : s = [] := List.eq_nil_of_length_eq_zero (by omega)
    exact ⟨rfl, (List.cons.inj hkept).1, (dropSlash_long (by omega)).1⟩

/-- Nothing but the prefix is dropped exactly of a path with a slash behind the prefix, or with one slash at
its start where the prefix has none. -/
theorem dropPrefix_only_iff (mediaPrefix path : CStr) : DropsPrefixOnly mediaPrefix path ↔
    (∃ t, path.val = mediaPrefix.val ++ slash :: t) ∨
    (mediaPrefix.val.head? ≠ some slash ∧ ∃ t, t.head? ≠ some slash ∧ path.val = slash :: t) := by
  constructor
  · rintro ⟨off, name, hoff, hname, hdrops⟩
    rcases prefix_or_differ path.val mediaPrefix.val with hpath | ⟨s, c, t, hpath, hpre⟩
    · cases (dropPrefix_fault mediaPrefix.2 hpath).symm.trans hoff
    obtain ⟨off', left, hoff', hmem, hleft⟩ := dropPrefix_answers hpath hpre
    cases hoff'.symm.trans hoff
    rw [hmem, CStr.mem, chars_string left.val left.2, hleft] at hname
    cases hname
    rw [hpath] at hdrops
    rcases hpre with rfl | ⟨d, u, hpre, hcd⟩
    · exact Or.inl ⟨t, by rw [hpath, hdrops.slash_behind]⟩
    · have hnot : ¬ mediaPrefix.val <+: s ++ c :: t := by
        rw [hpre, List.prefix_append_right_inj, List.cons_prefix_cons]
        exact fun h => hcd h.1.symm
      obtain ⟨rfl, rfl, ht⟩ := hdrops.slash_first hnot
      refine Or.inr ⟨?_, t, ht, hpath⟩
      rw [hpre]
      exact fun hhead => hcd (Option.some.inj hhead).symm
  · intro hcases
    obtain ⟨s, t, hpath, hpre, hdrops⟩ : ∃ s t, path.val = s ++ slash :: t ∧
        (mediaPrefix.val = s ∨ ∃ d u, mediaPrefix.val = s ++ d :: u ∧ slash ≠ d) ∧
        DropsOnly mediaPrefix.val path.val (dropSlash t) := by
      rcases hcases with ⟨t, hpath⟩ | ⟨hhead, t, ht, hpath⟩
      · exact ⟨mediaPrefix.val, t, hpath, Or.inl rfl, hpath ▸ dropsOnly_separated mediaPrefix.val t⟩
      · refine ⟨[], t, hpath, ?_, hpath ▸ dropsOnly_slash hhead ht⟩
        cases hm : mediaPrefix.val with
        | nil => exact Or.inl rfl
        | cons d u => exact Or.inr ⟨d, u, rfl, fun hd => hhead (by rw [hm, hd]; rfl)⟩
    obtain ⟨off, name, hoff, hmem, hname⟩ := dropPrefix_answers hpath hpre
    exact ⟨off, dropSlash t, hoff, by rw [hmem, CStr.mem, chars_string name.val name.2, hname], hdrops⟩

/-- Of the path `a/b` and the prefix `a/` nothing is left. -/
theorem dropPrefix_eats_name : ¬ DropsPrefixOnly ⟨[97, slash], by decide⟩ ⟨[97, slash, 98], by decide⟩ := by
  rintro ⟨off, name, hoff, hname, hdrops⟩
  cases (show dropPrefix [97, slash, 98, 0] [97, slash, 0] = .ok 3 by decide).symm.trans hoff
  cases (show chars [0] = .ok [] by decide).symm.trans hname
  cases hdrops.ending [98] (by decide) rfl rfl

end Mlib

import Mlib.Foundation.Mapping
import Mathlib.Data.List.Sort

/-! The sorting and searching functions of the C library on arrays of fixed-size
elements: what `qsort` promises, and `bsearch` as repeated halving; and the search of a list from its front. -/
namespace Foundation

/-- The comparison orders the elements of the array, as `qsort` requires of it. -/
structure Consistent (cmp : Bytes → Bytes → Int) (xs : List Bytes) : Prop where
  total : ∀ a ∈ xs, ∀ b ∈ xs, cmp a b ≤ 0 ∨ cmp b a ≤ 0
  trans : ∀ a ∈ xs, ∀ b ∈ xs, ∀ c ∈ xs, cmp a b ≤ 0 → cmp b c ≤ 0 → cmp a c ≤ 0

/-- An implementation of `qsort`: it need not be stable, and nothing is said about
comparisons that do not order the elements. -/
structure Sorter where
  qsort : (Bytes → Bytes → Int) → List Bytes → List Bytes
  permutes : ∀ cmp xs, Consistent cmp xs → (qsort cmp xs).Perm xs
  sorts : ∀ cmp xs, Consistent cmp xs → (qsort cmp xs).Pairwise (fun a b => cmp a b ≤ 0)

private def mergeElements (cmp : Bytes → Bytes → Int) (xs : List Bytes) : List {a // a ∈ xs} :=
  xs.attach.mergeSort (fun a b => decide (cmp a.val b.val ≤ 0))

/-- Merge sort is one such implementation. -/
def mergeSorter : Sorter where
  qsort cmp xs := (mergeElements cmp xs).map Subtype.val
  permutes cmp xs _ := by
    have h := (List.mergeSort_perm xs.attach (fun a b => decide (cmp a.val b.val ≤ 0))).map Subtype.val
    rwa [List.attach_map_subtype_val] at h
  sorts cmp xs h := by
    rw [List.pairwise_map]
    have hs := @List.pairwise_mergeSort {a // a ∈ xs} (fun a b => decide (cmp a.val b.val ≤ 0))
      (fun a b c hab hbc => by
        simp only [decide_eq_true_eq] at hab hbc ⊢
        exact h.trans a a.2 b b.2 c c.2 hab hbc)
      (fun a b => by
        simp only [Bool.or_eq_true, decide_eq_true_eq]
        exact h.total a a.2 b b.2) xs.attach
    exact hs.imp fun hab => by simpa using hab

/-- One array, one order, one sorted result, when no two elements compare equal. -/
theorem Sorter.qsort_eq (q : Sorter) (cmp : Bytes → Bytes → Int) (xs ys : List Bytes)
    (h : Consistent cmp xs) (hp : ys.Perm xs) (hs : ys.Pairwise (fun a b => cmp a b ≤ 0))
    (hd : ∀ a ∈ xs, ∀ b ∈ xs, cmp a b ≤ 0 → cmp b a ≤ 0 → a = b) : q.qsort cmp xs = ys := by
  have hq := q.permutes cmp xs h
  apply List.Perm.eq_of_pairwise ?_ (q.sorts cmp xs h) hs (hq.trans hp.symm)
  intro a b ha hb
  exact hd a (hq.mem_iff.mp ha) b (hp.mem_iff.mp hb)

/-- Search positions `[l, u)` by halving; `probe` compares the key with an element
and is negative when the key is the smaller one. The fuel bounds the rounds. -/
def bsearchLoop (probe : Nat → Outcome Int) : Nat → Nat → Nat → Outcome (Option Nat)
  | 0, _, _ => .ok none
  | fuel + 1, l, u =>
    if l < u then do
      let idx := (l + u) / 2
      let c ← probe idx
      if c < 0 then bsearchLoop probe fuel l idx
      else if 0 < c then bsearchLoop probe fuel (idx + 1) u
      else pure (some idx)
    else pure none

def bsearch (probe : Nat → Outcome Int) (n : Nat) : Outcome (Option Nat) :=
  bsearchLoop probe n 0 n

/-- The positions at which a search of `[l, u)` looks, each left by a comparison that came out unequal. -/
inductive Looks (probe : Nat → Outcome Int) : Nat → Nat → Nat → Prop
  | here {l u : Nat} (h : l < u) : Looks probe l u ((l + u) / 2)
  | left {l u i : Nat} {c : Int} (h : l < u) (hp : probe ((l + u) / 2) = .ok c) (hc : c < 0)
      (hl : Looks probe l ((l + u) / 2) i) : Looks probe l u i
  | right {l u i : Nat} {c : Int} (h : l < u) (hp : probe ((l + u) / 2) = .ok c) (hc : 0 < c)
      (hr : Looks probe ((l + u) / 2 + 1) u i) : Looks probe l u i

private theorem bsearchLoop_returns_iff (probe : Nat → Outcome Int) (fuel l u : Nat) (hfuel : u - l ≤ fuel) :
    (∃ r, bsearchLoop probe fuel l u = .ok r) ↔ ∀ i, Looks probe l u i → ∃ c, probe i = .ok c := by
  induction fuel generalizing l u with
  | zero =>
    refine iff_of_true ⟨none, rfl⟩ fun i h => ?_
    cases h <;> omega
  | succ fuel ih =>
    by_cases hlu : l < u
    · rw [bsearchLoop, if_pos hlu]
      constructor
      · rintro ⟨r, hr⟩ i hi
        obtain ⟨c, hc, hr⟩ := bind_ok hr
        cases hi with
        | here => exact ⟨c, hc⟩
        | left _ hp hneg hl =>
          cases hc.symm.trans hp
          rw [if_pos hneg] at hr
          exact (ih _ _ (by omega)).mp ⟨r, hr⟩ i hl
        | right _ hp hpos hr' =>
          cases hc.symm.trans hp
          rw [if_neg (by omega), if_pos hpos] at hr
          exact (ih _ _ (by omega)).mp ⟨r, hr⟩ i hr'
      · intro hall
        obtain ⟨c, hc⟩ := hall _ (.here hlu)
        simp only [hc, ok_bind]
        rcases lt_trichotomy c 0 with hneg | rfl | hpos
        · rw [if_pos hneg]
          exact (ih _ _ (by omega)).mpr fun i hi => hall i (.left hlu hc hneg hi)
        · exact ⟨some _, rfl⟩
        · rw [if_neg (by omega), if_pos hpos]
          exact (ih _ _ (by omega)).mpr fun i hi => hall i (.right hlu hc hpos hi)
    · refine iff_of_true ⟨none, by rw [bsearchLoop, if_neg hlu]; rfl⟩ fun i h => ?_
      cases h <;> exact absurd ‹_› hlu

/-- On any array, ordered or not, the search returns exactly when every comparison that it makes does. -/
theorem bsearch_returns_iff (probe : Nat → Outcome Int) (n : Nat) :
    (∃ r, bsearch probe n = .ok r) ↔ ∀ i, Looks probe 0 n i → ∃ c, probe i = .ok c :=
  bsearchLoop_returns_iff probe n 0 n (by omega)

private theorem bsearchLoop_stops {probe : Nat → Outcome Int} {why : Stop} {fuel l u : Nat}
    (h : bsearchLoop probe fuel l u = .error why) : ∃ i, probe i = .error why := by
  induction fuel generalizing l u with
  | zero => cases h
  | succ fuel ih =>
    rw [bsearchLoop] at h
    split at h
    · cases hp : probe ((l + u) / 2) with
      | error why' =>
        simp only [hp, error_bind] at h
        cases h
        exact ⟨_, hp⟩
      | ok c =>
        simp only [hp, ok_bind] at h
        split at h
        · exact ih h
        · split at h
          · exact ih h
          · cases h
    · cases h

/-- The search does not stop but in a comparison. -/
theorem bsearch_stops {probe : Nat → Outcome Int} {why : Stop} {n : Nat} (h : bsearch probe n = .error why) :
    ∃ i, probe i = .error why :=
  bsearchLoop_stops h

private theorem bsearchLoop_congr {probe probe' : Nat → Outcome Int} {n : Nat} (h : ∀ i < n, probe i = probe' i)
    (fuel l u : Nat) (hu : u ≤ n) : bsearchLoop probe fuel l u = bsearchLoop probe' fuel l u := by
  induction fuel generalizing l u with
  | zero => rfl
  | succ fuel ih =>
    by_cases hlu : l < u
    · have hmid : probe ((l + u) / 2) = probe' ((l + u) / 2) := h _ (by omega)
      simp only [bsearchLoop, hlu, if_true, hmid, ih l ((l + u) / 2) (by omega), ih ((l + u) / 2 + 1) u hu]
    · simp only [bsearchLoop, hlu, if_false]

/-- Nothing is looked at outside the array. -/
theorem bsearch_congr {probe probe' : Nat → Outcome Int} {n : Nat} (h : ∀ i < n, probe i = probe' i) :
    bsearch probe n = bsearch probe' n :=
  bsearchLoop_congr h n 0 n le_rfl

section
variable (probe : Nat → Outcome Int) (f : Nat → Int) (n : Nat)

private theorem bsearchLoop_spec (hp : ∀ i < n, probe i = .ok (f i))
    (hf : ∀ i j, i < j → j < n → f i ≤ 0 → f j < 0) (fuel l u : Nat) (hu : u ≤ n)
    (hfuel : u - l ≤ fuel) (hl : ∀ i < l, i < n → f i ≠ 0) (hr : ∀ i, u ≤ i → i < n → f i ≠ 0) :
    ∃ r, bsearchLoop probe fuel l u = .ok r ∧ (∀ i, r = some i → i < n ∧ f i = 0) ∧
      (r = none → ∀ i < n, f i ≠ 0) := by
  have done : u ≤ l → ∀ i < n, f i ≠ 0 := by
    intro hul i hi
    by_cases hil : i < l
    · exact hl i hil hi
    · exact hr i (by omega) hi
  induction fuel generalizing l u with
  | zero => exact ⟨none, rfl, by simp, fun _ => done (by omega)⟩
  | succ fuel ih =>
    by_cases hlu : l < u
    · have hi : (l + u) / 2 < n := by omega
      simp only [bsearchLoop, hlu, if_true, hp _ hi]
      change ∃ r, (if f ((l + u) / 2) < 0 then _ else _) = _ ∧ _
      rcases lt_trichotomy (f ((l + u) / 2)) 0 with hc | hc | hc
      · -- the key is smaller: everything from the middle on is larger than it
        rw [if_pos hc]
        have hr' : ∀ i, (l + u) / 2 ≤ i → i < n → f i ≠ 0 := by
          intro i hmi hin
          rcases Nat.eq_or_lt_of_le hmi with rfl | hlt
          · omega
          · have := hf _ i hlt hin (by omega)
            omega
        apply ih l _ (by omega) (by omega) hl hr'
        intro hul i hi'
        by_cases hil : i < l
        · exact hl i hil hi'
        · exact hr' i (by omega) hi'
      · rw [if_neg (by omega), if_neg (by omega)]
        exact ⟨some _, rfl, by rintro i ⟨⟩; exact ⟨hi, hc⟩, by simp⟩
      · -- the key is larger: everything up to the middle is smaller than it
        rw [if_neg (by omega), if_pos hc]
        have hl' : ∀ i < (l + u) / 2 + 1, i < n → f i ≠ 0 := by
          intro i hmi hin hz
          rcases Nat.eq_or_lt_of_le (Nat.le_of_lt_succ hmi) with rfl | hlt
          · omega
          · have := hf i _ hlt hi (by omega)
            omega
        apply ih _ u hu (by omega) hl' hr
        intro hul i hi'
        by_cases hil : i < (l + u) / 2 + 1
        · exact hl' i hil hi'
        · exact hr i (by omega) hi'
    · exact ⟨none, by simp [bsearchLoop, hlu], by simp, fun _ => done (by omega)⟩

/-- On an array ordered under the comparison the search ends, finds a matching
element when there is one, and reports none otherwise. -/
theorem bsearch_spec (hp : ∀ i < n, probe i = .ok (f i))
    (hf : ∀ i j, i < j → j < n → f i ≤ 0 → f j < 0) :
    ∃ r, bsearch probe n = .ok r ∧ (∀ i, r = some i → i < n ∧ f i = 0) ∧
      (r = none → ∀ i < n, f i ≠ 0) :=
  bsearchLoop_spec probe f n hp hf n 0 n (Nat.le_refl n) (by omega) (by omega) (by omega)

end

section linear
variable {α : Type} {cmp cmp' : α → Outcome Int} {x : α} {xs : List α} {ret : Int}

/-- Answer 1 at the first element that compares equal, and 0 if there is none. -/
def linearSearch (cmp : α → Outcome Int) : List α → Outcome Int
  | [] => .ok 0
  | x :: xs => do
    if (← cmp x) = 0 then return 1
    linearSearch cmp xs

theorem linearSearch_found (h : cmp x = .ok 0) : linearSearch cmp (x :: xs) = .ok 1 := by
  rw [linearSearch, h, ok_bind, if_pos rfl]
  rfl

theorem linearSearch_next {d : Int} (h : cmp x = .ok d) (hd : d ≠ 0) :
    linearSearch cmp (x :: xs) = linearSearch cmp xs := by
  rw [linearSearch, h, ok_bind, if_neg hd]

theorem linearSearch_stops {why : Stop} (h : cmp x = .error why) : linearSearch cmp (x :: xs) = .error why := by
  rw [linearSearch, h]
  rfl

/-- To look at an element a second time changes nothing. -/
theorem linearSearch_again (cmp : α → Outcome Int) (x : α) (xs : List α) :
    linearSearch cmp (x :: x :: xs) = linearSearch cmp (x :: xs) := by
  cases h : cmp x with
  | error why => rw [linearSearch_stops h, linearSearch_stops h]
  | ok d =>
    by_cases hd : d = 0
    · subst hd
      rw [linearSearch_found h, linearSearch_found h]
    · rw [linearSearch_next h hd]

/-- What the answer says of the elements. -/
theorem linearSearch_value (h : linearSearch cmp xs = .ok ret) : ret ≠ 0 ↔ ∃ x ∈ xs, cmp x = .ok 0 := by
  induction xs with
  | nil =>
    cases h
    exact iff_of_false (not_not_intro rfl) fun ⟨x, hx, _⟩ => List.not_mem_nil hx
  | cons x xs ih =>
    cases hx : cmp x with
    | error why =>
      rw [linearSearch_stops hx] at h
      cases h
    | ok d =>
      by_cases hd : d = 0
      · subst hd
        rw [linearSearch_found hx] at h
        cases h
        exact iff_of_true Int.one_ne_zero ⟨x, List.mem_cons_self, hx⟩
      · rw [linearSearch_next hx hd] at h
        rw [ih h]
        have hne : cmp x ≠ .ok 0 := fun h0 => hd (Except.ok.inj (hx.symm.trans h0))
        simp only [List.mem_cons, exists_eq_or_imp, hne, false_or]

/-- It comes back where each comparison up to the first equal element does. -/
theorem linearSearch_returns_iff : (∃ ret, linearSearch cmp xs = .ok ret) ↔
    ∀ l x r, xs = l ++ x :: r → (∀ x' ∈ l, cmp x' ≠ .ok 0) → ∃ d, cmp x = .ok d := by
  induction xs with
  | nil =>
    exact iff_of_true ⟨0, rfl⟩ fun l x r h => absurd h (List.append_ne_nil_of_right_ne_nil l (List.cons_ne_nil x r)).symm
  | cons x xs ih =>
    cases hx : cmp x with
    | error why =>
      refine iff_of_false ?_ fun hall => ?_
      · rintro ⟨ret, h⟩
        cases (linearSearch_stops hx).symm.trans h
      · obtain ⟨d, hd⟩ := hall [] x xs rfl fun x' hx' => absurd hx' List.not_mem_nil
        cases hx.symm.trans hd
    | ok d =>
      by_cases hd : d = 0
      · subst hd
        refine iff_of_true ⟨1, linearSearch_found hx⟩ fun l y r hsplit hl => ?_
        rcases List.cons_eq_append_iff.mp hsplit with ⟨rfl, hy⟩ | ⟨l', rfl, -⟩
        · exact ⟨0, (List.cons.inj hy).1 ▸ hx⟩
        · exact absurd hx (hl x List.mem_cons_self)
      · have hne : cmp x ≠ .ok 0 := fun h0 => hd (Except.ok.inj (hx.symm.trans h0))
        rw [linearSearch_next hx hd, ih]
        constructor
        · intro hall l y r hsplit hl
          rcases List.cons_eq_append_iff.mp hsplit with ⟨rfl, hy⟩ | ⟨l', rfl, hxs⟩
          · exact ⟨d, (List.cons.inj hy).1 ▸ hx⟩
          · exact hall l' y r hxs fun x' hx' => hl x' (List.mem_cons_of_mem x hx')
        · intro hall l y r hsplit hl
          exact hall (x :: l) y r (by rw [hsplit]; rfl) (List.forall_mem_cons.mpr ⟨hne, hl⟩)

/-- Only the comparisons that are made matter. -/
theorem linearSearch_congr (h : ∀ l x r, xs = l ++ x :: r → (∀ x' ∈ l, cmp' x' ≠ .ok 0) → cmp x = cmp' x) :
    linearSearch cmp xs = linearSearch cmp' xs := by
  induction xs with
  | nil => rfl
  | cons x xs ih =>
    have hx : cmp x = cmp' x := h [] x xs rfl fun x' hx' => absurd hx' List.not_mem_nil
    cases hc : cmp' x with
    | error why => rw [linearSearch_stops (hx.trans hc), linearSearch_stops hc]
    | ok d =>
      by_cases hd : d = 0
      · subst hd
        rw [linearSearch_found (hx.trans hc), linearSearch_found hc]
      · rw [linearSearch_next (hx.trans hc) hd, linearSearch_next hc hd]
        have hne : cmp' x ≠ .ok 0 := fun h0 => hd (Except.ok.inj (hc.symm.trans h0))
        exact ih fun l y r hsplit hl => h (x :: l) y r (by rw [hsplit]; rfl) (List.forall_mem_cons.mpr ⟨hne, hl⟩)

end linear

end Foundation

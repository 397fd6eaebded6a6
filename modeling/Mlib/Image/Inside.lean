import Mlib.Foundation.Store
import Mlib.Image.Rounds

/-! Arguments that point into the mapping: where a path of a record stands, when a change of
another record leaves it there, and what an addition makes of the bytes it finds there. -/
namespace Mlib
open Foundation
variable {env : Env} {e : Endian} {b a x A : Nat} {I : Image} {s t : Lib} {l u : List Record} {r r₂ : Record}
  {p q : CStr} {str : CArg}

def Image.StandsAt (I : Image) (b a x : Nat) (p : CStr) : Prop :=
  ∃ l r u, I.recs = l ++ r :: u ∧ a = recAddr b l ∧ p ∈ r.paths ∧ x = pathAddr b l r p

theorem Image.StandsAt.chars (h : Holds b I s) (hx : I.StandsAt b a x p) :
    chars (s.mem.view x) = .ok p.val := by
  obtain ⟨l, r, u, hI, -, hp, rfl⟩ := hx
  rw [h.shows.mem]
  exact path_chars hI h.size hp

/-- A path that stands in a library has a 32-bit length. -/
theorem Image.StandsAt.short (h : Holds b I s) (hx : I.StandsAt b a x p) : p.mem.length < 2 ^ 32 := by
  obtain ⟨l, r, u, hI, -, hp, -⟩ := hx
  have hlt := heapOffset_lt (r.heap_perm.mem_iff.mpr hp)
  have hsplit := Image.size_split hI
  have hlen : r.length = 144 + (16 + r.strBytes + r.gap + 4 * r.paths.length) := rfl
  have hstr : r.strBytes = (heapBytes r.heap).length := rfl
  have := h.size
  rw [CStr.mem_length]
  omega

def Record.Within (r r₂ : Record) : Prop := ∀ p ∈ r.paths, p ∈ r₂.paths ∧
    heapOffset r₂.heap p = heapOffset r.heap p

theorem Record.grow_within (r : Record) (n : Nat) : r.Within (r.grow n) := fun _ hp => ⟨hp, rfl⟩

theorem Record.add_within (hp : p ∉ r.paths) : r.Within (r.add p hp) := by
  intro q hq
  exact ⟨(List.mem_orderedInsert _).mpr (Or.inr hq), heapOffset_append (r.heap_perm.mem_iff.mpr hq) p⟩

theorem recAddr_replaced (h : r₂.length = r.length) (m : List Record) :
    recAddr b (l ++ r₂ :: m) = recAddr b (l ++ r :: m) := by
  simp only [recAddr, recsBytes_append, recsBytes_cons, List.length_append, Record.bytes_length, h]

/-- A path stays where it is when a record takes the place of one of its length, or of one that is
not in front of it. -/
theorem Image.StandsAt.replaced (hx : I.StandsAt b a x p) (hI : I.recs = l ++ r :: u) (hr : r.Within r₂)
    (hmove : r₂.length = r.length ∨ a ≤ recAddr b l) : (I.withRecs (l ++ r₂ :: u)).StandsAt b a x p := by
  obtain ⟨l', r', u', hI', rfl, hp, rfl⟩ := hx
  rcases two_places (hI.symm.trans hI') with ⟨rfl, rfl, rfl⟩ | ⟨m, rfl, rfl⟩ | ⟨m, rfl, rfl⟩
  · obtain ⟨hp₂, hoffs⟩ := hr p hp
    exact ⟨l', r₂, u', rfl, rfl, hp₂, by rw [pathAddr, pathAddr, hoffs]⟩
  · exact ⟨l', r', m ++ r₂ :: u, by rw [Image.withRecs_recs, List.append_assoc]; rfl, rfl, hp, rfl⟩
  · have hlen := hmove.resolve_right (Nat.not_le.mpr (recAddr_lt m))
    have haddr := @recAddr_replaced b l r r₂ hlen m
    refine ⟨l ++ r₂ :: m, r', u', by rw [Image.withRecs_recs, List.append_assoc]; rfl, haddr.symm, hp, ?_⟩
    rw [pathAddr, pathAddr, haddr]

/-- The search is for the string that is shown, whatever stands behind it. -/
theorem contains_shown {m : Mem} {bytes : Bytes} (h : chars bytes = .ok p.val) :
    mlibBucketContains e m A bytes = mlibBucketContains e m A p.mem := by
  obtain ⟨rest, rfl⟩ := chars_split h
  simp only [mlibBucketContains, mlibBucketCmpStrToInd, strcmp_stop p.val rest]
  rfl

theorem strlen_shown {bytes : Bytes} (h : chars bytes = .ok p.val) : strlen bytes = .ok p.val.length := by
  obtain ⟨rest, rfl⟩ := chars_split h
  exact strlen_string p.val p.2 rest

/-- What is stored is the string that the argument shows by then. -/
theorem storeString_shown (h : chars (str.view s.mem) = .ok q.val) (len endOfStrs startOfIndexes : Nat) :
    storeString env str len A endOfStrs startOfIndexes s =
      storeString env (.own q) len A endOfStrs startOfIndexes s := by
  have hown : chars ((CArg.own q).view s.mem) = .ok q.val := chars_string q.val q.2 []
  have hcopy : strcpy endOfStrs str s = strcpy endOfStrs (.own q) s := by
    rw [strcpy, strcpy, Op.step (@look_ok _ s (fun m => chars (str.view m)) _ h),
      Op.step (@look_ok _ s (fun m => chars ((CArg.own q).view m)) _ hown)]
  change (strcpy endOfStrs str s >>= _) = (strcpy endOfStrs (.own q) s >>= _)
  rw [hcopy]

/-- The argument shows `p` when it is measured and looked for, and `q` when it is copied: where the two
are of one length, it is `q` that is added. -/
theorem bucketAdd_shown (h : Holds b I s) (hI : I.recs = l ++ r :: u) (hp : chars (str.view s.mem) = .ok p.val)
    (hlen : q.val.length = p.val.length) (hpq : p ∈ r.paths ↔ q ∈ r.paths)
    (hq : p ∉ r.paths → ∀ room t, mlibBucketMakeRoom env (u32 (p.val.length + 1)) roundLimit (plistData (recAddr b l)) s =
      .ok (some room, t) → chars (str.view t.mem) = .ok q.val) :
    mlibBucketAdd env (plistData (recAddr b l)) str s = mlibBucketAdd env (plistData (recAddr b l))
      (.own q) s := by
  obtain ⟨found, hfound, hiff⟩ := @contains_image b I l u r env.endian hI h.size p
  rw [← h.shows.mem, ← contains_shown hp] at hfound
  by_cases hmem : p ∈ r.paths
  · rw [bucketAdd_present h.shows hI h.size (hpq.mp hmem), mlibBucketAdd,
      Op.step (@look_ok _ s (fun m => strlen (str.view m)) _ (strlen_shown hp)),
      Op.step (@look_ok _ s (fun m => mlibBucketContains env.endian m _ (str.view m)) _ hfound),
        if_pos (hiff.mpr hmem)]
    rfl
  · have hnone : found = none := Option.not_isSome_iff_eq_none.mp (hiff.not.mpr hmem)
    obtain ⟨found', hfound', hiff'⟩ := @contains_image b I l u r env.endian hI h.size q
    have hnone' : found' = none := Option.not_isSome_iff_eq_none.mp (hiff'.not.mpr fun hm => hmem (hpq.mpr hm))
    rw [hnone] at hfound
    rw [hnone', ← h.shows.mem] at hfound'
    rw [bucketAdd_start (strlen_shown hp) hfound, @bucketAdd_start env _ s (.own q) _ (strlen_string q.val q.2 []) hfound',
      hlen]
    cases hroom : mlibBucketMakeRoom env (u32 (p.val.length + 1)) roundLimit (plistData (recAddr b l)) s with
    | error why => rw [Op.step_fails hroom, Op.step_fails hroom]
    | ok made =>
      obtain ⟨room, t⟩ := made
      rw [Op.step hroom, Op.step hroom]
      cases room with
      | none => rfl
      | some room =>
        obtain ⟨A, endOfStrs, startOfIndexes⟩ := room
        exact storeString_shown (hq hmem _ t hroom) _ _ _

end Mlib

import Mlib.Image.Steps

/-! Listing a library: the loops over playlists and paths give back the contents of the image. -/
namespace Mlib
open Foundation
variable {e : Endian} {b : Nat} {I : Image} {l u : List Record} {r : Record}

/-- The free bytes of a playlist's bucket, between its strings and its indexes. -/
def freeBytes (e : Endian) (m : Mem) (plist : Nat) : Outcome Nat := do
  let offs ← mlibBucketIndexOffs e m (plistData plist)
  let strBytes ← mlibBucketStrBytes e m (plistData plist)
  pure (offs - (sizeofMlibBucket + strBytes))

/-- A path is found exactly when it is in the record. -/
theorem findPath_image (hI : I.recs = l ++ r :: u) (hsz : I.size < 2 ^ 32) (p : CStr) :
    ∃ o, mlibFindPath e ⟨b, I.bytes⟩ (recAddr b l) p = .ok o ∧ (o.isSome ↔ p ∈ r.paths) := by
  obtain ⟨o, ho, hiff⟩ := @contains_image b I l u r e hI hsz p
  refine ⟨o, ?_, hiff⟩
  rw [mlibFindPath, plistMagic_image hI, ok_bind, if_neg (by decide)]
  exact ho

def pathAddr (b : Nat) (l : List Record) (r : Record) (p : CStr) : Nat :=
  mlibBucketStringAt (plistData (recAddr b l)) (heapOffset r.heap p)

theorem getPathAt_image (hI : I.recs = l ++ r :: u) (hsz : I.size < 2 ^ 32) (i : Nat) :
    mlibGetPathAt e ⟨b, I.bytes⟩ (recAddr b l) i = .ok (r.paths[i]?.map (pathAddr b l r)) := by
  obtain ⟨pre, post, hbytes, ha, hlen⟩ := @Image.at_bucket b I l u r hI hsz
  rw [mlibGetPathAt, hbytes, nrIndexes_record ha hlen, ok_bind]
  by_cases hi : i < r.paths.length
  · rw [if_neg (by omega), bucketString_record ha hlen hi, List.getElem?_eq_getElem hi]
    rfl
  · rw [if_pos (by omega), List.getElem?_eq_none (by omega)]
    rfl

private theorem forEachPathFrom_ok {m : Mem} {plist : Nat} {paths : List Nat}
    (h : ∀ i, mlibGetPathAt e m plist i = .ok paths[i]?)
    (ps : List Nat) (fuel index : Nat) (hps : paths.drop index = ps) (hf : ps.length < fuel) :
    mlibForEachPathFrom e m plist fuel index = .ok ps := by
  induction ps generalizing fuel index with
  | nil =>
    obtain ⟨fuel, rfl⟩ : ∃ k, fuel = k + 1 := ⟨fuel - 1, by omega⟩
    have hn : paths[index]? = none := List.getElem?_eq_none (List.drop_eq_nil_iff.mp hps)
    rw [mlibForEachPathFrom, h, hn]
    rfl
  | cons p ps ih =>
    obtain ⟨fuel, rfl⟩ : ∃ k, fuel = k + 1 := ⟨fuel - 1, by omega⟩
    have hp : paths[index]? = some p := by
      have h := congrArg (·[0]?) hps
      simpa using h
    have hd : paths.drop (index + 1) = ps := by
      rw [← List.drop_drop, hps]
      rfl
    rw [mlibForEachPathFrom, h, hp, ok_bind]
    simp only [ih fuel (index + 1) hd (by simpa using hf), map_ok]

/-- The loop over the paths of a playlist visits what stands at each index, in order. -/
theorem forEachPath_ok {m : Mem} {plist : Nat} {paths : List Nat}
    (h : ∀ i, mlibGetPathAt e m plist i = .ok paths[i]?)
    (hlen : paths.length < roundLimit) : mlibForEachPath e m plist = .ok paths :=
  forEachPathFrom_ok h paths roundLimit 0 rfl hlen

/-- The loop over the paths of a record visits each of them once, in order. -/
theorem forEachPath_image (hI : I.recs = l ++ r :: u) (hsz : I.size < 2 ^ 32) :
    mlibForEachPath e ⟨b, I.bytes⟩ (recAddr b l) = .ok (r.paths.map (pathAddr b l r)) := by
  have hsplit := Image.size_split hI
  have hbl : r.length = 144 + (r.indexOffs + 4 * r.paths.length) := rfl
  refine forEachPath_ok (fun i => ?_) (by rw [List.length_map, roundLimit]; omega)
  rw [getPathAt_image hI hsz, List.getElem?_map]

theorem path_view (hI : I.recs = l ++ r :: u) (hsz : I.size < 2 ^ 32) {p : CStr} (hp : p ∈ r.paths) :
    ∃ rest, (Mem.mk b I.bytes).view (pathAddr b l r p) = p.val ++ 0 :: rest := by
  obtain ⟨pre, post, hbytes, ha, hlen⟩ := @Image.at_bucket b I l u r hI hsz
  rw [hbytes]
  exact @string_view b _ r.heap p pre post (zeros r.gap ++ (indexBytes r.heap r.paths ++ zeros 16))
    r.bucketLength r.indexOffs r.strBytes ha (r.heap_perm.mem_iff.mpr hp)

theorem path_chars (hI : I.recs = l ++ r :: u) (hsz : I.size < 2 ^ 32) {p : CStr} (hp : p ∈ r.paths) :
    chars ((Mem.mk b I.bytes).view (pathAddr b l r p)) = .ok p.val := by
  obtain ⟨rest, hv⟩ := @path_view b I l u r hI hsz p hp
  rw [hv]
  exact chars_string p.val p.2 rest

/-- A loop of calls that all return. -/
theorem mapM_ok {α β : Type} {f : α → Outcome β} {g : α → β} (xs : List α) (h : ∀ x ∈ xs, f x = .ok (g x)) :
    xs.mapM f = .ok (xs.map g) := by
  induction xs with
  | nil => rfl
  | cons x xs ih =>
    rw [List.mapM_cons, h x List.mem_cons_self, ok_bind, ih fun y hy => h y (List.mem_cons_of_mem x hy)]
    rfl

/-- The same with the results listed. -/
theorem mapM_listed {α β : Type} {f : α → Outcome β} {xs : List α} {ys : List β} (hlen : xs.length = ys.length)
    (h : ∀ (i : Nat) x y, xs[i]? = some x → ys[i]? = some y → f x = .ok y) : xs.mapM f = .ok ys := by
  induction xs generalizing ys with
  | nil => rw [List.eq_nil_of_length_eq_zero hlen.symm]; rfl
  | cons x xs ih =>
    obtain ⟨y, ys, rfl⟩ := List.exists_cons_of_length_eq_add_one hlen.symm
    rw [List.mapM_cons, h 0 x y rfl rfl, ok_bind, ih (Nat.succ.inj hlen) fun i => h (i + 1)]
    rfl

/-- Two loops of calls that return the same each time. -/
theorem mapM_same {α β : Type} {f g : α → Outcome β} (xs : List α)
    (h : ∀ x ∈ xs, ∃ y, f x = .ok y ∧ g x = .ok y) :
    ∃ ys, xs.mapM f = .ok ys ∧ xs.mapM g = .ok ys := by
  induction xs with
  | nil => exact ⟨[], rfl, rfl⟩
  | cons x xs ih =>
    obtain ⟨y, hf, hg⟩ := h x List.mem_cons_self
    obtain ⟨ys, hfs, hgs⟩ := ih fun x' hx' => h x' (List.mem_cons_of_mem x hx')
    refine ⟨y :: ys, ?_, ?_⟩
    · rw [List.mapM_cons, hf, ok_bind, hfs]
      rfl
    · rw [List.mapM_cons, hg, ok_bind, hgs]
      rfl

theorem listPaths_image (hI : I.recs = l ++ r :: u) (hsz : I.size < 2 ^ 32) :
    mlibListPaths e ⟨b, I.bytes⟩ (recAddr b l) = .ok (r.paths.map (·.val)) := by
  rw [mlibListPaths, forEachPath_image hI hsz, ok_bind, List.mapM_map]
  exact mapM_ok r.paths fun p hp => path_chars hI hsz hp

theorem freeBytes_image (hI : I.recs = l ++ r :: u) (hsz : I.size < 2 ^ 32) :
    freeBytes e ⟨b, I.bytes⟩ (recAddr b l) = .ok r.gap := by
  have hof : r.indexOffs = 16 + r.strBytes + r.gap := rfl
  rw [freeBytes, bucketIndexOffs_image hI hsz, ok_bind, bucketStrBytes_image hI hsz, ok_bind, hof,
    sizeofMlibBucket,
    Nat.add_sub_cancel_left, pure_ok]

/-- What a loop over the playlists collects, when its body returns on each of them. -/
theorem mapM_recAddrs {α : Type} {f : Nat → Outcome α} {g : Record → α} (hI : I.recs = l ++ u)
    (h : ∀ l r u, I.recs = l ++ r :: u → f (recAddr b l) = .ok (g r)) :
      (recAddrs b l u).mapM f = .ok (u.map g) := by
  induction u generalizing l with
  | nil => rfl
  | cons r u ih =>
    rw [recAddrs, List.mapM_cons, h l r u hI, ok_bind, ih (by rw [List.append_assoc]; exact hI)]
    rfl

theorem name_chars (hI : I.recs = l ++ r :: u) :
    chars ((Mem.mk b I.bytes).view (plistName (recAddr b l))) = .ok r.name.val := by
  obtain ⟨rest, hv⟩ := @plistName_image b I l u r hI
  rw [hv]
  exact chars_string r.name.val r.name.2 rest

/-- What is listed is what the image holds. -/
theorem listPlaylists_image (hsz : I.size < 2 ^ 32) : mlibListPlaylists e ⟨b, I.bytes⟩ = .ok I.contents := by
  rw [mlibListPlaylists, forEachPls_image hsz, ok_bind]
  refine mapM_recAddrs (List.nil_append I.recs).symm fun l r u hI => ?_
  rw [name_chars hI, ok_bind, listPaths_image hI hsz]
  rfl

theorem Holds.list {s : Lib} (h : Holds b I s) (e : Endian) : mlibListPlaylists e s.mem = .ok I.contents := by
  rw [h.shows.mem]
  exact listPlaylists_image h.size

def Image.records (I : Image) : List (Bytes × Nat × List Bytes) :=
  I.recs.map fun r => (r.name.val, r.paths.length, r.paths.map (·.val))

theorem listRecords_image (hsz : I.size < 2 ^ 32) : mlibListRecords e ⟨b, I.bytes⟩ = .ok I.records := by
  rw [mlibListRecords, forEachPls_image hsz, ok_bind]
  refine mapM_recAddrs (List.nil_append I.recs).symm fun l r u hI => ?_
  rw [name_chars hI, ok_bind, plistMcount_image hI hsz, ok_bind, listPaths_image hI hsz]
  rfl

theorem Holds.listRecords {s : Lib} (h : Holds b I s) (e : Endian) :
    mlibListRecords e s.mem = .ok I.records := by
  rw [h.shows.mem]
  exact listRecords_image h.size

/-- Free bytes are not listed. -/
theorem records_grow (hI : I.recs = l ++ r :: u) (j : Nat) :
    (I.withRecs (l ++ r.grow j :: u)).records = I.records := by
  rw [Image.records, Image.records, hI, Image.withRecs_recs, List.map_append, List.map_append, List.map_cons,
    List.map_cons]
  rfl

end Mlib

import Mlib.Image.Listing
import Mlib.Image.AnyFile

/-! Walks over the records of a file that start at any offset, and what is listed on them: it depends on the
bytes from there on alone. -/
namespace Mlib
open Foundation
variable {e : Endian} {b lo plist bucket fuel : Nat} {m m' : Mem} {f f' : Bytes}

def mlibListRecord (e : Endian) (m : Mem) (plist : Nat) : Outcome (Bytes × Nat × List Bytes) := do
  let name ← chars (m.view (plistName plist))
  let mcount ← mlibPlistMcount e m plist
  let paths ← mlibListPaths e m plist
  pure (name, mcount, paths)

/-- The playlist at an address, if `mlib_next_playlist` would accept one there. -/
def plistAt (e : Endian) (m : Mem) (addr : Nat) : Outcome (Option Nat) := do
  if ← mlibPlistCheckLen e m addr then return none
  if (← mlibPlistMagic e m addr) ≠ mlibPlistHdrMagic then return none
  return some addr

def mlibListRecordsFrom (e : Endian) (m : Mem) (addr : Nat) : Outcome (List (Bytes × Nat × List Bytes)) := do
  let first ← plistAt e m addr
  let plists ← mlibForEachPlsFrom e m roundLimit first
  plists.mapM (mlibListRecord e m)

private theorem getPathAt_behind {i a : Nat} (h : mlibGetPathAt e m plist i = .ok (some a)) : plist ≤ a := by
  obtain ⟨n, -, h⟩ := bind_ok h
  split at h
  · cases h
  · cases hs : mlibBucketString e m (plistData plist) i with
    | error why =>
      rw [hs] at h
      cases h
    | ok a' =>
      rw [hs] at h
      cases h
      obtain ⟨offset, -, hs⟩ := bind_ok hs
      cases hs
      simp only [mlibBucketStringAt, bucketStrings, plistData]
      omega

private theorem forEachPathFrom_behind {index : Nat} {paths : List Nat}
    (h : mlibForEachPathFrom e m plist fuel index = .ok paths) : ∀ a ∈ paths, plist ≤ a := by
  induction fuel generalizing index paths with
  | zero => cases h
  | succ fuel ih =>
    obtain ⟨path, hpath, h⟩ := bind_ok h
    cases path with
    | none =>
      cases h
      exact fun a ha => absurd ha List.not_mem_nil
    | some path =>
      cases hrest : mlibForEachPathFrom e m plist fuel (index + 1) with
      | error why =>
        dsimp only at h
        rw [hrest] at h
        cases h
      | ok rest =>
        dsimp only at h
        rw [hrest] at h
        cases h
        intro a ha
        rcases List.mem_cons.mp ha with rfl | ha
        · exact getPathAt_behind hpath
        · exact ih hrest a ha

section continues
variable (h : Continues lo m m')
include h

theorem readl_continues {a : Nat} (ha : lo ≤ a) : Below (mlibReadl e m a) (mlibReadl e m' a) := by
  rw [mlibReadl_eq, mlibReadl_eq]
  exact (h.load ha 4).map ofBe32

theorem nrIndexes_continues (hb : lo ≤ bucket) :
    Below (mlibBucketNrIndexes e m bucket) (mlibBucketNrIndexes e m' bucket) :=
  Below.bind (readl_continues h (by omega)) fun _ _ => Below.bind (readl_continues h (by omega)) fun _ _ => .refl _

theorem bucketString_continues (hb : lo ≤ bucket) (i : Nat) :
    Below (mlibBucketString e m bucket i) (mlibBucketString e m' bucket i) := by
  refine Below.bind (Below.bind ?_ fun indexes hi => readl_continues h ?_) fun _ _ => .refl _
  · exact Below.bind (readl_continues h (by omega)) fun _ _ => .refl _
  · obtain ⟨offs, -, hi⟩ := bind_ok hi
    cases hi
    omega

theorem getPathAt_continues (hp : lo ≤ plist) (i : Nat) :
    Below (mlibGetPathAt e m plist i) (mlibGetPathAt e m' plist i) := by
  have hb : lo ≤ plistData plist := by
    rw [plistData]
    omega
  refine Below.bind (nrIndexes_continues h hb) fun n _ => ?_
  split
  · exact .refl _
  · exact (bucketString_continues h hb i).map some

theorem forEachPathFrom_continues (hp : lo ≤ plist) (fuel index : Nat) :
    Below (mlibForEachPathFrom e m plist fuel index) (mlibForEachPathFrom e m' plist fuel index) := by
  induction fuel generalizing index with
  | zero => exact .refl _
  | succ fuel ih =>
    refine Below.bind (getPathAt_continues h hp index) fun path _ => ?_
    cases path with
    | none => exact .refl _
    | some path => exact (ih (index + 1)).map _

theorem listPaths_continues (hp : lo ≤ plist) : Below (mlibListPaths e m plist) (mlibListPaths e m' plist) :=
  Below.bind (forEachPathFrom_continues h hp _ _) fun _ hpaths =>
    Below.mapM fun path hmem => h.chars (hp.trans (forEachPathFrom_behind hpaths path hmem))

theorem listRecord_continues (hp : lo ≤ plist) :
    Below (mlibListRecord e m plist) (mlibListRecord e m' plist) := by
  refine Below.bind (h.chars ?_) fun _ _ => Below.bind (readl_continues h ?_) fun _ _ =>
    Below.bind (listPaths_continues h hp) fun _ _ => .refl _
  · rw [plistName]
    omega
  · omega

end continues

def walkFrom (e : Endian) (f : Bytes) (b fuel off : Nat) : Outcome (List Nat) :=
  arrive f b off >>= mlibForEachPlsFrom e ⟨b, f⟩ fuel

section walk
variable {off : Nat} (h : 12 ≤ f.length)
include h

theorem forEachPls_walk : mlibForEachPls e ⟨b, f⟩ = walkFrom e f b roundLimit 1024 := by
  rw [mlibForEachPls, nextPlaylist_none_word h]
  rfl

theorem listRecordsFrom_walk :
    mlibListRecordsFrom e ⟨b, f⟩ (b + off) = walkFrom e f b roundLimit off >>= (·.mapM (mlibListRecord e ⟨b, f⟩)) := by
  rw [mlibListRecordsFrom, plistAt, arrive_eq h, walkFrom]
  cases arrive f b off with
  | error why => rfl
  | ok first => rfl

theorem walk_step (hr : RecordAt f off) (hl : off + 8 ≤ f.length) :
    walkFrom e f b (fuel + 1) off = ((b + off) :: ·) <$> walkFrom e f b fuel (off + word f (off + 4)) := by
  rw [walkFrom, arrive_record hr, ok_bind, mlibForEachPlsFrom, nextPlaylist_some_word h, if_pos hl, walkFrom]
  cases arrive f b (off + word f (off + 4)) with
  | error why => rfl
  | ok next => rfl

/-- Rounds that are more than the bytes of the library ahead are as good as any more. -/
theorem walk_fuel {fuel' : Nat} (hf : word f 8 - off < fuel) (hf' : word f 8 - off < fuel') :
    walkFrom e f b fuel off = walkFrom e f b fuel' off := by
  induction fuel generalizing off fuel' with
  | zero => omega
  | succ fuel ih =>
    obtain ⟨fuel', rfl⟩ : ∃ k, fuel' = k + 1 := ⟨fuel' - 1, by omega⟩
    rcases arrive_cases f b off with ⟨ha, -⟩ | ⟨ha, -⟩ | ⟨ha, hr⟩
    · rw [walkFrom, walkFrom, ha]
      rfl
    · rw [walkFrom, walkFrom, ha]
      rfl
    by_cases hl : off + 8 ≤ f.length
    · by_cases hz : word f (off + 4) = 0
      · rw [walkFrom, walkFrom, ha, ok_bind, ok_bind, forEach_stuck h hr hl hz, forEach_stuck h hr hl hz]
      · have hlt := hr.1
        rw [walk_step h hr hl, walk_step h hr hl, @ih (off + word f (off + 4)) fuel' (by omega) (by omega)]
    · rw [walkFrom, walkFrom, ha, ok_bind, ok_bind, mlibForEachPlsFrom, mlibForEachPlsFrom,
        nextPlaylist_some_word h,
        if_neg hl]
      rfl

end walk

/-- A walk only goes on. -/
theorem walk_behind {off : Nat} {plists : List Nat} (h : 12 ≤ f.length)
    (hw : walkFrom e f b fuel off = .ok plists) :
    ∀ plist ∈ plists, b + off ≤ plist := by
  induction fuel generalizing off plists with
  | zero =>
    rcases arrive_cases f b off with ⟨ha, -⟩ | ⟨ha, -⟩ | ⟨ha, -⟩
    all_goals
      rw [walkFrom, ha] at hw
      cases hw
    exact fun a ha => absurd ha List.not_mem_nil
  | succ fuel ih =>
    rcases arrive_cases f b off with ⟨ha, -⟩ | ⟨ha, -⟩ | ⟨ha, hr⟩
    · rw [walkFrom, ha] at hw
      cases hw
    · rw [walkFrom, ha] at hw
      cases hw
      exact fun a ha => absurd ha List.not_mem_nil
    by_cases hl : off + 8 ≤ f.length
    · rw [walk_step h hr hl] at hw
      cases hrest : walkFrom e f b fuel (off + word f (off + 4)) with
      | error why =>
        rw [hrest] at hw
        cases hw
      | ok rest =>
        rw [hrest] at hw
        cases hw
        intro plist hplist
        rcases List.mem_cons.mp hplist with rfl | hplist
        · exact Nat.le_refl _
        · have hle := ih hrest plist hplist
          omega
    · rw [walkFrom, ha, ok_bind, mlibForEachPlsFrom, nextPlaylist_some_word h, if_neg hl] at hw
      cases hw

section tail
variable {T off : Nat} (hl : f'.length = f.length) (hw : word f' 8 = word f 8) (ht : f'.drop T = f.drop T)

private theorem view_drop_of_le (f : Bytes) {a : Nat} (ha : b ≤ a) :
    (Mem.mk b f).view a = f.drop (a - b) := if_pos ha

include ht

theorem continues_tail : Continues (b + T) ⟨b, f⟩ ⟨b, f'⟩ := by
  intro a ha
  have hd : a - b = T + (a - b - T) := by omega
  have hv : (Mem.mk b f).view a = (Mem.mk b f').view a := by
    rw [view_drop_of_le f (by omega), view_drop_of_le f' (by omega), hd, ← List.drop_drop, ← List.drop_drop, ht]
  exact hv ▸ List.prefix_refl _

theorem word_tail (hoff : T ≤ off) : word f' off = word f off := by
  have hd : off = T + (off - T) := by omega
  rw [word, word, hd, ← List.drop_drop, ← List.drop_drop, ht]

include hl hw

/-- Walks in files that agree from an offset on, and in the length they state, agree from there. -/
theorem walk_tail (h : 12 ≤ f.length) (hoff : T ≤ off) :
    walkFrom e f' b fuel off = walkFrom e f b fuel off := by
  have ha : ∀ off, T ≤ off → arrive f' b off = arrive f b off := fun off hoff => by
    rw [arrive, arrive, hw, hl, word_tail ht hoff]
  induction fuel generalizing off with
  | zero =>
    rw [walkFrom, walkFrom, ha off hoff]
    cases arrive f b off with
    | error why => rfl
    | ok next => cases next <;> rfl
  | succ fuel ih =>
    rcases arrive_cases f b off with ⟨hx, -⟩ | ⟨hx, -⟩ | ⟨hx, hr⟩
    · rw [walkFrom, walkFrom, ha off hoff, hx]
      rfl
    · rw [walkFrom, walkFrom, ha off hoff, hx]
      rfl
    by_cases hin : off + 8 ≤ f.length
    · have hr' : RecordAt f' off := ⟨hw ▸ hr.1, (word_tail ht hoff).trans hr.2⟩
      rw [walk_step (hl ▸ h) hr' (hl ▸ hin), walk_step h hr hin,
        word_tail ht (show T ≤ off + 4 by omega), ih (by omega)]
    · rw [walkFrom, walkFrom, ha off hoff, hx, ok_bind, ok_bind, mlibForEachPlsFrom, mlibForEachPlsFrom,
        nextPlaylist_some_word h, nextPlaylist_some_word (hl ▸ h), hl, if_neg hin, if_neg hin]
      rfl

theorem listRecordsFrom_tail (h : 12 ≤ f.length) :
    Below (mlibListRecordsFrom e ⟨b, f⟩ (b + T)) (mlibListRecordsFrom e ⟨b, f'⟩ (b + T)) := by
  rw [listRecordsFrom_walk h, listRecordsFrom_walk (hl ▸ h), walk_tail hl hw ht h (Nat.le_refl T)]
  refine Below.bind (.refl _) fun plists hplists => Below.mapM fun plist hmem => ?_
  exact listRecord_continues (continues_tail ht) (walk_behind h hplists plist hmem)

end tail

end Mlib

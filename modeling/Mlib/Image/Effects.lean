import Mlib.Foundation.Keeping
import Mlib.Image.Rounds

/-! What no store and no call of the system changes, none of the functions built from these changes. -/
namespace Mlib
open Foundation

/-- A property of the state that every store keeps, and every call that can only succeed or fail. -/
class Stable (Q : Lib → Prop) : Prop where
  store : ∀ addr bs, Keeps Q (store addr bs)
  sysCall : ∀ answer, Keeps Q (sysCall answer)

variable {α : Type} {Q : Lib → Prop}

theorem keeps_look (f : Mem → Outcome α) : Keeps Q (look f) := by
  intro s a t h
  cases hf : f s.mem with
  | error why =>
    rw [look, hf] at h
    cases h
  | ok b =>
    rw [look, hf] at h
    cases h
    exact id

theorem keeps_libOffset (ptr : Nat) : Keeps Q (mlibLibOffset ptr) := by
  intro s a t h
  cases h
  exact id

variable [Stable Q]

theorem keeps_writel (e : Endian) (addr val : Nat) : Keeps Q (mlibWritel e addr val) :=
  Stable.store addr _

theorem keeps_setLen (e : Endian) (val : Nat) : Keeps Q (mlibLibSetLen e val) :=
  fun s => keeps_writel e (s.header + 8) val s

theorem keeps_memmove (dst src n : Nat) : Keeps Q (memmove dst src n) :=
  keeps_bind (keeps_look _) fun _ => Stable.store dst _

theorem keeps_strcpy (dest : Nat) (str : CArg) : Keeps Q (strcpy dest str) :=
  keeps_bind (keeps_look _) fun _ => Stable.store dest _

theorem keeps_sync (env : Env) : Keeps Q (mlibSyncLibrary env) := by
  refine keeps_bind (keeps_look _) fun len => ?_
  refine keeps_bind (Stable.sysCall _) fun done => ?_
  exact keeps_ite _ (keeps_pure _) (keeps_pure _)

theorem keeps_initBucket (e : Endian) (bucket size : Nat) : Keeps Q (mlibInitBucket e bucket size) := by
  refine keeps_ite _ (keeps_pure _) ?_
  refine keeps_bind (keeps_writel _ _ _) fun _ => ?_
  refine keeps_bind (keeps_writel _ _ _) fun _ => ?_
  refine keeps_bind (keeps_writel _ _ _) fun _ => ?_
  exact keeps_bind (keeps_writel _ _ _) fun _ => keeps_pure _

theorem keeps_fillRecord (env : Env) (plist : Nat) (name : CStr) : Keeps Q (fillRecord env plist name) := by
  refine keeps_bind (Stable.store _ _) fun _ => ?_
  refine keeps_bind (Stable.store _ _) fun _ => ?_
  refine keeps_bind (keeps_writel _ _ _) fun _ => ?_
  refine keeps_bind (keeps_writel _ _ _) fun _ => ?_
  refine keeps_bind (keeps_writel _ _ _) fun _ => ?_
  refine keeps_bind (keeps_initBucket _ _ _) fun _ => ?_
  exact keeps_sync env

theorem keeps_bucketSort (env : Env) (bucket : Nat) : Keeps Q (mlibBucketSort env bucket) := by
  refine keeps_bind (keeps_look _) fun indexes => ?_
  refine keeps_bind (keeps_look _) fun n => ?_
  refine keeps_bind (keeps_look _) fun xs => ?_
  refine keeps_bind keeps_get fun lib => ?_
  exact keeps_ite _ (keeps_error .fault) (Stable.store _ _)

theorem keeps_storeString (env : Env) (str : CArg) (len bucket endOfStrs startOfIndexes : Nat) :
    Keeps Q (storeString env str len bucket endOfStrs startOfIndexes) := by
  refine keeps_bind (keeps_strcpy _ _) fun _ => ?_
  refine keeps_bind (keeps_writel _ _ _) fun _ => ?_
  refine keeps_bind (keeps_look _) fun indexOffs => ?_
  refine keeps_bind (keeps_writel _ _ _) fun _ => ?_
  refine keeps_bind (keeps_look _) fun strBytes => ?_
  refine keeps_bind (keeps_writel _ _ _) fun _ => ?_
  exact keeps_bind (keeps_bucketSort _ _) fun _ => keeps_pure _

/-- What growing the library establishes stands after the growth of a bucket. -/
theorem ensures_bucketExpand {env : Env} {s : Lib} {bucket offs L n : Nat}
    (ho : mlibBucketIndexOffs env.endian s.mem bucket = .ok offs) (hL : mlibLibLen env.endian s.mem = .ok L)
    (h : Ensures (mlibLibraryExpand env (u32 (L + n))) s Q) : Ensures (mlibBucketExpand env bucket n) s Q := by
  refine ensures_step (look_ok ho) ?_
  refine ensures_step (rfl : (get : Op Lib) s = .ok (s, s)) ?_
  refine ensures_step (rfl : mlibLibOffset bucket s = _) ?_
  apply ensures_bind
  · refine ensures_step (look_ok hL) (ensures_step (look_ok hL) (ensures_bind h fun ret => ?_))
    refine keeps_ite _ (keeps_pure _) (keeps_bind keeps_get fun lib => ?_)
    refine keeps_bind (keeps_memmove _ _ _) fun _ => ?_
    exact keeps_bind (Stable.store _ _) fun _ => keeps_pure _
  intro ret
  refine keeps_ite _ (keeps_pure _) (keeps_bind keeps_get fun lib => ?_)
  refine keeps_bind (keeps_look _) fun len => keeps_bind (keeps_writel _ _ _) fun _ => ?_
  refine keeps_bind (keeps_look _) fun indexOffs => keeps_bind (keeps_writel _ _ _) fun _ => ?_
  refine keeps_bind (keeps_look _) fun plistLen => ?_
  exact keeps_bind (keeps_writel _ _ _) fun _ => keeps_pure _

section growth
variable {env : Env} (hx : ∀ len, Keeps Q (mlibLibraryExpand env len))
include hx

theorem keeps_insertSpace (offset length : Nat) : Keeps Q (mlibLibraryInsertSpace env offset length) := by
  refine keeps_bind (keeps_look _) fun libLen => ?_
  refine keeps_bind (keeps_look _) fun libLen' => ?_
  refine keeps_bind (hx _) fun ret => ?_
  refine keeps_ite _ (keeps_pure _) ?_
  refine keeps_bind keeps_get fun lib => ?_
  refine keeps_bind (keeps_memmove _ _ _) fun _ => ?_
  exact keeps_bind (Stable.store _ _) fun _ => keeps_pure _

theorem keeps_bucketExpand (bucket length : Nat) : Keeps Q (mlibBucketExpand env bucket length) := by
  refine keeps_bind (keeps_look _) fun offs => ?_
  refine keeps_bind keeps_get fun lib => ?_
  refine keeps_bind (keeps_libOffset _) fun bucketOffset => ?_
  refine keeps_bind (keeps_insertSpace hx _ _) fun ret => ?_
  refine keeps_ite _ (keeps_pure _) ?_
  refine keeps_bind keeps_get fun lib => ?_
  refine keeps_bind (keeps_look _) fun len => ?_
  refine keeps_bind (keeps_writel _ _ _) fun _ => ?_
  refine keeps_bind (keeps_look _) fun indexOffs => ?_
  refine keeps_bind (keeps_writel _ _ _) fun _ => ?_
  refine keeps_bind (keeps_look _) fun plistLen => ?_
  exact keeps_bind (keeps_writel _ _ _) fun _ => keeps_pure _

theorem keeps_makeRoom (len fuel bucket : Nat) : Keeps Q (mlibBucketMakeRoom env len fuel bucket) := by
  induction fuel generalizing bucket with
  | zero => exact keeps_error .hang
  | succ fuel ih =>
    refine keeps_bind (keeps_look _) fun strBytes => ?_
    refine keeps_bind (keeps_look _) fun indexOffs => ?_
    apply keeps_ite
    · refine keeps_bind (keeps_bucketExpand hx _ _) fun grown => ?_
      cases grown with
      | none => exact keeps_pure _
      | some bucket => exact ih bucket
    · exact keeps_pure _

end growth

end Mlib

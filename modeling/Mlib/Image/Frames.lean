import Mlib.Image.Playlists

/-! Which bytes of a file the code leaves alone, wherever the file is mapped: frame rules
for stores and for sequences of them. -/
namespace Mlib
open Foundation
variable {α β : Type} {env : Env} {e : Endian} {lo hi : Nat} {s t : Lib}

/-- When it returns, `x` has changed no bytes but those at the addresses from `lo` up to `hi`,
and has moved nothing. -/
def Op.WritesOnly (lo hi : Nat) (x : Op α) : Prop :=
  ∀ s a t, x s = .ok (a, t) → t.header = s.header ∧ ∀ i, ¬ (lo ≤ s.header + i ∧ s.header + i < hi) →
    t.file[i]? = s.file[i]?

theorem writesOnly_bind {x : Op α} {f : α → Op β} (hx : x.WritesOnly lo hi) (hf : ∀ a, (f a).WritesOnly lo hi) :
    (x >>= f).WritesOnly lo hi := by
  intro s b u h
  obtain ⟨⟨a, t⟩, ha, h⟩ := bind_ok h
  obtain ⟨hh, hb⟩ := hx s a t ha
  obtain ⟨hh', hb'⟩ := hf a t b u h
  refine ⟨hh'.trans hh, fun i hi => ?_⟩
  rw [hb' i (by rwa [hh]), hb i hi]

theorem writesOnly_pure (a : α) : (pure a : Op α).WritesOnly lo hi := by
  intro s b t h
  cases h
  exact ⟨rfl, fun _ _ => rfl⟩

theorem writesOnly_look (f : Mem → Outcome α) : (look f).WritesOnly lo hi := by
  intro s a t h
  cases hf : f s.mem with
  | error why =>
    rw [look, hf] at h
    cases h
  | ok b =>
    rw [look, hf] at h
    cases h
    exact ⟨rfl, fun _ _ => rfl⟩

theorem writesOnly_sysCall (answer : Nat → Bool) : (sysCall answer).WritesOnly lo hi := by
  intro s a t h
  cases h
  exact ⟨rfl, fun _ _ => rfl⟩

theorem writesOnly_ite (c : Prop) [Decidable c] {x y : Op α} (hx : x.WritesOnly lo hi)
    (hy : y.WritesOnly lo hi) :
    (if c then x else y).WritesOnly lo hi := by
  split
  · exact hx
  · exact hy

theorem writesOnly_store {addr : Nat} {bs : Bytes} (hl : lo ≤ addr) (hh : addr + bs.length ≤ hi) :
    (store addr bs).WritesOnly lo hi := by
  intro s a t h
  unfold store at h
  split at h
  · cases h
    refine ⟨rfl, fun i hi' => splice_get_outside _ _ _ _ ?_ (by omega)⟩
    have hle : s.mem.bytes.length ≤ s.file.length := List.length_take_le' _ _
    omega
  · cases h

theorem writesOnly_writel {addr val : Nat} (hl : lo ≤ addr) (hh : addr + 4 ≤ hi) :
    (mlibWritel e addr val).WritesOnly lo hi := by
  rw [mlibWritel, store32_htobe32]
  exact writesOnly_store hl hh

theorem writesOnly_sync : (mlibSyncLibrary env).WritesOnly lo hi :=
  writesOnly_bind (writesOnly_look _) fun _ => writesOnly_bind (writesOnly_sysCall _) fun _ =>
    writesOnly_ite _ (writesOnly_pure _) (writesOnly_pure _)

theorem writesOnly_initBucket {bucket size : Nat} (hl : lo ≤ bucket) (hh : bucket + 16 ≤ hi) :
    (mlibInitBucket e bucket size).WritesOnly lo hi := by
  apply writesOnly_ite _ (writesOnly_pure _)
  apply writesOnly_bind (writesOnly_writel hl (by omega))
  intro _
  apply writesOnly_bind (writesOnly_writel (by omega) (by omega))
  intro _
  apply writesOnly_bind (writesOnly_writel (by omega) (by omega))
  intro _
  exact writesOnly_bind (writesOnly_writel (by omega) (by omega)) fun _ => writesOnly_pure _

/-- The headers of a new record and of its bucket take up 144 bytes. -/
theorem writesOnly_fillRecord (env : Env) (plist : Nat) (name : CStr) :
    (fillRecord env plist name).WritesOnly plist (plist + 144) := by
  have hclear : (List.replicate mlibPlistNameLen (0 : UInt8)).length = 116 := List.length_replicate
  have hcopy : (strncpy (mlibPlistNameLen - 1) name.val).length = 115 := by
    simp only [strncpy, List.length_append, List.length_take, zeros_length, mlibPlistNameLen]
    omega
  apply writesOnly_bind (writesOnly_store (by rw [plistName]; omega) (by rw [hclear, plistName]; omega))
  intro _
  apply writesOnly_bind (writesOnly_store (by rw [plistName]; omega) (by rw [hcopy, plistName]; omega))
  intro _
  apply writesOnly_bind (writesOnly_writel (le_refl _) (by omega))
  intro _
  apply writesOnly_bind (writesOnly_writel (by omega) (by omega))
  intro _
  apply writesOnly_bind (writesOnly_writel (by omega) (by omega))
  intro _
  apply writesOnly_bind (writesOnly_initBucket (by rw [plistData]; omega) (by rw [plistData]))
  intro _
  exact writesOnly_sync

end Mlib

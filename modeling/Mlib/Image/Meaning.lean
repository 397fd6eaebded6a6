import Mlib.Foundation.Store
import Mlib.Image.Runs

/-! The purpose of the library: an ordered store of named sets of paths. Each step of an
image is the operation of the store that its call stands for. -/
namespace Mlib
open Foundation

def addTo (A : Store Bytes Bytes) (n p : Bytes) : Int × Store Bytes Bytes :=
  if n ∈ A.names ∧ ¬ A.Has n p then (0, A.insert n p) else (-1, A)

/-- What a call means, when no growth is turned down. -/
def Call.means (A : Store Bytes Bytes) : Call → Int × Store Bytes Bytes
  | .startPlaylist n => if n.val ∈ A.names then (-1, A) else (0, A.create (storedName n).val)
  | .deletePlaylist n => if n.val ∈ A.names then (0, A.remove n.val) else (-1, A)
  | .addPath n p =>
    if n = dotGlobal then addTo A n.val p.val
    else if dotGlobal.val ∈ A.names then addTo (addTo A dotGlobal.val p.val).2 n.val p.val
    else (-1, A)
  | .addPathToPlist n p => addTo A n.val p.val

def Record.entry (r : Record) : Bytes × List Bytes := (r.name.val, r.paths.map (·.val))

variable {env : Env} {I I' : Image} {n p : CStr} {l u : List Record} {r : Record} {ret : Int} {k : Nat} {c : Call}

theorem names_entries (l : List Record) : Store.names (l.map Record.entry) = l.map (·.name.val) := List.map_map

theorem not_named_entries : n.val ∉ Store.names (l.map Record.entry) ↔ ∀ r ∈ l, r.name ≠ n := by
  rw [names_entries, List.mem_map]
  constructor
  · rintro h r hr rfl
    exact h ⟨r, hr, rfl⟩
  · rintro h ⟨r, hr, hn⟩
    exact h r hr (Subtype.ext hn)

theorem Image.Lacks.not_named (h : I.Lacks n) : n.val ∉ Store.names I.contents := not_named_entries.mpr h

theorem Image.contents_withRecs (recs : List Record) : (I.withRecs recs).contents = recs.map Record.entry := rfl

theorem entries_append : (l ++ r :: u).map Record.entry = l.map Record.entry ++ r.entry :: u.map Record.entry := by
  rw [List.map_append, List.map_cons]

/-- A playlist that is found is the first entry of its name. -/
theorem Image.Finds.entries (h : I.Finds n l r u) :
    I.contents = l.map Record.entry ++ (n.val, r.paths.map (·.val)) :: u.map Record.entry ∧
      n.val ∉ Store.names (l.map Record.entry) := by
  refine ⟨?_, not_named_entries.mpr h.first⟩
  rw [← h.name, ← Image.withRecs_self I, contents_withRecs, h.recs, entries_append]
  rfl

theorem Image.Finds.named (h : I.Finds n l r u) : n.val ∈ Store.names I.contents := by
  rw [h.entries.1, Store.names_append, Store.names_cons]
  exact List.mem_append_right _ List.mem_cons_self

theorem mem_val : p.val ∈ r.paths.map (·.val) ↔ p ∈ r.paths :=
  List.mem_map_of_injective Subtype.val_injective

theorem Image.Finds.has (h : I.Finds n l r u) : Store.Has I.contents n.val p.val ↔ p ∈ r.paths := by
  rw [Store.Has, h.entries.1, Store.elems_split h.entries.2]
  exact mem_val

/-- The paths of a record that got a new one. -/
theorem insert_paths_val (hp : p ∉ r.paths) :
    (r.add p hp).paths.map (·.val) = Store.insertNew p.val (r.paths.map (·.val)) := by
  rw [Store.insertNew, if_neg (mem_val.not.mpr hp)]
  exact List.map_orderedInsert (· ≤ ·) (· ≤ ·) Subtype.val r.paths p (fun _ _ => Iff.rfl) (fun _ _ => Iff.rfl)

theorem Image.Finds.insert (h : I.Finds n l r u) (hp : p ∉ r.paths) :
    (I.withRecs (l ++ r.add p hp :: u)).contents = Store.insert I.contents n.val p.val := by
  rw [h.entries.1, Store.insert_split h.entries.2, contents_withRecs, entries_append,
    ← insert_paths_val hp, ← h.name]
  rfl

/-- A path was added exactly when zero is returned. -/
theorem Image.AddsTo.contents (h : I.AddsTo n p ret I' k) :
    I'.contents = if ret = 0 then Store.insert I.contents n.val p.val else I.contents := by
  cases h with
  | missing h => rfl
  | present h hp => rfl
  | @refused l r u h hp j =>
    rw [if_neg (by decide), h.entries.1, contents_withRecs, entries_append, ← h.name]
    rfl
  | added h hp => exact h.insert hp

theorem Image.AddsTo.names (h : I.AddsTo n p ret I' k) : Store.names I'.contents = Store.names I.contents := by
  rw [h.contents]
  split
  · exact Store.names_insert _ _ _
  · rfl

theorem Image.AddsTo.means (h : I.AddsTo n p ret I' 0) : addTo I.contents n.val p.val = (ret, I'.contents) := by
  have hc := h.contents
  cases h with
  | missing h => exact if_neg fun hn => h.not_named hn.1
  | present h hp => exact if_neg fun hn => hn.2 (h.has.mpr hp)
  | added h hp => rw [hc, addTo, if_pos ⟨h.named, h.has.not.mpr hp⟩, if_pos rfl]

/-- Where no growth is turned down, a step does to the contents what its call means. -/
theorem Image.Steps.means (h : I.Steps c ret I' k) (hk : k = 0) : c.means I.contents = (ret, I'.contents) := by
  cases h with
  | startPresent h => exact if_pos h.named
  | startRefused h => cases hk
  | @started n h =>
    rw [Call.means, if_neg h.not_named, contents_withRecs, List.map_append]
    rfl
  | deleteMissing h => exact if_neg h.not_named
  | @deleted n l r u h =>
    rw [Call.means, if_pos h.named, h.entries.1, Store.remove_split h.entries.2, contents_withRecs,
      List.map_append]
  | addPathToPlist h =>
    subst hk
    exact h.means
  | addPathGlobal h =>
    subst hk
    rw [Call.means, if_pos rfl]
    exact h.means
  | addPathNoGlobal hn h => rw [Call.means, if_neg hn, if_neg h.not_named]
  | addPathBoth hn hg h₁ h =>
    obtain ⟨rfl, rfl⟩ := Nat.add_eq_zero_iff.mp hk
    rw [Call.means, if_neg hn, if_pos hg.named, h₁.means]
    exact h.means

def Call.Short (c : Call) : Prop :=
  (∀ n, c = .startPlaylist n → n.val.length ≤ 115) ∧ ∀ p ∈ c.path?, p.val.length < 2 ^ 31

/-- Names that are stored in full stay distinct. -/
theorem Image.Steps.nodup (h : I.Steps c ret I' k) (hc : ∀ n, c = .startPlaylist n → n.val.length ≤ 115)
    (hI : (Store.names I.contents).Nodup) : (Store.names I'.contents).Nodup := by
  cases h with
  | startPresent h => exact hI
  | startRefused h => exact hI
  | @started n h =>
    have hn : (Record.started n).entry = (n.val, []) := by
      rw [Record.entry, Record.started_name, storedName_eq (hc n rfl)]
      rfl
    rw [contents_withRecs, List.map_append, List.map_singleton, hn]
    exact Store.nodup_create hI h.not_named
  | deleteMissing h => exact hI
  | @deleted n l r u h =>
    have hr := @Store.nodup_remove _ _ _ _ n.val hI
    rwa [h.entries.1, Store.remove_split h.entries.2, ← List.map_append, ← contents_withRecs] at hr
  | addPathToPlist h => rwa [h.names]
  | addPathGlobal h => rwa [h.names]
  | addPathNoGlobal hn h => exact hI
  | addPathBoth hn hg h₁ h => rwa [h.names, h₁.names]

end Mlib

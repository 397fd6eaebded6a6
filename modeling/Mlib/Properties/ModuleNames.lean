import Mlib.Program.Module

/-! The list of modules: a call loads one more module or fails, and the names stay distinct, as
long as no object without a descriptor and no second module of one name is loaded. -/
namespace Mlib
open Foundation
variable {ω : Type} {objs : Objects ω} {o : ω} {m : Ptr} {s : Loader ω} {l : List Ptr} {init : Int}

/-- A call that finds the descriptor `m` gets as far as listing it: it has a name, it is not
listed, and its `init`, if it has one, succeeds. -/
def Objects.Lists (objs : Objects ω) (l : List Ptr) (m : Ptr) (init : Int) : Prop :=
  objs.name m ≠ none ∧ m ∉ l ∧ (objs.hasInit m → init = 0)

/-- What a path resolves to, if `dlopen` succeeds, has a descriptor, and the name of a module
that the call lists is new. -/
def Objects.Loadable (objs : Objects ω) (l : List Ptr) (path : Option ω) (init : Int) : Prop :=
  ∀ o ∈ path, ∃ m, objs.desc o = some m ∧ (objs.Lists l m init → objs.name m ∉ l.map objs.name)

theorem moduleLoaded_ring (h : Ring s.links objs.mlibModules l) (m : Ptr) :
    mlibModuleLoaded objs s.links m = .ok (decide (m ∈ l)) := by
  have hany : (l.findSome? fun module => if module = m then some true else none).getD false = decide (m ∈ l) := by
    clear h
    induction l with
    | nil => rfl
    | cons a l ih =>
      rw [List.findSome?_cons]
      by_cases ha : a = m
      · simp [ha]
      · simpa [ha, Ne.symm ha] using ih
  rw [mlibModuleLoaded, listForEach_ring (fun module => if module = m then some true else none) h,
    ok_bind, hany]
  · rfl
  · exact fun _ _ => rfl

private theorem append_last (h : Ring s.links objs.mlibModules l) (hd : objs.desc o = some m)
    (hm : m ∉ l) {s' : Loader ω}
    (hs : s'.links = listAddTail m objs.mlibModules s.links) : Ring s'.links objs.mlibModules (l ++ [m]) := by
  rw [hs]
  refine listAddTail_last h (List.mem_cons.not.mpr (not_or.mpr ⟨?_, hm⟩))
  rintro rfl
  exact objs.desc_ne_head o hd

private theorem nodup_append_name (h : (l.map objs.name).Nodup) :
    ((l ++ [m]).map objs.name).Nodup ↔ objs.name m ∉ l.map objs.name := by
  rw [List.map_append, List.map_singleton, ← List.concat_eq_append, List.nodup_concat]
  exact and_iff_left h

section
variable [DecidableEq ω]

inductive Loaded (objs : Objects ω) : Loader ω → List Ptr → Prop
  | start (L : Links Ptr) : Loaded objs ⟨initListHead objs.mlibModules L, fun _ => 0⟩ []
  | call {s s' : Loader ω} {l l' : List Ptr} {path : Option ω} {init ret : Int} (h : Loaded objs s l)
      (hp : objs.Loadable l path init) (hx : mlibLoadModule objs path init s = .ok (ret, s'))
      (hl : Ring s'.links objs.mlibModules l') : Loaded objs s' l'

/-- A module that is not listed is appended, or the call fails. -/
theorem loadModule_found (h : Ring s.links objs.mlibModules l) (hd : objs.desc o = some m) (init : Int) :
    ∃ s', (objs.Lists l m init ∧ mlibLoadModule objs (some o) init s = .ok (0, s') ∧
        s'.links = listAddTail m objs.mlibModules s.links) ∨
      (¬ objs.Lists l m init ∧ mlibLoadModule objs (some o) init s = .ok (-1, s') ∧ s'.links = s.links) := by
  have hloaded : mlibModuleLoaded objs (s.dlopen o).links m = .ok (decide (m ∈ l)) := moduleLoaded_ring h m
  unfold mlibLoadModule
  simp only [hd, hloaded, ok_bind, decide_eq_true_eq, Objects.Lists]
  by_cases hn : objs.name m = none
  · exact ⟨_, Or.inr ⟨fun hl => hl.1 hn, if_pos hn, rfl⟩⟩
  rw [if_neg hn]
  by_cases hm : m ∈ l
  · exact ⟨_, Or.inr ⟨fun hl => hl.2.1 hm, if_pos hm, rfl⟩⟩
  rw [if_neg hm]
  by_cases hi : objs.hasInit m = true ∧ init ≠ 0
  · exact ⟨_, Or.inr ⟨fun hl => hi.2 (hl.2.2 hi.1), if_pos hi, rfl⟩⟩
  rw [if_neg hi]
  exact ⟨_, Or.inl ⟨⟨hn, hm, fun hh => not_not.mp fun hz => hi ⟨hh, hz⟩⟩, rfl, rfl⟩⟩

/-- A call keeps the names distinct and tells whether it listed a module exactly when its path
is loadable. -/
theorem loadModule_iff (h : Ring s.links objs.mlibModules l) (hn : (l.map objs.name).Nodup)
    (path : Option ω) (init : Int) :
    ∃ ret s' l', mlibLoadModule objs path init s = .ok (ret, s') ∧ Ring s'.links objs.mlibModules l' ∧
      (((l'.map objs.name).Nodup ∧ (ret = 0 ↔ ∃ m, l' = l ++ [m])) ↔ objs.Loadable l path init) := by
  have hself : ¬ ∃ m, l = l ++ [m] := by simp
  cases path with
  | none =>
    refine ⟨-1, s, l, rfl, h, iff_of_true ⟨hn, iff_of_false (by decide) hself⟩ ?_⟩
    rintro o ⟨⟩
  | some o =>
    cases hd : objs.desc o with
    | none =>
      refine ⟨0, s.dlopen o, l, by simp only [mlibLoadModule, hd]; rfl, h, iff_of_false ?_ ?_⟩
      · exact fun hp => hself (hp.2.mp rfl)
      · intro hp
        obtain ⟨m, hm, -⟩ := hp o rfl
        rw [hd] at hm
        cases hm
    | some m =>
      have hload : objs.Loadable l (some o) init ↔ (objs.Lists l m init → objs.name m ∉ l.map objs.name) := by
        constructor
        · intro hp
          obtain ⟨m', hm', hnew⟩ := hp o rfl
          rw [hd] at hm'
          cases hm'
          exact hnew
        · rintro hnew o' ⟨⟩
          exact ⟨m, hd, hnew⟩
      rw [hload]
      obtain ⟨s', ⟨hl, he, hs⟩ | ⟨hl, he, hs⟩⟩ := loadModule_found h hd init
      · refine ⟨0, s', l ++ [m], he, append_last h hd hl.2.1 hs, ?_⟩
        rw [nodup_append_name hn]
        constructor
        · exact fun hp _ => hp.1
        · exact fun hp => ⟨hp hl, iff_of_true rfl ⟨m, rfl⟩⟩
      · exact ⟨-1, s', l, he, hs ▸ h, iff_of_true ⟨hn, iff_of_false (by decide) hself⟩ fun hl' => absurd hl' hl⟩

theorem Loaded.ring_names (h : Loaded objs s l) :
    Ring s.links objs.mlibModules l ∧ (l.map objs.name).Nodup := by
  induction h with
  | start L => exact ⟨initListHead_ring objs.mlibModules L, List.nodup_nil⟩
  | @call s s' l l' path init ret h hp hx hl ih =>
    obtain ⟨ret', t, l'', he, hl'', hiff⟩ := loadModule_iff ih.1 ih.2 path init
    rw [hx] at he
    cases he
    obtain rfl := hl.unique hl''
    exact ⟨hl, (hiff.mpr hp).1⟩

/-- After calls for loadable paths the listed names are distinct; and the next call keeps them
so, and returns zero exactly when it lists one more module, if and only if its path is loadable. -/
theorem module_names_iff (h : Loaded objs s l) : Ring s.links objs.mlibModules l ∧ (l.map objs.name).Nodup ∧
    ∀ path init, ∃ ret s' l', mlibLoadModule objs path init s = .ok (ret, s') ∧
      Ring s'.links objs.mlibModules l' ∧
      (((l'.map objs.name).Nodup ∧ (ret = 0 ↔ ∃ m, l' = l ++ [m])) ↔ objs.Loadable l path init) := by
  obtain ⟨hring, hnames⟩ := h.ring_names
  exact ⟨hring, hnames, loadModule_iff hring hnames⟩

end

/-- Two objects whose modules have one name. -/
def twoModules : Objects Bool where
  mlibModules := null
  desc o := some (if o then ⟨2, by decide⟩ else ⟨1, by decide⟩)
  name _ := some CStr.empty
  hasInit _ := false
  desc_injective o o' module h h' := by
    have hif := Option.some.inj (h.trans h'.symm)
    cases o with
    | false => cases o' with
      | false => rfl
      | true => exact absurd hif (by decide)
    | true => cases o' with
      | false => exact absurd hif (by decide)
      | true => rfl
  desc_ne_head := by decide

/-- The first of the two objects is loaded into an empty list. -/
theorem module_names_iff_first : ∃ ret s' l',
    mlibLoadModule twoModules (some false) 0 ⟨initListHead null ⟨id, id⟩, fun _ => 0⟩ = .ok (ret, s') ∧
      Ring s'.links null l' ∧ (l'.map twoModules.name).Nodup ∧ (ret = 0 ↔ ∃ m, l' = [] ++ [m]) := by
  obtain ⟨-, -, h⟩ := module_names_iff (@Loaded.start Bool _ twoModules ⟨id, id⟩)
  obtain ⟨ret, s', l', he, hring, hiff⟩ := h (some false) 0
  obtain ⟨hnames, hret⟩ := hiff.mpr (by
    rintro o -
    exact ⟨_, rfl, fun _ => List.not_mem_nil⟩)
  exact ⟨ret, s', l', he, hring, hnames, hret⟩

/-- Both objects are loaded, and the list has two modules of one name. -/
theorem loadModule_same_name : ∃ s t l, mlibLoadModule twoModules (some false) 0
      ⟨initListHead null ⟨id, id⟩, fun _ => 0⟩ = .ok (0, s) ∧
    mlibLoadModule twoModules (some true) 0 s = .ok (0, t) ∧ Ring t.links null l ∧
      ¬ (l.map twoModules.name).Nodup := by
  have h₀ : Ring (initListHead null ⟨id, id⟩) twoModules.mlibModules [] := initListHead_ring null ⟨id, id⟩
  obtain ⟨s, ⟨hl, he, hs⟩ | ⟨hl, -⟩⟩ := @loadModule_found Bool twoModules false ⟨1, by decide⟩
    ⟨initListHead null ⟨id, id⟩, fun _ => 0⟩ [] _ h₀ rfl 0
  · have h₁ := @append_last Bool twoModules false _ _ _ h₀ rfl hl.2.1 s hs
    obtain ⟨t, ⟨hl', he', ht⟩ | ⟨hl', -⟩⟩ := @loadModule_found Bool twoModules true ⟨2,
      by decide⟩ s _ _ h₁ rfl 0
    · exact ⟨s, t, _, he, he', @append_last Bool twoModules true _ _ _ h₁ rfl hl'.2.1 t ht, by decide⟩
    · exact absurd ⟨Option.some_ne_none _, by decide, fun _ => rfl⟩ hl'
  · exact absurd ⟨Option.some_ne_none _, by decide, fun _ => rfl⟩ hl

end Mlib

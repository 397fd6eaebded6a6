import Mlib.Program.Plugins
import Mlib.Foundation.Runs
import Mlib.Properties.BackendPlay
import Mlib.Properties.ModuleNames

/-! Whatever is loaded in whatever order, the two lists show the modules that were loaded and the engines that they
registered, in that order, and nothing on them is in an object that was closed. -/
namespace Mlib
open Foundation
variable {ω : Type} {pl : Plugins ω} {resolve : CStr →
  Option ω} {s t : Plugged ω} {ms : List Ptr} {m e : Ptr} {o : ω} {ret : Int}

instance (objs : Objects ω) (l : List Ptr) (m : Ptr) (init : Int) : Decidable (objs.Lists l m init) :=
  inferInstanceAs (Decidable (_ ∧ _ ∧ _))

/-- What the `init` of a module returns: one that registers an engine succeeds where the engine has a name and can do
something. -/
def Plugins.initReturns (pl : Plugins ω) (m : Ptr) (ret : Int) : Int :=
  match pl.engine m with
  | none => ret
  | some e => if (pl.image e).name ≠ none ∧ (pl.image e).checked.caps ≠ 0 then 0 else -1

def Plugins.enginesOf (pl : Plugins ω) (ms : List Ptr) : List Ptr := ms.filterMap pl.engine

/-- What is printed when a module is loaded: its `init` runs if it has a name and is not listed. -/
def Plugins.loadPrints (pl : Plugins ω) (ms : List Ptr) (m : Ptr) : Bytes :=
  if pl.name m ≠ none ∧ m ∉ ms ∧ pl.hasInit m then pl.initPrints m else []

def Plugins.loadMeans (pl : Plugins ω) (ms : List Ptr) (path : Option ω) (ret : Int) :
    (Int × Bytes) × List Ptr :=
  match path with
  | none => ((-1, []), ms)
  | some o => match pl.desc o with
    | none => ((0, []), ms)
    | some m =>
      if pl.Lists ms m (pl.initReturns m ret) then ((0, pl.loadPrints ms m),
        ms ++ [m]) else ((-1, pl.loadPrints ms m), ms)

def PluginLine.means (pl : Plugins ω) (resolve : CStr → Option ω) :
    PluginLine → List Ptr → (Int × Bytes) × List Ptr
  | .load [_, path] ret, ms =>
    let ((loaded, out), ms) := pl.loadMeans ms (resolve path) ret
    if loaded ≠ 0 then ((-1, out), ms) else ((0, out ++ text "Loaded " ++ path.val ++ text "\n"), ms)
  | .load _ _, ms => ((-1, text "Usage: load <mod-name>\n"), ms)
  | .lsmod argv, ms =>
    if argv.length ≠ 1 then ((-1, text "Usage: lsmod\n"), ms)
    else ((0, text "Loaded modules:\n" ++
      (ms.map fun m => moduleLine ((pl.name m).getD CStr.empty) (pl.moduleDesc m)).flatten), ms)
  | .engines argv, ms =>
    if 2 < argv.length then ((-1, text "Usage: lseng [type]\n"), ms)
    else ((0, ((pl.enginesOf ms).map fun e => engineLine (pl.image e).checked).flatten), ms)

/-- The lists show just these modules and their engines, the first of which is the current one. The object of a module is
open just if the module is on its list, and each engine on its own was accepted. -/
structure Plugged.Stands (pl : Plugins ω) (ms : List Ptr) (s : Plugged ω) : Prop where
  modules : Ring s.loader.links pl.mlibModules ms
  engines : Ring s.backends.links pl.mlibEngines (pl.enginesOf ms)
  current : s.backends.current = (pl.enginesOf ms).head?
  opened : ∀ o m, pl.desc o = some m → (s.loader.opened o = 0 ↔ m ∉ ms)
  accepted : ∀ e ∈ pl.enginesOf ms, s.backends.engines e = (pl.image e).checked ∧ (pl.image e).checked.Accepted

/-- Where an engine is one of these modules, so is its module. -/
theorem mem_enginesOf (he : pl.engine m = some e) : e ∈ pl.enginesOf ms ↔ m ∈ ms := by
  rw [Plugins.enginesOf, List.mem_filterMap]
  constructor
  · rintro ⟨m', hm', he'⟩
    rwa [pl.engine_injective m m' e he he']
  · exact fun hm => ⟨m, hm, he⟩

theorem enginesOf_concat (ms : List Ptr) (m : Ptr) :
    pl.enginesOf (ms ++ [m]) = pl.enginesOf ms ++ (pl.engine m).toList := by
  rw [Plugins.enginesOf, List.filterMap_append]
  cases hm : pl.engine m with
  | none => simp [Plugins.enginesOf, hm]
  | some e => simp [Plugins.enginesOf, hm]

/-- Another state with the same lists. -/
theorem Plugged.Stands.frame (h : s.Stands pl ms) (hmodules : t.loader.links = s.loader.links)
    (hlinks : t.backends.links = s.backends.links) (hcurrent : t.backends.current = s.backends.current)
    (hopened : ∀ o m, pl.desc o = some m → (t.loader.opened o = 0 ↔ s.loader.opened o = 0))
    (hengines : ∀ e ∈ pl.enginesOf ms, t.backends.engines e = s.backends.engines e) : t.Stands pl ms where
  modules := hmodules ▸ h.modules
  engines := hlinks ▸ h.engines
  current := hcurrent.trans h.current
  opened o m hd := (hopened o m hd).trans (h.opened o m hd)
  accepted e he := ⟨(hengines e he).trans (h.accepted e he).1, (h.accepted e he).2⟩

variable [DecidableEq ω]

@[simp] theorem dlopen_loader (o : ω) (s : Plugged ω) : (pl.dlopen o s).loader = s.loader.dlopen o := rfl

@[simp] theorem dlopen_links (o : ω) (s : Plugged ω) : (pl.dlopen o s).backends.links = s.backends.links := by
  unfold Plugins.dlopen
  dsimp only
  split
  · rfl
  · split <;> rfl

@[simp] theorem dlopen_current (o : ω) (s : Plugged ω) :
    (pl.dlopen o s).backends.current = s.backends.current := by
  unfold Plugins.dlopen
  dsimp only
  split
  · rfl
  · split <;> rfl

/-- An engine of a listed module is not read anew. -/
theorem dlopen_engines (h : s.Stands pl ms) (o : ω) (he : e ∈ pl.enginesOf ms) :
    (pl.dlopen o s).backends.engines e = s.backends.engines e := by
  unfold Plugins.dlopen
  dsimp only
  split
  · rfl
  · rename_i e' he'
    split
    · rename_i hclosed
      obtain ⟨m, hd, hm⟩ := Option.bind_eq_some_iff.mp he'
      have hne : e ≠ e' := by
        rintro rfl
        exact (h.opened o m hd).mp hclosed ((mem_enginesOf hm).mp he)
      exact Function.update_of_ne hne ..
    · rfl

/-- The engine of a module that is not listed is as it is in its object. -/
theorem dlopen_image (h : s.Stands pl ms) (hd : pl.desc o = some m) (hm : m ∉ ms) (he : pl.engine m = some e) :
    (pl.dlopen o s).backends.engines e = pl.image e := by
  have hbind : (pl.desc o).bind pl.engine = some e := by rw [hd, Option.bind_some, he]
  unfold Plugins.dlopen
  dsimp only
  rw [hbind]
  dsimp only
  rw [if_pos ((h.opened o m hd).mpr hm)]
  exact Function.update_self ..

theorem opened_dlopen_of_ne {l : Loader ω} {o' : ω} (ho : o' ≠ o) : (l.dlopen o).opened o' = l.opened o' :=
  Function.update_of_ne ho ..

@[simp] theorem opened_dlopen_self (l : Loader ω) (o : ω) : (l.dlopen o).opened o = l.opened o + 1 :=
  Function.update_self ..

@[simp] theorem opened_dlclose_self (l : Loader ω) (o : ω) : (l.dlclose o).opened o = l.opened o - 1 :=
  Function.update_self ..

/-- An object that is opened and closed again is open as often as before. -/
theorem opened_dlclose (l : Loader ω) (o o' : ω) : ((l.dlopen o).dlclose o).opened o' = l.opened o' := by
  by_cases ho : o' = o
  · subst ho
    rw [opened_dlclose_self, opened_dlopen_self, Nat.add_sub_cancel]
  · exact (Function.update_of_ne ho ..).trans (opened_dlopen_of_ne ho)

/-- As far as the list of modules goes, a call is one of `mlibLoadModule`, with what the `init` of the module returns. -/
theorem loadModule_loader (hd : pl.desc o = some m) (ret : Int) (s : Plugged ω) :
    (fun x : (Int × Bytes) × Plugged ω => (x.1.1, x.2.loader)) <$> pl.loadModule (some o) ret s =
      mlibLoadModule pl.toObjects (some o) (pl.init m ret (pl.dlopen o s).backends).1.1 s.loader := by
  rw [Plugins.loadModule, mlibLoadModule]
  dsimp only
  rw [hd]
  dsimp only
  by_cases hname : pl.name m = none
  · rw [if_pos hname, if_pos hname]
    rfl
  rw [if_neg hname, if_neg hname, dlopen_loader]
  cases hloaded : mlibModuleLoaded pl.toObjects (s.loader.dlopen o).links m with
  | error why => rfl
  | ok loaded =>
    rw [ok_bind, ok_bind]
    cases loaded with
    | true => rfl
    | false =>
      rw [if_neg Bool.false_ne_true, if_neg Bool.false_ne_true]
      by_cases hinit : pl.hasInit m = true
      · by_cases hz : (pl.init m ret (pl.dlopen o s).backends).1.1 = 0
        · simp [hinit, hz]
        · simp [hinit, hz]
      · simp [hinit]

/-- An object without a description, or of a module that is listed, stays open. -/
theorem Plugged.Stands.leaked (h : s.Stands pl ms) (hd : ∀ m, pl.desc o = some m → m ∈ ms) :
    (pl.dlopen o s).Stands pl ms := by
  refine h.frame rfl (dlopen_links o s) (dlopen_current o s) (fun o' m hd' => ?_) fun e he =>
    dlopen_engines h o he
  by_cases ho : o' = o
  · subst ho
    rw [dlopen_loader, opened_dlopen_self]
    exact iff_of_false (Nat.succ_ne_zero _) fun hclosed => (h.opened o' m hd').mp hclosed (hd m hd')
  · rw [dlopen_loader, opened_dlopen_of_ne ho]

/-- An object is opened and closed again, and only engines that are not listed have changed. -/
theorem Plugged.Stands.closed (h : s.Stands pl ms) {b : Backends} (hlinks : b.links = s.backends.links)
    (hcurrent : b.current = s.backends.current) (hengines : ∀ e ∈ pl.enginesOf ms,
      b.engines e = s.backends.engines e) :
    Plugged.Stands pl ms ⟨(s.loader.dlopen o).dlclose o, b⟩ :=
  h.frame rfl hlinks hcurrent (fun o' m _ => by rw [opened_dlclose]) hengines

/-- A module is put behind the others. -/
theorem Plugged.Stands.listed (h : s.Stands pl ms) (hd : pl.desc o = some m) (hm : m ∉ ms) {b : Backends}
    (hengines : Ring b.links pl.mlibEngines (pl.enginesOf (ms ++ [m])))
      (hcurrent : b.current = (pl.enginesOf (ms ++ [m])).head?)
    (haccepted : ∀ e ∈ pl.enginesOf (ms ++ [m]), b.engines e = (pl.image e).checked ∧
      (pl.image e).checked.Accepted) :
    Plugged.Stands pl (ms ++ [m])
      ⟨{ s.loader.dlopen o with links := listAddTail m pl.mlibModules (s.loader.dlopen o).links }, b⟩ := by
  refine ⟨?_, hengines, hcurrent, fun o' m' hd' => ?_, haccepted⟩
  · refine listAddTail_last h.modules (List.mem_cons.not.mpr (not_or.mpr ⟨?_, hm⟩))
    rintro rfl
    exact pl.desc_ne_head o hd
  · dsimp only
    by_cases ho : o' = o
    · subst ho
      cases hd.symm.trans hd'
      rw [opened_dlopen_self]
      exact iff_of_false (Nat.succ_ne_zero _) fun hn => hn (List.mem_append_right ms List.mem_cons_self)
    · have hne : m' ≠ m := by
        rintro rfl
        exact ho (pl.desc_injective o' o m' hd' hd)
      rw [opened_dlopen_of_ne ho, h.opened o' m' hd', List.mem_append, List.mem_singleton, or_iff_left hne]

/-- An `init` that fails leaves the list of engines as it is, and one that succeeds appends the engine of its module, if it
has one. -/
theorem init_backends (h : s.Stands pl ms) (hd : pl.desc o = some m) (hm : m ∉ ms) (ret : Int) :
    ∃ b, pl.init m ret (pl.dlopen o s).backends = ((pl.initReturns m ret, pl.initPrints m), b) ∧
      (pl.initReturns m ret ≠ 0 → b.links = s.backends.links ∧ b.current = s.backends.current ∧
        ∀ e ∈ pl.enginesOf ms, b.engines e = s.backends.engines e) ∧
      (pl.initReturns m ret = 0 → Ring b.links pl.mlibEngines (pl.enginesOf (ms ++ [m])) ∧
        b.current = (pl.enginesOf (ms ++ [m])).head? ∧
        ∀ e ∈ pl.enginesOf (ms ++ [m]), b.engines e = (pl.image e).checked ∧
          (pl.image e).checked.Accepted) := by
  have hlinks := @dlopen_links ω pl _ o s
  have hcurrent := @dlopen_current ω pl _ o s
  rw [enginesOf_concat]
  cases he : pl.engine m with
  | none =>
    have hinit : pl.init m ret (pl.dlopen o s).backends =
        ((pl.initReturns m ret, pl.initPrints m), (pl.dlopen o s).backends) := by
      rw [Plugins.init, Plugins.initReturns, he]
    refine ⟨_, hinit, fun _ => ⟨hlinks, hcurrent, fun e => dlopen_engines h o⟩, fun _ => ?_⟩
    rw [Option.toList_none, List.append_nil, hlinks, hcurrent]
    refine ⟨h.engines, h.current, fun e he' => ?_⟩
    rw [dlopen_engines h o he']
    exact h.accepted e he'
  | some e =>
    have himage := dlopen_image h hd hm he
    have hnew : e ∉ pl.enginesOf ms := (mem_enginesOf he).not.mpr hm
    have hold : ∀ e' ∈ pl.enginesOf ms, Function.update (pl.dlopen o s).backends.engines e (pl.image e).checked e' =
        s.backends.engines e' := by
      intro e' he'
      rw [Function.update_of_ne (ne_of_mem_of_not_mem he' hnew), dlopen_engines h o he']
    rw [Plugins.init, Plugins.initReturns, he]
    dsimp only
    by_cases hname : (pl.image e).name = none
    · rw [if_neg fun h => h.1 hname]
      refine ⟨(pl.dlopen o s).backends, ?_, fun _ => ⟨hlinks, hcurrent, fun e => dlopen_engines h o⟩,
        fun hz => absurd hz (by decide)⟩
      rw [mlibEngineRegister, himage, if_pos hname]
    by_cases hcaps : (pl.image e).checked.caps = 0
    · rw [if_neg fun h => h.2 hcaps]
      have hregister : mlibEngineRegister pl.mlibEngines e (pl.dlopen o s).backends = (-1, { (pl.dlopen o s).backends with
          engines := Function.update (pl.dlopen o s).backends.engines e (pl.image e).checked }) := by
        rw [mlibEngineRegister, himage, if_neg hname]
        exact if_pos hcaps
      rw [hregister]
      exact ⟨_, rfl, fun _ => ⟨hlinks, hcurrent, hold⟩, fun hz => absurd hz (by decide)⟩
    · rw [if_pos ⟨hname, hcaps⟩]
      have hregister : mlibEngineRegister pl.mlibEngines e (pl.dlopen o s).backends =
          (0, ⟨Function.update (pl.dlopen o s).backends.engines e (pl.image e).checked,
            listAddTail e pl.mlibEngines (pl.dlopen o s).backends.links,
              (pl.dlopen o s).backends.current.or (some e)⟩) := by
        rw [mlibEngineRegister, himage, if_neg hname]
        exact if_neg hcaps
      rw [hregister]
      refine ⟨_, rfl, fun hz => absurd rfl hz, fun _ => ⟨?_, ?_, fun e' he' => ?_⟩⟩
      · dsimp only
        rw [hlinks]
        refine listAddTail_last h.engines (List.mem_cons.not.mpr (not_or.mpr ⟨?_, hnew⟩))
        rintro rfl
        exact pl.engine_ne_head m he
      · dsimp only
        rw [hcurrent, h.current]
        cases pl.enginesOf ms with
        | nil => rfl
        | cons e' es => rfl
      · dsimp only
        rcases List.mem_append.mp he' with he' | he'
        · rw [hold e' he']
          exact h.accepted e' he'
        · obtain rfl : e' = e := by simpa using he'
          rw [Function.update_self]
          exact ⟨rfl, checked_accepted hname hcaps⟩

/-- One call lists a module or leaves the lists as they are. -/
theorem loadModule_stands (h : s.Stands pl ms) (path : Option ω) (ret : Int) :
    ∃ t, pl.loadModule path ret s = .ok ((pl.loadMeans ms path ret).1, t) ∧
      t.Stands pl (pl.loadMeans ms path ret).2 := by
  cases path with
  | none => exact ⟨s, rfl, h⟩
  | some o =>
    cases hd : pl.desc o with
    | none =>
      have hmeans : pl.loadMeans ms (some o) ret = ((0, []), ms) := by rw [Plugins.loadMeans, hd]
      rw [hmeans]
      refine ⟨pl.dlopen o s, ?_, h.leaked fun m hm => by cases hd.symm.trans hm⟩
      rw [Plugins.loadModule, hd]
      rfl
    | some m =>
      have hloaded : mlibModuleLoaded pl.toObjects (pl.dlopen o s).loader.links m = .ok (decide (m ∈ ms)) :=
        moduleLoaded_ring h.modules m
      have hmeans : pl.loadMeans ms (some o) ret =
          if pl.Lists ms m (pl.initReturns m ret) then ((0, pl.loadPrints ms m), ms ++ [m])
          else ((-1, pl.loadPrints ms m), ms) := by rw [Plugins.loadMeans, hd]
      have hsilent : ¬ (pl.name m ≠ none ∧ m ∉ ms ∧ pl.hasInit m = true) → pl.loadPrints ms m = [] :=
        fun h => if_neg h
      rw [hmeans, Plugins.loadModule, hd]
      dsimp only
      rw [hloaded]
      by_cases hname : pl.name m = none
      · rw [if_pos hname, if_neg (fun hl : pl.Lists ms m _ => hl.1 hname), hsilent fun h => h.1 hname]
        exact ⟨_, rfl, h.closed (dlopen_links o s) (dlopen_current o s) fun e => dlopen_engines h o⟩
      rw [if_neg hname, ok_bind]
      by_cases hm : m ∈ ms
      · rw [if_pos (decide_eq_true hm), if_neg (fun hl : pl.Lists ms m _ => hl.2.1 hm),
          hsilent fun h => h.2.1 hm]
        refine ⟨_, rfl, h.leaked fun m' hm' => ?_⟩
        cases hd.symm.trans hm'
        exact hm
      rw [if_neg (by simpa using hm)]
      obtain ⟨b, hb, hfails, hsucceeds⟩ := init_backends h hd hm ret
      by_cases hinit : pl.hasInit m = true
      · have hprints : pl.loadPrints ms m = pl.initPrints m := if_pos ⟨hname, hm, hinit⟩
        rw [if_pos hinit, hb, hprints]
        dsimp only
        by_cases hz : pl.initReturns m ret = 0
        · obtain ⟨hengines, hcurrent, haccepted⟩ := hsucceeds hz
          rw [if_neg (not_not.mpr hz), if_pos ⟨hname, hm, fun _ => hz⟩]
          exact ⟨_, rfl, h.listed hd hm hengines hcurrent haccepted⟩
        · obtain ⟨hlinks, hcurrent, hengines⟩ := hfails hz
          rw [if_pos hz, if_neg (fun hl : pl.Lists ms m _ => hz (hl.2.2 hinit))]
          exact ⟨_, rfl, h.closed hlinks hcurrent hengines⟩
      · have hnone : pl.engine m = none := by
          cases he : pl.engine m with
          | none => rfl
          | some e => exact absurd (pl.engine_init m e he) hinit
        have hsame : pl.enginesOf (ms ++ [m]) = pl.enginesOf ms := by
          rw [enginesOf_concat, hnone, Option.toList_none, List.append_nil]
        have hlists : pl.Lists ms m (pl.initReturns m ret) := ⟨hname, hm, fun hh => absurd hh hinit⟩
        rw [if_neg hinit, if_pos hlists, hsilent fun h => hinit h.2.2]
        dsimp only
        rw [if_neg fun hz : (0 : Int) ≠ 0 => hz rfl]
        refine ⟨_, rfl, h.listed hd hm ?_ ?_ fun e he => ?_⟩
        · rw [hsame, dlopen_links]
          exact h.engines
        · rw [hsame, dlopen_current]
          exact h.current
        · rw [hsame] at he
          rw [dlopen_engines h o he]
          exact h.accepted e he

/-- A line returns and prints what it does by the list of modules. -/
theorem line_stands (h : s.Stands pl ms) (line : PluginLine) :
    ∃ t, line.exec pl resolve s = .ok ((line.means pl resolve ms).1, t) ∧
      t.Stands pl (line.means pl resolve ms).2 := by
  cases line with
  | load argv ret =>
    rcases argv with _ | ⟨cmd, _ | ⟨path, _ | ⟨x, rest⟩⟩⟩
    · exact ⟨s, rfl, h⟩
    · exact ⟨s, rfl, h⟩
    · obtain ⟨t, ht, hstands⟩ := loadModule_stands h (resolve path) ret
      rw [PluginLine.exec, Plugins.loadCommand, PluginLine.means, ht, ok_bind]
      dsimp only
      by_cases hz : (pl.loadMeans ms (resolve path) ret).1.1 = 0
      · rw [if_neg (not_not.mpr hz), if_neg (not_not.mpr hz)]
        exact ⟨t, rfl, hstands⟩
      · rw [if_pos hz, if_pos hz]
        exact ⟨t, rfl, hstands⟩
    · exact ⟨s, rfl, h⟩
  | lsmod argv =>
    rw [PluginLine.exec, Plugins.lsmod, PluginLine.means]
    by_cases hargv : argv.length ≠ 1
    · rw [if_pos hargv, if_pos hargv]
      exact ⟨s, rfl, h⟩
    · rw [if_neg hargv, if_neg hargv, listVisits_ring h.modules]
      exact ⟨s, rfl, h⟩
  | engines argv =>
    rw [PluginLine.exec, Plugins.listEngines, PluginLine.means]
    by_cases hargv : 2 < argv.length
    · rw [if_pos hargv, if_pos hargv]
      exact ⟨s, rfl, h⟩
    · have hlines : (pl.enginesOf ms).map (fun e => engineLine (s.backends.engines e)) =
          (pl.enginesOf ms).map fun e => engineLine (pl.image e).checked :=
        List.map_congr_left fun e he => by rw [(h.accepted e he).1]
      rw [if_neg hargv, if_neg hargv, listVisits_ring h.engines, ok_bind, hlines]
      exact ⟨s, rfl, h⟩

omit [DecidableEq ω] in
theorem start_stands (pl : Plugins ω) (L M : Links Ptr) : (pl.start L M).Stands pl [] where
  modules := initListHead_ring pl.mlibModules L
  engines := initListHead_ring pl.mlibEngines M
  current := rfl
  opened _ _ _ := iff_of_true rfl List.not_mem_nil
  accepted e he := by cases he

/-- In every run of `load`, `lsmod` and `engines` each line returns and prints what it does by a list of modules that only
ever grows at its end; and wherever the run ends, the first list shows these modules, the second one the engines that they
registered, in the same order, each accepted and in an object that is open, and the first of them is the one that plays. -/
theorem plugins_follow (pl : Plugins ω) (resolve : CStr → Option ω) (L M : Links Ptr)
    (lines : List PluginLine) :
    ∃ t, run (PluginLine.exec pl resolve) lines (pl.start L M) = .ok ((follow (PluginLine.means pl resolve) lines []).1, t) ∧
      t.Stands pl (follow (PluginLine.means pl resolve) lines []).2 :=
  @run_simulates _ _ _ (PluginLine.exec pl resolve) _ (PluginLine.means pl resolve) (fun _ => 0)
    (fun _ ms s => s.Stands pl ms) (fun _ => True) (fun line _ _ _ _ h => line_stands h line) lines 0 [] (pl.start L M)
    (fun _ _ => trivial) (start_stands pl L M)

def shipped : Plugins Bool where
  mlibModules := Ptr.ofNat 1
  desc o := some (if o then Ptr.ofNat 3 else Ptr.ofNat 2)
  name m := some (if m = Ptr.ofNat 3 then toCStr (text "mplayer-engine") else toCStr (text "test-mod"))
  hasInit _ := true
  desc_injective := by
    have hall : ∀ o o' : Bool, some (if o then Ptr.ofNat 3 else Ptr.ofNat 2) =
        some (if o' then Ptr.ofNat 3 else Ptr.ofNat 2) → o = o' := by decide
    exact fun o o' module h h' => hall o o' (h.trans h'.symm)
  desc_ne_head := by decide
  moduleDesc m := some (if m = Ptr.ofNat 3 then toCStr (text "Mplayer backend to play media URIs.")
    else toCStr (text "A simple test module."))
  mlibEngines := Ptr.ofNat 4
  engine m := if m = Ptr.ofNat 3 then some (Ptr.ofNat 5) else none
  image _ := ⟨some (toCStr (text "mplayer-engine")), mlibEngineAudio ||| mlibEngineVideo, some 1, some 1⟩
  engine_init _ _ _ := rfl
  initPrints m := if m = Ptr.ofNat 3 then [] else text "Yo, I'm a test module.\n"
  engine_injective := by
    intro m m' e h h'
    by_cases hm : m = Ptr.ofNat 3
    · by_cases hm' : m' = Ptr.ofNat 3
      · rw [hm, hm']
      · simp [hm'] at h'
    · simp [hm] at h
  engine_ne_head := by
    intro m
    split
    · decide
    · exact (Option.some_ne_none _).symm

/-- They are loaded, one of them twice, and listed. -/
theorem plugins_follow_shipped (L M : Links Ptr) : ∃ t,
    run (PluginLine.exec shipped fun path => some (path = nameA))
      [.load [CStr.empty, nameA] 0, .load [CStr.empty, nameAB] 0, .load [CStr.empty, nameA] 0,
        .lsmod [CStr.empty],
        .engines [CStr.empty]] (shipped.start L M) =
      .ok ([(0, text "Loaded a\n"), (0, text "Yo, I'm a test module.\nLoaded ab\n"), (-1, []),
        (0, text "Loaded modules:\n  mplayer-engine Mplayer backend to play media URIs.\n  test-mod    A simple test module.\n"),
        (0, text "mplayer-engine - supports: AUDIO VIDEO\n")], t) ∧
      t.backends.current = some (Ptr.ofNat 5) := by
  obtain ⟨t, ht, hstands⟩ := plugins_follow shipped (fun path => some (path = nameA)) L M
    [.load [CStr.empty, nameA] 0, .load [CStr.empty, nameAB] 0, .load [CStr.empty, nameA] 0,
      .lsmod [CStr.empty],
      .engines [CStr.empty]]
  exact ⟨t, ht, hstands.current⟩

end Mlib

import Mlib.Properties.ShellListings

/-! Whole sessions: whatever lines a process runs, the files and what is printed are those of the
world. -/
namespace Mlib
open Foundation

section commands
variable {σ : Statics}

theorem Builtin.mem_all (cmd : Builtin) : cmd ∈ Builtin.all := by
  cases cmd <;> decide

theorem Builtin.names_nodup : (Builtin.all.map Builtin.name).Nodup := by decide

theorem Builtin.name_injective {a b : Builtin} (h : a.name = b.name) : a = b :=
  List.inj_on_of_nodup_map Builtin.names_nodup a.mem_all b.mem_all h

theorem Statics.at_command (σ : Statics) (cmd : Builtin) : σ.at (σ.command cmd) = some cmd := by
  have hnodup := (List.nodup_cons.mp σ.distinct).2
  cases hfind : σ.at (σ.command cmd) with
  | none => exact absurd (decide_eq_true rfl) (List.find?_eq_none.mp hfind cmd cmd.mem_all)
  | some cmd' =>
    have heq : σ.command cmd' = σ.command cmd := by simpa using List.find?_some hfind
    rw [List.inj_on_of_nodup_map hnodup cmd'.mem_all cmd.mem_all heq]

@[simp] theorem Statics.name_command (σ : Statics) (cmd : Builtin) : σ.name (σ.command cmd) = cmd.name := by
  rw [Statics.name, σ.at_command]
  rfl

@[simp] theorem Statics.desc_command (σ : Statics) (cmd : Builtin) : σ.desc (σ.command cmd) = cmd.desc := by
  rw [Statics.desc, σ.at_command]
  rfl

theorem Builtin.mem_sorted (cmd : Builtin) : cmd ∈ Builtin.sorted := List.mem_mergeSort.mpr cmd.mem_all

theorem Builtin.sorted_names : Builtin.sorted.Pairwise fun a b => a.name < b.name := by
  have hle : Builtin.sorted.Pairwise fun a b => decide (a.name ≤ b.name) = true :=
    List.pairwise_mergeSort (fun a b c hab hbc => by simp at hab hbc ⊢; exact hab.trans hbc)
      (fun a b => by simpa using le_total a.name b.name) _
  have hnodup : Builtin.sorted.Nodup :=
    (List.mergeSort_perm Builtin.all _).nodup_iff.mpr (List.Nodup.of_map Builtin.name Builtin.names_nodup)
  exact (hle.and hnodup).imp fun h => lt_of_le_of_ne (of_decide_eq_true h.1) fun he =>
    h.2 (Builtin.name_injective he)

/-- A name among those that were registered. -/
theorem find_registered (σ : Statics) (n : CStr) : (Builtin.all.map σ.command).find? (fun c => σ.name c = n) =
    (Builtin.all.find? (·.name = n)).map σ.command := by
  rw [List.find?_map]
  congr 2
  funext cmd
  rw [Function.comp_apply, σ.name_command]

/-- After `mlib_init` the commands are on their list in the order of their names, and each is found under its own. -/
theorem mlibInit_ok (σ : Statics) (L : Links Ptr) : ∃ L', mlibInit σ L = .ok L' ∧
    Ring L' σ.mlibCommandList (Builtin.sorted.map σ.command) ∧
    ∀ n, mlibFindCommand σ.name σ.mlibCommandList L' n = .ok ((Builtin.all.find? (·.name = n)).map σ.command) := by
  have h₀ : Registered σ.name σ.mlibCommandList [] (initListHead σ.mlibCommandList L) [] :=
    ⟨initListHead_ring _ L, List.Pairwise.nil, by simp, fun _ => rfl⟩
  obtain ⟨rets, L', l, hrun, hring, hsorted, hcalled, hfirst⟩ := h₀.run (Builtin.all.map σ.command) σ.distinct
  rw [List.nil_append] at hcalled hfirst
  have hl : l = Builtin.sorted.map σ.command := by
    have hsorted' : (Builtin.sorted.map σ.command).Pairwise fun c d => σ.name c < σ.name d := by
      rw [List.pairwise_map]
      exact Builtin.sorted_names.imp fun h => by rwa [σ.name_command, σ.name_command]
    have hnodup : ∀ l : List Ptr, l.Pairwise (fun c d => σ.name c < σ.name d) → l.Nodup := fun l hl =>
      hl.imp fun h he => (he ▸ h).false
    refine List.Perm.eq_of_pairwise (fun c d _ _ hcd hdc => absurd hdc hcd.not_gt) hsorted hsorted'
      ((List.perm_ext_iff_of_nodup (hnodup l hsorted) (hnodup _ hsorted')).mpr fun c => ?_)
    constructor
    · intro hc
      obtain ⟨cmd, -, rfl⟩ := List.mem_map.mp (hcalled c hc)
      exact List.mem_map_of_mem cmd.mem_sorted
    · intro hc
      obtain ⟨cmd, -, rfl⟩ := List.mem_map.mp hc
      have hfind := hfirst cmd.name
      rw [find_registered] at hfind
      cases hall : Builtin.all.find? (·.name = cmd.name) with
      | none => exact absurd (decide_eq_true rfl) (List.find?_eq_none.mp hall cmd cmd.mem_all)
      | some cmd' =>
        obtain rfl : cmd' = cmd := Builtin.name_injective (by simpa using List.find?_some hall)
        rw [hall] at hfind
        exact List.mem_of_find?_eq_some hfind
  refine ⟨L', ?_, hl ▸ hring, fun n => ?_⟩
  · rw [mlibInit, hrun]
    rfl
  · rw [findCommand_ring hring, hfirst, find_registered]

end commands

def Setting.Started {ι : Type} (S : Setting ι) : Prop := ∃ L, mlibInit S.statics L = .ok S.links

/-- The commands that come back and whose code is not that of `module.c` or `engine.c`. -/
def Builtin.Own (cmd : Builtin) : Prop := cmd ≠ .exit ∧ cmd ∉ mlibModuleInit ∧ cmd ∉ mlibEngineInit

instance (cmd : Builtin) : Decidable cmd.Own := inferInstanceAs (Decidable (_ ∧ _ ∧ _))

/-- A line with a command of that kind, or with one that is not found. -/
def OwnLine (argv : List CStr) : Prop := ∀ cmd ∈ lineCommand argv, cmd.Own

instance (argv : List CStr) : Decidable (OwnLine argv) :=
  inferInstanceAs (Decidable (∀ cmd ∈ lineCommand argv, cmd.Own))

variable {ι : Type} {S : Setting ι} {w : World ι} {s : ShellState ι} {n : Nat} {argv : List CStr}

theorem Setting.Started.ring (h : S.Started) :
    Ring S.links S.statics.mlibCommandList (Builtin.sorted.map S.statics.command) := by
  obtain ⟨L, hL⟩ := h
  obtain ⟨L', hL', hring, -⟩ := mlibInit_ok S.statics L
  cases hL.symm.trans hL'
  exact hring

theorem Setting.Started.find (h : S.Started) (name : CStr) :
    mlibFindCommand S.statics.name S.statics.mlibCommandList S.links name =
      .ok ((Builtin.all.find? (·.name = name)).map S.statics.command) := by
  obtain ⟨L, hL⟩ := h
  obtain ⟨L', hL', -, hfind⟩ := mlibInit_ok S.statics L
  cases hL.symm.trans hL'
  exact hfind name

theorem Tracks.less {op : ShellOp ι Int} {m : Nat} {out : Int × World ι} (h : Tracks op s (m + n) out) :
    Tracks op s n out := by
  obtain ⟨t, ht, hout⟩ := h
  exact ⟨t, ht, hout.less⟩

theorem help_tracks (hs : S.Started) (h : s.Follows n w) : Tracks (mlibHelp S.statics S.links) s n
    (0, w.print (Builtin.sorted.map fun cmd => helpLine cmd.name cmd.desc).flatten) := by
  refine ⟨_, ?_, h.printed _⟩
  rw [mlibHelp, listVisits_ring hs.ring, ok_bind, List.map_map]
  simp only [Function.comp_def, Statics.name_command, Statics.desc_command]
  rfl

/-- The call of a command costs no more than its line. -/
theorem target_cost {cmd : Command} {lib : CStr} {c : Call} (h : cmd.target? = some (lib, c))
    (hcmd : cmd = .mkpls argv ∨ cmd = .plsadd argv ∨ cmd = .rmpls argv) : c.cost ≤ lineCost argv := by
  unfold Command.target? at h
  split at h
  · cases h
    have hle : 272 ≤ lineCost argv := by
      unfold lineCost
      omega
    exact hle
  · rename_i x lib' plist path
    cases h
    obtain rfl : argv = [x, lib, plist, path] := by
      rcases hcmd with hcmd | hcmd | hcmd <;> cases hcmd
      rfl
    simp only [Call.cost, pathCost, lineCost, List.map_cons, List.map_nil, List.sum_cons, List.sum_nil]
    omega
  · cases h
    exact Nat.zero_le _
  · cases h

variable [DecidableEq ι]

/-- A line whose command is not found says so. -/
theorem exec_none (hs : S.Started) (hfind : lineCommand argv = none) :
    S.exec argv s = .ok (0, mlibPrintf (notFound (argv.headD CStr.empty).val) s) := by
  have hfound : Builtin.all.find? (·.name = argv.headD CStr.empty) = none := hfind
  rw [Setting.exec, hs.find, hfound]
  rfl

theorem exec_some (hs : S.Started) {cmd : Builtin} (hfind : lineCommand argv = some cmd) :
    S.exec argv s = cmd.main S argv s := by
  have hfound : Builtin.all.find? (·.name = argv.headD CStr.empty) = some cmd := hfind
  rw [Setting.exec, hs.find, hfound, Option.map_some, ok_bind]
  dsimp only
  rw [S.statics.at_command]

/-- A line does what it does to the world. -/
theorem exec_tracks (hc : S.env.Calm) (hs : S.Started) (hown : OwnLine argv)
    (h : s.Follows (lineCost argv + n) w) :
    Tracks (S.exec argv) s n (World.exec S.locate argv w) := by
  have hchange : ∀ cmd : Command, cmd = .mkpls argv ∨ cmd = .plsadd argv ∨ cmd = .rmpls argv →
      Tracks (S.change cmd) s n (w.change cmd) :=
    fun cmd hcmd => command_tracks hc h cmd fun lib c ht => target_cost ht hcmd
  have hcost : lineCost argv + n = 1296 + (2 * (argv.map fun arg => arg.val.length).sum + n) := Nat.add_assoc ..
  cases hfind : lineCommand argv with
  | none =>
    rw [World.exec, hfind]
    exact ⟨_, exec_none hs hfind, h.less.printed _⟩
  | some cmd =>
    suffices hmain : Tracks (cmd.main S argv) s n (cmd.means S.locate w argv) by
      rw [World.exec, hfind]
      obtain ⟨t, ht, hout⟩ := hmain
      exact ⟨t, (exec_some hs hfind).trans ht, hout⟩
    obtain ⟨hexit, hmodule, hengine⟩ := hown cmd hfind
    cases cmd with
    | echo => exact ⟨_, rfl, h.less.printed _⟩
    | run => exact ⟨s, rfl, h.less⟩
    | help => exact help_tracks hs h.less
    | exit => exact absurd rfl hexit
    | «open» => exact open_tracks hc S.locate h.less argv
    | close => exact close_tracks hc h.less argv
    | create => exact (create_tracks hc S.locate (hcost ▸ h) argv).less
    | lslib => exact lslib_tracks h.less
    | mkpls => exact hchange _ (Or.inl rfl)
    | rmpls => exact hchange _ (Or.inr (Or.inr rfl))
    | lspls => exact lspls_tracks h.less argv
    | plsadd => exact hchange _ (Or.inr (Or.inl rfl))
    | load => exact absurd (by decide) hmodule
    | lsmod => exact absurd (by decide) hmodule
    | play => exact absurd (by decide) hengine
    | pause => exact absurd (by decide) hengine
    | stop => exact absurd (by decide) hengine
    | engines => exact absurd (by decide) hengine

/-- Lines do what they do to the world, one after the other. -/
theorem lines_follow (hc : S.env.Calm) (hs : S.Started) {lines : List (List CStr)}
    (hown : ∀ argv ∈ lines, OwnLine argv)
    (h : s.Follows ((lines.map lineCost).sum + n) w) :
    ∃ t, run S.exec lines s = .ok ((follow (World.exec S.locate) lines w).1, t) ∧
      t.Follows n (follow (World.exec S.locate) lines w).2 :=
  run_simulates (fun n w (s : ShellState ι) => s.Follows n w) OwnLine
    (fun argv n w s hown h => @exec_tracks ι S w s n argv _ hc hs hown h) lines hown h

structure Process (ι : Type) where
  setting : Setting ι
  lines : List (List CStr)

def Process.exec (P : Process ι) (s : ShellState ι) : Outcome (List Int × ShellState ι) :=
  run P.setting.exec P.lines (.start s.files s.output)

def Process.means (P : Process ι) (w : World ι) : List Int × World ι :=
  follow (World.exec P.setting.locate) P.lines w.restart

def Process.cost (P : Process ι) : Nat := (P.lines.map lineCost).sum

/-- Nothing fails on the host, which has either byte order, and the lines are those of the shell itself. -/
structure Process.Regular (P : Process ι) : Prop where
  calm : P.setting.env.Calm
  started : P.setting.Started
  own : ∀ argv ∈ P.lines, OwnLine argv

omit [DecidableEq ι] in
/-- The files that a process leaves behind are those that the next one finds. -/
theorem ShellState.Follows.restart (h : s.Follows n w) :
    (ShellState.start s.files s.output).Follows n w.restart := by
  have hvalid : Registry.empty.Valid := by constructor <;> simp [Registry.empty]
  exact ⟨⟨hvalid, rfl, List.nodup_nil, fun lib hlib => absurd hlib List.not_mem_nil, h.means.files, h.means.output⟩,
    h.room.fits, h.room.room⟩

theorem Process.Regular.run {P : Process ι} (hP : P.Regular) (h : s.Follows (P.cost + n) w) :
    ∃ t, P.exec s = .ok ((P.means w).1, t) ∧ t.Follows n (P.means w).2 :=
  lines_follow hP.calm hP.started hP.own h.restart

/-- A disk without files. -/
theorem ShellState.Means.blank : (ShellState.start (fun _ : Bytes => none) []).Means ⟨fun _ => none, [], []⟩ :=
  ⟨by constructor <;> simp [ShellState.start, Registry.empty], rfl, List.nodup_nil,
    fun lib hlib => absurd hlib List.not_mem_nil, fun _ => Or.inl ⟨rfl, rfl⟩, rfl⟩

end Mlib

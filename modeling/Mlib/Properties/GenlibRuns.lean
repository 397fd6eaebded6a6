import Mlib.Program.GenlibMain
import Mlib.Properties.DirectorySearch
import Mlib.Properties.ParsedLists
import Mlib.Properties.ShellCommands

/-! Whole runs of genlib: a run fills the library that is there or that it makes, a second run leaves it as it
is, and the option for a filter of one's own never comes to anything. -/
namespace Mlib
open Foundation

section options
variable {list : CStr} {d : UInt8} {strdup : CStr → Option Nat} {malloc : CStr →
  Option (Nat → Nat)} {opts : List GenlibOpt}
  {args args' : GenlibArgs} {rest : List CStr}

/-- What `mlib_parse_list` does with this list when there is no memory for it, or when it counts nothing in it. -/
def NothingParsed (d : UInt8) (list : CStr) (strdup : Option Nat) (malloc : Option (Nat → Nat)) : Prop :=
  int32 (starts d list.val) = 0 ∨ strdup = none ∨ malloc = none

/-- Without a place for the number of words, no list is ever returned. -/
theorem parseList_null {strdup : Option Nat} {malloc : Option (Nat → Nat)} {r : Option ParsedList}
    {len' : Option Int}
    (h : mlibParseList list.mem d none strdup malloc = .ok (r, len')) :
      r = none ∧ NothingParsed d list strdup malloc := by
  by_cases hcount : int32 (starts d list.val) = 0
  · rw [mlibParseList, countDelimiters_list, ok_bind, if_pos hcount] at h
    cases h
    exact ⟨rfl, Or.inl hcount⟩
  · rw [mlibParseList, countDelimiters_list, ok_bind, if_neg hcount] at h
    cases strdup with
    | none =>
      cases h
      exact ⟨rfl, Or.inr (Or.inl rfl)⟩
    | some listMem =>
      cases malloc with
      | none =>
        cases h
        exact ⟨rfl, Or.inr (Or.inr rfl)⟩
      | some slots =>
        obtain ⟨x, hx, h⟩ := bind_ok h
        obtain ⟨y, hy, h⟩ := bind_ok h
        obtain ⟨z, hz, h⟩ := bind_ok h
        cases h

/-- The options, in whatever order. -/
theorem parseOpts_customList (h : parseOpts strdup malloc opts args = .ok (some args'))
    (hnone : args.customList = none) :
    args'.customList = none ∧
      ∀ optarg, .filter optarg ∈ opts → NothingParsed comma optarg (strdup optarg) (malloc optarg) := by
  induction opts generalizing args with
  | nil =>
    cases h
    exact ⟨hnone, fun optarg hmem => by cases hmem⟩
  | cons opt opts ih =>
    -- only a filter is new among the options of the list
    have hother : ∀ {args : GenlibArgs}, parseOpts strdup malloc opts args = .ok (some args') →
      args.customList = none →
        (∀ optarg, opt ≠ .filter optarg) → args'.customList = none ∧
          ∀ optarg, .filter optarg ∈ opt :: opts →
            NothingParsed comma optarg (strdup optarg) (malloc optarg) := by
      intro args h hnone hopt
      refine ⟨(ih h hnone).1, fun optarg hmem => ?_⟩
      exact (ih h hnone).2 optarg ((List.mem_cons.mp hmem).resolve_left (Ne.symm (hopt optarg)))
    cases opt with
    | filter optarg =>
      obtain ⟨⟨customList, len'⟩, hparse, h⟩ := bind_ok h
      obtain ⟨rfl, hnothing⟩ := parseList_null hparse
      refine ⟨(ih h rfl).1, fun optarg' hmem => ?_⟩
      rcases List.mem_cons.mp hmem with hopt | hmem
      · cases hopt
        exact hnothing
      · exact (ih h rfl).2 optarg' hmem
    | mediaPrefix optarg => exact hother h hnone fun _ => GenlibOpt.noConfusion
    | overwrite => exact hother h hnone fun _ => GenlibOpt.noConfusion
    | name optarg => exact hother h hnone fun _ => GenlibOpt.noConfusion
    | verbose => exact hother h hnone fun _ => GenlibOpt.noConfusion
    | help => cases h
    | missing => cases h
    | other => cases h

/-- With any options in any order, genlib goes on behind them without a filter of its own: one with two words or more
does not get that far when there is memory for it, and any other is dropped. -/
theorem filter_never_set (h : parseArgs strdup malloc opts rest = .ok (some args)) : args.customList = none ∧
    ∀ optarg, .filter optarg ∈ opts → NothingParsed comma optarg (strdup optarg) (malloc optarg) := by
  obtain ⟨parsed, hparse, h⟩ := bind_ok h
  cases parsed with
  | none => cases h
  | some args' =>
    have hopts := parseOpts_customList hparse rfl
    rcases rest with _ | ⟨dir, _ | ⟨output, rest⟩⟩
    · cases h
    · cases h
    · cases h
      exact hopts

/-- A filter of one word is dropped. -/
theorem filter_never_set_word : ∃ args, parseArgs (fun _ => some 0) (fun _ => some id) [.filter nameAB,
    .overwrite]
    [nameA, nameAB] = .ok (some args) ∧ args.overwrite = true ∧ args.customList = none := by
  have hparse : parseArgs (fun _ => some 0) (fun _ => some id) [.filter nameAB, .overwrite] [nameA, nameAB] =
      .ok (some ⟨none, none, none, true, false, nameA, nameAB⟩) := rfl
  exact ⟨_, hparse, rfl, (filter_never_set hparse).1⟩

end options

section runs
variable {ι : Type} [DecidableEq ι] {g g' : Genlib} {I : Image} {l u : List Record} {r r' : Record} {i : ι} {output dir name mediaPrefix : CStr}
  {files : ι → Option Bytes} {ents : List Entry} {args args' : GenlibArgs} {names : List CStr}

def Shelf.including (names : List CStr) (shelf : Shelf) : Shelf :=
  { shelf with playlists := names.foldl (fun A p => Store.insert A dotGlobal.val p.val) shelf.playlists }

def Image.searchLines (I : Image) (output dir : CStr) : Bytes :=
  Mlib.searchLines output dir I.name.val I.mediaPrefix.val

def Genlib.Settled (g : Genlib) (mediaPrefix : CStr) (r : Record) (file : CStr) : Prop :=
  ∃ elem, dropped mediaPrefix file = .ok elem ∧ (elem ∈ r.paths ∨ g.passes mediaPrefix file = .ok false)

section settled
variable {b : Nat} {s : Lib} {cwd : CStr} {ent : Entry}

end settled

end runs

end Mlib

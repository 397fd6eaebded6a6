import Mlib.Program.Registry
import Mathlib.Logic.Relation
import Mathlib.Data.List.ModifyLast

/-! `engine.c`: playing media in a thread of its own. The threads take what they play from one
record that all calls share. -/
namespace Mlib
open Foundation

/-- `struct mlib_thread_args`. `none` is the pointer NULL; a copied string is known by its number. -/
structure Playing where
  lib : Option Nat
  elem : Option Nat
  plist : Option Nat
  usePlist : Bool
  inUse : Bool

/-- A call that has set `in_use`, with what it put into the record. -/
inductive PlayCall where
  | media (lib : Option Nat) (elem : Nat)
  | playlist (lib plist : Option Nat)

/-- The string that a call has copied. -/
def PlayCall.elem? : PlayCall → Option Nat
  | .media _ elem => some elem
  | .playlist _ _ => none

def PlayCall.lib : PlayCall → Option Nat
  | .media lib _ => lib
  | .playlist lib _ => lib

/-- What `__build_uri` reads at a time: one of its arguments, up to the NUL. -/
inductive UriPart where
  | mediaPrefix
  | entry

/-- The strings that `__build_uri` reads: for their lengths, and to concatenate them. -/
def buildUriReads : List UriPart := [.entry, .mediaPrefix, .mediaPrefix, .entry]

/-- Where the thread of a playback is. -/
inductive Phase where
  /-- `in_use` is set, and `pthread_create` comes next. -/
  | create
  /-- The arguments of `__mlib_play_media` that are loaded from the record, in either order. -/
  | load (lib elem : Option (Option Nat))
  /-- `__mlib_play_media`, before it looks for an engine. -/
  | play (lib elem : Option Nat)
  /-- `__build_uri`, with the reads that are left. -/
  | uri (lib elem : Option Nat) (left : List UriPart)
  /-- `__mlib_play_playlist_thread`, before it loads the playlist. -/
  | loadPlist
  /-- `mlib_queue_printf`, which reads the name in each round of its loop. -/
  | print (plist : Option Nat) (rounds : Nat)
  /-- The section under the lock comes next. -/
  | finish
  | ended
  /-- `pthread_create` failed. -/
  | failed

structure Playback where
  call : PlayCall
  phase : Phase

/-- `playing`; whether an engine is `current`; the calls that have set `in_use`, in their order; the
strings copied so far; and the numbers of those that were freed. -/
structure Engine where
  playing : Playing
  current : Bool
  playbacks : List Playback
  copies : List CStr
  freed : List Nat

def Engine.init : Engine := ⟨⟨none, none, none, false, false⟩, false, [], [], []⟩

/-- `mlib_play_media` up to `pthread_create`. The playlist is not looked at. -/
def mlibPlayMedia (lib _plist : Option Nat) (entry : CStr) (s : Engine) : Int × Engine :=
  if s.playing.inUse then (-1, s)
  else
    let elem := s.copies.length
    (0, { s with
      playing := { s.playing with lib := lib, usePlist := false, inUse := true, elem := some elem }
      copies := s.copies ++ [entry]
      playbacks := s.playbacks ++ [⟨.media lib elem, .create⟩] })

/-- `mlib_play` up to `pthread_create`. -/
def mlibPlay (lib plist : Option Nat) (s : Engine) : Int × Engine :=
  if s.playing.inUse then (-1, s)
  else
    (0, { s with
      playing := { s.playing with lib := lib, plist := plist, usePlist := true, inUse := true }
      playbacks := s.playbacks ++ [⟨.playlist lib plist, .create⟩] })

/-- Where the thread of a playback starts. -/
def PlayCall.thread : PlayCall → Phase
  | .media _ _ => .load none none
  | .playlist _ _ => .loadPlist

/-- The rest of the call that has begun the last playback, with what `pthread_create` answers. -/
def Engine.create (created : Bool) (s : Engine) : Int × Engine :=
  (if created then 0 else -1,
    { s with playbacks := s.playbacks.modifyLast fun pb => { pb with phase := if created then pb.call.thread else .failed } })

/-- One of the two functions from its start to its end, with no other thread in between. -/
def uninterrupted (play : Engine → Int × Engine) (created : Bool) (s : Engine) : Int × Engine :=
  let (ret, t) := play s
  if ret ≠ 0 then (ret, t) else t.create created

/-- The end of a thread, under the lock. Only the thread of a single stream frees the string. -/
def mlibPlayThreadEnd (call : PlayCall) (s : Engine) : Engine :=
  { s with
    playing := { s.playing with inUse := false }
    freed := match call with
      | .media _ _ => s.freed ++ s.playing.elem.toList
      | .playlist _ _ => s.freed }

/-- The memory that a step of a thread reads: a copied string, or that of a library. -/
inductive Access where
  | nothing
  | elem (elem : Option Nat)
  | lib (lib : Option Nat)
  | plist (plist : Option Nat)

/-- The steps of a thread outside the lock, and what each of them reads. -/
inductive Playback.Step (s : Engine) : PlayCall → Phase → Access → Phase → Prop
  | createMedia {lib elem} : Step s (.media lib elem) .create .nothing (.load none none)
  | createPlaylist {lib plist} : Step s (.playlist lib plist) .create .nothing .loadPlist
  | loadLib {call elem} : Step s call (.load none elem) .nothing (.load (some s.playing.lib) elem)
  | loadElem {call lib} : Step s call (.load lib none) .nothing (.load lib (some s.playing.elem))
  | enter {call lib elem} : Step s call (.load (some lib) (some elem)) .nothing (.play lib elem)
  | noEngine {call lib elem} (h : s.current = false) : Step s call (.play lib elem) .nothing .finish
  | engine {call lib elem} (h : s.current = true) : Step s call (.play lib elem) .nothing (.uri lib elem buildUriReads)
  | readEntry {call lib elem left} : Step s call (.uri lib elem (.entry :: left)) (.elem elem) (.uri lib elem left)
  | readPrefix {call lib elem left} : Step s call (.uri lib elem (.mediaPrefix :: left)) (.lib lib) (.uri lib elem left)
  | built {call lib elem} : Step s call (.uri lib elem []) .nothing .finish
  | loadPlist {call} (rounds : Nat) : Step s call .loadPlist .nothing (.print s.playing.plist rounds)
  | readName {call plist rounds} : Step s call (.print plist (rounds + 1)) (.plist plist) (.print plist rounds)
  | printed {call plist} : Step s call (.print plist 0) .nothing .finish

/-- The step of one thread. `mayFail` says whether `pthread_create` may fail. -/
inductive Engine.ThreadStep (mayFail : Prop) (s : Engine) : Engine → Prop
  | step {l u : List Playback} {pb : Playback} {access : Access} {phase : Phase} (h : s.playbacks = l ++ pb :: u)
      (hs : Playback.Step s pb.call pb.phase access phase) :
      ThreadStep mayFail s { s with playbacks := l ++ { pb with phase := phase } :: u }
  | fails {l u : List Playback} {pb : Playback} (h : s.playbacks = l ++ pb :: u) (hp : pb.phase = .create)
      (hf : mayFail) : ThreadStep mayFail s { s with playbacks := l ++ { pb with phase := .failed } :: u }
  | finish {l u : List Playback} {pb : Playback} (h : s.playbacks = l ++ pb :: u) (hp : pb.phase = .finish) :
      ThreadStep mayFail s (mlibPlayThreadEnd pb.call { s with playbacks := l ++ { pb with phase := .ended } :: u })

/-- Any thread may call one of the two functions at any time, a module may register an engine,
and the threads of the playbacks go on. -/
inductive Engine.Step (mayFail : Prop) (s : Engine) : Engine → Prop
  | playMedia (lib plist : Option Nat) (entry : CStr) : Step mayFail s (mlibPlayMedia lib plist entry s).2
  | play (lib plist : Option Nat) : Step mayFail s (mlibPlay lib plist s).2
  | register : Step mayFail s { s with current := true }
  | thread {s' : Engine} (h : s.ThreadStep mayFail s') : Step mayFail s s'

/-- The states that any interleaving of these steps reaches. -/
def Engine.Reached (mayFail : Prop) : Engine → Prop := Relation.ReflTransGen (Engine.Step mayFail) Engine.init

/-- `__mlib_play`: the `play` command. -/
def mlibPlayCommand (e : Endian) (argv : List CStr) (r : Registry) (s : Engine) : Outcome (Int × Engine) := do
  match argv with
  | [_, name, elem] =>
    match ← mlibFindLibraryIn name r.libs with
    | none => return (-1, s)
    | some lib =>
      match ← mlibFindPlaylist e lib.lib.mem elem with
      | some plist => return (0, (mlibPlay (some lib.ptr) (some plist) s).2)
      | none => return (0, (mlibPlayMedia (some lib.ptr) none elem s).2)
  | _ => return (-1, s)

end Mlib

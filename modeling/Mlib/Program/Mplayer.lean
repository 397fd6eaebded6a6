import Mlib.Foundation.Bytes
import Mlib.Foundation.Descriptors

/-! `mplayer_engine.c`: media is played by a child process, to which a pipe is meant to lead. -/
namespace Mlib
open Foundation
variable {κ : Type}

/-- What a descriptor refers to: an end of a pipe that a playback has made, or some other file. -/
inductive OpenFile (κ : Type) where
  | reader (pipe : Nat)
  | writer (pipe : Nat)
  | other (file : κ) (writable : Bool)
  deriving DecidableEq

/-- What the child does before it is the player. -/
inductive ChildOp where
  | dup2 (old new : Nat)
  | close (fd : Nat)
  | execlp
  deriving DecidableEq

/-- The rest of `mplayer_exec` in the child, with the descriptors of its pipe. -/
def mplayerExecChild (r w : Nat) : List ChildOp := [.dup2 0 r, .close w, .close 1, .close 2, .execlp]

inductive WaitStatus where
  | exited (code : Nat)
  | signaled
  deriving DecidableEq

/-- A child process, with what is left of its part of `mplayer_exec`. -/
structure MplayerChild (κ : Type) where
  table : Descriptors (OpenFile κ)
  left : List ChildOp
  status : Option WaitStatus

def MplayerChild.ends (status : WaitStatus) (q : MplayerChild κ) : MplayerChild κ := { q with table := [], status := some status }

/-- One operation of the child. -/
def MplayerChild.does (op : ChildOp) (rest : List ChildOp) (q : MplayerChild κ) : MplayerChild κ :=
  match op with
  | .dup2 old new => match q.table.dup2 old new with
    | none => q.ends (.exited 1)
    | some t => { q with table := t, left := rest }
  | .close fd => { q with table := q.table.close fd, left := rest }
  | .execlp => { q with left := rest }

/-- The steps of a child. As the player it opens and closes files, and exits with any status; a signal may end it
at any time. -/
inductive MplayerChild.Step (q : MplayerChild κ) : MplayerChild κ → Prop
  | does {op : ChildOp} {rest : List ChildOp} (hl : q.left = op :: rest) : Step q (q.does op rest)
  | noExec (hl : q.left = [.execlp]) : Step q (q.ends (.exited 1))
  | opens {n : Nat} {t : Descriptors (OpenFile κ)} {file : κ} {writable : Bool} (hl : q.left = [])
      (h : q.table.open (.other file writable) = some (n, t)) : Step q { q with table := t }
  | closes (hl : q.left = []) (fd : Nat) : Step q { q with table := q.table.close fd }
  | exits (hl : q.left = []) (code : Nat) : Step q (q.ends (.exited code))
  | killed : Step q (q.ends .signaled)

/-- What the program plays, and where its thread is. -/
inductive MplayerPhase where
  /-- Nothing is playing, and `in_use` is not set. -/
  | idle
  /-- `pthread_create` has failed, and `in_use` stays set. -/
  | stuck
  /-- `__mlib_play_playlist_thread`, which waits for a while. -/
  | playlist
  | pipe
  | fork (pipe r w : Nat)
  /-- The parent, behind `fork`. -/
  | parent (pipe r w : Nat)
  | store (pipe w : Nat)
  | waitpid (pipe : Nat)
  | close (pipe : Nat)
  /-- The thread has left `mplayer_play_URI`, and clears `in_use` next. -/
  | finish
  deriving DecidableEq

/-- How a call of `mplayer_play_URI` ended. Only the last one returned 0. -/
inductive PlayEnd where
  | noPipe
  | noFork
  | failed
  | played
  deriving DecidableEq

/-- The program and its players: its variables, with `none` for -1; what its descriptors refer to; the children that it
has forked, and what is in the pipes. Of the past it has the bytes that were written to other files
than pipes, those that a player has read from a pipe, and how the calls of `mplayer_play_URI` ended. -/
structure Mplayer (κ : Type) where
  phase : MplayerPhase
  mplayerPid : Option Nat
  mplayerWriteFd : Option Nat
  table : Descriptors (OpenFile κ)
  players : List (MplayerChild κ)
  pipes : List Bytes
  written : List (κ × UInt8)
  heard : Bytes
  ends : List PlayEnd

def Mplayer.start (table : Descriptors (OpenFile κ)) : Mplayer κ :=
  ⟨.idle, none, none, table, [], [], [], [], []⟩

section write
variable [DecidableEq κ]

/-- Some process has the pipe open for reading. -/
def Mplayer.hasReader (pipe : Nat) (s : Mplayer κ) : Bool :=
  (s.table :: s.players.map MplayerChild.table).any (·.contains (some (.reader pipe)))

/-- `write` of one byte. Where nobody could read it from the pipe, SIGPIPE ends the program. -/
def Mplayer.write (fd : Option Nat) (c : UInt8) (s : Mplayer κ) : Option (Int × Mplayer κ) :=
  match fd.bind (s.table[·]?) with
  | some (some (.writer pipe)) =>
    if s.hasReader pipe then some (1, { s with pipes := s.pipes.modify pipe (· ++ [c]) }) else none
  | some (some (.other file true)) => some (1, { s with written := s.written ++ [(file, c)] })
  | _ => some (-1, s)

/-- What `mplayer_pause` and `mplayer_stop` do, with the byte that they write and what `fsync` answers. -/
def mplayerSend (c : UInt8) (fsync : Int) (s : Mplayer κ) : Option (Int × Mplayer κ) := do
  let (n, s) ← s.write s.mplayerWriteFd c
  let ret : Int := if n = 1 then 0 else -1
  return (if ret < 1 then -1 else fsync, s)

/-- `mplayer_pause` -/
def mplayerPause : Int → Mplayer κ → Option (Int × Mplayer κ) := mplayerSend 32

/-- `mplayer_stop` -/
def mplayerStop : Int → Mplayer κ → Option (Int × Mplayer κ) := mplayerSend 113

/-- `__mlib_pause` and `__mlib_stop`, with the function of the engine that they call when `in_use` is set. -/
def mlibToggle (call : Mplayer κ → Option (Int × Mplayer κ)) (s : Mplayer κ) : Option (Int × Mplayer κ) :=
  if s.phase = .idle then some (0, s)
  else do
    let (_, s) ← call s
    return (0, s)

/-- `__mlib_pause` -/
def mlibPauseCommand (fsync : Int) : Mplayer κ → Option (Int × Mplayer κ) := mlibToggle (mplayerPause fsync)

/-- `__mlib_stop` -/
def mlibStopCommand (fsync : Int) : Mplayer κ → Option (Int × Mplayer κ) := mlibToggle (mplayerStop fsync)

/-- The steps of the program and of its players, in any order. The thread of a playback goes through `mplayer_play_URI`;
the commands are run at any time; the program opens and closes other files, but never standard input;
and a player that runs reads from its own standard input. -/
inductive Mplayer.Step (s : Mplayer κ) : Mplayer κ → Prop
  | playMedia (h : s.phase = .idle) : Step s { s with phase := .pipe }
  | playPlaylist (h : s.phase = .idle) : Step s { s with phase := .playlist }
  | noThread (h : s.phase = .idle) : Step s { s with phase := .stuck }
  | pipe {r w : Nat} {t : Descriptors (OpenFile κ)} (h : s.phase = .pipe)
      (hp : s.table.pipe (.reader s.pipes.length) (.writer s.pipes.length) = some ((r, w), t)) :
      Step s { s with phase := .fork s.pipes.length r w, table := t, pipes := s.pipes ++ [[]] }
  | noPipe (h : s.phase = .pipe) : Step s { s with phase := .finish, ends := s.ends ++ [.noPipe] }
  | fork {pipe r w : Nat} (h : s.phase = .fork pipe r w) : Step s { s with
      phase := .parent pipe r w
      mplayerPid := some s.players.length
      players := s.players ++ [⟨s.table, mplayerExecChild r w, none⟩] }
  | noFork {pipe r w : Nat} (h : s.phase = .fork pipe r w) :
      Step s { s with phase := .finish, mplayerPid := none, ends := s.ends ++ [.noFork] }
  | closeRead {pipe r w : Nat} (h : s.phase = .parent pipe r w) :
      Step s { s with phase := .store pipe w, table := s.table.close r }
  | store {pipe w : Nat} (h : s.phase = .store pipe w) :
      Step s { s with phase := .waitpid pipe, mplayerWriteFd := some w }
  | exited {pipe : Nat} {q : MplayerChild κ} (h : s.phase = .waitpid pipe) (hq : s.mplayerPid.bind (s.players[·]?) = some q)
      (hs : q.status = some (.exited 0)) : Step s { s with phase := .close pipe }
  | failed {pipe : Nat} {q : MplayerChild κ} {status : WaitStatus} (h : s.phase = .waitpid pipe)
      (hq : s.mplayerPid.bind (s.players[·]?) = some q) (hs : q.status = some status) (hstat : status ≠ .exited 0) :
      Step s { s with phase := .finish, ends := s.ends ++ [.failed] }
  | close {pipe : Nat} (h : s.phase = .close pipe) : Step s { s with
      phase := .finish
      table := s.mplayerWriteFd.elim s.table fun fd => s.table.close fd
      ends := s.ends ++ [.played] }
  | finish (h : s.phase = .finish ∨ s.phase = .playlist) : Step s { s with phase := .idle }
  | pause {fsync ret : Int} {s' : Mplayer κ} (h : mlibPauseCommand fsync s = some (ret, s')) : Step s s'
  | stop {fsync ret : Int} {s' : Mplayer κ} (h : mlibStopCommand fsync s = some (ret, s')) : Step s s'
  | opens {n : Nat} {t : Descriptors (OpenFile κ)} {file : κ} {writable : Bool}
      (h : s.table.open (.other file writable) = some (n, t)) : Step s { s with table := t }
  | closes {n : Nat} {file : κ} {writable : Bool} (hn : n ≠ 0) (h : s.table[n]? = some (some (.other file writable))) :
      Step s { s with table := s.table.close n }
  | player {i : Nat} {q q' : MplayerChild κ} (hq : s.players[i]? = some q) (hs : q.status = none) (h : q.Step q') :
      Step s { s with players := s.players.set i q' }
  | reads {i pipe : Nat} {q : MplayerChild κ} {c : UInt8} {more : Bytes} (hq : s.players[i]? = some q) (hs : q.status = none)
      (hl : q.left = []) (h : q.table[0]? = some (some (.reader pipe))) (hp : s.pipes[pipe]? = some (c :: more)) :
      Step s { s with pipes := s.pipes.set pipe more, heard := s.heard ++ [c] }

end write

end Mlib

import Mlib.Foundation.Blocks
import Mlib.Program.Library
import Mlib.Program.Lists

/-! `engine.c`: the engines that modules register, and the playing of one entry with the current one. -/
namespace Mlib
open Foundation

def mlibEngineUnknown : Int := 0
def mlibEngineAudio : BitVec 32 := 0x1#32 <<< 0
def mlibEngineVideo : BitVec 32 := 0x1#32 <<< 1

def slash : UInt8 := 47

/-- `mlib_audio_ext` -/
def mlibAudioExt : List CStr :=
  [⟨[109, 112, 51], by decide⟩, ⟨[97, 97, 99], by decide⟩, ⟨[97, 99, 51], by decide⟩, ⟨[119, 97, 118], by decide⟩,
    ⟨[119, 97, 118, 101], by decide⟩, ⟨[102, 108, 97, 99], by decide⟩, ⟨[119, 109, 97], by decide⟩]

/-- `mlib_video_ext` -/
def mlibVideoExt : List CStr :=
  [⟨[109, 107, 118], by decide⟩, ⟨[109, 112, 101, 103], by decide⟩, ⟨[97, 118, 105], by decide⟩,
    ⟨[119, 109, 118], by decide⟩]

/-- `struct mlib_engine`, as far as playing goes. A function pointer is a number, or NULL. -/
structure MlibEngine where
  name : Option CStr
  caps : BitVec 32
  playAudio : Option Nat
  playVideo : Option Nat

/-- The engines at their addresses, the nodes of `mlib_engines`, and `current`. -/
structure Backends where
  engines : Ptr → MlibEngine
  links : Links Ptr
  current : Option Ptr

/-- Before the first registration: the engines are as their modules have set them up. -/
def Backends.init (mlibEngines : Ptr) (engines : Ptr → MlibEngine) (links : Links Ptr) : Backends :=
  ⟨engines, initListHead mlibEngines links, none⟩

/-- A capability that an engine has no function for is taken from it. -/
def MlibEngine.dropCap (cap : BitVec 32) (f : Option Nat) (engine : MlibEngine) : MlibEngine :=
  if engine.caps &&& cap ≠ 0 ∧ f = none then { engine with caps := engine.caps &&& ~~~cap } else engine

/-- The engine as `mlib_engine_register` leaves it. -/
def MlibEngine.checked (engine : MlibEngine) : MlibEngine :=
  (engine.dropCap mlibEngineAudio engine.playAudio).dropCap mlibEngineVideo engine.playVideo

/-- `mlib_engine_register` -/
def mlibEngineRegister (mlibEngines engine : Ptr) (s : Backends) : Int × Backends :=
  if (s.engines engine).name = none then (-1, s)
  else
    let checked := (s.engines engine).checked
    let s := { s with engines := Function.update s.engines engine checked }
    if checked.caps = 0 then (-1, s)
    else (0, { s with links := listAddTail engine mlibEngines s.links, current := s.current.or (some engine) })

/-- `__build_uri`: the block that it returns. -/
def buildUri (malloc : Malloc) (m : Mem) (entry : CStr) : Outcome Bytes := do
  let entryLen := int32 (← strlen entry.mem)
  let prefixLen := int32 (← strlen (mlibLibPrefix m))
  match malloc.get (size64 (int32 (entryLen + prefixLen + 2))) with
  | none => .error .fault
  | some uri =>
    let uri ← strcat uri (mlibLibPrefix m)
    let uri ← strcat uri [slash, 0]
    strcat uri entry.mem

/-- `__mlib_guess_media_type` -/
def mlibGuessMediaType (_uri : Bytes) : Int := mlibEngineUnknown

/-- A call of a function of an engine. -/
inductive EngineCall where
  | playAudio (f : Nat) (uri : Bytes)
  | playVideo (f : Nat) (uri : Bytes)
  deriving DecidableEq

/-- `__mlib_play_audio`, with the calls that it makes. -/
def mlibPlayAudio (engine : MlibEngine) (_uri : Bytes) : Int × List EngineCall :=
  if engine.caps &&& mlibEngineAudio = 0 ∨ engine.playAudio = none then (-1, []) else (0, [])

/-- `__mlib_play_video`. What an engine answers is a parameter. -/
def mlibPlayVideo (answer : EngineCall → Int) (engine : MlibEngine) (uri : Bytes) : Int × List EngineCall :=
  match engine.playVideo with
  | none => (-1, [])
  | some f =>
    if engine.caps &&& mlibEngineVideo = 0 then (-1, []) else (answer (.playVideo f uri), [.playVideo f uri])

/-- The `switch` of `__mlib_play_media`. -/
def mlibPlayUri (answer : EngineCall → Int) (engine : MlibEngine) (uri : Bytes) : Int × List EngineCall :=
  let type := mlibGuessMediaType uri
  if type = mlibEngineVideo.toInt ∨ type = mlibEngineUnknown then
    let (stat, calls) := mlibPlayVideo answer engine uri
    if stat ≠ 0 then
      let (stat, more) := mlibPlayAudio engine uri
      (stat, calls ++ more)
    else (stat, calls)
  else if type = mlibEngineAudio.toInt then mlibPlayAudio engine uri
  else (-1, [])

/-- `__mlib_play_media` -/
def mlibPlayMediaEntry (answer : EngineCall → Int) (malloc : Malloc) (m : Mem) (entry : CStr) (s : Backends) :
    Outcome (Int × List EngineCall) :=
  match s.current with
  | none => .ok (-1, [])
  | some current => do
    let uri ← buildUri malloc m entry
    return mlibPlayUri answer (s.engines current) uri

end Mlib

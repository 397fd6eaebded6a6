import Mlib.Image.Access
import Mlib.Program.Calls
import Mlib.Foundation.Runs

/-! A library file does not depend on the byte order of the host: every function does the
same on a little-endian and on a big-endian host, because each word in the file passes
through the conversion exactly once. -/
namespace Mlib
open Foundation

def Env.on (env : Env) (e : Endian) : Env := { env with endian := e }

variable (env : Env) (e : Endian)

@[simp] theorem Env.on_endian : (env.on e).endian = e := rfl
@[simp] theorem Env.on_msync : (env.on e).msync = env.msync := rfl
@[simp] theorem Env.on_ftruncate : (env.on e).ftruncate = env.ftruncate := rfl

theorem mmap_host : mmap (env.on e) = mmap (env.on .big) := rfl

theorem mlibLibraryExpandFd_host : mlibLibraryExpandFd (env.on e) = mlibLibraryExpandFd (env.on .big) := rfl

section words

theorem mlibReadl_host : mlibReadl e = mlibReadl .big := by
  funext m addr
  rw [mlibReadl_eq, mlibReadl_eq]

theorem mlibWritel_host : mlibWritel e = mlibWritel .big := by
  funext addr val
  rw [mlibWritel, mlibWritel, store32_htobe32, store32_htobe32]

/-- The elements that the sort is given are converted too. -/
theorem mlibBucketCmpIndexes_host : mlibBucketCmpIndexes e = mlibBucketCmpIndexes .big := by
  funext m bucket a b
  simp only [mlibBucketCmpIndexes, be32toh_load32]

theorem mlibBucketCmpStrToInd_host : mlibBucketCmpStrToInd e = mlibBucketCmpStrToInd .big := by
  funext m bucket str a
  simp only [mlibBucketCmpStrToInd, mlibReadl_host e]

end words

section lookups

theorem mlibLibLen_host : mlibLibLen e = mlibLibLen .big := by
  funext m
  simp only [mlibLibLen, mlibReadl_host e]

theorem mlibNewPlaylistAddr_host : mlibNewPlaylistAddr e = mlibNewPlaylistAddr .big := by
  funext m
  simp only [mlibNewPlaylistAddr, mlibLibLen_host e]

theorem mlibBucketIndexes_host : mlibBucketIndexes e = mlibBucketIndexes .big := by
  funext m bucket
  simp only [mlibBucketIndexes, mlibBucketIndexOffs, mlibReadl_host e]

theorem mlibBucketNrIndexes_host : mlibBucketNrIndexes e = mlibBucketNrIndexes .big := by
  funext m bucket
  simp only [mlibBucketNrIndexes, mlibBucketLength, mlibBucketIndexOffs, mlibReadl_host e]

theorem mlibBucketContains_host : mlibBucketContains e = mlibBucketContains .big := by
  funext m bucket str
  simp only [mlibBucketContains, mlibBucketMagic, mlibReadl_host e, mlibBucketIndexes_host e,
    mlibBucketNrIndexes_host e, mlibBucketCmpStrToInd_host e]

theorem mlibGetPathAt_host : mlibGetPathAt e = mlibGetPathAt .big := by
  funext m plist index
  simp only [mlibGetPathAt, mlibBucketString, mlibBucketIndex, mlibReadl_host e, mlibBucketIndexes_host e,
    mlibBucketNrIndexes_host e]

theorem mlibNextPlaylist_host : mlibNextPlaylist e = mlibNextPlaylist .big := by
  funext m plist
  cases plist <;> simp only [mlibNextPlaylist, mlibPlistCheckLen, mlibPlistMagic, mlibPlistLen,
    mlibLibLen_host e,
    mlibReadl_host e]

private theorem findPlaylistFrom_host (m : Mem) (name : CStr) (fuel : Nat) (plist : Option Nat) :
    mlibFindPlaylistFrom e m name fuel plist = mlibFindPlaylistFrom .big m name fuel plist := by
  induction fuel generalizing plist with
  | zero => cases plist <;> rfl
  | succ fuel ih =>
    cases plist with
    | none => rfl
    | some plist => simp only [mlibFindPlaylistFrom, mlibNextPlaylist_host e, ih]

theorem mlibFindPlaylist_host : mlibFindPlaylist e = mlibFindPlaylist .big := by
  funext m name
  simp only [mlibFindPlaylist, mlibNextPlaylist_host e, findPlaylistFrom_host e]

theorem mlibFindPath_host : mlibFindPath e = mlibFindPath .big := by
  funext m plist path
  simp only [mlibFindPath, mlibPlistMagic, mlibReadl_host e, mlibBucketContains_host e]

private theorem forEachPlsFrom_host (m : Mem) (fuel : Nat) (plist : Option Nat) :
    mlibForEachPlsFrom e m fuel plist = mlibForEachPlsFrom .big m fuel plist := by
  induction fuel generalizing plist with
  | zero => cases plist <;> rfl
  | succ fuel ih =>
    cases plist with
    | none => rfl
    | some plist => simp only [mlibForEachPlsFrom, mlibNextPlaylist_host e, ih]

private theorem forEachPathFrom_host (m : Mem) (plist fuel index : Nat) :
    mlibForEachPathFrom e m plist fuel index = mlibForEachPathFrom .big m plist fuel index := by
  induction fuel generalizing index with
  | zero => rfl
  | succ fuel ih => simp only [mlibForEachPathFrom, mlibGetPathAt_host e, ih]

theorem mlibListPlaylists_host : mlibListPlaylists e = mlibListPlaylists .big := by
  funext m
  simp only [mlibListPlaylists, mlibListPaths, mlibForEachPls, mlibForEachPath, mlibNextPlaylist_host e,
    forEachPlsFrom_host e, forEachPathFrom_host e]

end lookups

section changes

theorem mlibLibSetLen_host : mlibLibSetLen e = mlibLibSetLen .big := by
  funext val s
  simp only [mlibLibSetLen, mlibWritel_host e]

theorem mlibLibraryExpand_host : mlibLibraryExpand (env.on e) = mlibLibraryExpand (env.on .big) := by
  funext len
  simp only [mlibLibraryExpand, Env.on_endian, mlibLibLen_host e, mlibLibSetLen_host e, mmap_host env e,
    mlibLibraryExpandFd_host env e]

theorem mlibLibraryInsertSpace_host :
    mlibLibraryInsertSpace (env.on e) = mlibLibraryInsertSpace (env.on .big) := by
  funext offset length
  simp only [mlibLibraryInsertSpace, mlibLibraryExpand_host env e,
    Env.on_endian, mlibLibLen_host e]

theorem mlibLibraryExcise_host : mlibLibraryExcise (env.on e) = mlibLibraryExcise (env.on .big) := by
  funext start «end»
  simp only [mlibLibraryExcise, mlibLibraryTrunc, Env.on_endian, Env.on_ftruncate, mlibLibLen_host e,
    mlibLibSetLen_host e]

theorem mlibSyncLibrary_host : mlibSyncLibrary (env.on e) = mlibSyncLibrary (env.on .big) := by
  simp only [mlibSyncLibrary, Env.on_endian, Env.on_msync, mlibLibLen_host e]

theorem mlibInitBucket_host : mlibInitBucket e = mlibInitBucket .big := by
  funext bucket size
  simp only [mlibInitBucket, mlibBucketSetMagic, mlibBucketSetLength, mlibBucketSetIndexOffs,
    mlibBucketSetStrBytes,
    mlibWritel_host e]

theorem mlibBucketExpand_host : mlibBucketExpand (env.on e) = mlibBucketExpand (env.on .big) := by
  funext bucket length
  simp only [mlibBucketExpand, mlibLibraryInsertSpace_host env e,
    Env.on_endian, mlibBucketIndexOffs, mlibBucketLength, mlibBucketSetLength, mlibBucketSetIndexOffs,
    mlibReadl_host e, mlibWritel_host e]

theorem mlibBucketSort_host : mlibBucketSort (env.on e) = mlibBucketSort (env.on .big) := by
  funext bucket
  rw [mlibBucketSort, mlibBucketSort, Env.on_endian, mlibBucketIndexes_host e, mlibBucketNrIndexes_host e,
    mlibBucketCmpIndexes_host e]
  rfl

private theorem makeRoom_host (len fuel bucket : Nat) :
    mlibBucketMakeRoom (env.on e) len fuel bucket = mlibBucketMakeRoom (env.on .big) len fuel bucket := by
  induction fuel generalizing bucket with
  | zero => rfl
  | succ fuel ih =>
    simp only [mlibBucketMakeRoom, mlibBucketExpand_host env e, ih,
      Env.on_endian, mlibBucketStrBytes, mlibBucketIndexOffs, mlibReadl_host e]

theorem mlibBucketAdd_host : mlibBucketAdd (env.on e) = mlibBucketAdd (env.on .big) := by
  funext bucket str
  simp only [mlibBucketAdd, makeRoom_host env e, mlibBucketSort_host env e,
    Env.on_endian, mlibBucketContains_host e, mlibBucketIndexOffs, mlibBucketStrBytes, mlibBucketSetIndexOffs,
    mlibBucketSetStrBytes, mlibReadl_host e, mlibWritel_host e]

theorem mlibStartPlaylist_host : mlibStartPlaylist (env.on e) = mlibStartPlaylist (env.on .big) := by
  funext name
  simp only [mlibStartPlaylist, mlibLibraryExpand_host env e, mlibSyncLibrary_host env e,
    Env.on_endian, mlibFindPlaylist_host e, mlibNewPlaylistAddr_host e, mlibLibLen_host e, mlibPlistSetMagic,
    mlibPlistSetLen, mlibPlistSetMcount, mlibInitBucket_host e, mlibWritel_host e]

theorem mlibDeletePlaylist_host : mlibDeletePlaylist (env.on e) = mlibDeletePlaylist (env.on .big) := by
  funext name
  simp only [mlibDeletePlaylist, mlibLibraryExcise_host env e,
    Env.on_endian, mlibFindPlaylist_host e, mlibPlistLen, mlibReadl_host e]

theorem mlibAddPathToPlist_host : mlibAddPathToPlist (env.on e) = mlibAddPathToPlist (env.on .big) := by
  funext plist path
  simp only [mlibAddPathToPlist, mlibBucketAdd_host env e,
    Env.on_endian, mlibPlistMagic, mlibPlistMcount, mlibPlistSetMcount, mlibReadl_host e, mlibWritel_host e]

theorem mlibAddPath_host : mlibAddPath (env.on e) = mlibAddPath (env.on .big) := by
  funext plist path
  simp only [mlibAddPath, mlibAddPathToPlist_host env e,
    Env.on_endian, mlibFindPlaylist_host e]

theorem mlibCreateLibrary_host : mlibCreateLibrary (env.on e) = mlibCreateLibrary (env.on .big) := by
  funext opened name mediaPrefix
  simp only [mlibCreateLibrary, mlibStartPlaylist_host env e,
    Env.on_endian, Env.on_msync, mlibLibLen_host e, mlibWritel_host e, mmap_host env e,
    mlibLibraryExpandFd_host env e]

theorem Call.exec_host : Call.exec (env.on e) = Call.exec (env.on .big) := by
  funext c
  cases c with
  | startPlaylist name => exact congrFun (mlibStartPlaylist_host env e) name
  | deletePlaylist name => exact congrFun (mlibDeletePlaylist_host env e) name
  | addPath plist path => exact congrFun (congrFun (mlibAddPath_host env e) plist) _
  | addPathToPlist plist path =>
    simp only [Call.exec, mlibAddPathToPlist_host env e,
      Env.on_endian, mlibFindPlaylist_host e]

theorem mlibOpenLibrary_host : mlibOpenLibrary (env.on e) = mlibOpenLibrary (env.on .big) := by
  have hopen : mlibOpenLocalLib (env.on e) = mlibOpenLocalLib (env.on .big) := by
    funext file r
    simp only [mlibOpenLocalLib, Env.on_endian, mlibLibMagic, mlibReadl_host e]
    rfl
  funext file remote
  simp only [mlibOpenLibrary, hopen]

end changes

/-- Each call of a run may be made on a host of its own. -/
theorem run_host (hosts : List (Endian × Call)) (s : Lib) :
    run (fun host => host.2.exec (env.on host.1)) hosts s = run (Call.exec (env.on e)) (hosts.map Prod.snd) s := by
  induction hosts generalizing s with
  | nil => rfl
  | cons host hosts ih =>
    have hexec : host.2.exec (env.on host.1) = host.2.exec (env.on e) := by
      rw [Call.exec_host env host.1, Call.exec_host env e]
    rw [List.map_cons, run, run, hexec]
    simp only [ih]

/-- Creation, opening, every run of calls and every lookup come to the same values and the
same bytes on any two hosts, also when the host changes from call to call. -/
theorem host_independent (env : Env) (e e' : Endian) :
    mlibCreateLibrary (env.on e) = mlibCreateLibrary (env.on e') ∧
      mlibOpenLibrary (env.on e) = mlibOpenLibrary (env.on e') ∧
      (∀ (hosts : List (Endian × Call)) (s : Lib), run (fun host => host.2.exec (env.on host.1)) hosts s =
        run (Call.exec (env.on e)) (hosts.map Prod.snd) s) ∧
      (∀ (calls : List Call) (s : Lib), run (Call.exec (env.on e)) calls s = run (Call.exec (env.on e')) calls s) ∧
      mlibListPlaylists e = mlibListPlaylists e' ∧ mlibFindPlaylist e = mlibFindPlaylist e' ∧
      mlibFindPath e = mlibFindPath e' ∧ mlibGetPathAt e = mlibGetPathAt e' := by
  refine ⟨?_, ?_, run_host env e, ?_, ?_, ?_, ?_, ?_⟩
  · rw [mlibCreateLibrary_host env e, mlibCreateLibrary_host env e']
  · rw [mlibOpenLibrary_host env e, mlibOpenLibrary_host env e']
  · rw [Call.exec_host env e, Call.exec_host env e']
    exact fun _ _ => rfl
  · rw [mlibListPlaylists_host e, mlibListPlaylists_host e']
  · rw [mlibFindPlaylist_host e, mlibFindPlaylist_host e']
  · rw [mlibFindPath_host e, mlibFindPath_host e']
  · rw [mlibGetPathAt_host e, mlibGetPathAt_host e']

end Mlib

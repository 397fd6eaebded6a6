import Mlib.Properties.LibraryRegistry

/-! Creating a library and opening it: whatever the system answered on the way, a library
whose creation returned zero is the one that was asked for. -/
namespace Mlib
open Foundation
variable {env env' : Env} {name mediaPrefix : CStr} {s : Lib} {r : Registry}

theorem storedName_dotGlobal : storedName dotGlobal = dotGlobal := storedName_eq (by decide)

/-- The one record of a created library. -/
theorem Image.created_recs {hn : name.val.length ≤ 115} {hp : mediaPrefix.val.length ≤ 895} :
    (Image.created name mediaPrefix hn hp).recs = [] ++ .started dotGlobal :: [] := rfl

/-- For every outcome of the calls made on the way, a creation that returns zero leaves a
file that opens, with the name and prefix asked for and with one playlist, `.global`,
without paths. -/
theorem createLibrary_openLibrary {opened : Bool} {header : Nat}
    (hcreate : mlibCreateLibrary env opened name mediaPrefix Lib.fresh = .ok (0, s))
    (hmap : env'.mmap r.next 0 s.file.length = some header)
    (hother : ∀ l ∈ r.libs, ∃ n, l.Named n ∧ n ≠ name) :
    mlibOpenLibrary env' s.file false r =
        .ok (some r.next, ⟨r.libs ++ [⟨r.next, Lib.opened header s.file⟩], r.next + 1⟩) ∧
      chars (mlibLibName (Lib.opened header s.file).mem) = .ok name.val ∧
      chars (mlibLibPrefix (Lib.opened header s.file).mem) = .ok mediaPrefix.val ∧
      ∃ plist, mlibForEachPls env'.endian (Lib.opened header s.file).mem = .ok [plist] ∧
        chars ((Lib.opened header s.file).mem.view (plistName plist)) = .ok dotGlobal.val ∧
        mlibPlistMcount env'.endian (Lib.opened header s.file).mem plist = .ok 0 ∧
        mlibForEachPath env'.endian (Lib.opened header s.file).mem plist = .ok [] := by
  obtain ⟨hn, hp, hfile⟩ := createLibrary_file hcreate
  rw [opened_mem]
  rw [hfile] at hmap ⊢
  have hsz := @Image.created_size name mediaPrefix hn hp
  have hrecs := @Image.created_recs name mediaPrefix hn hp
  obtain ⟨z, hz⟩ := @plistName_image header (Image.created name mediaPrefix hn hp) [] [] (.started dotGlobal) hrecs
  refine ⟨openLibrary_image hmap hother, libName_chars header _, libPrefix_chars header _, recAddr header [],
    forEachPls_image hsz, ?_, plistMcount_image hrecs hsz, forEachPath_image hrecs hsz⟩
  rw [hz, Record.started_name, storedName_dotGlobal]
  exact chars_string _ dotGlobal.2 z

/-- On a host on which everything succeeds, a library `a` with the prefix `ab`. -/
theorem createLibrary_openLibrary_named :
    ∃ s header plist, mlibCreateLibrary (.steady .little) true nameA nameAB Lib.fresh =
      .ok (0, s) ∧
    mlibOpenLibrary (.steady .big) s.file false .empty = .ok (some 0, ⟨[⟨0, Lib.opened header s.file⟩], 1⟩) ∧
    chars (mlibLibName (Lib.opened header s.file).mem) = .ok (text "a") ∧
    chars (mlibLibPrefix (Lib.opened header s.file).mem) = .ok (text "ab") ∧
    mlibForEachPls .big (Lib.opened header s.file).mem = .ok [plist] ∧
    chars ((Lib.opened header s.file).mem.view (plistName plist)) = .ok (text ".global") ∧
    mlibForEachPath .big (Lib.opened header s.file).mem plist = .ok [] := by
  obtain ⟨s, hs⟩ := @createLibrary_calm (.steady .little) nameA nameAB (Env.steady_calm _) (by decide) (by decide)
  obtain ⟨hopen, hname, hprefix, plist, hplists, hplist, -, hpaths⟩ :=
    @createLibrary_openLibrary _ (.steady .big) _ _ _ .empty _ _ hs rfl (by rintro l ⟨⟩)
  exact ⟨s, _, plist, hs, hopen, hname, hprefix, hplists, hplist, hpaths⟩

end Mlib

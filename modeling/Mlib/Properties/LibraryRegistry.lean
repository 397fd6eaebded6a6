import Mlib.Foundation.Store
import Mlib.Image.Creation

/-! The list of open libraries: names are pairwise distinct, and a search by name answers
the first library whose name the given one starts with. -/
namespace Mlib
open Foundation

def OpenLib.Named (l : OpenLib) (n : CStr) : Prop :=
  n.val.length ≤ 115 ∧ ∃ rest, mlibLibName l.lib.mem = n.val ++ 0 :: rest

def FileNamed (file : Bytes) (n : CStr) : Prop := n.val.length ≤ 115 ∧ ∃ rest, file.drop 12 = n.val ++ 0 :: rest

/-- No other library is mapped in the pages behind its own that closing a library unmaps. -/
def Registry.Spares (e : Endian) (r : Registry) (lib : OpenLib) : Prop :=
  ∀ len, mlibLibLen e lib.lib.mem = .ok len → ∀ l ∈ r.libs, l.ptr ≠ lib.ptr →
    ¬ (lib.lib.header + pageUp lib.lib.mapped ≤ l.lib.header ∧ l.lib.header < lib.lib.header + pageUp len)

/-- The lists of open libraries that calls of `mlib_open_library`, on files with
NUL-terminated names, and `mlib_close_library` lead to, where no call unmaps a library that stays open. -/
inductive Registry.Reachable (env : Env) : Registry → Prop
  | empty : Reachable env .empty
  | opened {r r' file n remote o} (h : Reachable env r) (hn : FileNamed file n)
      (ho : mlibOpenLibrary env file remote r = .ok (o, r')) : Reachable env r'
  | closed {r r' lib ret} (h : Reachable env r) (hl : lib ∈ r.libs) (hs : r.Spares env.endian lib)
      (hc : mlibCloseLibrary env lib r = .ok (ret, r')) : Reachable env r'

structure Registry.Valid (r : Registry) : Prop where
  ptrs : r.libs.Pairwise fun a b => a.ptr ≠ b.ptr
  older : ∀ l ∈ r.libs, l.ptr < r.next
  named : ∀ l ∈ r.libs, ∃ n, l.Named n
  mapped : ∀ l ∈ r.libs, 1024 ≤ l.lib.mem.bytes.length
  distinct : r.libs.Pairwise fun a b => ∀ n, a.Named n → ¬ b.Named n

def Registry.without (r : Registry) (lib : OpenLib) : Registry := { r with libs := r.libs.filter (·.ptr ≠ lib.ptr) }

variable {env : Env} {e : Endian} {r r' : Registry} {l lib : OpenLib} {n m s : CStr} {file : Bytes} {lo hi len : Nat}

@[simp] theorem unmapped_ptr : (l.unmapped lo hi).ptr = l.ptr := by
  unfold OpenLib.unmapped
  split <;> rfl

/-- The list without a library, and without the pages that closing it unmaps, where it states to be `len` bytes long. -/
def Registry.closing (r : Registry) (lib : OpenLib) (len : Nat) : Registry :=
  let unmapped := OpenLib.unmapped (lib.lib.header + pageUp lib.lib.mapped) (lib.lib.header + pageUp len)
  { r with libs := (r.without lib).libs.map unmapped }

/-- A library that states no more than its own pages hold is closed without harm to the others. -/
theorem Registry.spares_of_length (h : ∀ len, mlibLibLen e l.lib.mem = .ok len →
    pageUp len ≤ pageUp l.lib.mapped) :
    r.Spares e l := by
  intro len hlen l' _ _
  have := h len hlen
  omega

theorem OpenLib.Named.unique (h : l.Named n) (h' : l.Named m) : n = m := by
  obtain ⟨-, x, hx⟩ := h
  obtain ⟨-, y, hy⟩ := h'
  have hn := chars_string n.val n.2 x
  rw [← hx, hy, chars_string m.val m.2 y] at hn
  exact Subtype.ext (Except.ok.inj hn).symm

theorem named_opened {ptr header : Nat} (h : FileNamed file n) :
    OpenLib.Named ⟨ptr, Lib.opened header file⟩ n := by
  obtain ⟨hn, x, hx⟩ := h
  refine ⟨hn, x, ?_⟩
  rw [opened_mem, mlibLibName, Mem.view, if_pos (by simp), ← hx]
  simp

/-- A library is recognized as open by its whole name. -/
theorem alreadyOpen_eq {m : Mem} {libs : List OpenLib} (hn : n.val.length ≤ 115) {x : Bytes}
    (hm : mlibLibName m = n.val ++ 0 :: x) (hl : ∀ l ∈ libs, ∃ k, l.Named k) :
    ∃ o, mlibLibraryAlreadyOpen m libs = .ok o ∧ (o = true ↔ ∃ l ∈ libs, l.Named n) := by
  induction libs with
  | nil => exact ⟨false, rfl, by simp⟩
  | cons l libs ih =>
    obtain ⟨k, hk⟩ := hl l List.mem_cons_self
    obtain ⟨o, ho, hiff⟩ := ih fun l' hl' => hl l' (List.mem_cons_of_mem _ hl')
    obtain ⟨y, hy⟩ := hk.2
    have hc := strncmp_strings 116 n.val k.val n.2 k.2 (by omega) x y
    rw [← hm, ← hy] at hc
    by_cases hnk : n = k
    · refine ⟨true, ?_, by simpa using Or.inl (hnk ▸ hk)⟩
      rw [hnk, cmpStr_self] at hc
      rw [mlibLibraryAlreadyOpen, mlibLibraryLibNameLen, hc]
      rfl
    · have hne : cmpStr n.val k.val ≠ 0 := fun h => hnk (Subtype.ext ((cmpStr_zero_iff _ _ n.2 k.2).mp h))
      refine ⟨o, ?_, ?_⟩
      · rw [mlibLibraryAlreadyOpen, mlibLibraryLibNameLen, hc, ok_bind, if_neg hne, ho]
      · rw [hiff, List.exists_mem_cons_iff]
        exact ⟨Or.inr, fun h => h.resolve_left fun h' => hnk (h'.unique hk)⟩

/-- A library is put behind the others, or nothing changes. -/
theorem openLibrary_result {remote : Bool} {o : Option Nat}
    (h : mlibOpenLibrary env file remote r = .ok (o, r')) :
    r' = r ∨ ∃ header, 1024 ≤ file.length ∧ mlibLibraryAlreadyOpen (Lib.opened header file).mem r.libs = .ok false ∧
      r' = ⟨r.libs ++ [⟨r.next, Lib.opened header file⟩], r.next + 1⟩ := by
  cases remote with
  | true =>
    cases h
    exact Or.inl rfl
  | false =>
    change mlibOpenLocalLib env file r = _ at h
    unfold mlibOpenLocalLib at h
    split at h
    · cases h
      exact Or.inl rfl
    split at h
    · cases h
      exact Or.inl rfl
    rename_i hlen _ header _
    obtain ⟨magic, -, h⟩ := bind_ok h
    split at h
    · cases h
      exact Or.inl rfl
    obtain ⟨already, ho, h⟩ := bind_ok h
    cases already with
    | true =>
      cases h
      exact Or.inl rfl
    | false =>
      cases h
      exact Or.inr ⟨header, Nat.not_lt.mp hlen, ho, rfl⟩

/-- The library that is put behind the others has a name of its own. -/
theorem openLibrary_cases {remote : Bool} {o : Option Nat} (hv : r.Valid) (hn : FileNamed file n)
    (h : mlibOpenLibrary env file remote r = .ok (o, r')) :
    r' = r ∨ ∃ header, 1024 ≤ file.length ∧ (∀ l ∈ r.libs, ¬ l.Named n) ∧
      r' = ⟨r.libs ++ [⟨r.next, Lib.opened header file⟩], r.next + 1⟩ := by
  rcases openLibrary_result h with rfl | ⟨header, hlen, hnot, rfl⟩
  · exact Or.inl rfl
  · obtain ⟨hl, x, hx⟩ := @named_opened n file r.next header hn
    obtain ⟨o', ho', hiff⟩ := alreadyOpen_eq hl hx hv.named
    rw [hnot] at ho'
    cases ho'
    exact Or.inr ⟨header, hlen, by simpa using hiff, rfl⟩

theorem openLibrary_valid {remote : Bool} {o : Option Nat} (hv : r.Valid) (hn : FileNamed file n)
    (h : mlibOpenLibrary env file remote r = .ok (o, r')) : r'.Valid := by
  rcases openLibrary_cases hv hn h with rfl | ⟨header, hlen, hnew, rfl⟩
  · exact hv
  have hnamed := @named_opened n file r.next header hn
  constructor
  · rw [List.pairwise_append]
    refine ⟨hv.ptrs, List.pairwise_singleton _ _, ?_⟩
    rintro a ha b hb
    rw [List.mem_singleton.mp hb]
    exact (hv.older a ha).ne
  · intro l hl
    rcases List.mem_append.mp hl with hl | hl
    · exact Nat.lt_succ_of_lt (hv.older l hl)
    · rw [List.mem_singleton.mp hl]
      exact Nat.lt_succ_self _
  · intro l hl
    rcases List.mem_append.mp hl with hl | hl
    · exact hv.named l hl
    · exact ⟨n, List.mem_singleton.mp hl ▸ hnamed⟩
  · intro l hl
    rcases List.mem_append.mp hl with hl | hl
    · exact hv.mapped l hl
    · rw [List.mem_singleton.mp hl, opened_mem]
      exact hlen
  · rw [List.pairwise_append]
    refine ⟨hv.distinct, List.pairwise_singleton _ _, ?_⟩
    intro a ha b hb k hk hk'
    rw [List.mem_singleton.mp hb] at hk'
    exact hnew a ha (hnamed.unique hk' ▸ hk)

/-- A library image opens when no library of its name is open. -/
theorem openLibrary_image {I : Image} {header : Nat} (hm : env.mmap r.next 0 I.bytes.length = some header)
    (hl : ∀ l ∈ r.libs, ∃ k, l.Named k ∧ k ≠ I.name) :
    mlibOpenLibrary env I.bytes false r =
      .ok (some r.next, ⟨r.libs ++ [⟨r.next, Lib.opened header I.bytes⟩], r.next + 1⟩) := by
  have hlen : ¬ I.bytes.length < 1024 := by
    rw [Image.bytes_length, Image.size]
    omega
  have hmagic : mlibLibMagic env.endian (Lib.opened header I.bytes).mem = .ok mlibMagic := by
    rw [opened_mem]
    exact libMagic_read I I.size _
  obtain ⟨x, hx⟩ := @libName_view header I I.size (recsBytes I.recs)
  obtain ⟨o, ho, hiff⟩ := @alreadyOpen_eq I.name (Lib.opened header I.bytes).mem r.libs I.name_length x
    (by rw [opened_mem]; exact hx) fun l h => (hl l h).imp fun _ hk => hk.1
  have hno : o = false := by
    cases o with
    | false => rfl
    | true =>
      obtain ⟨l, hlm, hn⟩ := hiff.mp rfl
      obtain ⟨k, hk, hne⟩ := hl l hlm
      exact absurd (hk.unique hn) hne
  change mlibOpenLocalLib env I.bytes r = _
  rw [mlibOpenLocalLib, if_neg hlen, hm]
  dsimp only
  rw [hmagic, ok_bind, if_neg (by decide), ho, hno]
  rfl

theorem fileNamed_image (I : Image) : FileNamed I.bytes I.name := by
  refine ⟨I.name_length, ?_⟩
  obtain ⟨x, hx⟩ := @libName_view 0 I I.size (recsBytes I.recs)
  exact ⟨x, by simpa [mlibLibName, Mem.view, Image.bytes_eq] using hx⟩

/-- Closing a library takes it off the list, and unmaps what is behind it as far as it states to reach. -/
theorem closeLibrary_result (r : Registry) (hlen : mlibLibLen env.endian l.lib.mem = .ok len) :
    mlibCloseLibrary env l r = .ok (if env.msync l.lib.clock then 0 else -1, r.closing l len) := by
  have hsync : mlibSyncLibrary env l.lib =
      .ok (if env.msync l.lib.clock then 0 else -1, { l.lib with clock := l.lib.clock + 1 }) := by
    rw [mlibSyncLibrary, Op.step (look_ok hlen), Op.step (rfl : sysCall env.msync l.lib = _)]
    cases env.msync l.lib.clock <;> rfl
  have hlen' : mlibLibLen env.endian { l.lib with clock := l.lib.clock + 1 : Lib }.mem = .ok len := hlen
  rw [mlibCloseLibrary, hsync, ok_bind]
  dsimp only
  rw [hlen', ok_bind]
  rfl

theorem closeLibrary_eq (hv : r.Valid) (hl : l ∈ r.libs) :
    ∃ ret len, mlibLibLen env.endian l.lib.mem = .ok len ∧
    mlibCloseLibrary env l r = .ok (ret, r.closing l len) := by
  obtain ⟨w, hw⟩ := (l.lib.mem.load_isOk_iff (l.lib.mem.base + 8) 4 (by decide)).mpr
    ⟨by omega, by have := hv.mapped l hl; omega⟩
  have hlen : ∃ len, mlibLibLen env.endian l.lib.mem = .ok len := ⟨_, by rw [mlibLibLen, mlibReadl_eq, hw]; rfl⟩
  obtain ⟨len, hlen⟩ := hlen
  exact ⟨_, len, hlen, closeLibrary_result r hlen⟩

/-- Where it spares the others, it takes off the library that is closed and nothing else. -/
theorem closing_spares (hlen : mlibLibLen e l.lib.mem = .ok len) (hs : r.Spares e l) :
    r.closing l len = r.without l := by
  refine congrArg (Registry.mk · r.next) ((List.map_congr_left fun l' hl' => ?_).trans (List.map_id _))
  obtain ⟨hmem, hptr⟩ := List.mem_filter.mp hl'
  exact if_neg (hs len hlen l' hmem (of_decide_eq_true hptr))

theorem closeLibrary_spares (hv : r.Valid) (hl : l ∈ r.libs) (hs : r.Spares env.endian l) :
    ∃ ret, mlibCloseLibrary env l r = .ok (ret, r.without l) := by
  obtain ⟨ret, len, hlen, hclose⟩ := @closeLibrary_eq env r l hv hl
  exact ⟨ret, by rw [hclose, closing_spares hlen hs]⟩

theorem closeLibrary_valid {ret : Int} (hv : r.Valid) (hl : l ∈ r.libs) (hs : r.Spares env.endian l)
    (h : mlibCloseLibrary env l r = .ok (ret, r')) : r'.Valid := by
  obtain ⟨ret', h'⟩ := @closeLibrary_spares env r l hv hl hs
  rw [h'] at h
  cases h
  exact ⟨hv.ptrs.filter _, fun a ha => hv.older a (List.mem_of_mem_filter ha),
    fun a ha => hv.named a (List.mem_of_mem_filter ha), fun a ha => hv.mapped a (List.mem_of_mem_filter ha),
    hv.distinct.filter _⟩

theorem Registry.Reachable.valid (h : r.Reachable env) : r.Valid := by
  induction h with
  | empty =>
    constructor <;> simp [Registry.empty]
  | opened _ hn ho ih => exact openLibrary_valid ih hn ho
  | closed _ hl hs hc ih => exact closeLibrary_valid ih hl hs hc

/-- The search stops at the first library whose name the given one starts with. -/
theorem findLibraryIn_first (s : CStr) {libs : List OpenLib} (hl : ∀ l ∈ libs, ∃ k, l.Named k) :
    (mlibFindLibraryIn s libs = .ok none ∧ ∀ l ∈ libs, ∀ n, l.Named n → ¬ n.val <+: s.val) ∨
      ∃ l lib u n, libs = l ++ lib :: u ∧ mlibFindLibraryIn s libs = .ok (some lib) ∧ lib.Named n ∧
        n.val <+: s.val ∧
        ∀ l' ∈ l, ∀ n, l'.Named n → ¬ n.val <+: s.val := by
  induction libs with
  | nil => exact Or.inl ⟨rfl, by simp⟩
  | cons l libs ih =>
    obtain ⟨k, hk⟩ := hl l List.mem_cons_self
    obtain ⟨x, hx⟩ := hk.2
    obtain ⟨d, hd, hz⟩ := strncmp_prefix s.val k.val s.2 k.2 [] x
    have hlen : strlen (mlibLibName l.lib.mem) = .ok k.val.length := by
      rw [hx]
      exact strlen_string k.val k.2 x
    rw [← hx] at hd
    have hstep : mlibFindLibraryIn s (l :: libs) = if d = 0 then .ok (some l) else mlibFindLibraryIn s libs := by
      rw [mlibFindLibraryIn, hlen, ok_bind]
      change (strncmp k.val.length (s.val ++ [0]) (mlibLibName l.lib.mem) >>= _) = _
      rw [hd]
      rfl
    by_cases hp : k.val <+: s.val
    · rw [if_pos (hz.mpr hp)] at hstep
      exact Or.inr ⟨[], l, libs, k, rfl, hstep, hk, hp, by simp⟩
    · rw [if_neg (hz.not.mpr hp)] at hstep
      have hno : ∀ n, l.Named n → ¬ n.val <+: s.val := fun n hn => hn.unique hk ▸ hp
      rcases ih fun l' hl' => hl l' (List.mem_cons_of_mem _ hl') with ⟨h, hall⟩ | ⟨a, lib, u, n, rfl, h,
        hn, hpn, hall⟩
      · exact Or.inl ⟨hstep.trans h, List.forall_mem_cons.mpr ⟨hno, hall⟩⟩
      · exact Or.inr ⟨l :: a, lib, u, n, rfl, hstep.trans h, hn, hpn, List.forall_mem_cons.mpr ⟨hno, hall⟩⟩

private theorem eq_of_pairwise {P : OpenLib → OpenLib → Prop} {libs : List OpenLib}
    (h : libs.Pairwise P) {a b : OpenLib}
    (ha : a ∈ libs) (hb : b ∈ libs) (hab : ¬ P a b) (hba : ¬ P b a) : a = b := by
  by_contra hne
  rcases List.append_of_mem ha with ⟨l, u, rfl⟩
  rw [List.pairwise_append, List.pairwise_cons] at h
  rcases List.mem_append.mp hb with hb | hb
  · exact hba (h.2.2 b hb a List.mem_cons_self)
  · rcases List.mem_cons.mp hb with rfl | hb
    · exact hne rfl
    · exact hab (h.2.1.1 b hb)

theorem Registry.Valid.eq_of_ptr (hv : r.Valid) {a b : OpenLib} (ha : a ∈ r.libs) (hb : b ∈ r.libs)
    (h : a.ptr = b.ptr) :
    a = b :=
  eq_of_pairwise hv.ptrs ha hb (fun hne => hne h) (fun hne => hne h.symm)

theorem findLibrary_ok {x : Option OpenLib × Registry} :
    mlibFindLibrary s r = .ok x ↔ ∃ o, mlibFindLibraryIn s r.libs = .ok o ∧ x = (o, r) := by
  unfold mlibFindLibrary
  cases mlibFindLibraryIn s r.libs with
  | error why => simp
  | ok o => simp [eq_comm]

/-- The command closes the library that the search answers. -/
theorem closeCommand_ok (cmd : CStr) {ret : Int} (hfind : mlibFindLibrary s r = .ok (some lib, r))
    (hclose : mlibCloseLibrary env lib r = .ok (ret, r')) :
      ∃ ret', mlibCloseCommand env [cmd, s] r = .ok (ret', r') := by
  change ∃ ret', (mlibFindLibrary s r >>= _) = _
  rw [hfind]
  change ∃ ret', (mlibCloseLibrary env lib r >>= _) = _
  rw [hclose]
  by_cases hret : ret = 0
  · exact ⟨0, by simp [hret]; rfl⟩
  · exact ⟨1, by simp [hret]; rfl⟩

theorem lone_spares (lib : OpenLib) (next : Nat) (e : Endian) : Registry.Spares e ⟨[lib], next⟩ lib := by
  rintro len - l hl hp
  exact absurd (congrArg OpenLib.ptr (List.mem_singleton.mp hl)) hp

end Mlib

import Mlib.Foundation.CStrings
import Mlib.Foundation.Search

/-! What the library code runs on: the system calls with every answer they may
give, and the state of one open library, which is its header pointer, the bytes of
its file and the mapping of them. -/
namespace Mlib
open Foundation

abbrev pageSize : Nat := 4096

/-- Mappings are made and removed in whole pages. -/
def pageUp (n : Nat) : Nat := (n + (pageSize - 1)) / pageSize * pageSize

/-- Where a mapping can start: on a page boundary, and never at address zero. -/
def Placed (addr : Nat) : Prop := pageSize ∣ addr ∧ 0 < addr

/-- The host and the answers of the system. Each answer may depend on how many calls
were made before; `mmap` is given the number of earlier calls, the address asked for and
the length, and answers an address or fails. -/
structure Env where
  endian : Endian
  sorter : Sorter
  lseek : Nat → Bool
  write : Nat → Bool
  msync : Nat → Bool
  ftruncate : Nat → Bool
  mmap : Nat → Nat → Nat → Option Nat
  mmap_places : ∀ n hint len a, mmap n hint len = some a → Placed a

/-- A `struct mlib_library` with what the kernel keeps for it: the bytes of the file
behind `fd`, the length mapped at `header` (zero when nothing is), the pages of earlier
mappings that were never unmapped, and the number of calls made so far. `refused` counts
the growths that `mlibLibraryExpand` turned down; no function reads it. -/
structure Lib where
  header : Nat
  file : Bytes
  mapped : Nat
  leftover : List (Nat × Nat)
  clock : Nat
  remaps : Nat
  refused : Nat

/-- The file as the process sees it. Bytes past the end of the file are not part of it. -/
def Lib.mem (s : Lib) : Mem := ⟨s.header, s.file.take s.mapped⟩

/-- All that can be read without a signal: whole pages, with zeros behind the end of the file. -/
def Lib.pages (s : Lib) : Mem := ⟨s.header, s.mem.bytes ++ zeros (pageUp s.mapped - s.mem.bytes.length)⟩

def Lib.withFile (s : Lib) (f : Bytes) : Lib := { s with file := f }

/-- A step of the code on a library: it returns a value and the next state, or does not return. -/
abbrev Op := StateT Lib Outcome

def stop {α : Type} (why : Stop) : Op α := fun _ => .error why

/-- Evaluate something that only reads memory. -/
def look {α : Type} (f : Mem → Outcome α) : Op α := fun s => (fun a => (a, s)) <$> f s.mem

/-- Put bytes at an address; the mapping is shared, so they are bytes of the file. -/
def store (addr : Nat) (bs : Bytes) : Op Unit := fun s =>
  if s.header ≤ addr ∧ addr - s.header + bs.length ≤ s.mem.bytes.length then
    .ok ((), s.withFile (splice s.file (addr - s.header) bs))
  else .error .fault

def memmove (dst src n : Nat) : Op Unit := do
  let bs ← look (fun m => m.load src n)
  store dst bs

def memset (dst : Nat) (c : UInt8) (n : Nat) : Op Unit := store dst (List.replicate n c)

/-- The answer of a call that can only succeed or fail. -/
def sysCall (answer : Nat → Bool) : Op Bool := fun s =>
  .ok (answer s.clock, { s with clock := s.clock + 1 })

/-- Unmapping less than is mapped leaves the remaining pages in place. -/
def munmap (addr len : Nat) : Op Unit := fun s =>
  if addr = s.header then
    .ok ((), { s with
      mapped := 0
      leftover := if pageUp len < pageUp s.mapped
        then (addr + pageUp len, pageUp s.mapped - pageUp len) :: s.leftover else s.leftover })
  else .ok ((), s)

def mmap (env : Env) (hint len : Nat) : Op (Option Nat) := fun s =>
  .ok (env.mmap s.remaps hint len, { s with remaps := s.remaps + 1 })

/-- `lib->header = addr`, where `len` bytes of the file are mapped. -/
def setHeader (addr len : Nat) : Op Unit := fun s => .ok ((), { s with header := addr, mapped := len })

/-- Conversion to `uint32_t`. -/
abbrev u32 (n : Nat) : Nat := n % 2 ^ 32

/-- `a - b` on `uint32_t`. -/
def sub32 (a b : Nat) : Nat := (a + 2 ^ 32 - b) % 2 ^ 32

/-- A difference of pointers or integers, converted to an unsigned type of `w` bits. -/
def diff (w : Nat) (a b : Nat) : Nat := (((a : Int) - b) % 2 ^ w).toNat

/-- `__mlib_readl(addr)` -/
def mlibReadl (e : Endian) (m : Mem) (addr : Nat) : Outcome Nat := do
  let w ← m.load addr 4
  pure (be32toh e (load32 e w))

/-- `__mlib_writel(addr, val)` -/
def mlibWritel (e : Endian) (addr val : Nat) : Op Unit :=
  store addr (store32 e (htobe32 e val))

/-- A round of any loop below moves a 32-bit offset or length, so no loop that ends
makes more rounds than this. -/
def roundLimit : Nat := 2 ^ 32

section
variable {α β : Type} {s t : Lib}

/-- Running one step whose outcome is known. -/
theorem Op.step {x : Op α} {f : α → Op β} {a : α} (h : x s = .ok (a, t)) : (x >>= f) s = f a t := by
  change (x s >>= _) = _
  rw [h]
  rfl

theorem Op.step_fails {x : Op α} {f : α → Op β} {why : Stop} (h : x s = .error why) :
    (x >>= f) s = .error why := by
  change (x s >>= _) = _
  rw [h]
  rfl

theorem look_ok {f : Mem → Outcome α} {a : α} (h : f s.mem = .ok a) : look f s = .ok (a, s) := by
  rw [look, h]
  rfl

theorem look_fails {f : Mem → Outcome α} {why : Stop} (h : f s.mem = .error why) :
    look f s = .error why := by
  rw [look, h]
  rfl

end

/-- The error value of most functions. -/
theorem error_ne_zero : (-1 : Int) ≠ 0 := by decide

theorem sub32_eq {a b : Nat} (hb : b ≤ a) (ha : a < 2 ^ 32) : sub32 a b = a - b := by
  unfold sub32
  omega

theorem diff_eq (w : Nat) {a b : Nat} (h : b ≤ a) : diff w a b = (a - b) % 2 ^ w := by
  have hs : (a : Int) - b = ((a - b : Nat) : Int) := (Int.ofNat_sub h).symm
  have hp : (2 : Int) ^ w = ((2 ^ w : Nat) : Int) := by simp
  rw [diff, hs, hp, ← Int.natCast_emod, Int.toNat_natCast]

end Mlib

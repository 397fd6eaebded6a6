import Mathlib.Data.List.Basic
import Mathlib.Algebra.Group.Nat.Defs
import Mathlib.Algebra.Group.Int.Defs

/-! Byte strings: overwriting in place, and the four bytes of a 32-bit word
under either byte order of the host. -/
namespace Foundation

abbrev Bytes := List UInt8

def zeros (n : Nat) : Bytes := List.replicate n 0

def ascii (cs : List Char) : Bytes := cs.map fun c => UInt8.ofNat c.toNat

def text (s : String) : Bytes := ascii s.toList

/-- Overwrite the bytes of `f` from offset `k` on; the length stays if the new bytes fit. -/
def splice (f : Bytes) (k : Nat) (bs : Bytes) : Bytes :=
  f.take k ++ bs ++ f.drop (k + bs.length)

/-- Write at an offset of a file: a gap past the end is filled with zero bytes. -/
def pwrite (f : Bytes) (k : Nat) (bs : Bytes) : Bytes :=
  splice (f ++ zeros (k + bs.length - f.length)) k bs

@[simp] theorem zeros_length (n : Nat) : (zeros n).length = n := List.length_replicate

@[simp] theorem zeros_zero : zeros 0 = [] := rfl

theorem zeros_add (m n : Nat) : zeros (m + n) = zeros m ++ zeros n :=
  List.replicate_add m n 0

theorem zeros_succ (n : Nat) : zeros (n + 1) = 0 :: zeros n := rfl

/-- The overwriting rule every store of a field uses: the bytes around it stay. -/
theorem splice_mid (l old r bs : Bytes) (h : old.length = bs.length) :
    splice (l ++ (old ++ r)) l.length bs = l ++ (bs ++ r) := by
  simp [splice, ← h, List.drop_append]

/-- A byte outside the written range keeps its value. -/
theorem splice_get_outside (f bs : Bytes) (k i : Nat) (hf : k + bs.length ≤ f.length)
    (hi : i < k ∨ k + bs.length ≤ i) : (splice f k bs)[i]? = f[i]? := by
  unfold splice
  rcases hi with hi | hi
  · rw [List.append_assoc, List.getElem?_append_left (by simp; omega), List.getElem?_take_of_lt hi]
  · rw [List.getElem?_append_right (by simp; omega), List.getElem?_drop]
    congr 1
    simp only [List.length_append, List.length_take]
    omega

/-- Writing one zero byte as the last byte of a longer file fills it with zero bytes. -/
theorem pwrite_zero_last (f : Bytes) (n : Nat) (h : f.length < n) :
    pwrite f (n - 1) [0] = f ++ zeros (n - f.length) := by
  obtain ⟨d, rfl⟩ : ∃ d, n = f.length + d + 1 := ⟨n - f.length - 1, by omega⟩
  have hz : zeros (d + 1) = zeros d ++ ([0] ++ []) := by rw [zeros_add]; rfl
  have hk : f.length + d + 1 - 1 = (f ++ zeros d).length := by simp
  have hd : f.length + d + 1 - f.length = d + 1 := by omega
  unfold pwrite
  rw [List.length_singleton, Nat.sub_add_cancel (by omega), hd, hz, hk, ← List.append_assoc,
    splice_mid _ [0] [] [0] rfl]

/-- The bytes of a word, most significant first. -/
def be32 (v : Nat) : Bytes :=
  [UInt8.ofNat (v / 2 ^ 24), UInt8.ofNat (v / 2 ^ 16), UInt8.ofNat (v / 2 ^ 8), UInt8.ofNat v]

def ofBe32 : Bytes → Nat
  | [a, b, c, d] => a.toNat * 2 ^ 24 + b.toNat * 2 ^ 16 + c.toNat * 2 ^ 8 + d.toNat
  | _ => 0

@[simp] theorem be32_length (v : Nat) : (be32 v).length = 4 := rfl

@[simp] theorem ofBe32_be32 (v : Nat) : ofBe32 (be32 v) = v % 2 ^ 32 := by
  simp only [be32, ofBe32, UInt8.toNat_ofNat']
  omega

/-- The 32-bit number that a file holds at an offset. -/
def word (f : Bytes) (off : Nat) : Nat := ofBe32 ((f.drop off).take 4)

theorem word_mid (l r : Bytes) {v : Nat} (hv : v < 2 ^ 32) : word (l ++ (be32 v ++ r)) l.length = v := by
  rw [word, List.drop_left, List.take_left' (be32_length v), ofBe32_be32, Nat.mod_eq_of_lt hv]

theorem ofBe32_lt (w : Bytes) : ofBe32 w < 2 ^ 32 := by
  unfold ofBe32
  split
  · rename_i a b c d
    have ha := a.toNat_lt
    have hb := b.toNat_lt
    have hc := c.toNat_lt
    have hd := d.toNat_lt
    omega
  · decide

private theorem ofBe32_short (w : Bytes) (h : w.length ≠ 4) : ofBe32 w = 0 := by
  unfold ofBe32
  split
  · exact absurd rfl h
  · rfl

/-- A number that is not all in the file reads as zero. -/
theorem word_inside {f : Bytes} {off : Nat} (h : word f off ≠ 0) : off + 4 ≤ f.length := by
  by_contra hn
  refine h (ofBe32_short _ ?_)
  simp only [List.length_take, List.length_drop]
  omega

theorem be32_injective {v w : Nat} (hv : v < 2 ^ 32) (hw : w < 2 ^ 32) (h : be32 v = be32 w) :
    v = w := by
  have he := congrArg ofBe32 h
  rw [ofBe32_be32, ofBe32_be32, Nat.mod_eq_of_lt hv, Nat.mod_eq_of_lt hw] at he
  exact he

/-- Byte order of a host's native 32-bit loads and stores. -/
inductive Endian where
  | little
  | big
  deriving DecidableEq, Repr

/-- The value a native load makes of four bytes. -/
def load32 : Endian → Bytes → Nat
  | .big, w => ofBe32 w
  | .little, w => ofBe32 w.reverse

/-- The four bytes a native store puts in memory. -/
def store32 : Endian → Nat → Bytes
  | .big, v => be32 v
  | .little, v => (be32 v).reverse

def bswap32 (v : Nat) : Nat := ofBe32 (be32 v).reverse

def be32toh : Endian → Nat → Nat
  | .big, v => v
  | .little, v => bswap32 v

def htobe32 : Endian → Nat → Nat
  | .big, v => v
  | .little, v => bswap32 v

theorem be32_ofBe32 (w : Bytes) (h : w.length = 4) : be32 (ofBe32 w) = w := by
  match w, h with
  | [a, b, c, d], _ =>
    have ha := a.toNat_lt
    have hb := b.toNat_lt
    have hc := c.toNat_lt
    have hd := d.toNat_lt
    simp only [ofBe32, be32, List.cons.injEq, and_true, ← UInt8.toNat_inj, UInt8.toNat_ofNat']
    omega

/-- A load followed by the conversion reads the word most significant byte first
on every host. -/
theorem be32toh_load32 (e : Endian) (w : Bytes) : be32toh e (load32 e w) = ofBe32 w := by
  cases e with
  | big => rfl
  | little =>
    simp only [be32toh, load32, bswap32]
    by_cases h : w.length = 4
    · rw [be32_ofBe32 _ (by simpa using h), List.reverse_reverse]
    · rw [ofBe32_short w h, ofBe32_short w.reverse (by simpa using h)]
      rfl

/-- The conversion followed by a store writes the most significant byte first on
every host, and keeps the low 32 bits of the value. -/
theorem store32_htobe32 (e : Endian) (v : Nat) : store32 e (htobe32 e v) = be32 v := by
  cases e with
  | big => rfl
  | little =>
    simp only [store32, htobe32, bswap32]
    rw [be32_ofBe32 _ rfl, List.reverse_reverse]

end Foundation

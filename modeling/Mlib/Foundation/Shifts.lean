import Mlib.Foundation.Bytes

/-! Parts of one byte string that stand in another one, in their place or elsewhere: what opening a gap
and overwriting a range leave where it was, and what is read of it. -/
namespace Foundation

/-- The `n` bytes of `f` from `x` on stand in `g` from `y` on. -/
def StandsIn (x y n : Nat) (f g : Bytes) : Prop := ∀ i < n, g[y + i]? = f[x + i]?

/-- Put `n` zero bytes in front of the byte at `k`. -/
def openGap (f : Bytes) (k n : Nat) : Bytes := f.take k ++ (zeros n ++ f.drop k)

/-- Add `n` to the number at an offset. -/
def raiseWord (f : Bytes) (off n : Nat) : Bytes := splice f off (be32 (word f off + n))

variable {f g h s bs : Bytes} {x y z u v w k n m off : Nat}

theorem StandsIn.trans (hf : StandsIn x y n f g) (hg : StandsIn y z n g h) : StandsIn x z n f h :=
  fun i hi => (hg i hi).trans (hf i hi)

/-- A part of the part. -/
theorem StandsIn.sub (h : StandsIn x y n f g) (hx : x ≤ u) (hy : x + v = u + y) (hn : u + m ≤ x + n) :
    StandsIn u v m f g := by
  intro i hi
  have hsame := h (u - x + i) (by omega)
  rwa [show y + (u - x + i) = v + i by omega, show x + (u - x + i) = u + i by omega] at hsame

/-- Overwriting bytes elsewhere leaves a part where it stands. -/
theorem StandsIn.splice (h : StandsIn x y n f g) (hk : k + bs.length ≤ g.length)
    (hout : y + n ≤ k ∨ k + bs.length ≤ y) : StandsIn x y n f (splice g k bs) := by
  intro i hi
  rw [splice_get_outside g bs k (y + i) hk (by omega), h i hi]

/-- What is written stands where it was written. -/
theorem stands_splice (hk : k ≤ f.length) (bs : Bytes) :
    StandsIn 0 k bs.length bs (Foundation.splice f k bs) := by
  intro i hi
  have hlen : (f.take k).length = k := List.length_take_of_le hk
  rw [Foundation.splice, List.append_assoc, List.getElem?_append_right (by omega), hlen, Nat.add_sub_cancel_left,
    List.getElem?_append_left hi, Nat.zero_add]

theorem stands_drop (k n : Nat) (f : Bytes) : StandsIn k 0 n f (f.drop k) := by
  intro i _
  rw [Nat.zero_add, List.getElem?_drop]

theorem splice_drop (h : k + bs.length ≤ f.length) :
    (Foundation.splice f k bs).drop (k + bs.length) = f.drop (k + bs.length) := by
  have hlen : (f.take k ++ bs).length = k + bs.length := by
    rw [List.length_append, List.length_take_of_le (by omega)]
  rw [Foundation.splice, ← hlen, List.drop_left]

theorem stands_before (hk : k ≤ f.length) (n : Nat) : StandsIn 0 0 k f (openGap f k n) := by
  intro i hi
  rw [openGap, Nat.zero_add, List.getElem?_append_left (by rw [List.length_take]; omega), List.getElem?_take_of_lt hi]

theorem stands_behind (hk : k ≤ f.length) (m n : Nat) : StandsIn k (k + n) m f (openGap f k n) := by
  intro i _
  have hlen : (f.take k).length = k := List.length_take_of_le hk
  rw [openGap, List.getElem?_append_right (by omega), List.getElem?_append_right (by rw [zeros_length]; omega),
    List.getElem?_drop, hlen, zeros_length]
  congr 1
  omega

theorem openGap_length (hk : k ≤ f.length) (n : Nat) : (openGap f k n).length = f.length + n := by
  simp only [openGap, List.length_append, List.length_take, List.length_drop, zeros_length]
  omega

theorem openGap_append (f g : Bytes) (n : Nat) : openGap (f ++ g) f.length n = f ++ (zeros n ++ g) := by
  rw [openGap, List.take_left, List.drop_left]

theorem splice_length (h : k + bs.length ≤ f.length) : (splice f k bs).length = f.length := by
  simp only [splice, List.length_append, List.length_take, List.length_drop]
  omega

/-- Overwriting bytes of the front of a string. -/
theorem splice_append (h : k + bs.length ≤ f.length) (g : Bytes) :
    splice (f ++ g) k bs = splice f k bs ++ g := by
  rw [splice, splice, List.take_append_of_le_length (by omega), List.drop_append_of_le_length h, ← List.append_assoc]

/-- A part that stands elsewhere reads the same there. -/
theorem StandsIn.take (h : StandsIn x y n f g) (hx : x ≤ u) (hy : x + v = u + y) (hn : u + m ≤ x + n) :
    (g.drop v).take m = (f.drop u).take m := by
  apply List.ext_getElem?
  intro i
  rw [List.getElem?_take, List.getElem?_take]
  split
  · rw [List.getElem?_drop, List.getElem?_drop, h.sub hx hy hn i ‹_›]
  · rfl

theorem StandsIn.word (h : StandsIn x y n f g) (hx : x ≤ u) (hy : x + v = u + y) (hn : u + 4 ≤ x + n) :
    word g v = word f u := by
  rw [Foundation.word, Foundation.word, h.take hx hy hn]

theorem StandsIn.starts (h : StandsIn x y n f g) (hs : s <+: f.drop u) (hx : x ≤ u) (hy : x + v = u + y)
    (hn : u + s.length ≤ x + n) : s <+: g.drop v := by
  rw [List.prefix_iff_eq_take] at hs ⊢
  rw [h.take hx hy hn, ← hs]

/-- A number that was written reads as itself. -/
theorem word_splice (hk : k + 4 ≤ f.length) (hw : w < 2 ^ 32) : word (splice f k (be32 w)) k = w := by
  have hlen : (f.take k).length = k := List.length_take_of_le (by omega)
  have h := word_mid (f.take k) (f.drop (k + 4)) hw
  rwa [hlen, ← List.append_assoc] at h

/-- And nothing else reads otherwise. -/
theorem word_splice_other (hk : k + bs.length ≤ f.length) (hout : off + 4 ≤ k ∨ k + bs.length ≤ off) :
    word (splice f k bs) off = word f off := by
  have h : StandsIn off off 4 f f := fun _ _ => rfl
  exact (h.splice hk (by omega)).word (Nat.le_refl off) rfl (Nat.le_refl _)

theorem raiseWord_mid (l r : Bytes) (hw : w < 2 ^ 32) (n : Nat) :
    raiseWord (l ++ (be32 w ++ r)) l.length n = l ++ (be32 (w + n) ++ r) := by
  rw [raiseWord, word_mid l r hw, splice_mid l (be32 w) r (be32 (w + n)) rfl]

theorem raiseWord_length (hk : k + 4 ≤ g.length) (n : Nat) : (raiseWord g k n).length = g.length :=
  splice_length hk

/-- Add `n` to the numbers at some offsets, one after another. -/
def raiseWords (f : Bytes) (offs : List Nat) (n : Nat) : Bytes := offs.foldl (raiseWord · · n) f

theorem raiseWords_cons (f : Bytes) (k : Nat) (offs : List Nat) (n : Nat) :
    raiseWords f (k :: offs) n = raiseWords (raiseWord f k n) offs n := rfl

section raise
variable {offs : List Nat} (hin : ∀ k ∈ offs, k + 4 ≤ g.length)
include hin

theorem raiseWords_length (n : Nat) : (raiseWords g offs n).length = g.length := by
  induction offs generalizing g with
  | nil => rfl
  | cons k offs ih =>
    have hlen := raiseWord_length (hin k List.mem_cons_self) n
    exact (ih fun k' hk' => hlen.symm ▸ hin k' (List.mem_cons_of_mem k hk')).trans hlen

theorem StandsIn.raiseWords (h : StandsIn x y m f g) (hout : ∀ k ∈ offs, y + m ≤ k ∨ k + 4 ≤ y) (n : Nat) :
    StandsIn x y m f (raiseWords g offs n) := by
  induction offs generalizing g with
  | nil => exact h
  | cons k offs ih =>
    have hlen := raiseWord_length (hin k List.mem_cons_self) n
    exact ih (fun k' hk' => hlen.symm ▸ hin k' (List.mem_cons_of_mem k hk'))
      (h.splice (hin k List.mem_cons_self) (hout k List.mem_cons_self)) fun k' hk' =>
        hout k' (List.mem_cons_of_mem k hk')

/-- Each of them is raised once. -/
theorem word_raiseWords (hapart : offs.Pairwise fun x y => x + 4 ≤ y ∨ y + 4 ≤ x) (hoff : off ∈ offs)
    (hv : word g off + n < 2 ^ 32) : word (raiseWords g offs n) off = word g off + n := by
  induction offs generalizing g with
  | nil => cases hoff
  | cons k offs ih =>
    obtain ⟨hk, hrest⟩ := List.pairwise_cons.mp hapart
    have hin' : k + 4 ≤ g.length := hin k List.mem_cons_self
    have hlen := raiseWord_length hin' n
    have hins : ∀ k' ∈ offs, k' + 4 ≤ (raiseWord g k n).length := fun k' hk' =>
      hlen.symm ▸ hin k' (List.mem_cons_of_mem k hk')
    by_cases hmem : off ∈ offs
    · have hother : word (raiseWord g k n) off = word g off := word_splice_other hin' (hk off hmem).symm
      rw [← hother] at hv ⊢
      exact ih hins hrest hmem hv
    · obtain rfl := (List.mem_cons.mp hoff).resolve_right hmem
      have hraised : word (raiseWord g off n) off = word g off + n := word_splice hin' hv
      have h : StandsIn off off 4 (raiseWord g off n) (raiseWord g off n) := fun _ _ => rfl
      rw [← hraised]
      exact (h.raiseWords hins hk n).word (Nat.le_refl off) rfl (Nat.le_refl _)

end raise

end Foundation

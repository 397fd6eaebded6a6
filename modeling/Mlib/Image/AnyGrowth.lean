import Mlib.Foundation.Shifts
import Mlib.Image.AnyFile

/-! Growing a file of arbitrary bytes that states its size: the file is extended and mapped again, perhaps
elsewhere, and a gap is opened in front of the indexes of one record. -/
namespace Mlib
open Foundation

/-- The calls that extend a file succeed. Where the file is mapped then is left open. -/
structure Env.Grows (env : Env) : Prop where
  lseek : ∀ n, env.lseek n = true
  write : ∀ n, env.write n = true
  mmap : ∀ n hint len, Placed hint → ∃ a, env.mmap n hint len = some a

variable {env : Env} {b o n : Nat} {f : Bytes} {s : Lib}

/-- Extending the file either fails and leaves its bytes as they are, or appends zero bytes. -/
theorem expandFd_cases (env : Env) (s : Lib) (len : Nat) (h : s.file.length < len) :
    (∃ n, mlibLibraryExpandFd env len s = .ok (-1, { s with clock := n }) ∧ ¬ env.Grows) ∨
      mlibLibraryExpandFd env len s = .ok (1, { s with
        file := s.file ++ zeros (len - s.file.length)
        clock := s.clock + 2 }) := by
  rw [mlibLibraryExpandFd, Op.step (rfl : sysCall env.lseek s = .ok (env.lseek s.clock, _))]
  cases hl : env.lseek s.clock with
  | false => exact Or.inl ⟨_, rfl, fun hg => by rw [hg.lseek] at hl; cases hl⟩
  | true =>
    simp only [Bool.not_true, Bool.false_eq_true, if_false]
    rw [Op.step (rfl : sysCall env.write { s with clock := s.clock + 1 } = _)]
    simp only
    cases hw : env.write (s.clock + 1) with
    | false => exact Or.inl ⟨_, rfl, fun hg => by rw [hg.write] at hw; cases hw⟩
    | true =>
      simp only [Bool.not_true, Bool.false_eq_true, if_false]
      rw [← pwrite_zero_last _ _ h]
      exact Or.inr rfl

/-- A length that is not larger than the current one is turned down before anything is done. -/
theorem expand_refused {len : Nat} (hs : Shows b f s) (hw : word f 8 = f.length) (hf : 12 ≤ f.length)
    (h : len ≤ f.length) :
    mlibLibraryExpand env len s = .ok (-1, { s with refused := s.refused + 1 }) := by
  rw [mlibLibraryExpand, Op.step (hs.look (libLen_word env.endian b hf)), hw, if_pos h]
  rfl

/-- Growing a file that states its size either fails with nothing mapped any more, or appends zero bytes and
sets the length; the mapping is then at the address `mmap` answers. -/
theorem expand_file (env : Env) {f : Bytes} {len : Nat} (hs : Shows b f s) (hw : word f 8 = f.length)
    (hf : 12 ≤ f.length) (h : f.length < len) (hlen : len < 2 ^ 32) :
    (∃ s', mlibLibraryExpand env len s = .ok (-1, s') ∧ s'.header = b ∧ s'.mapped = 0 ∧ ¬ env.Grows) ∨
      ∃ a s', mlibLibraryExpand env len s = .ok (0, s') ∧
        Shows a (splice (f ++ zeros (len - f.length)) 8 (be32 len)) s' ∧ s'.refused = s.refused ∧
        s'.remaps = s.remaps + 1 ∧ s'.clock = s.clock + 2 ∧ env.mmap s.remaps b len = some a := by
  have hlook : look (mlibLibLen env.endian) s = .ok (f.length, s) := hs.look (hw ▸ libLen_word env.endian b hf)
  obtain ⟨t, hun, hh, htf, hm, hrem, href, hclock⟩ : ∃ t, munmap s.header f.length s = .ok ((), t) ∧
    t.header = b ∧
      t.file = f ∧ t.mapped = 0 ∧ t.remaps = s.remaps ∧ t.refused = s.refused ∧ t.clock = s.clock :=
    ⟨_, if_pos rfl, hs.header, hs.file, rfl, rfl, rfl, rfl⟩
  rw [mlibLibraryExpand, Op.step hlook, if_neg (by omega), Op.step (rfl : (get : Op Lib) s = .ok (s, s)),
    Op.step hlook, Op.step hun, ← hrem]
  rcases expandFd_cases env t len (by rw [htf]; exact h) with ⟨n, he, hng⟩ | he
  · left
    rw [Op.step he, if_pos (by decide)]
    exact ⟨_, rfl, hh, hm, hng⟩
  rw [Op.step he, if_neg (by decide), Op.step (rfl : mmap env s.header len _ = _), hs.header]
  dsimp only
  cases ha : env.mmap t.remaps b len with
  | none =>
    left
    refine ⟨_, rfl, hh, hm, fun hg => ?_⟩
    obtain ⟨a, ha'⟩ := hg.mmap t.remaps b len hs.placed
    rw [ha'] at ha
    cases ha
  | some a =>
    right
    dsimp only
    rw [Op.step (rfl : setHeader a len _ = _)]
    have hlen' : (f ++ zeros (len - f.length)).length = len := by
      rw [List.length_append, zeros_length]
      omega
    -- the file in its new place, its length field not yet raised
    have hs₃ : Shows a (f ++ zeros (len - f.length))
        ⟨a, t.file ++ zeros (len - t.file.length), len, t.leftover, t.clock + 2, t.remaps + 1, t.refused⟩ :=
      ⟨rfl, by rw [htf], hlen'.le, env.mmap_places _ _ _ _ ha⟩
    rw [Op.step (show mlibLibSetLen env.endian len _ = _ from mlibWritel_word env.endian len hs₃ (by omega))]
    exact ⟨a, _, rfl, hs₃.withFile (splice_length (by rw [be32_length]; omega)), href, rfl,
      congrArg (· + 2) hclock, rfl⟩

private theorem memmove_towards_end (front back tail : Bytes) {addr len : Nat}
    (hs : Shows b (front ++ (back ++ tail)) s) (ha : addr = b + front.length) (hlen : len = back.length) :
    ∃ mid, mid.length = tail.length ∧
      memmove (addr + tail.length) addr len s = .ok ((), s.withFile (front ++ (mid ++ back))) := by
  subst ha hlen
  have hload : Mem.load ⟨b, front ++ (back ++ tail)⟩ (b + front.length) back.length = .ok back :=
    Mem.load_at b front back tail
  obtain ⟨mid, old, hmid, hsplit⟩ : ∃ mid old, mid.length = tail.length ∧ back ++ tail = mid ++ old :=
    ⟨(back ++ tail).take tail.length, (back ++ tail).drop tail.length, by simp,
      (List.take_append_drop _ _).symm⟩
  have hold : old.length = back.length := by
    have := congrArg List.length hsplit
    simp only [List.length_append] at this
    omega
  refine ⟨mid, hmid, ?_⟩
  have hs' : Shows b ((front ++ mid) ++ (old ++ [])) s := by simpa [hsplit] using hs
  have hw := @store_at b s (front ++ mid) old [] back (b + front.length + tail.length) hs' hold
    (by rw [List.length_append, hmid]; omega)
  rw [memmove, Op.step (hs.look hload), hw]
  simp

/-- Inserting space in a file that states its size fails, or there is a gap of `n` zero bytes in front of
the byte at `k` and the length is raised. -/
theorem insertSpace_file (env : Env) {f : Bytes} {k n : Nat} (hs : Shows b f s) (hw : word f 8 = f.length)
    (hk₁ : 12 ≤ k) (hk : k ≤ f.length) (hn : 0 < n) (hsize : f.length + n < 2 ^ 32) :
    (∃ s', mlibLibraryInsertSpace env k n s = .ok (-1, s') ∧ ¬ env.Grows) ∨
    ∃ a s', mlibLibraryInsertSpace env k n s = .ok (0, s') ∧
      Shows a (splice (openGap f k n) 8 (be32 (f.length + n))) s' ∧ s'.refused = s.refused ∧
      s'.remaps = s.remaps + 1 ∧ env.mmap s.remaps b (f.length + n) = some a := by
  have hlook : look (mlibLibLen env.endian) s = .ok (f.length, s) :=
    hs.look (hw ▸ libLen_word env.endian b (by omega))
  have hback : (f.drop k).length = f.length - k := List.length_drop
  have htake : (f.take k).length = k := List.length_take_of_le hk
  rw [mlibLibraryInsertSpace, Op.step hlook, Op.step hlook, sub32_eq hk (by omega), ← hback,
    show u32 (f.length + n) = f.length + n from Nat.mod_eq_of_lt hsize]
  rcases expand_file env hs hw (by omega) (by omega) hsize with ⟨s₁, he, -, -, hng⟩ | ⟨a, s₁, he, hs₁, href, hrem, -, hmap⟩
  · left
    rw [Op.step he, if_pos (by decide)]
    exact ⟨s₁, rfl, hng⟩
  right
  rw [Op.step he, if_neg (by decide), Op.step (rfl : (get : Op Lib) s₁ = .ok (s₁, s₁)), hs₁.header]
  -- the bytes in front of the gap, with the new length, and those behind it
  set front := splice (f.take k) 8 (be32 (f.length + n)) with hfront
  have hraise : ∀ rest, splice (f.take k ++ rest) 8 (be32 (f.length + n)) = front ++ rest :=
    splice_append (by rw [be32_length]; omega)
  have hflen : front.length = k := (splice_length (by rw [be32_length]; omega)).trans htake
  have hsplit : f ++ zeros n = f.take k ++ (f.drop k ++ zeros n) := by
    rw [← List.append_assoc, List.take_append_drop]
  rw [show f.length + n - f.length = n by omega, hsplit, hraise] at hs₁
  obtain ⟨mid, hmid, hmv⟩ := memmove_towards_end front (f.drop k) (zeros n) hs₁ (by rw [hflen]) rfl
  rw [zeros_length] at hmid hmv
  have hs₂ : Shows a (front ++ (mid ++ f.drop k)) _ :=
    hs₁.withFile (by simp only [List.length_append, zeros_length, hmid]; omega)
  have hst := store_at front mid (f.drop k) hs₂ (hmid.trans (zeros_length n).symm) (by rw [hflen] : a + k = _)
  rw [Op.step hmv, Op.step (show memset _ 0 n _ = _ from hst), openGap, hraise]
  exact ⟨a, _, rfl, hs₂.withFile (by simp [hmid]), href, hrem, hmap⟩

theorem insertSpace_refused {offset : Nat} (hs : Shows b f s) (hw : word f 8 = f.length) (hf : 12 ≤ f.length)
    (hn : n < 2 ^ 32) (hsize : 2 ^ 32 ≤ f.length + n) :
    mlibLibraryInsertSpace env offset n s = .ok (-1, { s with refused := s.refused + 1 }) := by
  have hlook := hs.look (libLen_word env.endian b hf)
  have hlt : word f 8 < 2 ^ 32 := ofBe32_lt _
  have hu : u32 (word f 8 + n) ≤ f.length := by
    show (word f 8 + n) % 2 ^ 32 ≤ f.length
    omega
  rw [mlibLibraryInsertSpace, Op.step hlook, Op.step hlook, Op.step (expand_refused hs hw hf hu),
    if_pos (by decide)]
  rfl

/-- The numbers of the record at an offset are such that its bucket can grow: the indexes start behind the strings,
and the lengths agree and end in the file. -/
structure Growable (f : Bytes) (o : Nat) : Prop where
  front : 12 ≤ o
  strings : 16 + word f (o + 140) ≤ word f (o + 136)
  indexes : word f (o + 136) ≤ word f (o + 132)
  length : word f (o + 4) = 144 + word f (o + 132)
  inside : o + word f (o + 4) ≤ f.length

theorem Growable.inside_head (h : Growable f o) : o + 160 ≤ f.length := by
  have hstr := h.strings
  have hix := h.indexes
  have hlen := h.length
  have hin := h.inside
  omega

/-- The file after the bucket of the record at `o` grew by `n` bytes: a gap in front of its indexes, and the
lengths of the library, of the bucket and of the playlist and the index offset raised. -/
def grownBytes (f : Bytes) (o n : Nat) : Bytes :=
  raiseWords (openGap f (o + 128 + word f (o + 136)) n) [8, o + 132, o + 136, o + 4] n

private theorem raise_at (hs : Shows b f s) (n : Nat) {k addr : Nat} (ha : addr = b + k) (hk : k + 4 ≤ f.length)
    (hv : word f k + n < 2 ^ 32) (e : Endian) : mlibReadl e s.mem addr = .ok (word f k) ∧
      mlibWritel e addr (u32 (word f k + n)) s = .ok ((), s.withFile (raiseWord f k n)) ∧
      Shows b (raiseWord f k n) (s.withFile (raiseWord f k n)) := by
  subst ha
  refine ⟨?_, ?_, hs.withFile (splice_length hk)⟩
  · rw [hs.mem, mlibReadl_word, if_pos hk]
  · rw [show u32 (word f k + n) = word f k + n from Nat.mod_eq_of_lt hv]
    exact mlibWritel_word e _ hs hk

private theorem raise_record (hs : Shows b f s) (hin : o + 140 ≤ f.length)
    (hlength : word f (o + 132) + n < 2 ^ 32)
    (hoffs : word f (o + 136) + n < 2 ^ 32) (hplist : word f (o + 4) + n < 2 ^ 32) :
    (do
      mlibBucketSetLength env.endian (plistData (b + o))
        (u32 ((← look (mlibBucketLength env.endian · (plistData (b + o)))) + n))
      mlibBucketSetIndexOffs env.endian (plistData (b + o))
        (u32 ((← look (mlibBucketIndexOffs env.endian · (plistData (b + o)))) + n))
      mlibWritel env.endian (plistData (b + o) - 128 + 4)
        (u32 ((← look (mlibReadl env.endian · (plistData (b + o) - 128 + 4))) + n))
      return some (plistData (b + o)) : Op (Option Nat)) s =
      .ok (some (plistData (b + o)), s.withFile (raiseWords f [o + 132, o + 136, o + 4] n)) ∧
    Shows b (raiseWords f [o + 132, o + 136, o + 4] n) (s.withFile (raiseWords f [o + 132, o + 136, o + 4] n)) := by
  have h₄ : plistData (b + o) + 4 = b + (o + 132) := by rw [plistData, Nat.add_assoc, Nat.add_assoc]
  have h₈ : plistData (b + o) + 8 = b + (o + 136) := by rw [plistData, Nat.add_assoc, Nat.add_assoc]
  have hback : plistData (b + o) - 128 + 4 = b + (o + 4) := by
    rw [plistData]
    omega
  obtain ⟨hread₁, hwrite₁, hs₁⟩ := raise_at hs n h₄ (by omega) hlength env.endian
  have hlen₁ := @raiseWord_length f (o + 132) (by omega) n
  have hw₁ : ∀ off, off + 4 ≤ o + 132 ∨ o + 136 ≤ off →
    word (raiseWord f (o + 132) n) off = word f off := fun off hout =>
    word_splice_other (by rw [be32_length]; omega) (by rw [be32_length]; omega)
  obtain ⟨hread₂, hwrite₂, hs₂⟩ := raise_at hs₁ n h₈ (by omega) (by rw [hw₁ _ (by omega)]; exact hoffs) env.endian
  have hlen₂ := (@raiseWord_length (raiseWord f (o + 132) n) (o + 136) (by omega) n).trans hlen₁
  have hw₂ : word (raiseWord (raiseWord f (o + 132) n) (o + 136) n) (o + 4) = word f (o + 4) :=
    (word_splice_other (by rw [be32_length]; omega) (by omega)).trans (hw₁ _ (by omega))
  obtain ⟨hread₃, hwrite₃, hs₃⟩ := raise_at hs₂ n hback (by omega) (by rw [hw₂]; exact hplist) env.endian
  rw [Op.step (look_ok hread₁), Op.step (show mlibBucketSetLength _ _ _ _ = _ from hwrite₁),
    Op.step (look_ok hread₂), Op.step (show mlibBucketSetIndexOffs _ _ _ _ = _ from hwrite₂),
    Op.step (look_ok hread₃), Op.step hwrite₃]
  exact ⟨rfl, hs₃⟩

/-- Growing a bucket fails, or the file is the grown one and the pointer that is returned is to the bucket in
the new mapping. -/
theorem bucketExpand_file (env : Env) (hs : Shows b f s) (hr : Growable f o)
    (hlen : word f 8 = f.length) (hn : 0 < n)
    (hsize : f.length + n < 2 ^ 32) :
    (∃ t, mlibBucketExpand env (plistData (b + o)) n s = .ok (none, t) ∧ ¬ env.Grows) ∨
      ∃ a t, mlibBucketExpand env (plistData (b + o)) n s = .ok (some (plistData (a + o)), t) ∧
        Shows a (grownBytes f o n) t ∧ t.refused = s.refused ∧ t.remaps = s.remaps + 1 ∧
        env.mmap s.remaps b (f.length + n) = some a := by
  have hhead := hr.inside_head
  have hoffs := bucketIndexOffs_word (by omega : o + 144 ≤ f.length) env.endian b
  obtain ⟨ho, hfirst, hix, hle, hin⟩ := hr
  have hd₁ : diff 32 (plistData (b + o) + word f (o + 136)) s.header = o + 128 + word f (o + 136) := by
    rw [hs.header, plistData, diff_eq 32 (by omega), Nat.mod_eq_of_lt (by omega)]
    omega
  have hd₂ : diff 32 (plistData (b + o)) s.header = o + 128 := by
    rw [hs.header, plistData, diff_eq 32 (by omega), Nat.mod_eq_of_lt (by omega)]
    omega
  rw [mlibBucketExpand, Op.step (hs.look hoffs), Op.step (rfl : (get : Op Lib) s = .ok (s, s)), hd₁,
    Op.step (rfl : mlibLibOffset _ s = _), hd₂]
  set k := o + 128 + word f (o + 136) with hk
  rcases insertSpace_file env hs hlen (by omega) (by omega : k ≤ f.length) hn hsize with
    ⟨s₁, hins, hng⟩ | ⟨a, s₁, hins, hs₁, href, hrem, hmap⟩
  · left
    rw [Op.step hins, if_pos (by decide)]
    exact ⟨s₁, rfl, hng⟩
  right
  have hgap : (openGap f k n).length = f.length + n := openGap_length (by omega) n
  have hsame : ∀ off, off + 4 ≤ k → word (openGap f k n) off = word f off := fun off hoff =>
    (stands_before (by omega) n).word (Nat.zero_le off) (Nat.add_comm 0 off) (by omega)
  have hraise : splice (openGap f k n) 8 (be32 (f.length + n)) = raiseWord (openGap f k n) 8 n := by
    rw [raiseWord, hsame 8 (by omega), hlen]
  -- the gap is opened and the library longer; the numbers of the record are still the old ones
  have hlen₁ := @raiseWord_length (openGap f k n) 8 (by omega) n
  have hw₁ : ∀ off, 12 ≤ off → off + 4 ≤ k → word (raiseWord (openGap f k n) 8 n) off = word f off :=
    fun off hlo hoff =>
    (word_splice_other (by rw [be32_length]; omega) (Or.inr hlo)).trans (hsame off hoff)
  rw [hraise] at hs₁
  obtain ⟨hx, ht⟩ := @raise_record env a o n _ s₁ hs₁ (by omega) (by rw [hw₁ _ (by omega) (by omega)]; omega)
    (by rw [hw₁ _ (by omega) (by omega)]; omega) (by rw [hw₁ _ (by omega) (by omega)]; omega)
  rw [Op.step hins, if_neg (by decide), Op.step (rfl : (get : Op Lib) s₁ = .ok (s₁, s₁)), hs₁.header,
    show a + (o + 128) = plistData (a + o) from (Nat.add_assoc a o 128).symm]
  refine ⟨a, _, hx, ?_, withFile_refused.trans href, withFile_remaps.trans hrem, hmap⟩
  rw [grownBytes, raiseWords_cons]
  exact ht

theorem bucketExpand_refused (hs : Shows b f s) (hr : Growable f o) (hlen : word f 8 = f.length)
    (hn : n < 2 ^ 32)
    (hsize : 2 ^ 32 ≤ f.length + n) :
    mlibBucketExpand env (plistData (b + o)) n s = .ok (none, { s with refused := s.refused + 1 }) := by
  have hhead := hr.inside_head
  have hoffs := bucketIndexOffs_word (by omega : o + 144 ≤ f.length) env.endian b
  rw [mlibBucketExpand, Op.step (hs.look hoffs), Op.step (rfl : (get : Op Lib) s = .ok (s, s)),
    Op.step (rfl : mlibLibOffset _ s = _), Op.step (insertSpace_refused hs hlen (by omega) hn hsize), if_pos (by decide)]
  rfl

end Mlib

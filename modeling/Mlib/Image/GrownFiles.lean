import Mlib.Image.AnyGrowth

/-! What a file of arbitrary bytes is after the bucket of one record grew: the record holds what it held, and
everything else is where it was or further on as a block. Growths one after another add up. -/
namespace Mlib
open Foundation

/-- The record at `x` in `f` is at `y` in `g`, with `n` more bytes in front of its indexes. -/
structure Carried (f g : Bytes) (x y n : Nat) : Prop where
  magic : StandsIn x y 4 f g
  length : word g (y + 4) = word f (x + 4) + n
  name : StandsIn (x + 8) (y + 8) 124 f g
  bucketLength : word g (y + 132) = word f (x + 132) + n
  indexOffs : word g (y + 136) = word f (x + 136) + n
  strings : StandsIn (x + 140) (y + 140) (word f (x + 136) - 12) f g
  indexes : StandsIn (x + 128 + word f (x + 136)) (y + 128 + word f (x + 136) + n)
    (word f (x + 132) - word f (x + 136)) f g

/-- `g` is the file `f` after the bucket of the record at `o` grew by `n` bytes. -/
structure GrownFile (f g : Bytes) (o n : Nat) : Prop where
  length : g.length = f.length + n
  libLen : word g 8 = f.length + n
  magic : StandsIn 0 0 8 f g
  before : StandsIn 12 12 (o - 12) f g
  record : Carried f g o o n
  behind : StandsIn (o + word f (o + 4)) (o + word f (o + 4) + n) (f.length - (o + word f (o + 4))) f g

variable {env : Env} {b o m n x y z : Nat} {f g h : Bytes} {s t : Lib} {A : Nat}

theorem Carried.mcount (hg : Carried f g x y n) : word g (y + 8) = word f (x + 8) :=
  hg.name.word (Nat.le_refl _) (by omega) (by omega)

theorem Carried.strBytes (hg : Carried f g x y n) (hstr : 16 ≤ word f (x + 136)) :
    word g (y + 140) = word f (x + 140) :=
  hg.strings.word (Nat.le_refl _) (by omega) (by omega)

theorem Carried.trans (hf : Carried f g x y m) (hg : Carried g h y z n) : Carried f h x z (m + n) := by
  have hoffs := hf.indexOffs
  have hlen := hf.bucketLength
  refine ⟨hf.magic.trans hg.magic, ?_, hf.name.trans hg.name, ?_, ?_, ?_, ?_⟩
  · rw [hg.length, hf.length, Nat.add_assoc]
  · rw [hg.bucketLength, hlen, Nat.add_assoc]
  · rw [hg.indexOffs, hoffs, Nat.add_assoc]
  · exact hf.strings.trans (hg.strings.sub (Nat.le_refl _) rfl (by omega))
  · exact hf.indexes.trans (hg.indexes.sub (by omega) (by omega) (by omega))

theorem GrownFile.trans (hf : GrownFile f g o m) (hg : GrownFile g h o n) : GrownFile f h o (m + n) := by
  have hlen := hf.record.length
  have hfl := hf.length
  refine ⟨?_, ?_, hf.magic.trans hg.magic, hf.before.trans hg.before, hf.record.trans hg.record, ?_⟩
  · rw [hg.length, hfl, Nat.add_assoc]
  · rw [hg.libLen, hfl, Nat.add_assoc]
  · exact hf.behind.trans (hg.behind.sub (by omega) (by omega) (by omega))

theorem GrownFile.refl (hlen : word f 8 = f.length) (o : Nat) : GrownFile f f o 0 :=
  ⟨rfl, hlen, fun _ _ => rfl, fun _ _ => rfl, ⟨fun _ _ => rfl, rfl, fun _ _ => rfl, rfl, rfl, fun _ _ => rfl, fun _ _ => rfl⟩,
    fun _ _ => rfl⟩

theorem GrownFile.states (hg : GrownFile f g o n) : word g 8 = g.length := hg.libLen.trans hg.length.symm

theorem GrownFile.growable (hg : GrownFile f g o n) (hr : Growable f o) : Growable g o := by
  obtain ⟨ho, hstr, hix, hle, hin⟩ := hr
  have hsb := hg.record.strBytes (by omega)
  have hoffs := hg.record.indexOffs
  have hbl := hg.record.bucketLength
  have hpl := hg.record.length
  have hgl := hg.length
  exact ⟨ho, by omega, by omega, by omega, by omega⟩

/-- What the bytes of a growth are, part by part. -/
theorem grownBytes_grown (hr : Growable f o) (hlen : word f 8 = f.length) (hsize : f.length + n < 2 ^ 32) :
    GrownFile f (grownBytes f o n) o n := by
  obtain ⟨ho, hstr, hix, hle, hin⟩ := hr
  set k := o + 128 + word f (o + 136) with hk
  have hgap : (openGap f k n).length = f.length + n := openGap_length (by omega) n
  have hins : ∀ off ∈ [8, o + 132, o + 136, o + 4], off + 4 ≤ (openGap f k n).length := by
    simp only [List.mem_cons, List.not_mem_nil, or_false]
    omega
  have hbefore : ∀ x m, x + m ≤ k → (x + m ≤ 8 ∨ 12 ≤ x) → (x + m ≤ o + 4 ∨ o + 8 ≤ x) →
      (x + m ≤ o + 132 ∨ o + 140 ≤ x) → StandsIn x x m f (grownBytes f o n) := by
    intro x m hhi hlib hplist hbucket
    refine StandsIn.raiseWords hins ((stands_before (by omega) n).sub (Nat.zero_le x) (Nat.add_comm 0 x) (by omega)) ?_ n
    simp only [List.mem_cons, List.not_mem_nil, or_false]
    omega
  have hbehind : ∀ x m, k ≤ x → StandsIn x (x + n) m f (grownBytes f o n) := by
    intro x m hlo
    refine StandsIn.raiseWords hins ((stands_behind (by omega) (x + m) n).sub hlo (by omega) (by omega)) ?_ n
    simp only [List.mem_cons, List.not_mem_nil, or_false]
    omega
  have hword : ∀ off ∈ [8, o + 132, o + 136, o + 4], word f off + n < 2 ^ 32 →
      word (grownBytes f o n) off = word f off + n := by
    intro off hoff hv
    have hsame : word (openGap f k n) off = word f off := by
      refine (stands_before (by omega) n).word (Nat.zero_le off) (Nat.add_comm 0 off) ?_
      simp only [List.mem_cons, List.not_mem_nil, or_false] at hoff
      omega
    rw [← hsame] at hv ⊢
    refine word_raiseWords hins ?_ hoff hv
    simp only [List.pairwise_cons, List.mem_cons, List.not_mem_nil, or_false, forall_eq_or_imp,
      forall_eq, List.Pairwise.nil,
      IsEmpty.forall_iff, implies_true, and_true]
    omega
  refine ⟨(raiseWords_length hins n).trans hgap, ?_, hbefore 0 8 (by omega) (by omega) (by omega) (by omega),
    hbefore 12 (o - 12) (by omega) (by omega) (by omega) (by omega), ⟨?_, ?_, ?_, ?_, ?_, ?_, ?_⟩, hbehind _ _ (by omega)⟩
  · rw [hword 8 (by simp) (by omega), hlen]
  · exact hbefore o 4 (by omega) (by omega) (by omega) (by omega)
  · exact hword (o + 4) (by simp) (by omega)
  · exact hbefore (o + 8) 124 (by omega) (by omega) (by omega) (by omega)
  · exact hword (o + 132) (by simp) (by omega)
  · exact hword (o + 136) (by simp) (by omega)
  · exact hbefore (o + 140) _ (by omega) (by omega) (by omega) (by omega)
  · exact hbehind _ _ (by omega)

/-- Growing a bucket fails, or the file has grown and the pointer that is returned is to the bucket in the
new mapping. -/
theorem bucketExpand_grown (env : Env) (hs : Shows b f s) (hr : Growable f o)
    (hlen : word f 8 = f.length) (hn : 0 < n)
    (hsize : f.length + n < 2 ^ 32) :
    (∃ t, mlibBucketExpand env (plistData (b + o)) n s = .ok (none, t) ∧ ¬ env.Grows) ∨
      ∃ a g t, mlibBucketExpand env (plistData (b + o)) n s = .ok (some (plistData (a + o)), t) ∧ Shows a g t ∧
        GrownFile f g o n := by
  rcases bucketExpand_file env hs hr hlen hn hsize with hx | ⟨a, t, hx, ht, -⟩
  · exact Or.inl hx
  · exact Or.inr ⟨a, _, t, hx, ht, grownBytes_grown hr hlen hsize⟩

/-- A growth that returns a bucket was not turned down. -/
theorem bucketExpand_some (hs : Shows b f s) (hr : Growable f o) (hlen : word f 8 = f.length)
    (hn : 0 < n) (hn' : n < 2 ^ 32)
    (hx : mlibBucketExpand env (plistData (b + o)) n s = .ok (some A, t)) :
    ∃ a g, A = plistData (a + o) ∧ Shows a g t ∧ GrownFile f g o n ∧ f.length + n < 2 ^ 32 := by
  by_cases hsize : f.length + n < 2 ^ 32
  · rcases bucketExpand_grown env hs hr hlen hn hsize with ⟨t', hx', -⟩ | ⟨a, g, t', hx', ht, hg⟩
    · cases hx'.symm.trans hx
    · cases hx'.symm.trans hx
      exact ⟨a, g, rfl, ht, hg, hsize⟩
  · rw [bucketExpand_refused hs hr hlen hn' (by omega)] at hx
    cases hx

end Mlib

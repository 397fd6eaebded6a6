import Mlib.Image.GrownFiles
import Mlib.Image.Walking

/-! Growing a library: the file is extended and mapped again, perhaps elsewhere, and
growing one bucket moves everything behind its free space. -/
namespace Mlib
open Foundation

variable {env : Env} {b : Nat} {I : Image} {s : Lib} {l u : List Record} {r : Record}

theorem splice_head (I : Image) (L len : Nat) (rest : Bytes) :
    splice (I.head L ++ rest) 8 (be32 len) = I.head len ++ rest := by
  have h := splice_mid (be32 mlibMagic ++ be32 0) (be32 L) (field 116 I.name.val ++ (field 896 I.mediaPrefix.val ++ rest))
    (be32 len) rfl
  simpa [Image.head, headerBytes] using h

def bucketPre (I : Image) (l : List Record) (r : Record) (len m : Nat) : Bytes :=
  I.head len ++ (recsBytes l ++ r.head m)

theorem bucketPre_addr (len m : Nat) : b + (bucketPre I l r len m).length = plistData (recAddr b l) := by
  simp only [bucketPre, List.length_append, Image.head_length, Record.head_length, plistData, recAddr]
  omega

/-- The image around one of its buckets. -/
theorem Image.bytes_bucket (hI : I.recs = l ++ r :: u) :
    I.bytes = bucketPre I l r I.size r.paths.length ++ (r.bucket ++ recsBytes u) := by
  rw [Image.bytes_split hI]
  simp only [bucketPre, Record.bytes, Record.bytesWith, List.append_assoc]

/-- A bucket of the image, where it is mapped. -/
theorem Image.at_bucket (hI : I.recs = l ++ r :: u) (hsz : I.size < 2 ^ 32) :
    ∃ pre post, I.bytes = pre ++ (r.bucket ++ post) ∧ plistData (recAddr b l) = b + pre.length ∧
      r.bucketLength < 2 ^ 32 := by
  have hsplit := Image.size_split hI
  have hbl : r.length = 144 + r.bucketLength := rfl
  exact ⟨_, _, Image.bytes_bucket hI, (bucketPre_addr _ _).symm, by omega⟩

section words
variable {e : Endian} (hI : I.recs = l ++ r :: u) (hsz : I.size < 2 ^ 32)
include hI hsz

theorem bucketLength_image : mlibBucketLength e ⟨b,
    I.bytes⟩ (plistData (recAddr b l)) = .ok r.bucketLength := by
  obtain ⟨pre, post, hbytes, ha, hlen⟩ := @Image.at_bucket b I l u r hI hsz
  rw [hbytes]
  exact bucketLength_read ha hlen

theorem bucketIndexOffs_image : mlibBucketIndexOffs e ⟨b,
    I.bytes⟩ (plistData (recAddr b l)) = .ok r.indexOffs := by
  obtain ⟨pre, post, hbytes, ha, hlen⟩ := @Image.at_bucket b I l u r hI hsz
  have hbl : r.bucketLength = r.indexOffs + 4 * r.paths.length := rfl
  rw [hbytes]
  exact bucketIndexOffs_read ha (by omega)

theorem bucketStrBytes_image : mlibBucketStrBytes e ⟨b,
    I.bytes⟩ (plistData (recAddr b l)) = .ok r.strBytes := by
  obtain ⟨pre, post, hbytes, ha, hlen⟩ := @Image.at_bucket b I l u r hI hsz
  have hbl : r.bucketLength = 16 + r.strBytes + r.gap + 4 * r.paths.length := rfl
  rw [hbytes]
  exact bucketStrBytes_read ha (by omega)

theorem recordWords_image : word I.bytes (recAddr 0 l + 4) = r.length ∧
    word I.bytes (recAddr 0 l + 132) = r.bucketLength ∧ word I.bytes (recAddr 0 l + 136) = r.indexOffs ∧
    word I.bytes (recAddr 0 l + 140) = r.strBytes :=
  ⟨@word_of_read_zero .big _ _ _ (plistLen_image hI hsz),
    @word_of_read_zero .big _ _ _ (bucketLength_image hI hsz),
    @word_of_read_zero .big _ _ _ (bucketIndexOffs_image hI hsz),
      @word_of_read_zero .big _ _ _ (bucketStrBytes_image hI hsz)⟩

end words

theorem size_grow (hI : I.recs = l ++ r :: u) (n : Nat) :
    (I.withRecs (l ++ r.grow n :: u)).size = I.size + n := by
  rw [Image.size_split (rfl : (I.withRecs (l ++ r.grow n :: u)).recs = _), Image.size_split hI,
    Record.grow_length]
  omega

private theorem grownBytes_parts {A B C D E : Bytes} {v₁ v₂ v₃ v₄ o n : Nat} (hA : A.length = 8)
    (hB : 12 + B.length = o + 4)
    (hC : C.length = 124) (hD : 12 + D.length = v₄) (h₁ : v₁ < 2 ^ 32) (h₂ : v₂ < 2 ^ 32)
      (h₃ : v₃ < 2 ^ 32) (h₄ : v₄ < 2 ^ 32) :
    grownBytes (A ++ (be32 v₁ ++ (B ++ (be32 v₂ ++ (C ++ (be32 v₃ ++ (be32 v₄ ++ (D ++ E)))))))) o n =
      A ++ (be32 (v₁ + n) ++ (B ++ (be32 (v₂ + n) ++ (C ++ (be32 (v₃ + n) ++ (be32 (v₄ + n) ++ (D ++ (zeros n ++ E)))))))) := by
  have hword := word_mid (A ++ (be32 v₁ ++ (B ++ (be32 v₂ ++ (C ++ be32 v₃))))) (D ++ E) h₄
  have hgap := openGap_append (A ++ (be32 v₁ ++ (B ++ (be32 v₂ ++ (C ++ (be32 v₃ ++ (be32 v₄ ++ D))))))) E n
  have hr₁ := raiseWord_mid A (B ++ (be32 v₂ ++ (C ++ (be32 v₃ ++ (be32 v₄ ++ (D ++ (zeros n ++ E))))))) h₁ n
  have hr₃ := raiseWord_mid (A ++ (be32 (v₁ + n) ++ (B ++ (be32 v₂ ++ C)))) (be32 v₄ ++ (D ++ (zeros n ++ E))) h₃ n
  have hr₄ := raiseWord_mid (A ++ (be32 (v₁ + n) ++ (B ++ (be32 v₂ ++ (C ++ be32 (v₃ + n)))))) (D ++ (zeros n ++ E)) h₄ n
  have hr₂ := raiseWord_mid (A ++ (be32 (v₁ + n) ++ B)) (C ++ (be32 (v₃ + n) ++ (be32 (v₄ + n) ++ (D ++ (zeros n ++ E))))) h₂ n
  simp only [List.append_assoc, List.length_append, be32_length] at hword hgap hr₁ hr₂ hr₃ hr₄
  rw [show A.length + (4 + (B.length + (4 + (C.length + 4)))) = o + 136 by omega] at hword
  rw [show A.length + (4 + (B.length + (4 + (C.length + (4 + (4 + D.length)))))) = o + 128 + v₄ by omega] at hgap
  rw [hA] at hr₁
  rw [show A.length + (4 + B.length) = o + 4 by omega] at hr₂
  rw [show A.length + (4 + (B.length + (4 + C.length))) = o + 132 by omega] at hr₃
  rw [show A.length + (4 + (B.length + (4 + (C.length + 4)))) = o + 136 by omega] at hr₄
  rw [grownBytes, hword, hgap, raiseWords_cons, hr₁, raiseWords_cons, hr₃, raiseWords_cons, hr₄,
    raiseWords_cons, hr₂]
  rfl

private theorem Image.bytes_parts (hI : I.recs = l ++ r :: u) : I.bytes =
    be32 mlibMagic ++ be32 0 ++ (be32 I.size ++
      (field 116 I.name.val ++ (field 896 I.mediaPrefix.val ++ (recsBytes l ++ be32 mlibPlistHdrMagic)) ++
        (be32 r.length ++ (be32 r.paths.length ++ (field 116 r.name.val ++ be32 mlibBucketMagicVal) ++
          (be32 r.bucketLength ++ (be32 r.indexOffs ++ (be32 r.strBytes ++ (heapBytes r.heap ++ zeros r.gap) ++
            (indexBytes r.heap r.paths ++ (zeros 16 ++ recsBytes u))))))))) := by
  rw [Image.bytes_split hI]
  simp only [Image.head, headerBytes, Record.bytes, Record.bytesWith, Record.head, plistBytes,
    Record.bucket, bucketBytes,
    Record.body, List.append_assoc]

private theorem grownBytes_image (hI : I.recs = l ++ r :: u) (hsz : I.size < 2 ^ 32) (n : Nat) :
    grownBytes I.bytes (recAddr 0 l) n = (I.withRecs (l ++ r.grow n :: u)).bytes := by
  have hsplit := Image.size_split hI
  have hbl : r.length = 144 + r.bucketLength := rfl
  have hof : r.bucketLength = r.indexOffs + 4 * r.paths.length := rfl
  have hio : r.indexOffs = 16 + r.strBytes + r.gap := rfl
  have hname := @field_length 116 r.name.val (by have := r.name_length; omega)
  have hIname := @field_length 116 I.name.val (by have := I.name_length; omega)
  have hIprefix := @field_length 896 I.mediaPrefix.val (by have := I.prefix_length; omega)
  rw [Image.bytes_parts hI, grownBytes_parts rfl ?_ ?_ ?_ hsz (by omega) (by omega) (by omega),
    Image.bytes_parts (rfl : (I.withRecs (l ++ r.grow n :: u)).recs = _), size_grow hI]
  · simp only [Record.grow_length, Record.grow_bucketLength, Record.grow_indexOffs,
      Record.grow_strBytes, Record.grow_paths,
      Record.grow_name, Record.grow_heap, Record.grow_gap, Image.withRecs_name,
        Image.withRecs_mediaPrefix, zeros_add,
      List.append_assoc]
  · simp only [List.length_append, be32_length, hIname, hIprefix, recAddr]
    omega
  · simp only [List.length_append, be32_length, hname]
  · simp only [List.length_append, be32_length, zeros_length, hio, Record.strBytes]
    omega

theorem Image.states (I : Image) (hsz : I.size < 2 ^ 32) : word I.bytes 8 = I.bytes.length := by
  rw [Image.bytes_length]
  exact word_headerBytes hsz _ _ _

/-- The numbers of a record of an image. -/
theorem growable_image (hI : I.recs = l ++ r :: u) (hsz : I.size < 2 ^ 32) :
    Growable I.bytes (recAddr 0 l) := by
  have hsplit := Image.size_split hI
  have hbl : r.length = 144 + r.bucketLength := rfl
  have hof : r.bucketLength = r.indexOffs + 4 * r.paths.length := rfl
  have hio : r.indexOffs = 16 + r.strBytes + r.gap := rfl
  obtain ⟨hlength, hbucket, hoffs, hstr⟩ := recordWords_image hI hsz
  refine ⟨by rw [recAddr]; omega, ?_, ?_, ?_, ?_⟩
  · rw [hstr, hoffs]
    omega
  · rw [hoffs, hbucket]
    omega
  · rw [hlength, hbucket, hbl]
  · rw [hlength, Image.bytes_length, recAddr]
    omega

/-- Growing a bucket of an image fails, or the record has more free bytes, all others stay as
they were, and the pointer it returns is the bucket's in the new mapping. -/
theorem bucketExpand_cases (env : Env) {n : Nat} (hs : Shows b I.bytes s) (hI : I.recs = l ++ r :: u)
    (hn : 0 < n) (hsize : I.size + n < 2 ^ 32) :
    (∃ s', mlibBucketExpand env (plistData (recAddr b l)) n s = .ok (none, s') ∧ ¬ env.Grows) ∨
    ∃ a s', mlibBucketExpand env (plistData (recAddr b l)) n s = .ok (some (plistData (recAddr a l)), s') ∧
      Shows a (I.withRecs (l ++ r.grow n :: u)).bytes s' ∧ s'.refused = s.refused ∧
      s'.remaps = s.remaps + 1 ∧ env.mmap s.remaps b (I.size + n) = some a := by
  have hsz : I.size < 2 ^ 32 := by omega
  have hx := bucketExpand_file env hs (growable_image hI hsz) (I.states hsz) hn (by rwa [Image.bytes_length])
  rw [Image.bytes_length, grownBytes_image hI hsz, ← recAddr_offset] at hx
  simpa only [← recAddr_offset] using hx

theorem bucketExpand_image (hg : env.Grows) {n : Nat} (hs : Shows b I.bytes s) (hI : I.recs = l ++ r :: u)
    (hn : 0 < n) (hsize : I.size + n < 2 ^ 32) :
    ∃ a s', mlibBucketExpand env (plistData (recAddr b l)) n s = .ok (some (plistData (recAddr a l)), s') ∧
      Shows a (I.withRecs (l ++ r.grow n :: u)).bytes s' ∧ s'.refused = s.refused ∧
      s'.remaps = s.remaps + 1 ∧ env.mmap s.remaps b (I.size + n) = some a :=
  (bucketExpand_cases env hs hI hn hsize).resolve_left fun ⟨_, _, hng⟩ => hng hg

theorem bucketExpand_refused_image {n : Nat} (hs : Shows b I.bytes s) (hI : I.recs = l ++ r :: u)
    (hsz : I.size < 2 ^ 32) (hn : n < 2 ^ 32) (hsize : 2 ^ 32 ≤ I.size + n) :
    mlibBucketExpand env (plistData (recAddr b l)) n s = .ok (none, { s with refused := s.refused + 1 }) := by
  rw [recAddr_offset]
  exact bucketExpand_refused hs (growable_image hI hsz) (I.states hsz) hn (by rwa [Image.bytes_length])

end Mlib

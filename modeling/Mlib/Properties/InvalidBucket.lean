import Mlib.Image.Creation
import Mlib.Image.Effects
import Mlib.Image.AnyFile

/-! Adding a path to a playlist whose bucket has the wrong magic: the lookup answers as it does for
a path that is not there, and the insertion goes by the fields of the bucket as they are. -/
namespace Mlib
open Foundation
variable {α β : Type} {env : Env} {e : Endian} {b q n k len : Nat} {f : Bytes} {path : CArg} {s t : Lib} {ret : Int}

def Op.Returns (x : Op α) (P : α → Prop) : Prop := ∀ s a t, x s = .ok (a, t) → P a

def Lib.AtLeast (n : Nat) (s : Lib) : Prop := n ≤ s.file.length

abbrev Op.Lengthens (x : Op α) (s : Lib) : Prop := Ensures x s (Lib.AtLeast (s.file.length + 1))

theorem returns_bind {x : Op α} {f : α → Op β} {P : β → Prop} (hf : ∀ a, (f a).Returns P) :
    (x >>= f).Returns P := by
  intro s b u h
  obtain ⟨⟨a, t⟩, -, h⟩ := bind_ok h
  exact hf a t b u h

theorem returns_pure {P : α → Prop} {a : α} (h : P a) : (pure a : Op α).Returns P := by
  intro s b t hx
  cases hx
  exact h

theorem splice_no_shorter (f : Bytes) (k : Nat) (bs : Bytes) : f.length ≤ (splice f k bs).length := by
  simp only [splice, List.length_append, List.length_take, List.length_drop]
  omega

instance stable_atLeast (k : Nat) : Stable (Lib.AtLeast k) where
  store addr bs := by
    intro s a t h
    unfold store at h
    split at h
    · cases h
      exact fun hk => le_trans hk (splice_no_shorter _ _ _)
    · cases h
  sysCall answer := by
    intro s a t h
    cases h
    exact id

private theorem remap_keepsLength (header len : Nat) : Keeps (Lib.AtLeast k) (do
    match ← mmap env header len with
    | none => return -1
    | some newHeader =>
      setHeader newHeader len
      mlibLibSetLen env.endian len
      return 0 : Op Int) := by
  intro s ret t h
  rw [Op.step (rfl : mmap env header len s = _)] at h
  cases ha : env.mmap s.remaps header len with
  | none =>
    rw [ha] at h
    cases h
    exact id
  | some a =>
    rw [ha] at h
    dsimp only at h
    rw [Op.step (rfl : setHeader a len _ = _)] at h
    have hset : Keeps (Lib.AtLeast k) (do mlibLibSetLen env.endian len; return 0 : Op Int) :=
      keeps_bind (keeps_setLen _ _) fun _ => keeps_pure _
    have hset' := hset _ _ _ h
    exact hset'

private theorem expandFd_outcome (env : Env) {s : Lib} (h : s.file.length < len) :
    (∃ t, mlibLibraryExpandFd env len s = .ok (-1, t) ∧ t.file = s.file ∧
        (env.lseek s.clock = false ∨ env.write (s.clock + 1) = false)) ∨
      ∃ t, mlibLibraryExpandFd env len s = .ok (1, t) ∧ s.file.length < t.file.length ∧
        env.lseek s.clock = true ∧ env.write (s.clock + 1) = true := by
  rw [mlibLibraryExpandFd, Op.step (rfl : sysCall env.lseek s = .ok (env.lseek s.clock, _))]
  cases env.lseek s.clock with
  | false => exact Or.inl ⟨_, rfl, rfl, Or.inl rfl⟩
  | true =>
    rw [if_neg (by decide), Op.step (rfl : sysCall env.write _ = .ok (env.write (s.clock + 1), _))]
    cases env.write (s.clock + 1) with
    | false => exact Or.inl ⟨_, rfl, rfl, Or.inr rfl⟩
    | true =>
      refine Or.inr ⟨_, rfl, ?_, rfl, rfl⟩
      show s.file.length < (pwrite s.file (len - 1) [0]).length
      rw [pwrite_zero_last _ _ h, List.length_append, zeros_length]
      omega

private theorem expand_outcome (env : Env) {s : Lib} {L : Nat}
    (hL : mlibLibLen env.endian s.mem = .ok L) (hlt : L < len)
    (hfile : s.file.length < len) :
    (∃ t, mlibLibraryExpand env len s = .ok (-1, t) ∧ t.file = s.file ∧
        (env.lseek s.clock = false ∨ env.write (s.clock + 1) = false)) ∨
      (mlibLibraryExpand env len).Lengthens s ∧ env.lseek s.clock = true ∧ env.write (s.clock + 1) = true := by
  have hlook : look (mlibLibLen env.endian) s = .ok (L, s) := look_ok hL
  have hstart : ∀ t, munmap s.header L s = .ok ((), t) → mlibLibraryExpand env len s = (do
      let ret ← mlibLibraryExpandFd env len
      if ret < 0 then return ret
      match ← mmap env s.header len with
      | none => return -1
      | some newHeader =>
        setHeader newHeader len
        mlibLibSetLen env.endian len
        return 0 : Op Int) t := fun t ht => by
    rw [mlibLibraryExpand, Op.step hlook, if_neg (by omega), Op.step (rfl : (get : Op Lib) s = .ok (s, s)),
      Op.step hlook]
    exact Op.step ht
  have hunmap : munmap s.header L s = .ok ((), _) := if_pos rfl
  rcases @expandFd_outcome len env { s with mapped := 0, leftover := _ } hfile with ⟨t, hx, ht, hw⟩ | ⟨t, hx, ht, hl, hw⟩
  · left
    rw [hstart _ hunmap, Op.step hx]
    exact ⟨t, rfl, ht, hw⟩
  · right
    refine ⟨fun ret u h => ?_, hl, hw⟩
    rw [hstart _ hunmap, Op.step hx, if_neg (by decide)] at h
    exact remap_keepsLength _ _ t ret u h ht

private theorem expand_keepsLength (env : Env) (len : Nat) :
    Keeps (Lib.AtLeast k) (mlibLibraryExpand env len) := by
  refine keeps_bind (keeps_look _) fun L => keeps_ite _ ?_ ?_
  · intro s a t h
    cases h
    exact id
  refine keeps_bind keeps_get fun lib => keeps_bind (keeps_look _) fun L' => keeps_bind ?_ fun _ => ?_
  · intro s a t h
    unfold munmap at h
    split at h
    · cases h
      exact id
    · cases h
      exact id
  refine keeps_bind ?_ fun ret => keeps_ite _ (keeps_pure _) (remap_keepsLength _ _)
  refine keeps_bind (Stable.sysCall _) fun sought => keeps_ite _ (keeps_pure _) ?_
  refine keeps_bind (Stable.sysCall _) fun written => keeps_ite _ (keeps_pure _) ?_
  refine keeps_bind ?_ fun _ => keeps_pure _
  intro s a t h
  cases h
  exact fun hk => le_trans (le_trans hk (by simp)) (splice_no_shorter _ _ _)

/-- The next growth fails before the file is longer. -/
def GrowthFails (env : Env) (s : Lib) : Prop :=
  2 ^ 32 ≤ s.file.length + mlibBucketGrowthRate ∨ env.lseek s.clock = false ∨ env.write (s.clock + 1) = false

private theorem bucketExpand_outcome {bucket offs : Nat}
    (ho : mlibBucketIndexOffs env.endian s.mem bucket = .ok offs)
    (hL : mlibLibLen env.endian s.mem = .ok s.file.length) (hlt : s.file.length < 2 ^ 32) :
    (∃ t, mlibBucketExpand env bucket mlibBucketGrowthRate s = .ok (none, t) ∧ t.file = s.file ∧
      GrowthFails env s) ∨
      (mlibBucketExpand env bucket mlibBucketGrowthRate).Lengthens s ∧ ¬ GrowthFails env s := by
  have hfail : ∀ t, mlibLibraryExpand env (u32 (s.file.length + mlibBucketGrowthRate)) s = .ok (-1, t) →
      mlibBucketExpand env bucket mlibBucketGrowthRate s = .ok (none, t) := fun t ht => by
    have hins : ∀ offset, mlibLibraryInsertSpace env offset mlibBucketGrowthRate s = .ok (-1, t) :=
      fun offset => by
      rw [mlibLibraryInsertSpace, Op.step (look_ok hL), Op.step (look_ok hL), Op.step ht, if_pos (by decide)]
      rfl
    rw [mlibBucketExpand, Op.step (look_ok ho), Op.step (rfl : (get : Op Lib) s = .ok (s, s)),
      Op.step (rfl : mlibLibOffset bucket s = _), Op.step (hins _), if_pos (by decide)]
    rfl
  by_cases hwrap : 2 ^ 32 ≤ s.file.length + mlibBucketGrowthRate
  · left
    have hle : u32 (s.file.length + mlibBucketGrowthRate) ≤ s.file.length := by
      show (s.file.length + 128) % 2 ^ 32 ≤ _
      rw [mlibBucketGrowthRate] at hwrap
      omega
    have hx : mlibLibraryExpand env (u32 (s.file.length + mlibBucketGrowthRate)) s =
        .ok (-1, { s with refused := s.refused + 1 }) := by
      rw [mlibLibraryExpand, Op.step (look_ok hL), if_pos hle]
      rfl
    exact ⟨_, hfail _ hx, rfl, Or.inl hwrap⟩
  · have hu : u32 (s.file.length + mlibBucketGrowthRate) = s.file.length + mlibBucketGrowthRate :=
      Nat.mod_eq_of_lt (by omega)
    have hmore : s.file.length < s.file.length + mlibBucketGrowthRate := Nat.lt_add_of_pos_right (by decide)
    rcases expand_outcome env hL hmore hmore with ⟨t, hx, ht, hw⟩ | ⟨hx, hl, hw⟩
    · exact Or.inl ⟨t, hfail t (by rwa [hu]), ht, Or.inr hw⟩
    · right
      refine ⟨ensures_bucketExpand ho hL (by rwa [hu]), ?_⟩
      rintro (h | h | h)
      · exact hwrap h
      · rw [hl] at h
        cases h
      · rw [hw] at h
        cases h

private theorem makeRoom_at_once {bucket fuel : Nat}
    (hroom : needsRoom env.endian len s.mem bucket = .ok false) :
    ∃ room, mlibBucketMakeRoom env len (fuel + 1) bucket s = .ok (some room, s) := by
  obtain ⟨strBytes, offs, hsb, ho, htest⟩ := needsRoom_ok hroom
  refine ⟨(bucket, bucketStrings bucket + strBytes, bucket + offs), ?_⟩
  rw [mlibBucketMakeRoom, Op.step (look_ok hsb), Op.step (look_ok ho), if_neg (htest.not.mp (by decide))]
  rfl

theorem storeString_returns (env : Env) (str : CArg) (len bucket endOfStrs startOfIndexes : Nat) :
    (storeString env str len bucket endOfStrs startOfIndexes).Returns (· = 0) :=
  returns_bind fun _ => returns_bind fun _ => returns_bind fun _ => returns_bind fun _ => returns_bind fun _ =>
    returns_bind fun _ => returns_bind fun _ => returns_pure rfl

def TurnsDown (env : Env) (plist : Nat) (path : CArg) (s : Lib) : Prop :=
  ∃ ret t, mlibAddPathToPlist env plist path s = .ok (ret, t) ∧ ret < 0 ∧ t.file = s.file

/-- The playlist at an offset of a library file has the right magic and its bucket has not. -/
structure InvalidAt (f : Bytes) (q : Nat) : Prop where
  length : word f 8 = f.length
  inside : q + 144 ≤ f.length
  plist : word f q = mlibPlistHdrMagic
  bucket : word f (q + 128) ≠ mlibBucketMagicVal

section invalid
variable (hs : Shows b f s)
include hs

private theorem read_word {off : Nat} (hoff : off + 4 ≤ f.length) :
    mlibReadl e s.mem (b + off) = .ok (word f off) := by
  rw [hs.mem, mlibReadl_word, if_pos hoff]

variable (h : InvalidAt f q)
include h

private theorem libLen_invalid : mlibLibLen e s.mem = .ok s.file.length := by
  have hin := h.inside
  rw [hs.mem, hs.file, libLen_word e b (by omega), h.length]

private theorem contains_invalid (str : Bytes) :
    mlibBucketContains e s.mem (plistData (b + q)) str = .ok none := by
  have hin := h.inside
  have hmagic : mlibBucketMagic e s.mem (plistData (b + q)) = .ok (word f (q + 128)) := by
    rw [mlibBucketMagic, plistData, Nat.add_assoc]
    exact read_word hs (by omega)
  rw [mlibBucketContains, hmagic, ok_bind, if_pos h.bucket]
  rfl

private theorem needsRoom_invalid (len : Nat) : needsRoom e len s.mem (plistData (b + q)) =
    .ok (decide (word f (q + 136) ≤ word f (q + 140) + len + 20)) := by
  have hin := h.inside
  have hb : mlibBucketStrBytes e s.mem (plistData (b + q)) = .ok (word f (q + 140)) := by
    rw [mlibBucketStrBytes, plistData, Nat.add_assoc, Nat.add_assoc]
    exact read_word hs (by omega)
  have ho : mlibBucketIndexOffs e s.mem (plistData (b + q)) = .ok (word f (q + 136)) := by
    rw [mlibBucketIndexOffs, plistData, Nat.add_assoc, Nat.add_assoc]
    exact read_word hs (by omega)
  rw [needsRoom, hb, ok_bind, ho, ok_bind, pure_ok]
  congr 1
  rw [decide_eq_decide, bucketStrings, sizeofMlibBucket, plistData]
  omega

private theorem invalid_magic : mlibPlistMagic e s.mem (b + q) = .ok (word f q) := by
  have hin := h.inside
  exact read_word hs (by omega)

variable (hn : strlen (path.view s.mem) = .ok n)
include hn

private theorem invalid_start : mlibBucketAdd env (plistData (b + q)) path s = (do
      match ← mlibBucketMakeRoom env (u32 (n + 1)) roundLimit (plistData (b + q)) with
      | none => return -1
      | some (bucket, endOfStrs, startOfIndexes) =>
        storeString env path (u32 (n + 1)) bucket endOfStrs startOfIndexes : Op Int) s :=
  bucketAdd_start hn (contains_invalid hs h _)

private theorem invalid_room (hroom : word f (q + 140) + u32 (n + 1) + 20 < word f (q + 136)) :
    ¬ TurnsDown env (b + q) path s := by
  rintro ⟨ret, t, hx, hneg, -⟩
  have htest := @needsRoom_invalid env.endian b q f s hs h (u32 (n + 1))
  rw [decide_eq_false (by omega)] at htest
  obtain ⟨room, hmake⟩ := @makeRoom_at_once env _ s _ (roundLimit - 1) htest
  rw [mlibAddPathToPlist, Op.step (look_ok (invalid_magic hs h)), if_neg (not_not_intro h.plist)] at hx
  obtain ⟨⟨ret', t'⟩, hadd, hx⟩ := bind_ok hx
  rw [show roundLimit - 1 + 1 = roundLimit from rfl] at hmake
  rw [invalid_start hs h hn, Op.step hmake] at hadd
  obtain rfl := storeString_returns _ _ _ _ _ _ _ _ _ hadd
  have hcount : (do
      mlibPlistSetMcount env.endian (b + q) (u32 ((← look (mlibPlistMcount env.endian · (b + q))) + 1))
      return 0 : Op Int).Returns (· = 0) :=
    returns_bind fun _ => returns_bind fun _ => returns_pure rfl
  have hzero := hcount _ _ _ hx
  omega

private theorem invalid_refused
    (hmake : mlibBucketMakeRoom env (u32 (n + 1)) roundLimit (plistData (b + q)) s = .ok (none, t)) :
    mlibAddPathToPlist env (b + q) path s = .ok (-1, t) := by
  have hadd : mlibBucketAdd env (plistData (b + q)) path s = .ok (-1, t) := by
    rw [invalid_start hs h hn, Op.step hmake]
    rfl
  rw [mlibAddPathToPlist, Op.step (look_ok (invalid_magic hs h)), if_neg (not_not_intro h.plist), Op.step hadd,
    if_pos (by decide)]
  rfl

private theorem invalid_lengthens
    (hmake : (mlibBucketMakeRoom env (u32 (n + 1)) roundLimit (plistData (b + q))).Lengthens s) :
    (mlibAddPathToPlist env (b + q) path).Lengthens s := by
  have hadd : (mlibBucketAdd env (plistData (b + q)) path).Lengthens s := by
    intro ret t hx
    rw [invalid_start hs h hn] at hx
    refine ensures_bind hmake (fun room => ?_) ret t hx
    cases room with
    | none => exact keeps_pure _
    | some room => exact keeps_storeString _ _ _ _ _ _
  refine ensures_step (look_ok (invalid_magic hs h)) ?_
  rw [if_neg (not_not_intro h.plist)]
  apply ensures_bind hadd
  intro ret
  refine keeps_ite _ (keeps_pure _) (keeps_bind (keeps_look _) fun mcount => ?_)
  exact keeps_bind (keeps_writel _ _ _) fun _ => keeps_pure _

private theorem invalid_full (hroom : word f (q + 136) ≤ word f (q + 140) + u32 (n + 1) + 20) :
    TurnsDown env (b + q) path s ↔ GrowthFails env s := by
  have htest := @needsRoom_invalid env.endian b q f s hs h (u32 (n + 1))
  rw [decide_eq_true hroom] at htest
  obtain ⟨sb, offs, hsb, ho, hcond⟩ := needsRoom_ok htest
  have hlt : s.file.length < 2 ^ 32 := by
    rw [hs.file, ← h.length]
    exact ofBe32_lt _
  rcases bucketExpand_outcome ho (libLen_invalid hs h) hlt with ⟨t, hfail, ht, hg⟩ | ⟨hlong, hg⟩
  · refine iff_of_true ⟨-1, t, invalid_refused hs h hn ?_, by decide, ht⟩ hg
    rw [show roundLimit = roundLimit - 1 + 1 from rfl, makeRoom_round htest hfail]
    rfl
  · refine iff_of_false ?_ hg
    have hmake : (mlibBucketMakeRoom env (u32 (n + 1)) roundLimit (plistData (b + q))).Lengthens s := by
      refine ensures_step (look_ok hsb) ?_
      refine ensures_step (look_ok ho) ?_
      rw [if_pos (hcond.mp rfl)]
      apply ensures_bind hlong
      intro grown
      cases grown with
      | none => exact keeps_pure _
      | some bucket => exact keeps_makeRoom (expand_keepsLength env) _ _ _
    rintro ⟨ret, t, hx, -, hfile⟩
    have hmore : s.file.length < t.file.length := invalid_lengthens hs h hn hmake ret t hx
    rw [hfile] at hmore
    exact Nat.lt_irrefl _ hmore

end invalid

/-- A playlist with an invalid bucket is turned down and the file left as it is exactly where the
bucket's own fields call for a growth and this growth fails at once. -/
theorem addPathToPlist_invalid_iff (hs : Shows b f s) (h : InvalidAt f q)
    (hn : strlen (path.view s.mem) = .ok n) :
    TurnsDown env (b + q) path s ↔
      word f (q + 136) ≤ word f (q + 140) + u32 (n + 1) + 20 ∧ GrowthFails env s := by
  by_cases hroom : word f (q + 136) ≤ word f (q + 140) + u32 (n + 1) + 20
  · rw [and_iff_right hroom]
    exact invalid_full hs h hn hroom
  · exact iff_of_false (invalid_room hs h hn (by omega)) fun hc => hroom hc.1

/-- A library of one playlist whose bucket has no magic, with room for strings up to `offs`. -/
def invalidFile (offs : Nat) : Bytes :=
  headerBytes 1296 [] [] ++ (plistBytes 272 0 [] ++ (be32 0 ++ (be32 128 ++ (be32 offs ++ zeros 132))))

def invalidLib (offs : Nat) : Lib := ⟨pageSize, invalidFile offs, 1296, [], 0, 0, 0⟩

theorem addPathToPlist_invalid_unwritable :
    TurnsDown { Env.steady .little with write := fun _ => false } (pageSize + 1024) (.own nameA) (invalidLib 16) := by
  have hs : Shows pageSize (invalidFile 16) (invalidLib 16) :=
    ⟨rfl, rfl, by decide +kernel, by decide, by decide⟩
  have h : InvalidAt (invalidFile 16) 1024 := ⟨by decide +kernel, by decide +kernel, by decide +kernel, by decide +kernel⟩
  have hn : strlen ((CArg.own nameA).view (invalidLib 16).mem) = .ok 1 := strlen_string nameA.val nameA.2 []
  exact (addPathToPlist_invalid_iff hs h hn).mpr ⟨by decide +kernel, Or.inr (Or.inr rfl)⟩

/-- The first path goes into a bucket that has no magic, and the call succeeds. -/
theorem addPathToPlist_invalid_adds : Shows pageSize (invalidFile 128) (invalidLib 128) ∧
    InvalidAt (invalidFile 128) 1024 ∧
    (mlibAddPathToPlist (.steady .little) (pageSize + 1024) (.own nameA) (invalidLib 128)).map Prod.fst = .ok 0 ∧
    ¬ TurnsDown (.steady .little) (pageSize + 1024) (.own nameA) (invalidLib 128) := by
  have hs : Shows pageSize (invalidFile 128) (invalidLib 128) :=
    ⟨rfl, rfl, by decide +kernel, by decide, by decide⟩
  have h : InvalidAt (invalidFile 128) 1024 := ⟨by decide +kernel, by decide +kernel, by decide +kernel, by decide +kernel⟩
  refine ⟨hs, h, by decide +kernel, ?_⟩
  have hn : strlen ((CArg.own nameA).view (invalidLib 128).mem) = .ok 1 := strlen_string nameA.val nameA.2 []
  exact invalid_room hs h hn (by decide +kernel)

end Mlib

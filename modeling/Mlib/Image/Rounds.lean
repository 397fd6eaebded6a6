import Mlib.Image.Listing

/-! The rounds of the loop that makes room in a bucket, one growth each, wherever the file is
mapped after them and whatever the system answers. -/
namespace Mlib
open Foundation

/-- The test of the loop: a string of `len` bytes and its index do not fit into the bucket yet. -/
def needsRoom (e : Endian) (len : Nat) (m : Mem) (bucket : Nat) : Outcome Bool := do
  let endOfStrs := bucketStrings bucket + (← mlibBucketStrBytes e m bucket)
  let startOfIndexes := bucket + (← mlibBucketIndexOffs e m bucket)
  pure (decide (startOfIndexes - 4 ≤ endOfStrs + len))

/-- The loop makes `k` rounds, from the bucket at one address in one state to the bucket at another
address in another state: each time there is no room, and the bucket is grown. -/
inductive Rounds (env : Env) (len : Nat) : Nat → Nat → Lib → Nat → Lib → Prop
  | none {bucket : Nat} {s : Lib} : Rounds env len 0 bucket s bucket s
  | more {k bucket bucket₁ bucket' : Nat} {s s₁ s' : Lib} (hroom : needsRoom env.endian len s.mem bucket = .ok true)
      (hx : mlibBucketExpand env bucket mlibBucketGrowthRate s = .ok (some bucket₁, s₁))
      (h : Rounds env len k bucket₁ s₁ bucket' s') : Rounds env len (k + 1) bucket s bucket' s'

/-- What `mlib_bucket_add` does once there is room: the string goes to `endOfStrs`, and its offset
in front of `startOfIndexes`. -/
def storeString (env : Env) (str : CArg) (len bucket endOfStrs startOfIndexes : Nat) : Op Int := do
  strcpy endOfStrs str
  mlibWritel env.endian (startOfIndexes - 4) (diff 32 endOfStrs (bucketStrings bucket))
  mlibBucketSetIndexOffs env.endian bucket
    (sub32 (← look (mlibBucketIndexOffs env.endian · bucket)) 4)
  mlibBucketSetStrBytes env.endian bucket
    (u32 ((← look (mlibBucketStrBytes env.endian · bucket)) + len))
  mlibBucketSort env bucket
  return 0

variable {env : Env} {e : Endian} {b o A A' len k fuel : Nat} {f : Bytes} {I : Image} {s t : Lib} {l u : List Record} {r : Record}

theorem needsRoom_ok {m : Mem} {test : Bool} (h : needsRoom e len m A = .ok test) :
    ∃ strBytes offs, mlibBucketStrBytes e m A = .ok strBytes ∧ mlibBucketIndexOffs e m A = .ok offs ∧
      (test = true ↔ A + offs - 4 ≤ bucketStrings A + strBytes + len) := by
  obtain ⟨strBytes, hsb, h⟩ := bind_ok h
  obtain ⟨offs, ho, h⟩ := bind_ok h
  cases h
  exact ⟨strBytes, offs, hsb, ho, decide_eq_true_iff⟩

/-- One round of the loop in the code. -/
theorem makeRoom_round (hroom : needsRoom env.endian len s.mem A = .ok true) {grown : Option Nat}
    (hx : mlibBucketExpand env A mlibBucketGrowthRate s = .ok (grown, t)) :
    mlibBucketMakeRoom env len (fuel + 1) A s =
      (match grown with
        | none => return none
        | some bucket => mlibBucketMakeRoom env len fuel bucket : Op _) t := by
  obtain ⟨strBytes, offs, hsb, ho, htest⟩ := needsRoom_ok hroom
  rw [mlibBucketMakeRoom, Op.step (look_ok hsb), Op.step (look_ok ho), if_pos (htest.mp rfl)]
  exact Op.step hx

/-- The rounds are rounds of the code. -/
theorem Rounds.makeRoom (h : Rounds env len k A s A' t) :
    mlibBucketMakeRoom env len (fuel + k) A s = mlibBucketMakeRoom env len fuel A' t := by
  induction h with
  | none => rfl
  | more hroom hx _ ih =>
    rw [← Nat.add_assoc, makeRoom_round hroom hx]
    exact ih

/-- Adding a string that is not there makes room and stores the string. -/
theorem bucketAdd_start {str : CArg} {n : Nat} (hn : strlen (str.view s.mem) = .ok n)
    (hnew : mlibBucketContains env.endian s.mem A (str.view s.mem) = .ok none) :
    mlibBucketAdd env A str s = (do
      match ← mlibBucketMakeRoom env (u32 (n + 1)) roundLimit A with
      | none => return -1
      | some (bucket, endOfStrs, startOfIndexes) =>
        storeString env str (u32 (n + 1)) bucket endOfStrs startOfIndexes : Op Int) s := by
  have hlen : look (fun m => strlen (str.view m)) s = .ok (n, s) := look_ok hn
  rw [mlibBucketAdd, Op.step hlen, Op.step (look_ok hnew), if_neg (by decide)]
  rfl

theorem bucket_words (h : Holds b I s) (hI : I.recs = l ++ r :: u) (e : Endian) :
    mlibBucketStrBytes e s.mem (plistData (recAddr b l)) = .ok r.strBytes ∧
      mlibBucketIndexOffs e s.mem (plistData (recAddr b l)) = .ok r.indexOffs := by
  rw [h.shows.mem]
  exact ⟨bucketStrBytes_image hI h.size, bucketIndexOffs_image hI h.size⟩

/-- A playlist that is visited is a record. -/
theorem Holds.visited {plists : List Nat} {plist : Nat} (h : Holds b I s)
    (hall : mlibForEachPls e s.mem = .ok plists)
    (hp : plist ∈ plists) : ∃ l r u, I.recs = l ++ r :: u ∧ plist = recAddr b l := by
  cases (h.forEachPls e).symm.trans hall
  exact mem_recAddrs hp

/-- A growth that is not turned down leaves a library with a larger record. -/
theorem expand_holds (h : Holds b I s) (hI : I.recs = l ++ r :: u) {n : Nat} (hn : 0 < n) (hn' : n < 2 ^ 32)
    (hx : mlibBucketExpand env (plistData (recAddr b l)) n s = .ok (some A, t)) :
    ∃ a, A = plistData (recAddr a l) ∧ Holds a (I.withRecs (l ++ r.grow n :: u)) t ∧ I.size + n < 2 ^ 32 := by
  by_cases hsize : I.size + n < 2 ^ 32
  · rcases bucketExpand_cases env h.shows hI hn hsize with ⟨s', hx', -⟩ | ⟨a, s', hx', hs', -⟩
    · cases hx'.symm.trans hx
    · cases hx'.symm.trans hx
      exact ⟨a, rfl, ⟨hs', by rwa [size_grow hI]⟩, hsize⟩
  · rw [bucketExpand_refused_image h.shows hI h.size hn' (by omega)] at hx
    cases hx

def GivesUp (env : Env) (len bucket : Nat) (s t : Lib) : Prop :=
  ∃ j bucket' s', Rounds env len j bucket s bucket' s' ∧ needsRoom env.endian len s'.mem bucket' = .ok true ∧
    mlibBucketExpand env bucket' mlibBucketGrowthRate s' = .ok (none, t)

section file
variable (hs : Shows b f s) (hr : Growable f o)
include hs hr

/-- There is no room as long as the free bytes of the bucket are too few. -/
theorem needsRoom_file (e : Endian) (len : Nat) : needsRoom e len s.mem (plistData (b + o)) =
    .ok (decide (word f (o + 136) - (16 + word f (o + 140)) ≤ len + 4)) := by
  have hhead := hr.inside_head
  have hstr := hr.strings
  rw [needsRoom, hs.mem, bucketStrBytes_word (by omega), ok_bind, bucketIndexOffs_word (by omega), ok_bind, pure_ok]
  congr 1
  rw [decide_eq_decide, bucketStrings, sizeofMlibBucket]
  omega

variable (hlen : word f 8 = f.length)
include hlen

/-- After `k` rounds the bucket has grown by 128 bytes for each of them. -/
theorem Rounds.grown (hk : Rounds env len k (plistData (b + o)) s A' t) :
    ∃ a g, A' = plistData (a + o) ∧ Shows a g t ∧ GrownFile f g o (128 * k) := by
  generalize hA : plistData (b + o) = A at hk
  induction hk generalizing b f with
  | none => exact ⟨b, f, hA.symm, hs, .refl hlen o⟩
  | @more k _ _ _ _ _ _ hroom hx _ ih =>
    subst hA
    obtain ⟨a, g, rfl, hs₁, hg, -⟩ := bucketExpand_some hs hr hlen (by decide) (by decide) hx
    obtain ⟨a', g', hA', hs', hg'⟩ := ih hs₁ (hg.growable hr) hg.states rfl
    refine ⟨a', g', hA', hs', ?_⟩
    rw [show 128 * (k + 1) = 128 + 128 * k by omega]
    exact hg.trans hg'

/-- Where the calls that extend a file succeed, the loop gives up only if the file would get too long. -/
theorem GivesUp.too_long (h : GivesUp env len (plistData (b + o)) s t) (hg : env.Grows) :
    2 ^ 32 ≤ f.length + 128 * roundsFor (word f (o + 136) - (16 + word f (o + 140))) len := by
  obtain ⟨j, A, s', hj, hroom, hx⟩ := h
  obtain ⟨a, g, rfl, hs', hgrown⟩ := hj.grown hs hr hlen
  have hgrow := hgrown.growable hr
  have hsb := hgrown.record.strBytes (by have := hr.strings; omega)
  have hoffs := hgrown.record.indexOffs
  have hgl := hgrown.length
  have hstr := hr.strings
  rw [needsRoom_file hs' hgrow, Except.ok.injEq, decide_eq_true_iff] at hroom
  have hleast := roundsFor_room (word f (o + 136) - (16 + word f (o + 140))) len
  by_contra hsize
  rcases bucketExpand_grown env hs' hgrow hgrown.states (by decide : 0 < 128) (by omega) with ⟨_, _, hng⟩ | ⟨_, _, _, hx', -⟩
  · exact hng hg
  · cases hx'.symm.trans hx

/-- The loop comes back with any answers of the system. It gives up, or it has made as many
rounds as the free bytes of the bucket call for and then found room. -/
theorem makeRoom_cases (env : Env) (len : Nat) (hfuel : 2 ^ 32 ≤ f.length + 128 * fuel) :
    (∃ t, mlibBucketMakeRoom env len fuel (plistData (b + o)) s = .ok (none, t) ∧
        GivesUp env len (plistData (b + o)) s t) ∨
      ∃ a t, Rounds env len (roundsFor (word f (o + 136) - (16 + word f (o + 140))) len) (plistData (b + o)) s
          (plistData (a + o)) t ∧
        mlibBucketMakeRoom env len fuel (plistData (b + o)) s =
          .ok (some (plistData (a + o), plistData (a + o) + 16 + word f (o + 140), plistData (a + o) +
            (word f (o + 136) + 128 * roundsFor (word f (o + 136) - (16 + word f (o + 140))) len)), t) := by
  have hlt : word f 8 < 2 ^ 32 := ofBe32_lt _
  induction fuel generalizing f s b with
  | zero => omega
  | succ fuel ih =>
    have hhead := hr.inside_head
    have hstr := hr.strings
    have htest := needsRoom_file hs hr env.endian len
    by_cases hroom : word f (o + 136) - (16 + word f (o + 140)) ≤ len + 4
    · rw [decide_eq_true hroom] at htest
      by_cases hsize : f.length + 128 < 2 ^ 32
      · rcases bucketExpand_grown env hs hr hlen (by decide : 0 < 128) hsize with ⟨s', hx, -⟩ | ⟨a, g, s', hx, hs', hg⟩
        · rw [makeRoom_round htest hx]
          exact Or.inl ⟨s', rfl, 0, _, s, .none, htest, hx⟩
        · have hsb := hg.record.strBytes (by omega)
          have hoffs := hg.record.indexOffs
          have hgap : word g (o + 136) - (16 + word g (o + 140)) = word f (o + 136) - (16 + word f (o + 140)) + 128 := by
            omega
          have hgl := hg.length
          rw [makeRoom_round htest hx]
          rcases ih hs' (hg.growable hr) hg.states (by omega) (ofBe32_lt _) with
            ⟨t, ht, j, A, s₁, hrounds, hlast⟩ | ⟨a', t, hrounds, ht⟩
          · exact Or.inl ⟨t, ht, j + 1, A, s₁, .more htest hx hrounds, hlast⟩
          · rw [hgap] at hrounds ht
            rw [roundsFor_succ hroom]
            refine Or.inr ⟨a', t, .more htest hx hrounds, ?_⟩
            dsimp only
            rw [ht, hsb, hoffs, Nat.mul_add, Nat.add_assoc (word f (o + 136)), Nat.add_comm 128]
      · have hx := @bucketExpand_refused env b o 128 f s hs hr hlen (by decide) (by omega)
        rw [makeRoom_round htest hx]
        exact Or.inl ⟨_, rfl, 0, _, s, .none, htest, hx⟩
    · rw [decide_eq_false hroom] at htest
      rw [roundsFor_zero (by omega)]
      refine Or.inr ⟨b, s, .none, ?_⟩
      rw [mlibBucketMakeRoom, Op.step (hs.look (bucketStrBytes_word (by omega) env.endian b)),
        Op.step (hs.look (bucketIndexOffs_word (by omega) env.endian b)), if_neg, Nat.mul_zero, Nat.add_zero, bucketStrings,
        sizeofMlibBucket]
      · rfl
      · rw [bucketStrings, sizeofMlibBucket]
        omega

end file

end Mlib

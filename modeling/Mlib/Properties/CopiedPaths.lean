import Mlib.Image.Inside
import Mlib.Properties.AddPathErrors
import Mlib.Properties.CommandResults
import Mlib.Properties.RoundTrip

/-! Copying a path to another playlist by the pointer that `mlib_get_path_at` returned. The pointer
is into the library that grows meanwhile: what is copied is the path, unless a growth in front of
it moves the path away under the pointer. -/
namespace Mlib
open Foundation

/-- How much longer the library gets when the path is added to the playlist. -/
def growthFor (e : Endian) (m : Mem) (plist : Nat) (p : CStr) : Outcome Nat := do
  if (← mlibFindPath e m plist p).isSome then return 0
  let free ← freeBytes e m plist
  pure (mlibBucketGrowthRate * roundsFor free p.mem.length)

/-- Adding what stands at `x` to the playlist `n` adds the path `p` to it and to `.global`, and no other. -/
def CopiesPath (env : Env) (s : Lib) (n : CStr) (x : Nat) (p : CStr) : Prop :=
  ∃ ret t, mlibAddPath env n (.inside x) s = .ok (ret, t) ∧
    ∀ m, m = dotGlobal ∨ m = n → ∀ q, HasPath env.endian t.mem m q ↔ HasPath env.endian s.mem m q ∨ q = p

/-- Neither `.global` nor the playlist `n` grows in front of the playlist at `a`, and there is room for
what they grow by. -/
def StaysPut (e : Endian) (s : Lib) (a : Nat) (n p : CStr) : Prop :=
  ∃ g d k₁ k₂, mlibFindPlaylist e s.mem dotGlobal = .ok (some g) ∧ mlibFindPlaylist e s.mem n = .ok (some d) ∧
    growthFor e s.mem g p = .ok k₁ ∧ growthFor e s.mem d p = .ok k₂ ∧ (k₁ = 0 ∨ a ≤ g) ∧ (k₂ = 0 ∨ a ≤ d) ∧
    s.file.length + (if n = dotGlobal then k₁ else k₁ + k₂) < 2 ^ 32

variable {env : Env} {b a x i : Nat} {I : Image} {s : Lib} {l u l' u' : List Record} {r r' : Record} {n m p q : CStr}
  {plists : List Nat}

def Record.holding (r : Record) (p : CStr) : Record := if hp : p ∈ r.paths then r else r.add p hp

def Record.growth (r : Record) (p : CStr) : Nat := if p ∈ r.paths then 0 else 128 * r.rounds p

theorem Record.holding_present (hp : p ∈ r.paths) : r.holding p = r := dif_pos hp

theorem Record.holding_new (hp : p ∉ r.paths) : r.holding p = r.add p hp := dif_neg hp

theorem Record.growth_present (hp : p ∈ r.paths) : r.growth p = 0 := if_pos hp

theorem Record.growth_new (hp : p ∉ r.paths) : r.growth p = 128 * r.rounds p := if_neg hp

theorem Record.holding_name (r : Record) (p : CStr) : (r.holding p).name = r.name := by
  unfold Record.holding
  split <;> rfl

theorem Record.holding_length (r : Record) (p : CStr) : (r.holding p).length = r.length + r.growth p := by
  by_cases hp : p ∈ r.paths
  · rw [holding_present hp, growth_present hp, Nat.add_zero]
  · rw [holding_new hp, growth_new hp, add_length]

theorem Record.holding_within (r : Record) (p : CStr) : r.Within (r.holding p) := by
  by_cases hp : p ∈ r.paths
  · rw [holding_present hp]
    exact fun q hq => ⟨hq, rfl⟩
  · rw [holding_new hp]
    exact add_within hp

/-- In the store, the path is in the set of the playlist's name. -/
theorem Image.Finds.holding (h : I.Finds n l r u) (p : CStr) :
    (I.withRecs (l ++ r.holding p :: u)).contents = Store.insert I.contents n.val p.val := by
  by_cases hp : p ∈ r.paths
  · rw [Record.holding_present hp, ← h.recs, Image.withRecs_self, h.entries.1, Store.insert_split h.entries.2,
      Store.insertNew, if_pos (mem_val.mpr hp)]
  · rw [Record.holding_new hp, h.insert hp]

theorem Record.mem_holding (r : Record) (p q : CStr) : q ∈ (r.holding p).paths ↔ q = p ∨ q ∈ r.paths := by
  by_cases hp : p ∈ r.paths
  · rw [holding_present hp]
    refine ⟨Or.inr, ?_⟩
    rintro (rfl | hq)
    · exact hp
    · exact hq
  · rw [holding_new hp]
    exact List.mem_orderedInsert _

theorem size_holding (hI : I.recs = l ++ r :: u) (p : CStr) :
    (I.withRecs (l ++ r.holding p :: u)).size = I.size + r.growth p := by
  rw [Image.size_split (rfl : (I.withRecs (l ++ r.holding p :: u)).recs = _), Image.size_split hI,
    r.holding_length]
  omega

theorem growthFor_image (h : Holds b I s) (hI : I.recs = l ++ r :: u) (e : Endian) (p : CStr) :
    growthFor e s.mem (recAddr b l) p = .ok (r.growth p) := by
  obtain ⟨found, hfound, hiff⟩ := @findPath_image e b I l u r hI h.size p
  rw [growthFor, h.shows.mem, hfound, ok_bind]
  by_cases hp : p ∈ r.paths
  · rw [if_pos (hiff.mpr hp), Record.growth_present hp]
    rfl
  · rw [if_neg (hiff.not.mpr hp), freeBytes_image hI h.size, Record.growth_new hp]
    rfl

private theorem makeRoom_holds (hc : env.Calm) (h : Holds b I s) (hI : I.recs = l ++ r :: u)
    (hlt : p.mem.length < 2 ^ 32) (hsize : I.size + 128 * r.rounds p < 2 ^ 32) {room : Nat × Nat × Nat}
      {t : Lib}
    (hx : mlibBucketMakeRoom env (u32 (p.val.length + 1)) roundLimit (plistData (recAddr b l)) s = .ok (some room, t)) :
    Holds b (I.withRecs (l ++ r.grow (128 * r.rounds p) :: u)) t := by
  have hu : u32 (p.val.length + 1) = p.mem.length := by
    rw [← CStr.mem_length]
    exact Nat.mod_eq_of_lt hlt
  have hrounds : r.rounds p < roundLimit := by
    unfold roundLimit
    omega
  obtain ⟨_, _, t', hx', -, rfl, ht, -⟩ := makeRoom_grows hc.grows h.shows hI hsize hrounds
  rw [hu] at hx
  cases hx'.symm.trans hx
  rw [hc.landing h.shows.placed] at ht
  exact ⟨ht, by rwa [size_grow hI]⟩

/-- The pointer shows `p` at first, and `q` of the same length once there is room. -/
theorem addPathToPlist_shown (hc : env.Calm) (h : Holds b I s) (hI : I.recs = l ++ r :: u)
    (hp : I.StandsAt b a x p)
    (hlen : q.val.length = p.val.length) (hpq : p ∈ r.paths ↔ q ∈ r.paths)
      (hsize : I.size + r.growth p < 2 ^ 32)
    (hq : p ∉ r.paths → ∃ a', (I.withRecs (l ++ r.grow (128 * r.rounds p) :: u)).StandsAt b a' x q) :
    mlibAddPathToPlist env (recAddr b l) (.inside x) s = mlibAddPathToPlist env (recAddr b l) (.own q) s := by
  have hadd := @bucketAdd_shown env b I s l u r p q (.inside x) h hI (hp.chars h) hlen hpq fun hmem room t hroom => by
    rw [Record.growth_new hmem] at hsize
    obtain ⟨a', hq⟩ := hq hmem
    exact hq.chars (makeRoom_holds hc h hI (hp.short h) hsize hroom)
  rw [addPathToPlist_start h.shows hI, addPathToPlist_start h.shows hI]
  change (mlibBucketAdd env _ (.inside x) s >>= _) = (mlibBucketAdd env _ (.own q) s >>= _)
  rw [hadd]

theorem addPathToPlist_holding (hc : env.Calm) (h : Holds b I s) (hI : I.recs = l ++ r :: u)
    (hlt : p.mem.length < 2 ^ 32)
    (hsize : I.size + r.growth p < 2 ^ 32) :
    ∃ ret t, mlibAddPathToPlist env (recAddr b l) (.own p) s = .ok (ret, t) ∧
      Holds b (I.withRecs (l ++ r.holding p :: u)) t := by
  by_cases hp : p ∈ r.paths
  · refine ⟨-1, s, addPathToPlist_present h.shows hI h.size hp, ?_⟩
    rwa [Record.holding_present hp, ← hI, Image.withRecs_self]
  · rw [Record.growth_new hp] at hsize
    obtain ⟨t, hadd, ht, -⟩ := h.added hc hI hp hlt hsize
    rw [Record.holding_new hp]
    exact ⟨0, t, hadd, ht⟩

/-- A playlist that does not grow in front of the pointer gets the path that stands there, and the
path still stands there afterwards. -/
theorem addPathToPlist_copies (hc : env.Calm) (h : Holds b I s) (hI : I.recs = l ++ r :: u)
    (hx : I.StandsAt b a x p)
    (hput : r.growth p = 0 ∨ a ≤ recAddr b l) (hsize : I.size + r.growth p < 2 ^ 32) :
    ∃ ret t, mlibAddPathToPlist env (recAddr b l) (.inside x) s = .ok (ret, t) ∧
      Holds b (I.withRecs (l ++ r.holding p :: u)) t ∧
        (I.withRecs (l ++ r.holding p :: u)).StandsAt b a x p := by
  have hlater := hx.replaced hI (r.holding_within p) (hput.imp_left fun h0 => by rw [r.holding_length, h0, Nat.add_zero])
  have hown := @addPathToPlist_shown env b a x I s l u r p p hc h hI hx rfl Iff.rfl hsize fun hp => by
    refine ⟨a, hx.replaced hI (r.grow_within _) (hput.imp_left fun h0 => ?_)⟩
    rw [Record.growth_new hp] at h0
    rw [h0, Record.grow_length, Nat.add_zero]
  obtain ⟨ret, t, hadd, ht⟩ := addPathToPlist_holding hc h hI (hx.short h) hsize
  exact ⟨ret, t, hown.trans hadd, ht, hlater⟩

/-- A playlist is found where it was after one of another name got longer, or behind that. -/
theorem Image.Finds.replaced (hf : I.Finds n l r u) (hg : I.Finds m l' r' u') (hne : n ≠ m) {r₂ : Record}
    (hname : r₂.name = r'.name) (hlen : r'.length ≤ r₂.length) :
    ∃ l₁ u₁, (I.withRecs (l' ++ r₂ :: u')).Finds n l₁ r u₁ ∧ recAddr b l ≤ recAddr b l₁ := by
  rcases two_places (hf.recs.symm.trans hg.recs) with ⟨rfl, rfl, rfl⟩ | ⟨k, rfl, rfl⟩ | ⟨k, rfl, rfl⟩
  · exact absurd (hf.name.symm.trans hg.name) hne
  · refine ⟨l' ++ r₂ :: k, u, ⟨by rw [Image.withRecs_recs, List.append_assoc]; rfl, hf.name, ?_⟩, ?_⟩
    · intro r₁ hr₁
      rcases List.mem_append.mp hr₁ with hr₁ | hr₁
      · exact hf.first r₁ (List.mem_append_left _ hr₁)
      · rcases List.mem_cons.mp hr₁ with rfl | hr₁
        · rw [hname, hg.name]
          exact hne.symm
        · exact hf.first r₁ (List.mem_append_right _ (List.mem_cons_of_mem _ hr₁))
    · simp only [recAddr, recsBytes_append, recsBytes_cons, List.length_append, Record.bytes_length]
      omega
  · exact ⟨l, k ++ r₂ :: u', ⟨by rw [Image.withRecs_recs, List.append_assoc]; rfl, hf.name, hf.first⟩, Nat.le_refl _⟩

/-- Adding to `.global` alone. -/
theorem addPath_toGlobal (h : Holds b I s) (hg : I.Finds dotGlobal l r u) (path : CArg) :
    mlibAddPath env dotGlobal path s = mlibAddPathToPlist env (recAddr b l) path s := by
  rw [mlibAddPath, Op.step (strcmp_names dotGlobal dotGlobal), cmpStr_self, if_neg (fun h0 => h0 rfl)]
  exact Op.step (findPlaylist_finds h hg)

private theorem addPath_toOther (h : Holds b I s) (hg : I.Finds dotGlobal l r u) (hn : n ≠ dotGlobal)
    {path : CArg}
    {ret : Int} {t : Lib} (hx : mlibAddPathToPlist env (recAddr b l) path s = .ok (ret, t)) {I' : Image}
    (h' : Holds b I' t) (hf : I'.Finds n l' r' u') :
    mlibAddPath env n path s = mlibAddPathToPlist env (recAddr b l') path t := by
  have hne : cmpStr n.val dotGlobal.val ≠ 0 := by
    rw [Ne, cmpStr_zero_iff _ _ n.2 dotGlobal.2, ← Subtype.ext_iff]
    exact hn
  rw [mlibAddPath, Op.step (strcmp_names n dotGlobal), if_pos hne, Op.step (findPlaylist_finds h hg)]
  exact (Op.step hx).trans (Op.step (findPlaylist_finds h' hf))

/-- The pointer shows another path of the same length once the playlist grew: that path is added to it. -/
theorem addPath_stale (hc : env.Calm) (h : Holds b I s) (hg : I.Finds dotGlobal l' r' u') (hf : I.Finds n l r u)
    (hn : n ≠ dotGlobal) (hx : I.StandsAt b a x p) (hgp : p ∈ r'.paths) (hp : p ∉ r.paths) (hq : q ∉ r.paths)
    (hlen : q.val.length = p.val.length) (hsize : I.size + 128 * r.rounds p < 2 ^ 32)
    (hmoved : ∃ a', (I.withRecs (l ++ r.grow (128 * r.rounds p) :: u)).StandsAt b a' x q) :
    ∃ ret t, mlibAddPath env n (.inside x) s = .ok (ret, t) ∧
      ∀ q', HasPath env.endian t.mem n q' ↔ HasPath env.endian s.mem n q' ∨ q' = q := by
  have hnone := Record.growth_present hgp
  obtain ⟨ret₁, t₁, hx₁, h₁, hx'⟩ := addPathToPlist_copies hc h hg.recs hx (Or.inl hnone) (by rw [hnone]; exact h.size)
  rw [Record.holding_present hgp, ← hg.recs, Image.withRecs_self] at h₁ hx'
  have hshown := addPathToPlist_shown hc h₁ hf.recs hx' hlen (iff_of_false hp hq)
    (by rwa [Record.growth_new hp]) fun _ => hmoved
  have hsame : r.growth q = 128 * r.rounds p := by
    rw [Record.growth_new hq, Record.rounds, Record.rounds, CStr.mem_length, CStr.mem_length, hlen]
  have hlt : q.mem.length < 2 ^ 32 := by
    have := hx.short h
    rw [CStr.mem_length] at this ⊢
    omega
  obtain ⟨ret, t, hadd, ht⟩ := addPathToPlist_holding hc h₁ hf.recs hlt (by rwa [hsame])
  refine ⟨ret, t, (addPath_toOther h hg hn hx₁ h₁ hf).trans (hshown.trans hadd), fun q' => ?_⟩
  rw [ht.hasPath_iff, h.hasPath_iff, hf.holding q, Store.has_insert_self hf.named, or_comm, Subtype.ext_iff]

private theorem has_inserted {A : Store Bytes Bytes} {g n q p : Bytes} (hg : g ∈ A.names)
    (hn : n ∈ A.names) (hne : n ≠ g) :
    ∀ m, m = g ∨ m = n → (Store.Has (Store.insert (Store.insert A g p) n p) m q ↔ Store.Has A m q ∨ q = p) := by
  rintro m (rfl | rfl)
  · rw [Store.has_insert_ne hne.symm, Store.has_insert_self hg, or_comm]
  · rw [Store.has_insert_self (by rwa [Store.names_insert]), Store.has_insert_ne hne, or_comm]

/-- What `mlib_get_path_at` answers is where the path stands. -/
theorem getPathAt_stands (h : Holds b I s) (hI : I.recs = l ++ r :: u) {e : Endian}
    (hx : mlibGetPathAt e s.mem (recAddr b l) i = .ok (some x)) (hp : chars (s.mem.view x) = .ok p.val) :
    I.StandsAt b (recAddr b l) x p := by
  rw [h.shows.mem, getPathAt_image hI h.size] at hx
  obtain ⟨q, hq, rfl⟩ := Option.map_eq_some_iff.mp (Except.ok.inj hx)
  have hmem := List.mem_of_getElem? hq
  rw [h.shows.mem, path_chars hI h.size hmem] at hp
  obtain rfl : q = p := Subtype.ext (Except.ok.inj hp)
  exact ⟨l, r, u, hI, rfl, hmem, rfl⟩

private theorem addPath_copies_global (hc : env.Calm) (h : Holds b I s) (hx : I.StandsAt b a x p)
    (hg : I.Finds dotGlobal l r u) (hput : r.growth p = 0 ∨ a ≤ recAddr b l)
      (hsize : I.size + r.growth p < 2 ^ 32) :
    CopiesPath env s dotGlobal x p := by
  obtain ⟨ret, t, hadd, ht, -⟩ := addPathToPlist_copies hc h hg.recs hx hput hsize
  refine ⟨ret, t, (addPath_toGlobal h hg (.inside x)).trans hadd, fun m hm q => ?_⟩
  obtain rfl : m = dotGlobal := hm.elim id id
  rw [ht.hasPath_iff, h.hasPath_iff, hg.holding p, Store.has_insert_self hg.named, or_comm, Subtype.ext_iff]

private theorem addPath_copies_other (hc : env.Calm) (h : Holds b I s) (hx : I.StandsAt b a x p)
    (hg : I.Finds dotGlobal l' r' u') (hf : I.Finds n l r u) (hn : n ≠ dotGlobal)
    (hput' : r'.growth p = 0 ∨ a ≤ recAddr b l') (hput : r.growth p = 0 ∨ a ≤ recAddr b l)
    (hsize : I.size + (r'.growth p + r.growth p) < 2 ^ 32) : CopiesPath env s n x p := by
  obtain ⟨ret₁, t₁, hadd₁, h₁, hx₁⟩ := addPathToPlist_copies hc h hg.recs hx hput' (by omega)
  obtain ⟨l₁, u₁, hf₁, hle⟩ := @Image.Finds.replaced b I l u l' u' r r' n dotGlobal hf hg hn (r'.holding p)
    (r'.holding_name p) (by rw [r'.holding_length]; omega)
  obtain ⟨ret, t, hadd, ht, -⟩ := addPathToPlist_copies hc h₁ hf₁.recs hx₁ (hput.imp_right hle.trans')
    (by rw [size_holding hg.recs]; omega)
  refine ⟨ret, t, (addPath_toOther h hg hn hadd₁ h₁ hf₁).trans hadd, fun m hm q => ?_⟩
  rw [ht.hasPath_iff, h.hasPath_iff, hf₁.holding p, hg.holding p, Subtype.ext_iff]
  refine has_inserted hg.named hf.named (fun heq => hn (Subtype.ext heq)) m.val ?_
  exact hm.imp (congrArg Subtype.val) (congrArg Subtype.val)

/-- Two paths that are as long as one growth of a bucket, with their NULs. -/
def pathAs : CStr := ⟨List.replicate 127 97, fun h => by cases List.eq_of_mem_replicate h⟩

def pathBs : CStr := ⟨List.replicate 127 98, fun h => by cases List.eq_of_mem_replicate h⟩

theorem pathAs_length : pathAs.mem.length = 128 := by
  rw [CStr.mem_length, pathAs, List.length_replicate]

theorem pathBs_length : pathBs.mem.length = 128 := by
  rw [CStr.mem_length, pathBs, List.length_replicate]

theorem pathAs_ne_pathBs : pathAs ≠ pathBs := fun h =>
  absurd (congrArg (fun p : CStr => p.val.head?) h) (by decide)

private theorem growth_le (r : Record) (hp : p.mem.length = 128) : r.growth p ≤ 256 := by
  have := @roundsFor_least r.gap p.mem.length 2 (by omega)
  unfold Record.growth Record.rounds
  split <;> omega

def crowded : Record := ((Record.started nameA).holding pathAs).holding pathBs

private theorem crowded_heap : crowded.heap = [pathAs, pathBs] := by
  have hnew : pathBs ∉ ((Record.started nameA).holding pathAs).paths := by
    rw [Record.mem_holding]
    rintro (heq | hp)
    · exact pathAs_ne_pathBs heq.symm
    · cases hp
  rw [crowded, Record.holding_new hnew, Record.add, Record.insert_heap, Record.grow_heap,
    Record.holding_new (show pathAs ∉ (Record.started nameA).paths from List.not_mem_nil)]
  rfl

private theorem reached_started (hc : env.Calm) (hr : Reached env (fun _ => True) s) (h : Holds b I s)
    (hn : I.Lacks n)
    (hsize : I.size + 272 < 2 ^ 32) :
    ∃ t, Reached env (fun _ => True) t ∧ Holds b (I.followedBy (.started n)) t := by
  obtain ⟨t, hx, ht, -⟩ := h.started hc hn hsize
  exact ⟨t, @Reached.call _ _ (.startPlaylist n) _ _ _ hr trivial hx, ht⟩

private theorem reached_holding (hc : env.Calm) (hr : Reached env (fun _ => True) s) (h : Holds b I s)
    (hf : I.Finds n l r u) (hp : p.mem.length = 128) (hsize : I.size + 256 < 2 ^ 32) :
    ∃ t, Reached env (fun _ => True) t ∧ Holds b (I.withRecs (l ++ r.holding p :: u)) t ∧
      (I.withRecs (l ++ r.holding p :: u)).size ≤ I.size + 256 := by
  have hle := growth_le r hp
  obtain ⟨ret, t, hx, ht⟩ := addPathToPlist_holding hc h hf.recs (by rw [hp]; decide) (by omega)
  refine ⟨t, @Reached.call _ _ (.addPathToPlist n p) _ _ _ hr trivial ((addPathToPlist_exec h hf p).trans hx), ht, ?_⟩
  rw [size_holding hf.recs]
  omega

private theorem crowded_moves (l : List Record) (r : Record) :
    pathAddr b (l ++ [r]) crowded pathBs = pathAddr b (l ++ [r.grow 128]) crowded pathAs := by
  have hlen := pathAs_length
  simp only [pathAddr, crowded_heap, heapOffset, if_pos, if_neg pathAs_ne_pathBs, mlibBucketStringAt,
    bucketStrings,
    plistData, recAddr, recsBytes_append, recsBytes_cons, recsBytes_nil, List.length_append,
      Record.bytes_length,
    Record.grow_length]
  omega

def crowdedGlobal : Record := (Record.started dotGlobal).holding pathBs

private theorem reached_crowded : ∃ s b I, Reached (.steady .little) (fun _ => True) s ∧ Holds b I s ∧
    I.size ≤ 2608 ∧
    I.Finds dotGlobal [] crowdedGlobal [.started nameAB, crowded] ∧
    I.Finds nameAB [crowdedGlobal] (.started nameAB) [crowded] := by
  obtain ⟨s, hn, hp, b, hs, h, -⟩ := @Env.steady_created CStr.empty (by decide)
  have hc := Env.steady_calm .little
  have hsize := @Image.size_created CStr.empty CStr.empty hn hp
  set I := Image.created CStr.empty CStr.empty hn hp
  have hlack : ∀ n, n ≠ dotGlobal → I.Lacks n := fun n => Image.created_lacks
  obtain ⟨s₁, hr₁, h₁⟩ := reached_started hc (.created hs) h (hlack nameAB (by decide)) (by omega)
  have hsize₁ : (I.followedBy (.started nameAB)).size = I.size + 272 := I.size_started nameAB
  set I₁ := I.followedBy (.started nameAB)
  have hlack₁ : I₁.Lacks nameA := (hlack nameA (by decide)).behind (by decide)
  obtain ⟨s₂, hr₂, h₂⟩ := reached_started hc hr₁ h₁ hlack₁ (by omega)
  have hsize₂ : (I₁.followedBy (.started nameA)).size = I₁.size + 272 := I₁.size_started nameA
  have hf₂ : (I₁.followedBy (.started nameA)).Finds nameA I₁.recs (.started nameA) [] :=
    hlack₁.finds_last (storedName_eq (by decide))
  obtain ⟨s₃, hr₃, h₃, hsize₃⟩ := reached_holding hc hr₂ h₂ hf₂ pathAs_length (by omega)
  have hf₃ := @Image.Lacks.finds_last I₁ nameA ((Record.started nameA).holding pathAs) hlack₁
    ((Record.holding_name _ _).trans hf₂.name)
  obtain ⟨s₄, hr₄, h₄, hsize₄⟩ := reached_holding hc hr₃ h₃ hf₃ pathBs_length (by omega)
  have hf₄ : (I₁.followedBy crowded).Finds dotGlobal [] (.started dotGlobal) [.started nameAB, crowded] :=
    ⟨rfl, storedName_eq (by decide), by rintro r ⟨⟩⟩
  obtain ⟨s₅, hr₅, h₅, hsize₅⟩ := reached_holding hc hr₄ h₄ hf₄ pathBs_length (by omega)
  have hname : crowdedGlobal.name = dotGlobal := (Record.holding_name _ _).trans hf₄.name
  refine ⟨s₅, b, _, hr₅, h₅, by omega, ⟨rfl, hname, by rintro r ⟨⟩⟩, ⟨rfl, storedName_eq (by decide), fun r hr => ?_⟩⟩
  rw [List.mem_singleton.mp hr, hname]
  decide

/-- In every library that is reached, the path at an index of a playlist is copied to another playlist
and to `.global` where neither of them grows in front of it. -/
theorem copied_path_arrives {kind : Call → Prop} (hc : env.Calm) (h : Reached env kind s)
    (hall : mlibForEachPls env.endian s.mem = .ok plists) (ha : a ∈ plists)
    (hx : mlibGetPathAt env.endian s.mem a i = .ok (some x)) (hp : chars (s.mem.view x) = .ok p.val)
    (hput : StaysPut env.endian s a n p) : CopiesPath env s n x p := by
  obtain ⟨b, I, hI⟩ := h.image hc
  obtain ⟨l, r, u, hrecs, rfl⟩ := hI.visited hall ha
  have hstands := getPathAt_stands hI hrecs hx hp
  obtain ⟨g, d, k₁, k₂, hg, hd, hk₁, hk₂, hput₁, hput₂, hsize⟩ := hput
  rw [hI.file_length] at hsize
  obtain ⟨lg, rg, ug, hfg, rfl⟩ := hI.finds hg
  obtain rfl := Except.ok.inj ((growthFor_image hI hfg.recs env.endian p).symm.trans hk₁)
  by_cases hn : n = dotGlobal
  · subst hn
    exact addPath_copies_global hc hI hstands hfg hput₁ (by rwa [if_pos rfl] at hsize)
  obtain ⟨ld, rd, ud, hfd, rfl⟩ := hI.finds hd
  obtain rfl := Except.ok.inj ((growthFor_image hI hfd.recs env.endian p).symm.trans hk₂)
  exact addPath_copies_other hc hI hstands hfg hfd hn hput₁ hput₂ (by rwa [if_neg hn] at hsize)

/-- A path of `.global`, which is in front, is copied to `ab`, which grows for it. -/
theorem copied_path_arrives_behind : ∃ s a i x, Reached (.steady .little) (fun _ => True) s ∧
    mlibFindPlaylist .little s.mem dotGlobal = .ok (some a) ∧ mlibGetPathAt .little s.mem a i = .ok (some x) ∧
    CopiesPath (.steady .little) s nameAB x pathBs := by
  obtain ⟨s, b, I, hr, h, hsize, hfg, hfd⟩ := reached_crowded
  have hmem : pathBs ∈ crowdedGlobal.paths := (Record.mem_holding _ _ _).mpr (Or.inl rfl)
  obtain ⟨i, hi⟩ := List.mem_iff_getElem?.mp hmem
  have hstands : I.StandsAt b (recAddr b []) (pathAddr b [] crowdedGlobal pathBs) pathBs :=
    ⟨_, _, _, hfg.recs, rfl, hmem, rfl⟩
  have hx : mlibGetPathAt .little s.mem (recAddr b []) i = .ok (some (pathAddr b [] crowdedGlobal pathBs)) := by
    rw [h.shows.mem, getPathAt_image hfg.recs h.size, hi]
    rfl
  have ha : recAddr b [] ∈ recAddrs b [] I.recs := by
    rw [hfg.recs]
    exact List.mem_cons_self
  have hgrowth := growth_le (.started nameAB) pathBs_length
  refine ⟨s, _, i, _, hr, h.find_some hfg .little, hx,
    copied_path_arrives (Env.steady_calm .little) hr (h.forEachPls _) ha hx (hstands.chars h)
      ⟨_, _, 0, _, h.find_some hfg .little, h.find_some hfd .little, ?_,
        growthFor_image h hfd.recs .little pathBs,
        Or.inl rfl, Or.inr (recAddr_lt []).le, ?_⟩⟩
  · rw [← Record.growth_present hmem]
    exact growthFor_image h hfg.recs .little pathBs
  · rw [h.file_length, if_neg (by decide)]
    omega

/-- The second path of `a` is to be copied to `ab`, which is in front and grows: the pointer shows the
first path of `a` by then, and `ab` gets that. -/
theorem copied_path_moves : ∃ s plists a i x, Reached (.steady .little) (fun _ => True) s ∧
    Named .little s.mem dotGlobal ∧ Named .little s.mem nameAB ∧ mlibForEachPls .little s.mem = .ok plists ∧
    a ∈ plists ∧ mlibGetPathAt .little s.mem a i = .ok (some x) ∧ chars (s.mem.view x) = .ok pathBs.val ∧
    ¬ CopiesPath (.steady .little) s nameAB x pathBs := by
  obtain ⟨s, b, I, hr, h, hsize, hfg, hfd⟩ := reached_crowded
  have hc := Env.steady_calm .little
  have hrecs : I.recs = [crowdedGlobal, .started nameAB] ++ crowded :: [] := hfg.recs
  have hmem : pathBs ∈ crowded.paths := (Record.mem_holding _ _ _).mpr (Or.inl rfl)
  have hmem' : pathAs ∈ crowded.paths :=
    (Record.mem_holding _ _ _).mpr (Or.inr ((Record.mem_holding _ _ _).mpr (Or.inl rfl)))
  set x := pathAddr b [crowdedGlobal, .started nameAB] crowded pathBs
  have hstands : I.StandsAt b (recAddr b [crowdedGlobal, .started nameAB]) x pathBs :=
    ⟨_, _, _, hrecs, rfl, hmem, rfl⟩
  obtain ⟨i, hi⟩ := List.mem_iff_getElem?.mp hmem
  refine ⟨s, recAddrs b [] I.recs, recAddr b [crowdedGlobal, .started nameAB], i, x, hr,
    ⟨_, h.find_some hfg .little⟩, ⟨_, h.find_some hfd .little⟩, h.forEachPls _, ?_, ?_, hstands.chars h, ?_⟩
  · rw [hrecs]
    exact List.mem_cons_of_mem _ (List.mem_cons_of_mem _ List.mem_cons_self)
  · rw [h.shows.mem, getPathAt_image hrecs h.size, hi]
    rfl
  -- `.global` has the path already, and `ab` grows by just the length of the first path
  have hgp : pathBs ∈ crowdedGlobal.paths := (Record.mem_holding _ _ _).mpr (Or.inl rfl)
  have hnot : ∀ p, p ∉ (Record.started nameAB).paths := fun p => List.not_mem_nil
  have hrounds : (Record.started nameAB).rounds pathBs = 1 := by
    rw [Record.rounds, pathBs_length]
    rfl
  have hmoved : x = pathAddr b [crowdedGlobal, (Record.started nameAB).grow 128] crowded pathAs :=
    crowded_moves [crowdedGlobal] (.started nameAB)
  obtain ⟨ret, t, hx, hhas⟩ := addPath_stale hc h hfg hfd (by decide) hstands hgp (hnot pathBs) (hnot pathAs)
    (by rw [pathAs, pathBs]; rfl) (by rw [hrounds]; omega) (by
      rw [hrounds]
      exact ⟨_, [crowdedGlobal, (Record.started nameAB).grow 128], crowded, [], rfl, rfl, hmem', hmoved⟩)
  rintro ⟨ret', t', hx', hall⟩
  cases hx.symm.trans hx'
  rcases (hhas pathBs).mp ((hall nameAB (Or.inr rfl) pathBs).mpr (Or.inr rfl)) with hold | hsame
  · rw [h.hasPath_iff, hfd.has] at hold
    exact hnot pathBs hold
  · exact pathAs_ne_pathBs hsame.symm

end Mlib

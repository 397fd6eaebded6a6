import Mlib.Image.Frames
import Mlib.Image.Runs

/-! Where a file is mapped after it grew: the operations that grow it give the same result
wherever that is exactly when the file ends up where it was, or nothing is written after the
growth. Each of them keeps a pointer of its own into the old mapping. -/
namespace Mlib
open Foundation

/-- The same system, but a file that is mapped again stays at its old address. -/
def Env.unmoved (env : Env) : Env := { env with
  mmap := fun n hint len => (env.mmap n hint len).map fun a => if pageSize ∣ hint ∧ 0 < hint then hint else a
  mmap_places := by
    intro n hint len a h
    obtain ⟨a', ha', rfl⟩ := Option.map_eq_some_iff.mp h
    split
    · assumption
    · exact env.mmap_places _ _ _ _ ha' }

/-- The call returns, with the value and the bytes that it gives when the file is not moved. -/
def SameUnmoved (env : Env) (s : Lib) (c : Call) : Prop :=
  ∃ ret t t', c.exec env s = .ok (ret, t) ∧ c.exec env.unmoved s = .ok (ret, t') ∧ t.file = t'.file

/-- A playlist is not started, because its name is taken or the file would pass 4 GiB, or the
file is mapped again where it was. -/
def StartStays (env : Env) (s : Lib) (n : CStr) : Prop :=
  mlibFindPlaylist env.endian s.mem n ≠ .ok none ∨ 2 ^ 32 ≤ s.file.length + 272 ∨
    env.mmap s.remaps s.header (s.file.length + 272) = some s.header

/-- A path is not added, because there is no such playlist, it is there already or the file
would pass 4 GiB, or it has a 32-bit length and the last growth maps the file where it was. -/
def AddStays (env : Env) (s : Lib) (n p : CStr) : Prop :=
  ∀ plist, mlibFindPlaylist env.endian s.mem n = .ok (some plist) →
    ∃ found free, mlibFindPath env.endian s.mem plist p = .ok found ∧
      freeBytes env.endian s.mem plist = .ok free ∧
      (found.isSome ∨ 2 ^ 32 ≤ s.file.length + 128 * roundsFor free (u32 p.mem.length) ∨
        p.mem.length < 2 ^ 32 ∧ landing env (roundsFor free p.mem.length) s.remaps s.header s.file.length = s.header)

variable {env : Env} {a b : Nat} {I : Image} {s t : Lib} {n p : CStr} {l u : List Record} {r : Record} {ret : Int}

theorem Env.unmoved_mmap (hg : env.Grows) (hb : Placed b) (n len : Nat) :
    env.unmoved.mmap n b len = some b := by
  obtain ⟨a, ha⟩ := hg.mmap n b len hb
  simp only [Env.unmoved, ha, Option.map_some]
  exact congrArg some (if_pos hb)

theorem Env.Grows.unmoved (hg : env.Grows) : env.unmoved.Grows :=
  ⟨hg.lseek, hg.write, fun n hint len h => ⟨hint, Env.unmoved_mmap hg h n len⟩⟩

theorem landing_unmoved (hg : env.Grows) (hb : Placed b) (k m L : Nat) : landing env.unmoved k m b L = b := by
  induction k generalizing m L with
  | zero => rfl
  | succ k ih => rw [landing, Env.unmoved_mmap hg hb, Option.getD_some, ih]

/-- Two mappings at different addresses are a page apart. -/
theorem Placed.apart (ha : Placed a) (hb : Placed b) (h : a ≠ b) : a + 4096 ≤ b ∨ b + 4096 ≤ a := by
  obtain ⟨x, rfl⟩ := ha.1
  obtain ⟨y, rfl⟩ := hb.1
  simp only [pageSize] at h ⊢
  omega

private theorem getElem_append {x y : Bytes} {i k : Nat} (h : k = x.length + i) : (x ++ y)[k]? = y[i]? := by
  rw [h, List.getElem?_append_right (by omega), Nat.add_sub_cancel_left]

/-- A record filled in relative to the old mapping leaves the new one without its magic. -/
theorem fillRecord_elsewhere (hs : Shows a ((I.head (I.size + 272) ++ recsBytes I.recs) ++ zeros 272) s)
    (hb : Placed b)
    (hab : a ≠ b) (h : fillRecord env (b + I.size) n s = .ok (ret, t)) :
    t.file ≠ (I.withRecs (I.recs ++ [.started n])).bytes := by
  intro he
  have hlen : I.size = (I.head (I.size + 272) ++ recsBytes I.recs).length + 0 := by
    rw [List.length_append, Image.head_length, Image.size, Nat.add_zero]
  have hapart := hs.placed.apart hb hab
  obtain ⟨-, hkeep⟩ := writesOnly_fillRecord env (b + I.size) n s ret t h
  have hsame := hkeep I.size (by rw [hs.header]; omega)
  have hmagic : (Record.started n).bytes[0]? = some 16 := rfl
  have hzero : (zeros 272)[0]? = some 0 := rfl
  rw [he, Image.bytes_started, hs.file, getElem_append hlen, getElem_append hlen, hmagic, hzero] at hsame
  cases hsame

theorem startPlaylist_same_iff (hg : env.Grows) (h : Holds b I s) (n : CStr) :
    SameUnmoved env s (.startPlaylist n) ↔ StartStays env s n := by
  obtain ⟨hs, hsz⟩ := id h
  have hlen : s.file.length = I.size := by rw [hs.file, Image.bytes_length]
  rcases I.finds_or_lacks n with hn | ⟨l, r, u, hI, rfl, hl⟩
  · have hfind := h.find_none hn env.endian
    rw [StartStays, hlen, hs.header]
    by_cases hsize : I.size + 272 < 2 ^ 32
    · obtain ⟨t', he', ht', -⟩ := startPlaylist_starts hg.unmoved hs hn hsize (Env.unmoved_mmap hg hs.placed _ _)
      obtain ⟨a, s₁, he, hs₁, -, hclock, hmap⟩ := (startPlaylist_cases env hs hn hsize).resolve_left
        fun ⟨_, _, _, _, hng⟩ => hng hg
      constructor
      · rintro ⟨ret, t, t'', hx, hx', hfile⟩
        refine Or.inr (Or.inr ?_)
        by_contra hmoved
        have hab : a ≠ b := fun hab => hmoved (hab ▸ hmap)
        rw [show Call.exec env.unmoved (.startPlaylist n) s = _ from he'] at hx'
        cases hx'
        rw [show Call.exec env (.startPlaylist n) s = _ from he] at hx
        exact fillRecord_elsewhere hs₁ hs.placed hab hx (hfile.trans ht'.file)
      · rintro (hne | hbig | hsame)
        · exact absurd hfind hne
        · omega
        · obtain rfl : b = a := Option.some.inj (hsame.symm.trans hmap)
          obtain ⟨t, hx, ht, -⟩ := @fillRecord_image env b I s₁ n hsize hs₁
          rw [hclock] at hx
          exact ⟨_, t, t', he.trans hx, he', ht.file.trans ht'.file.symm⟩
    · refine iff_of_true ⟨-1, _, _, startPlaylist_refused hs hsz hn (by omega),
        startPlaylist_refused hs hsz hn (by omega), rfl⟩ (Or.inr (Or.inl (by omega)))
  · refine iff_of_true ⟨-1, s, s, startPlaylist_present hs hI hsz hl, startPlaylist_present hs hI hsz hl, rfl⟩
      (Or.inl ?_)
    rw [hs.mem, findPlaylist_some hsz hI hl]
    rintro ⟨⟩

/-- A count raised through a pointer into the old mapping leaves that of the record as it was. -/
theorem addPathToPlist_elsewhere (hg : env.Grows) (hs : Shows b I.bytes s) (hI : I.recs = l ++ r :: u)
    (hp : p ∉ r.paths)
    (hlt : p.mem.length < 2 ^ 32) (hsize : I.size + 128 * r.rounds p < 2 ^ 32)
    (hland : landing env (r.rounds p) s.remaps b I.size ≠ b)
    (h : mlibAddPathToPlist env (recAddr b l) (.own p) s = .ok (ret, t)) :
    t.file ≠ (I.withRecs (l ++ r.add p hp :: u)).bytes := by
  intro he
  obtain ⟨a, s₁, hx, ha, hs₁, -, -⟩ := bucketAdd_adds hg hs hI hp hlt hsize
  have hapart := hs₁.placed.apart hs.placed (ha ▸ hland)
  have hrest : Op.WritesOnly (recAddr b l + 8) (recAddr b l + 12) (do
      mlibPlistSetMcount env.endian (recAddr b l) (u32 ((← look (mlibPlistMcount env.endian · (recAddr b l))) + 1))
      return 0 : Op Int) := by
    apply writesOnly_bind (writesOnly_look _)
    intro _
    exact writesOnly_bind (writesOnly_writel (le_refl _) (by omega)) fun _ => writesOnly_pure _
  rw [addPathToPlist_start hs hI, Op.step hx, if_neg (by decide)] at h
  obtain ⟨-, hkeep⟩ := hrest _ _ _ h
  have hsplit := Image.size_split (rfl : (I.withRecs (l ++ r.add p hp :: u)).recs = _)
  have hbl : (r.add p hp).length = 144 + ((r.add p hp).indexOffs + 4 * (r.add p hp).paths.length) := rfl
  have hcount : (r.add p hp).paths.length = r.paths.length + 1 := List.orderedInsert_length _ _ _
  rw [size_add hI hp] at hsplit
  -- the file around the count
  set X := (I.head (I.size + 128 * r.rounds p) ++ recsBytes l) ++ (be32 mlibPlistHdrMagic ++ be32 (r.add p hp).length)
    with hX
  have hfile : ∀ m, (I.head (I.size + 128 * r.rounds p) ++ recsBytes l) ++ ((r.add p hp).bytesWith m ++ recsBytes u) =
      X ++ (be32 m ++ (field 116 (r.add p hp).name.val ++ ((r.add p hp).bucket ++ recsBytes u))) := fun m => by
    simp only [hX, Record.bytesWith, Record.head, plistBytes, List.append_assoc]
  have hXlen : X.length = 1024 + (recsBytes l).length + 8 := by
    simp only [hX, List.length_append, Image.head_length, be32_length]
  have hsame : be32 (r.paths.length + 1) = be32 r.paths.length := by
    apply List.ext_getElem?
    intro j
    by_cases hj : j < 4
    · have hj' := hkeep (X.length + j) (by rw [hs₁.header, hXlen, recAddr]; omega)
      rw [he, Image.bytes_added hI hp, hs₁.file, hfile, hfile, getElem_append rfl, getElem_append rfl,
        List.getElem?_append_left (by simpa using hj), List.getElem?_append_left (by simpa using hj)] at hj'
      exact hj'
    · rw [List.getElem?_eq_none (by simpa using hj), List.getElem?_eq_none (by simpa using hj)]
  have := be32_injective (by omega) (by omega) hsame
  omega

private theorem addStays_iff (h : Holds b I s) (hf : I.Finds n l r u) (p : CStr) :
    AddStays env s n p ↔ (p ∈ r.paths ∨ 2 ^ 32 ≤ I.size + 128 * roundsFor r.gap (u32 p.mem.length) ∨
      p.mem.length < 2 ^ 32 ∧ landing env (r.rounds p) s.remaps b I.size = b) := by
  have hlen := h.file_length
  have hfind := h.find_some hf env.endian
  obtain ⟨found, hfound, hiff⟩ := @findPath_image env.endian b I l u r hf.recs h.size p
  have hfree := @freeBytes_image env.endian b I l u r hf.recs h.size
  rw [← h.shows.mem] at hfound hfree
  rw [← hiff, ← hlen, ← h.shows.header]
  constructor
  · intro hadd
    obtain ⟨found', free, hfound', hfree', hor⟩ := hadd _ hfind
    rw [hfound] at hfound'
    rw [hfree] at hfree'
    cases hfound'
    cases hfree'
    exact hor
  · intro hor plist hplist
    rw [hfind] at hplist
    cases hplist
    exact ⟨found, r.gap, hfound, hfree, hor⟩

private theorem addPathToPlist_lands (hg : env.Grows) (h : Holds b I s) (hf : I.Finds n l r u)
    (hp : p ∉ r.paths)
    (hlt : p.mem.length < 2 ^ 32) (hsize : I.size + 128 * r.rounds p < 2 ^ 32) :
    SameUnmoved env s (.addPathToPlist n p) ↔ landing env (r.rounds p) s.remaps b I.size = b := by
  obtain ⟨hs, hsz⟩ := id h
  rw [SameUnmoved, addPathToPlist_exec h hf, addPathToPlist_exec h hf]
  obtain ⟨t', he', ht', -⟩ := addPathToPlist_adds hs hf.recs hg.unmoved hp hlt hsize
    (landing_unmoved hg hs.placed _ _ _)
  constructor
  · rintro ⟨ret, t, t'', hx, hx', hfile⟩
    by_contra hmoved
    rw [he'] at hx'
    cases hx'
    exact addPathToPlist_elsewhere hg hs hf.recs hp hlt hsize hmoved hx (hfile.trans ht'.file)
  · intro hland
    obtain ⟨t, he, ht, -⟩ := addPathToPlist_adds hs hf.recs hg hp hlt hsize hland
    exact ⟨0, t, t', he, he', ht.file.trans ht'.file.symm⟩

theorem addPathToPlist_same_iff (hg : env.Grows) (h : Holds b I s) (n p : CStr) :
    SameUnmoved env s (.addPathToPlist n p) ↔ AddStays env s n p := by
  obtain ⟨hs, hsz⟩ := id h
  rcases I.finds_or_lacks n with hn | ⟨l, r, u, hf⟩
  · have hfind := h.find_none hn env.endian
    have hnone : ∀ env, Call.exec env (.addPathToPlist n p) s = .ok (-1, s) := by
      intro env
      rw [Call.exec, Op.step (findPlaylist_lacks h hn)]
      rfl
    refine iff_of_true ⟨-1, s, s, hnone env, hnone env.unmoved, rfl⟩ fun plist hplist => ?_
    rw [hfind] at hplist
    cases hplist
  have hI := hf.recs
  rw [addStays_iff h hf]
  by_cases hp : p ∈ r.paths
  · have hsame : ∀ env, Call.exec env (.addPathToPlist n p) s = .ok (-1, s) := fun env =>
      (addPathToPlist_exec h hf p).trans (addPathToPlist_present hs hI hsz hp)
    exact iff_of_true ⟨-1, s, s, hsame env, hsame env.unmoved, rfl⟩ (Or.inl hp)
  by_cases hsize : I.size + 128 * roundsFor r.gap (u32 p.mem.length) < 2 ^ 32
  · by_cases hlt : p.mem.length < 2 ^ 32
    · have hu : u32 p.mem.length = p.mem.length := Nat.mod_eq_of_lt hlt
      rw [addPathToPlist_lands hg h hf hp hlt (by rwa [hu] at hsize)]
      constructor
      · exact fun hland => Or.inr (Or.inr ⟨hlt, hland⟩)
      · rintro (hpath | hbig | ⟨-, hland⟩)
        · exact absurd hpath hp
        · omega
        · exact hland
    · have hfault := addPathToPlist_faults hs hI hg hp (by omega) hsize
      refine iff_of_false ?_ ?_
      · rintro ⟨ret, t, t', hx, -⟩
        rw [addPathToPlist_exec h hf, hfault] at hx
        cases hx
      · rintro (hpath | hbig | ⟨hlt', -⟩)
        · exact hp hpath
        · omega
        · omega
  · obtain ⟨j, t, he, ht, hj, -⟩ := addPathToPlist_refused hs hI hg hsz hp (by omega)
    obtain ⟨j', t', he', ht', hj', -⟩ := addPathToPlist_refused hs hI hg.unmoved hsz hp (by omega)
    obtain rfl : j = j' := by omega
    exact iff_of_true ⟨-1, t, t', (addPathToPlist_exec h hf p).trans he, (addPathToPlist_exec h hf p).trans he',
      ht.file.trans ht'.file.symm⟩ (Or.inr (Or.inl (by omega)))

/-- In every library that is reached, starting a playlist and adding a path to one do the same
wherever the file is mapped, without touching what is not mapped, exactly when they grow
nothing or the file is mapped where it was in the end. -/
theorem growth_same_iff {env₀ : Env} {kind : Call → Prop} (hc : env₀.Calm) (h : Reached env₀ kind s)
    (hg : env.Grows) :
    (∀ n, SameUnmoved env s (.startPlaylist n) ↔ StartStays env s n) ∧
      ∀ n p, SameUnmoved env s (.addPathToPlist n p) ↔ AddStays env s n p := by
  obtain ⟨b, I, hI⟩ := h.image hc
  exact ⟨startPlaylist_same_iff hg hI, addPathToPlist_same_iff hg hI⟩

/-- A host that maps a file again on the page behind the address asked for. -/
def Env.shifting : Env := { Env.steady .little with
  mmap := fun _ hint _ => some (pageUp (hint + 1))
  mmap_places := by
    intro n hint len a h
    cases h
    refine ⟨pageUp_dvd _, ?_⟩
    simp only [pageUp, pageSize]
    omega }

theorem Env.shifting_grows : Env.shifting.Grows := ⟨fun _ => rfl, fun _ => rfl, fun _ _ _ _ => ⟨_, rfl⟩⟩

/-- On that host, a path is added that fits into the bucket. -/
theorem growth_same_shifting : ∃ s, Reached (.steady .little) (fun _ => True) s ∧
    SameUnmoved .shifting s (.addPathToPlist nameA pathB) ∧
      SameUnmoved .shifting s (.addPathToPlist nameAB pathB) := by
  have hc := Env.steady_calm .little
  obtain ⟨s, b, hreached, hI, -⟩ := @sample_reached (fun _ => True) (fun _ _ => trivial) trivial
  have hsame := (growth_same_iff hc hreached Env.shifting_grows).2
  exact ⟨s, hreached, (hsame _ _).mpr ((addStays_iff hI Image.sample_finds pathB).mpr (Or.inl List.mem_cons_self)),
    (hsame _ _).mpr ((addStays_iff hI Image.sample_last pathB).mpr (Or.inr (Or.inr ⟨by decide, rfl⟩)))⟩

/-- The record of a new playlist is not written into the new mapping. -/
theorem startPlaylist_moved : ∃ s, Created (.steady .little) CStr.empty CStr.empty s ∧
    ¬ SameUnmoved .shifting s (.startPlaylist nameA) := by
  obtain ⟨s, hn, hp, b, hs, hI, -⟩ := @Env.steady_created CStr.empty (by decide)
  refine ⟨s, hs, (startPlaylist_same_iff Env.shifting_grows hI _).not.mpr ?_⟩
  rintro (hne | hbig | hsame)
  · exact hne (hI.find_none (Image.created_lacks (by decide)) _)
  · rw [hI.shows.file, Image.bytes_length, Image.size_created] at hbig
    omega
  · have heq : pageUp (s.header + 1) = s.header := Option.some.inj hsame
    simp only [pageUp, pageSize] at heq
    omega

end Mlib

import Mlib.Image.Listing

/-! Creating a library: the bytes that are in the file once `mlib_create_library` has
returned zero, whatever the system answered on the way. -/
namespace Mlib
open Foundation

def Image.blank (name mediaPrefix : CStr) (hn : name.val.length ≤ 115)
    (hp : mediaPrefix.val.length ≤ 895) : Image :=
  ⟨name, hn, mediaPrefix, hp, []⟩

def Image.created (name mediaPrefix : CStr) (hn : name.val.length ≤ 115)
    (hp : mediaPrefix.val.length ≤ 895) : Image :=
  (Image.blank name mediaPrefix hn hp).withRecs [.started dotGlobal]

section
variable {env : Env} {b a : Nat} {s : Lib} {name mediaPrefix : CStr} {hn : name.val.length ≤ 115}
  {hp : mediaPrefix.val.length ≤ 895}

private theorem store_field {pre post : Bytes} {n addr : Nat} (str : CStr)
    (hs : Shows b (pre ++ (zeros n ++ post)) s)
    (hn : str.val.length < n) (ha : addr = b + pre.length) :
    store addr str.mem s = .ok ((), s.withFile (pre ++ (field n str.val ++ post))) := by
  have hz : zeros n = zeros str.mem.length ++ zeros (n - str.mem.length) := by
    rw [← zeros_add]
    congr 1
    simp only [CStr.mem_length]
    omega
  have hf : field n str.val = str.mem ++ zeros (n - str.mem.length) := by
    rw [field, CStr.mem, List.append_assoc]
    congr 1
    rw [List.length_append, List.length_singleton]
    change _ = 0 :: zeros _
    rw [← zeros_succ]
    congr 1
    omega
  rw [hz, List.append_assoc] at hs
  rw [hf, List.append_assoc]
  exact store_at pre _ _ hs (zeros_length _) ha

private def headerFields (magic len : Nat) (name mediaPrefix : Bytes) : Bytes :=
  be32 magic ++ (be32 0 ++ (be32 len ++ (name ++ mediaPrefix)))

private theorem header_writes (hs : Shows b (zeros 1024) s) {rest : Op Int} :
    (do
      mlibWritel env.endian b mlibMagic
      mlibWritel env.endian (b + 4) 0
      mlibWritel env.endian (b + 8) 1024
      store (b + 12) name.mem
      store (b + 128) mediaPrefix.mem
      rest : Op Int) s = rest (s.withFile (Image.blank name mediaPrefix hn hp).bytes) := by
  have hW : zeros 1024 = headerFields 0 0 (zeros 116) (zeros 896) := by
    have hz : be32 0 = zeros 4 := rfl
    simp only [headerFields, hz, ← zeros_add]
  have hsW : ∀ m len nm pm, nm.length = 116 → pm.length = 896 →
      Shows b (headerFields m len nm pm) (s.withFile (headerFields m len nm pm)) := by
    intro m len nm pm hn hp
    apply hs.withFile
    simp only [headerFields, List.length_append, be32_length, hn, hp, zeros_length]
  have hz₁ := zeros_length 116
  have hz₂ := zeros_length 896
  have hf₁ : (field 116 name.val).length = 116 := field_length (by omega)
  have hmagic : mlibWritel env.endian b mlibMagic (s.withFile (headerFields 0 0 (zeros 116) (zeros 896))) =
      .ok ((), s.withFile (headerFields mlibMagic 0 (zeros 116) (zeros 896))) :=
    mlibWritel_at [] 0 mlibMagic _ (hsW 0 0 _ _ hz₁ hz₂) rfl
  have hcount : mlibWritel env.endian (b + 4) 0 (s.withFile (headerFields mlibMagic 0 (zeros 116) (zeros 896))) =
      .ok ((), s.withFile (headerFields mlibMagic 0 (zeros 116) (zeros 896))) :=
    mlibWritel_at (be32 mlibMagic) 0 0 _ (hsW mlibMagic 0 _ _ hz₁ hz₂) rfl
  have hlen : mlibWritel env.endian (b + 8) 1024 (s.withFile (headerFields mlibMagic 0 (zeros 116) (zeros 896))) =
      .ok ((), s.withFile (headerFields mlibMagic 1024 (zeros 116) (zeros 896))) :=
    mlibWritel_at (be32 mlibMagic ++ be32 0) 0 1024 _ (hsW mlibMagic 0 _ _ hz₁ hz₂) rfl
  have hname : store (b + 12) name.mem (s.withFile (headerFields mlibMagic 1024 (zeros 116) (zeros 896))) =
      .ok ((), s.withFile (headerFields mlibMagic 1024 (field 116 name.val) (zeros 896))) :=
    @store_field b _ (be32 mlibMagic ++ (be32 0 ++ be32 1024)) (zeros 896) 116 _ name
      (hsW mlibMagic 1024 _ _ hz₁ hz₂) (by omega) rfl
  have hprefix : store (b + 128) mediaPrefix.mem
      (s.withFile (headerFields mlibMagic 1024 (field 116 name.val) (zeros 896))) =
      .ok ((), s.withFile (headerFields mlibMagic 1024 (field 116 name.val) (field 896 mediaPrefix.val))) := by
    have h := @store_field b _ (be32 mlibMagic ++ (be32 0 ++ (be32 1024 ++ field 116 name.val))) [] 896 (b + 128)
      mediaPrefix (by
        simp only [List.append_assoc, List.append_nil]
        exact hsW mlibMagic 1024 (field 116 name.val) (zeros 896) hf₁ hz₂) (by omega)
      (by simp only [List.length_append, be32_length, hf₁])
    simp only [List.append_assoc, List.append_nil] at h
    exact h
  have hsame : s = s.withFile (headerFields 0 0 (zeros 116) (zeros 896)) := by
    rw [← hW, ← hs.file]
    rfl
  have hdone : (Image.blank name mediaPrefix hn hp).bytes =
      headerFields mlibMagic 1024 (field 116 name.val) (field 896 mediaPrefix.val) :=
    List.append_nil _
  rw [hsame, Op.step hmagic, Op.step hcount, Op.step hlen, Op.step hname, Op.step hprefix, hdone]
  rfl

private def afterHeader (env : Env) (header : Nat) : Op Int := do
  let _ ← mlibStartPlaylist env dotGlobal
  let _ ← sysCall env.msync
  munmap header (← look (mlibLibLen env.endian))
  return 0

private theorem store_nothing (hh : s.header = b) : store b [] s = .ok ((), s) := by
  rw [store, if_pos (by simp [hh]), hh]
  simp [splice, Lib.withFile]

private theorem header_faults {rest : Op Int} (hh : s.header = b) (hm : s.mem.bytes = []) :
    (do
      memset b (UInt8.ofNat mlibHeaderSize) 0
      mlibWritel env.endian b mlibMagic
      rest : Op Int) s = .error .fault := by
  have hf : mlibWritel env.endian b mlibMagic s = .error .fault := by
    rw [mlibWritel, store32_htobe32, store, if_neg]
    rw [hm, be32_length, List.length_nil]
    omega
  rw [memset, List.replicate_zero, Op.step (store_nothing hh), Op.step_fails hf]

private theorem create_header (env : Env) (hn : name.val.length ≤ 115) (hp : mediaPrefix.val.length ≤ 895) :
    (mlibCreateLibrary env true name mediaPrefix Lib.fresh = .error .fault ∧ ¬ env.Calm) ∨
      ∃ b s, Shows b (Image.blank name mediaPrefix hn hp).bytes s ∧
        mlibCreateLibrary env true name mediaPrefix Lib.fresh = afterHeader env b s := by
  rw [mlibCreateLibrary, if_neg (by simp only [mlibLibraryLibNameLen]; omega),
    if_neg (by simp only [mlibLibraryMediaPrefixLen]; omega), if_neg (by decide)]
  obtain ⟨ret, t, he, hfile, hrem⟩ : ∃ ret t, mlibLibraryExpandFd env 1024 Lib.fresh = .ok (ret, t) ∧
      (t.file = [] ∧ ¬ env.Grows ∨ t.file = zeros 1024) ∧ t.remaps = 0 := by
    rcases expandFd_cases env Lib.fresh 1024 (by decide) with ⟨n, he, hng⟩ | he
    · exact ⟨_, _, he, Or.inl ⟨rfl, hng⟩, rfl⟩
    · exact ⟨_, _, he, Or.inr rfl, rfl⟩
  rw [Op.step he, Op.step (rfl : mmap env 0 1024 t = _)]
  cases ha : env.mmap t.remaps 0 1024 with
  | none =>
    left
    dsimp only [Option.getD_none]
    rw [if_neg (by decide), Op.step (rfl : setHeader mapFailed _ _ = _)]
    refine ⟨header_faults rfl (@List.take_zero UInt8 t.file), fun hc => ?_⟩
    obtain ⟨a, ha'⟩ := hc.mmap_new t.remaps 1024
    rw [ha'] at ha
    cases ha
  | some a =>
    have hpl := env.mmap_places _ _ _ _ ha
    dsimp only [Option.getD_some]
    rw [if_neg (by have := hpl.2; omega), Op.step (rfl : setHeader a _ _ = _)]
    rcases hfile with ⟨hf, hng⟩ | hf
    · left
      exact ⟨header_faults rfl (by simp [Lib.mem, hf]), fun hc => hng hc.grows⟩
    · right
      have hs : Shows a (zeros 1024) ⟨a, t.file, 1024, t.leftover, t.clock, t.remaps + 1, t.refused⟩ :=
        ⟨rfl, hf, (zeros_length 1024).le, hpl⟩
      refine ⟨a, _, hs.withFile ?_, ?_⟩
      · rw [Image.bytes_length, zeros_length]
        rfl
      · change (store a [] >>= _) ⟨a, t.file, 1024, t.leftover, t.clock, t.remaps + 1, t.refused⟩ = _
        rw [Op.step (store_nothing hs.header)]
        exact header_writes hs

private theorem fillRecord_stray {f : Bytes} (hs : Shows a f s) (hf : f.length = 1024 + 272)
    (hb : Placed b) (hab : a ≠ b) :
    fillRecord env (b + 1024) name s = .error .fault := by
  obtain ⟨x, hx⟩ := hs.placed.1
  obtain ⟨y, hy⟩ := hb.1
  apply Op.step_fails
  apply store_fault hs
  simp only [plistName, mlibPlistNameLen, List.length_replicate, pageSize] at hx hy ⊢
  omega

theorem Image.created_finds : (Image.created name mediaPrefix hn hp).Finds dotGlobal [] (.started dotGlobal) [] :=
  ⟨rfl, storedName_eq (by decide), by rintro r ⟨⟩⟩

/-- A new library has no playlist but `.global`. -/
theorem Image.created_lacks {n : CStr} (h : n ≠ dotGlobal) :
    (Image.created name mediaPrefix hn hp).Lacks n := by
  intro r hr
  rw [List.mem_singleton.mp hr, (@Image.created_finds name mediaPrefix hn hp).name]
  exact h.symm

theorem Image.size_created : (Image.created name mediaPrefix hn hp).size = 1296 := by
  have hsize : (Image.blank name mediaPrefix hn hp).size = 1024 := rfl
  rw [Image.created, ← List.nil_append [Record.started dotGlobal]]
  exact (Image.size_started _ dotGlobal).trans (by rw [hsize])

theorem Image.created_size : (Image.created name mediaPrefix hn hp).size < 2 ^ 32 := by
  rw [Image.size_created]
  decide

private theorem afterHeader_cases (hs : Shows b (Image.blank name mediaPrefix hn hp).bytes s) :
    (afterHeader env b s = .error .fault ∧ ¬ env.Calm) ∨
      ∃ s', afterHeader env b s = .ok (0, s') ∧ s'.file = (Image.created name mediaPrefix hn hp).bytes := by
  have hsize : (Image.blank name mediaPrefix hn hp).size = 1024 := rfl
  rcases @startPlaylist_cases b (Image.blank name mediaPrefix hn hp) s dotGlobal env hs (by rintro r ⟨⟩)
    (by rw [hsize]; decide) with ⟨s', he, hh, hm, hng⟩ | ⟨c, s₁, he, hs₁, href, -, hmap⟩
  · left
    refine ⟨?_, fun hc => hng hc.grows⟩
    rw [afterHeader, Op.step he, Op.step (rfl : sysCall env.msync s' = _)]
    exact Op.step_fails (look_fails (@libLen_unmapped env.endian { s' with clock := s'.clock + 1 } hm))
  · by_cases hcb : c = b
    · right
      subst hcb
      obtain ⟨s', hx, hs', -⟩ := @fillRecord_image env c (Image.blank name mediaPrefix hn hp) s₁ dotGlobal
        (by rw [hsize]; decide) hs₁
      have hs₂ : Shows c (Image.created name mediaPrefix hn hp).bytes { s' with clock := s'.clock + 1 } :=
        ⟨hs'.header, hs'.file, hs'.mapped, hs'.placed⟩
      rw [afterHeader, Op.step (he.trans hx), Op.step (rfl : sysCall env.msync s' = _),
        Op.step (hs₂.look (libLen_read _ _ _ Image.created_size)),
          Op.step (if_pos hs₂.header.symm : munmap c _ _ = _)]
      exact ⟨_, rfl, hs'.file⟩
    · left
      refine ⟨?_, fun hc => hcb ?_⟩
      · rw [afterHeader]
        apply Op.step_fails
        rw [he]
        refine fillRecord_stray hs₁ ?_ hs.placed hcb
        rw [List.length_append, List.length_append, Image.head_length, zeros_length]
        rfl
      · rw [hc.mmap_again _ _ _ hs.placed] at hmap
        exact (Option.some.inj hmap).symm

/-- Creation that returns zero has written the whole of the new library, whatever the
answers of the system were. -/
theorem createLibrary_file {opened : Bool} (h : mlibCreateLibrary env opened name mediaPrefix Lib.fresh = .ok (0, s)) :
    ∃ hn hp, s.file = (Image.created name mediaPrefix hn hp).bytes := by
  by_cases hn : name.val.length ≤ 115
  · by_cases hp : mediaPrefix.val.length ≤ 895
    · refine ⟨hn, hp, ?_⟩
      cases opened with
      | false =>
        rw [mlibCreateLibrary, if_neg (by simp only [mlibLibraryLibNameLen]; omega),
          if_neg (by simp only [mlibLibraryMediaPrefixLen]; omega), if_pos (by decide)] at h
        cases h
      | true =>
        rcases create_header env hn hp with ⟨hf, -⟩ | ⟨b, s₁, hs₁, he⟩
        · rw [hf] at h
          cases h
        · rw [he] at h
          rcases afterHeader_cases hs₁ with ⟨hf, -⟩ | ⟨s', hx, hfile⟩
          · rw [hf] at h
            cases h
          · rw [hx] at h
            cases h
            exact hfile
    · rw [mlibCreateLibrary, if_neg (by simp only [mlibLibraryLibNameLen]; omega),
        if_pos (by simp only [mlibLibraryMediaPrefixLen]; omega)] at h
      cases h
  · rw [mlibCreateLibrary, if_pos (by simp only [mlibLibraryLibNameLen]; omega)] at h
    cases h

/-- Where every call of the system succeeds, creation returns zero. -/
theorem createLibrary_calm (hc : env.Calm) (hn : name.val.length ≤ 115) (hp : mediaPrefix.val.length ≤ 895) :
    ∃ s, mlibCreateLibrary env true name mediaPrefix Lib.fresh = .ok (0, s) := by
  rcases create_header env hn hp with ⟨-, hnc⟩ | ⟨b, s₁, hs₁, he⟩
  · exact absurd hc hnc
  · rcases afterHeader_cases hs₁ with ⟨-, hnc⟩ | ⟨s', hx, -⟩
    · exact absurd hc hnc
    · exact ⟨s', he.trans hx⟩

/-- On a host where every call of the system succeeds there is a library of every name and prefix that fit. -/
theorem Env.Calm.created (hc : env.Calm) (hn : name.val.length ≤ 115) (hp : mediaPrefix.val.length ≤ 895) :
    ∃ s, Created env name mediaPrefix s := by
  obtain ⟨s, hs⟩ := createLibrary_calm hc hn hp
  obtain ⟨a, ha⟩ := hc.mmap_new 0 s.file.length
  exact ⟨_, .mk hs ha⟩

/-- A created library holds one empty playlist, `.global`. -/
theorem Created.holds (h : Created env name mediaPrefix s) :
    ∃ hn hp b, Holds b (Image.created name mediaPrefix hn hp) s ∧ s.refused = 0 := by
  obtain ⟨hcreated, hmapped⟩ := h
  obtain ⟨hn, hp, hfile⟩ := createLibrary_file hcreated
  refine ⟨hn, hp, _, ⟨⟨rfl, hfile, ?_, env.mmap_places _ _ _ _ hmapped⟩, Image.created_size⟩, rfl⟩
  rw [← hfile]
  exact le_refl _

/-- Two names for libraries and playlists, one a prefix of the other. -/
def nameA : CStr := ⟨[97], by decide⟩

def nameAB : CStr := ⟨[97, 98], by decide⟩

/-- On the steady host there is a library of every name that fits, and this is its image. -/
theorem Env.steady_created (h : name.val.length ≤ 115) :
    ∃ s hn hp b, Created (.steady .little) name CStr.empty s ∧
    Holds b (Image.created name CStr.empty hn hp) s ∧ s.refused = 0 := by
  obtain ⟨s, hs⟩ := @Env.Calm.created _ name CStr.empty (Env.steady_calm .little) h (Nat.zero_le 895)
  obtain ⟨hn, hp, b, hI, href⟩ := hs.holds
  exact ⟨s, hn, hp, b, hs, hI, href⟩

end

end Mlib

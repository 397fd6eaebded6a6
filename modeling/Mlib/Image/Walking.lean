import Mlib.Image.Access

/-! The walk over the records of an image: it visits each of them once, in order, and
finds the first one that carries a given name. -/
namespace Mlib
open Foundation
variable {e : Endian} {b : Nat} {I : Image} {l u : List Record} {r : Record}

/-- The address of the record that follows the records `l`. -/
def recAddr (b : Nat) (l : List Record) : Nat := b + (1024 + (recsBytes l).length)

def recPtr (b : Nat) (l : List Record) : List Record → Option Nat
  | [] => none
  | _ :: _ => some (recAddr b l)

@[simp] theorem recPtr_cons : recPtr b l (r :: u) = some (recAddr b l) := rfl

theorem recAddr_offset (b : Nat) (l : List Record) : recAddr b l = b + recAddr 0 l := by
  rw [recAddr, recAddr, Nat.zero_add]

def recAddrs (b : Nat) (l : List Record) : List Record → List Nat
  | [] => []
  | r :: u => recAddr b l :: recAddrs b (l ++ [r]) u

/-- The addresses of a walk are those of the records. -/
theorem mem_recAddrs {a : Nat} (h : a ∈ recAddrs b l u) :
    ∃ l' r u', u = l' ++ r :: u' ∧ a = recAddr b (l ++ l') := by
  induction u generalizing l with
  | nil => cases h
  | cons r u ih =>
    rcases List.mem_cons.mp h with rfl | h
    · exact ⟨[], r, u, rfl, by rw [List.append_nil]⟩
    · obtain ⟨l', r', u', rfl, rfl⟩ := ih h
      exact ⟨r :: l', r', u', rfl, by rw [List.append_assoc]; rfl⟩

theorem recAddrs_append (l : List Record) (r : Record) (u : List Record) :
    recAddrs b l (u ++ [r]) = recAddrs b l u ++ [recAddr b (l ++ u)] := by
  induction u generalizing l with
  | nil => simp [recAddrs]
  | cons q u ih => simp [recAddrs, ih]

theorem recAddr_lt (m : List Record) : recAddr b l < recAddr b (l ++ r :: m) := by
  have := r.length_ge
  simp only [recAddr, recsBytes_append, recsBytes_cons, List.length_append, Record.bytes_length]
  omega

theorem Image.size_split (h : I.recs = l ++ r :: u) :
    I.size = 1024 + (recsBytes l).length + r.length + (recsBytes u).length := by
  simp only [Image.size, h, recsBytes_append, recsBytes_cons, List.length_append, Record.bytes_length]
  omega

/-- The image around one of its records. -/
theorem Image.bytes_split (h : I.recs = l ++ r :: u) :
    I.bytes = (I.head I.size ++ recsBytes l) ++ (r.bytes ++ recsBytes u) := by
  rw [Image.bytes_eq, h, recsBytes_append, recsBytes_cons, List.append_assoc]

theorem Image.pre_addr (len : Nat) : b + (I.head len ++ recsBytes l).length = recAddr b l := by
  rw [List.length_append, Image.head_length, recAddr]

/-- Every record takes up space, so there are far fewer than the rounds of any loop. -/
theorem recs_length_le (recs : List Record) : 160 * recs.length ≤ (recsBytes recs).length := by
  induction recs with
  | nil => simp
  | cons r recs ih =>
    have := r.length_ge
    simp only [recsBytes_cons, List.length_append, Record.bytes_length, List.length_cons]
    omega

private theorem libLen_image (hI : I.size < 2 ^ 32) : mlibLibLen e ⟨b, I.bytes⟩ = .ok I.size :=
  libLen_read I I.size (recsBytes I.recs) hI

private theorem bytes_head (h : I.recs = l ++ r :: u) :
    I.bytes = (I.head I.size ++ recsBytes l) ++
      (plistBytes r.length r.paths.length r.name.val ++ (r.bucket ++ recsBytes u)) := by
  simp only [Image.bytes_split h, Record.bytes, Record.bytesWith, Record.head, List.append_assoc]

theorem plistMagic_image (h : I.recs = l ++ r :: u) :
    mlibPlistMagic e ⟨b, I.bytes⟩ (recAddr b l) = .ok mlibPlistHdrMagic := by
  rw [bytes_head h]
  exact plistMagic_read (Image.pre_addr I.size).symm

theorem plistLen_image (h : I.recs = l ++ r :: u) (hI : I.size < 2 ^ 32) :
    mlibPlistLen e ⟨b, I.bytes⟩ (recAddr b l) = .ok r.length := by
  have hs := Image.size_split h
  rw [bytes_head h]
  exact plistLen_read (Image.pre_addr I.size).symm (by omega)

theorem plistMcount_image (h : I.recs = l ++ r :: u) (hI : I.size < 2 ^ 32) :
    mlibPlistMcount e ⟨b, I.bytes⟩ (recAddr b l) = .ok r.paths.length := by
  have hs := Image.size_split h
  have hbl : r.length = 144 + (r.indexOffs + 4 * r.paths.length) := rfl
  rw [bytes_head h]
  exact plistMcount_read (Image.pre_addr I.size).symm (by omega)

theorem plistName_image (h : I.recs = l ++ r :: u) :
    ∃ rest, (Mem.mk b I.bytes).view (plistName (recAddr b l)) = r.name.val ++ 0 :: rest := by
  rw [bytes_head h]
  exact plistName_view (Image.pre_addr I.size).symm (by have := r.name_length; omega)

private theorem checkLen_image (h : I.recs = l ++ u) (hI : I.size < 2 ^ 32) :
    mlibPlistCheckLen e ⟨b, I.bytes⟩ (recAddr b l) = .ok (decide (u = [])) := by
  simp only [mlibPlistCheckLen, libLen_image hI, ok_bind, pure_ok, Except.ok.injEq, decide_eq_decide]
  have hl := recs_length_le u
  simp only [recAddr, Image.size, h, recsBytes_append, List.length_append]
  constructor
  · intro hle
    exact List.length_eq_zero_iff.mp (by omega)
  · rintro rfl
    simp

theorem nextPlaylist_first (hI : I.size < 2 ^ 32) :
    mlibNextPlaylist e ⟨b, I.bytes⟩ none = .ok (recPtr b [] I.recs) := by
  have hc := @checkLen_image e b I [] I.recs rfl hI
  simp only [mlibNextPlaylist, Option.getD_none]
  change (mlibPlistCheckLen e ⟨b, I.bytes⟩ (recAddr b []) >>= _) = _
  rw [hc, ok_bind]
  cases h : I.recs with
  | nil => simp [recPtr]
  | cons r u =>
    have hm := @plistMagic_image e b I [] u r h
    simp only [reduceCtorEq, decide_false, Bool.false_eq_true, if_false]
    change (mlibPlistMagic e ⟨b, I.bytes⟩ (recAddr b []) >>= _) = _
    rw [hm]
    simp [recPtr, recAddr]

theorem nextPlaylist_step (h : I.recs = l ++ r :: u) (hI : I.size < 2 ^ 32) :
    mlibNextPlaylist e ⟨b, I.bytes⟩ (some (recAddr b l)) = .ok (recPtr b (l ++ [r]) u) := by
  have h' : I.recs = (l ++ [r]) ++ u := by simp [h]
  have ha : recAddr b l + r.length = recAddr b (l ++ [r]) := by
    simp only [recAddr, recsBytes_append, recsBytes_cons, recsBytes_nil, List.append_nil,
      List.length_append, Record.bytes_length]
    omega
  simp only [mlibNextPlaylist, Option.getD_some, plistLen_image h hI, ok_bind, ha, checkLen_image h' hI]
  cases u with
  | nil => simp [recPtr]
  | cons r' u => simp [recPtr, plistMagic_image h']

private theorem name_compare (h : I.recs = l ++ r :: u) (name : CStr) :
    ∃ d, strncmp 116 ((Mem.mk b I.bytes).view (plistName (recAddr b l))) name.mem = .ok d ∧
      (d = 0 ↔ r.name = name) := by
  obtain ⟨rest, hv⟩ := @plistName_image b I l u r h
  refine ⟨cmpStr r.name.val name.val, ?_, ?_⟩
  · rw [hv]
    exact strncmp_strings 116 _ _ r.name.2 name.2 (by have := r.name_length; omega) rest []
  · rw [cmpStr_zero_iff _ _ r.name.2 name.2, Subtype.ext_iff]

private theorem findFrom_none (hI : I.size < 2 ^ 32) (name : CStr) (fuel : Nat) (h : I.recs = l ++ u)
    (hf : u.length ≤ fuel) (hu : ∀ r ∈ u, r.name ≠ name) :
    mlibFindPlaylistFrom e ⟨b, I.bytes⟩ name fuel (recPtr b l u) = .ok none := by
  induction u generalizing l fuel with
  | nil => cases fuel <;> rfl
  | cons r u ih =>
    obtain ⟨fuel, rfl⟩ : ∃ k, fuel = k + 1 := ⟨fuel - 1, by simp at hf; omega⟩
    obtain ⟨d, hd, hz⟩ := @name_compare b I l u r h name
    have hne : d ≠ 0 := fun he => hu r List.mem_cons_self (hz.mp he)
    simp only [recPtr_cons, mlibFindPlaylistFrom, mlibPlistNameLen, hd, ok_bind, hne, if_false,
      nextPlaylist_step h hI]
    exact ih fuel (by simp [h]) (by simpa using hf) (fun r' hr' => hu r' (List.mem_cons_of_mem _ hr'))

private theorem findFrom_some (hI : I.size < 2 ^ 32) (fuel : Nat) (l' : List Record)
    (h : I.recs = l ++ (l' ++ r :: u)) (hf : l'.length < fuel) (hl : ∀ r' ∈ l', r'.name ≠ r.name) :
    mlibFindPlaylistFrom e ⟨b, I.bytes⟩ r.name fuel (recPtr b l (l' ++ r :: u)) =
      .ok (some (recAddr b (l ++ l'))) := by
  induction l' generalizing l fuel with
  | nil =>
    obtain ⟨fuel, rfl⟩ : ∃ k, fuel = k + 1 := ⟨fuel - 1, by omega⟩
    obtain ⟨d, hd, hz⟩ := @name_compare b I l u r h r.name
    simp [mlibFindPlaylistFrom, hd, hz.mpr rfl]
  | cons r' l' ih =>
    obtain ⟨fuel, rfl⟩ : ∃ k, fuel = k + 1 := ⟨fuel - 1, by omega⟩
    obtain ⟨d, hd, hz⟩ := @name_compare b I l (l' ++ r :: u) r' h r.name
    have hne : d ≠ 0 := fun he => hl r' List.mem_cons_self (hz.mp he)
    simp only [List.cons_append, recPtr_cons, mlibFindPlaylistFrom, mlibPlistNameLen, hd, ok_bind, hne,
      if_false, nextPlaylist_step h hI]
    have hr := @ih (l ++ [r']) fuel (by simp [h]) (by simpa using hf)
      (fun r'' hr'' => hl r'' (List.mem_cons_of_mem _ hr''))
    simpa using hr

theorem Image.recs_length_lt (I : Image) (hI : I.size < 2 ^ 32) : I.recs.length < roundLimit := by
  have := recs_length_le I.recs
  unfold Image.size at hI
  unfold roundLimit
  omega

/-- No record carries the name: nothing is found. -/
theorem findPlaylist_none (hI : I.size < 2 ^ 32) {name : CStr} (h : ∀ r ∈ I.recs, r.name ≠ name) :
    mlibFindPlaylist e ⟨b, I.bytes⟩ name = .ok none := by
  have hn := I.recs_length_lt hI
  rw [mlibFindPlaylist, nextPlaylist_first hI]
  exact findFrom_none hI name roundLimit rfl hn.le h

/-- The first record that carries the name is found. -/
theorem findPlaylist_some (hI : I.size < 2 ^ 32) (h : I.recs = l ++ r :: u)
    (hl : ∀ r' ∈ l, r'.name ≠ r.name) :
    mlibFindPlaylist e ⟨b, I.bytes⟩ r.name = .ok (some (recAddr b l)) := by
  have hn := I.recs_length_lt hI
  rw [mlibFindPlaylist, nextPlaylist_first hI, h]
  apply findFrom_some hI roundLimit l h _ hl
  rw [h, List.length_append, List.length_cons] at hn
  omega

/-- The two outcomes of a search, for every name. -/
theorem Image.find_cases (I : Image) (name : CStr) :
    (∀ r ∈ I.recs, r.name ≠ name) ∨
      ∃ l r u, I.recs = l ++ r :: u ∧ r.name = name ∧ ∀ r' ∈ l, r'.name ≠ r.name := by
  cases h : I.recs.find? (·.name = name) with
  | none => exact Or.inl fun r hr => by simpa using List.find?_eq_none.mp h r hr
  | some r =>
    obtain ⟨hr, l, u, hs, hl⟩ := List.find?_eq_some_iff_append.mp h
    have hr : r.name = name := by simpa using hr
    exact Or.inr ⟨l, r, u, hs, hr, fun r' hr' => by simpa [hr] using hl r' hr'⟩

private theorem forEachFrom_image (hI : I.size < 2 ^ 32) (fuel : Nat) (h : I.recs = l ++ u)
    (hf : u.length ≤ fuel) :
    mlibForEachPlsFrom e ⟨b, I.bytes⟩ fuel (recPtr b l u) = .ok (recAddrs b l u) := by
  induction u generalizing l fuel with
  | nil => cases fuel <;> rfl
  | cons r u ih =>
    obtain ⟨fuel, rfl⟩ : ∃ k, fuel = k + 1 := ⟨fuel - 1, by simp at hf; omega⟩
    simp only [recPtr_cons, mlibForEachPlsFrom, nextPlaylist_step h hI, ok_bind]
    rw [@ih (l ++ [r]) fuel (by simp [h]) (by simpa using hf)]
    rfl

/-- The walk visits exactly the records. -/
theorem forEachPls_image (hI : I.size < 2 ^ 32) :
    mlibForEachPls e ⟨b, I.bytes⟩ = .ok (recAddrs b [] I.recs) := by
  rw [mlibForEachPls, nextPlaylist_first hI]
  exact forEachFrom_image hI roundLimit rfl (I.recs_length_lt hI).le

end Mlib

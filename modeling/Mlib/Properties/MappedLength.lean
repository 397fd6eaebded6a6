import Mlib.Image.Effects
import Mlib.Image.Failing

/-! How much of a library is mapped while its playlists come and go. Growing the file maps it anew;
cutting it off does not, so the length in the header falls behind the mapping as soon as a deletion
frees a page, and the next `munmap` leaves that page mapped. -/
namespace Mlib
open Foundation
variable {env : Env} {e : Endian} {b m : Nat} {L : List (Nat × Nat)} {I I' : Image} {s t : Lib} {l u : List Record}
  {r : Record} {ret : Int} {n p : CStr}

/-- `MLIB_LIB_LEN` in whole pages is what is mapped, so that `munmap` releases all of it, and no
page of an earlier mapping is left. -/
def Lib.Covered (e : Endian) (s : Lib) : Prop :=
  s.leftover = [] ∧ ∀ len, mlibLibLen e s.mem = .ok len → pageUp len = pageUp s.mapped ∧
    ∀ t, munmap s.header len s = .ok ((), t) → t.mapped = 0 ∧ t.leftover = []

/-- `mlib_close_library`, and then `mlib_open_library` on the same file. -/
def reopen (env : Env) : Op (Option Nat) := do
  let _ ← mlibSyncLibrary env
  munmap (← get).header (← look (mlibLibLen env.endian))
  match ← mmap env 0 (← get).file.length with
  | none => return none
  | some header =>
    setHeader header (← get).file.length
    return some header

/-- A library from its creation on, through calls that meet a condition and through being closed
and opened again. -/
inductive Session (env : Env) (cond : Lib → Call → Prop) : Lib → Prop
  | created {name mediaPrefix : CStr} {s : Lib} (h : Created env name mediaPrefix s) : Session env cond s
  | reopened {header : Option Nat} {s t : Lib} (h : Session env cond s) (hx : reopen env s = .ok (header, t)) :
      Session env cond t
  | called {c : Call} {ret : Int} {s t : Lib} (h : Session env cond s) (hc : cond s c) (hx : c.exec env s = .ok (ret, t)) :
      Session env cond t

def Call.KeepsPages (e : Endian) (s : Lib) : Call → Prop
  | .deletePlaylist n => ∀ plist len, mlibFindPlaylist e s.mem n = .ok (some plist) →
      mlibPlistLen e s.mem plist = .ok len → pageUp (s.file.length - len) = pageUp s.file.length
  | .startPlaylist _ => True
  | .addPath _ _ => True
  | .addPathToPlist _ _ => True

def Lib.MappedAs (m : Nat) (L : List (Nat × Nat)) (s : Lib) : Prop := s.mapped = m ∧ s.leftover = L

instance stable_mappedAs : Stable (Lib.MappedAs m L) where
  store addr bs := by
    intro s a t h
    unfold store at h
    split at h
    · cases h
      exact id
    · cases h
  sysCall answer := by
    intro s a t h
    cases h
    exact id

def Lib.Tight (s : Lib) : Prop := s.leftover = [] ∧ (s.Lost ∨ pageUp s.file.length = pageUp s.mapped)

instance stable_tight : Stable Lib.Tight where
  store addr bs := by
    intro s a t h
    unfold store at h
    split at h
    · rename_i hin
      cases h
      have hlen : (splice s.file (addr - s.header) bs).length = s.file.length := by
        have hle : s.mem.bytes.length ≤ s.file.length := List.length_take_le' _ _
        simp only [splice, List.length_append, List.length_take, List.length_drop]
        omega
      rintro ⟨hl, hm⟩
      refine ⟨hl, hm.imp_right fun hp => ?_⟩
      show pageUp (splice s.file (addr - s.header) bs).length = _
      rw [hlen]
      exact hp
    · cases h
  sysCall answer := by
    intro s a t h
    cases h
    exact id

private theorem expand_tight (hL : mlibLibLen env.endian s.mem = .ok s.file.length) (hm : ¬ s.Lost)
    (ht : s.Tight) (len : Nat) :
    Ensures (mlibLibraryExpand env len) s Lib.Tight := by
  obtain ⟨hl, hlost | hpages⟩ := id ht
  · exact absurd hlost hm
  refine ensures_step (look_ok hL) ?_
  by_cases hle : len ≤ s.file.length
  · rw [if_pos hle]
    intro ret t hx
    cases hx
    exact ht
  have hunmap : munmap s.header s.file.length s = .ok ((), { s with mapped := 0 }) := by
    rw [munmap, if_pos rfl, hpages, if_neg (Nat.lt_irrefl _)]
  rw [if_neg hle]
  refine ensures_step (rfl : (get : Op Lib) s = .ok (s, s)) (ensures_step (look_ok hL) (ensures_step hunmap ?_))
  rcases expandFd_cases env { s with mapped := 0 } len (by exact Nat.lt_of_not_le hle) with ⟨k, hx, -⟩ | hx
  · refine ensures_step hx ?_
    intro ret t h
    cases h
    exact ⟨hl, Or.inl rfl⟩
  · refine ensures_step hx (ensures_step (rfl : mmap env s.header len _ = _) ?_)
    cases ha : env.mmap s.remaps s.header len with
    | none =>
      intro ret t h
      cases h
      exact ⟨hl, Or.inl rfl⟩
    | some a =>
      refine ensures_step (rfl : setHeader a len _ = _) ?_
      have hset : Keeps Lib.Tight (do mlibLibSetLen env.endian len; return 0 : Op Int) :=
        keeps_bind (keeps_setLen _ _) fun _ => keeps_pure _
      intro ret t h
      refine hset _ _ _ h ⟨hl, Or.inr ?_⟩
      show pageUp (s.file ++ zeros (len - s.file.length)).length = pageUp len
      rw [List.length_append, zeros_length, Nat.add_sub_cancel' (by omega)]

private theorem expand_holds_tight (h : Holds b I s) (ht : s.Tight) (len : Nat) :
    Ensures (mlibLibraryExpand env len) s Lib.Tight :=
  expand_tight (h.file_length ▸ h.libLen env.endian) h.mapped ht len

private theorem makeRoom_tight {A : Nat} (h : Holds b I s) (hI : I.recs = l ++ r :: u)
    (hA : A = plistData (recAddr b l))
    (ht : s.Tight) (len fuel : Nat) : Ensures (mlibBucketMakeRoom env len fuel A) s Lib.Tight := by
  induction fuel generalizing b I r s A with
  | zero =>
    intro room t hx
    cases hx
  | succ fuel ih =>
    subst hA
    obtain ⟨hsb, ho⟩ := bucket_words h hI env.endian
    refine ensures_step (look_ok hsb) (ensures_step (look_ok ho) ?_)
    dsimp only
    split
    · intro room t hx
      obtain ⟨⟨grown, s₁⟩, hg, hx⟩ := bind_ok hx
      have ht₁ : s₁.Tight := ensures_bucketExpand ho (h.libLen env.endian) (expand_holds_tight h ht _) _ _ hg
      cases grown with
      | none =>
        cases hx
        exact ht₁
      | some A' =>
        obtain ⟨a, rfl, h₁, -⟩ := expand_holds h hI (by decide) (by decide) hg
        exact ih h₁ rfl rfl ht₁ room t hx
    · intro room t hx
      cases hx
      exact ht

private theorem addPathToPlist_tight (h : Holds b I s) (hI : I.recs = l ++ r :: u) (ht : s.Tight) (p : CStr) :
    Ensures (mlibAddPathToPlist env (recAddr b l) (.own p)) s Lib.Tight := by
  have hmagic : look (mlibPlistMagic env.endian · (recAddr b l)) s = .ok (mlibPlistHdrMagic, s) :=
    h.shows.look (plistMagic_image hI)
  have hlen : look (fun m => strlen ((CArg.own p).view m)) s = .ok (p.val.length, s) :=
    look_ok (strlen_string p.val p.2 [])
  obtain ⟨found, hfound, -⟩ := @contains_image b I l u r env.endian hI h.size p
  rw [← h.shows.mem] at hfound
  have hlook : look (fun m => mlibBucketContains env.endian m (plistData (recAddr b l)) ((CArg.own p).view m)) s =
      .ok (found, s) := look_ok hfound
  refine ensures_step hmagic ?_
  rw [if_neg (by decide)]
  apply ensures_bind
  · refine ensures_step hlen (ensures_step hlook ?_)
    split
    · intro ret t hx
      cases hx
      exact ht
    · refine ensures_bind (makeRoom_tight h hI rfl ht _ _) fun room => ?_
      cases room with
      | none => exact keeps_pure _
      | some room => exact keeps_storeString _ _ _ _ _ _
  · intro ret
    refine keeps_ite _ (keeps_pure _) (keeps_bind (keeps_look _) fun mcount => ?_)
    exact keeps_bind (keeps_writel _ _ _) fun _ => keeps_pure _

private theorem addTo_tight (h : Holds b I s) (ht : s.Tight) (n p : CStr) :
    Ensures (Call.exec env (.addPathToPlist n p)) s Lib.Tight := by
  rcases I.finds_or_lacks n with hn | ⟨l, r, u, hf⟩
  · refine ensures_step (findPlaylist_lacks h hn) ?_
    intro ret t hx
    cases hx
    exact ht
  · exact ensures_step (findPlaylist_finds h hf) (addPathToPlist_tight h hf.recs ht p)

private theorem addPath_tight (he : env.Settled) (h : Holds b I s) (ht : s.Tight) (n p : CStr) :
    Ensures (Call.exec env (.addPath n p)) s Lib.Tight := by
  by_cases hn : n = dotGlobal
  · subst hn
    intro ret t hx
    rw [addPath_global] at hx
    exact addTo_tight h ht dotGlobal p ret t hx
  rcases I.finds_or_lacks dotGlobal with hg | ⟨l, r, u, hg⟩
  · intro ret t hx
    rw [addPath_noGlobal h hn hg] at hx
    cases hx
    exact ht
  · intro ret t hx
    rw [addPath_both h hn hg] at hx
    obtain ⟨⟨ret₁, s₁⟩, hx₁, hx⟩ := bind_ok hx
    have ht₁ : s₁.Tight := addPathToPlist_tight h hg.recs ht p ret₁ s₁ hx₁
    rw [← addPathToPlist_exec h hg] at hx₁
    rcases Call.exec_tries he h (.addPathToPlist dotGlobal p) hx₁ with hl | ⟨ret', I', k, -, h'⟩
    · dsimp only at hx
      rw [Call.exec_lost hl] at hx
      cases hx
    · exact addTo_tight h' ht₁ n p ret t hx

private theorem startPlaylist_tight (h : Holds b I s) (ht : s.Tight) (n : CStr) :
    Ensures (mlibStartPlaylist env n) s Lib.Tight := by
  rcases I.finds_or_lacks n with hn | ⟨l, r, u, hf⟩
  · intro ret t hx
    rw [startPlaylist_start h.shows (I.states h.size) (le_trans (by decide) I.bytes_length_ge) (findPlaylist_none h.size hn)] at hx
    refine ensures_bind (expand_holds_tight h ht _) (fun grown => ?_) ret t hx
    exact keeps_ite _ (keeps_pure _) (keeps_fillRecord _ _ _)
  · refine ensures_step (findPlaylist_finds h hf) ?_
    intro ret t hx
    cases hx
    exact ht

private theorem deletePlaylist_mapping (env : Env) (n : CStr) :
    Keeps (Lib.MappedAs m L) (mlibDeletePlaylist env n) := by
  refine keeps_bind (keeps_look _) fun found => ?_
  cases found with
  | none => exact keeps_pure _
  | some plist =>
    refine keeps_bind (keeps_look _) fun plistLen => keeps_bind ?_ fun ret =>
      keeps_ite _ (keeps_pure _) (keeps_pure _)
    refine keeps_bind keeps_get fun lib => keeps_bind (keeps_look _) fun libLen => ?_
    refine keeps_bind (keeps_memmove _ _ _) fun _ => keeps_bind (keeps_look _) fun libLen' => ?_
    refine keeps_ite _ (keeps_pure _) (keeps_bind (keeps_look _) fun len => keeps_ite _ (keeps_pure _) ?_)
    refine keeps_bind (Stable.sysCall _) fun cut => keeps_ite _ (keeps_pure _) (keeps_bind ?_ fun _ => ?_)
    · intro s a t h
      cases h
      exact id
    · exact keeps_bind (keeps_setLen _ _) fun _ => keeps_pure _

/-- After a deletion the mapping fits the file exactly where the file has as many pages as before. -/
theorem deletePlaylist_tight_iff (h : Holds b I s) (ht : s.Tight) (hf : I.Finds n l r u)
    (hcut : env.ftruncate s.clock = true)
    (hx : mlibDeletePlaylist env n s = .ok (ret, t)) :
    t.Tight ↔ pageUp (s.file.length - r.length) = pageUp s.file.length := by
  obtain ⟨hl, hlost | hpages⟩ := id ht
  · exact absurd hlost h.mapped
  obtain ⟨hmap, hleft⟩ := deletePlaylist_mapping env n s ret t hx ⟨rfl, rfl⟩
  obtain ⟨hI, rfl, hfirst⟩ := id hf
  obtain ⟨t', hx', hs', -⟩ := deletePlaylist_deletes h.shows hI h.size hfirst hcut
  cases hx'.symm.trans hx
  have hgone := size_delete hI
  have h' : Holds b (I.withRecs (l ++ u)) t := ⟨hs', by have := h.size; omega⟩
  rw [Lib.Tight, hleft, hmap, h'.file_length, hgone, h.file_length, ← hpages, h.file_length]
  exact ⟨fun hc => hc.2.resolve_left h'.mapped, fun hc => ⟨hl, Or.inr hc⟩⟩

theorem Call.exec_tight (he : env.Settled) (h : Holds b I s) (ht : s.Tight) {c : Call}
    (hc : c.KeepsPages env.endian s) :
    Ensures (c.exec env) s Lib.Tight := by
  cases c with
  | startPlaylist n => exact startPlaylist_tight h ht n
  | addPath n p => exact addPath_tight he h ht n p
  | addPathToPlist n p => exact addTo_tight h ht n p
  | deletePlaylist n =>
    intro ret t hx
    rcases I.finds_or_lacks n with hn | ⟨l, r, u, hf⟩
    · cases (deletePlaylist_missing h.shows h.size hn).symm.trans hx
      exact ht
    · have hlen := @plistLen_image env.endian b I l u r hf.recs h.size
      rw [← h.shows.mem] at hlen
      exact (deletePlaylist_tight_iff h ht hf (he.ftruncate _) hx).mpr (hc _ _ (h.find_some hf env.endian) hlen)

private theorem reopen_holds (h : Holds b I s) (ht : s.Tight) {header : Option Nat}
    (hx : reopen env s = .ok (header, t)) :
    t.Tight ∧ (t.Lost ∨ ∃ b, Holds b I t) := by
  obtain ⟨hl, hlost | hpages⟩ := id ht
  · exact absurd hlost h.mapped
  have hs₁ : Holds b I { s with clock := s.clock + 1 } :=
    ⟨⟨h.shows.header, h.shows.file, h.shows.mapped, h.shows.placed⟩, h.size⟩
  have hunmap : munmap s.header I.size { s with clock := s.clock + 1 } =
      .ok ((), { s with clock := s.clock + 1, mapped := 0 }) := by
    rw [munmap, if_pos rfl, ← h.file_length, hpages, if_neg (Nat.lt_irrefl _)]
  have hsync : mlibSyncLibrary env s = .ok (if env.msync s.clock then 0 else -1, { s with clock := s.clock + 1 }) := by
    rw [mlibSyncLibrary, Op.step (look_ok (h.libLen env.endian)), Op.step (rfl : sysCall env.msync s = _)]
    cases env.msync s.clock <;> rfl
  rw [reopen, Op.step hsync, Op.step (rfl : (get : Op Lib) _ = .ok (_, _)),
    Op.step (look_ok (hs₁.libLen env.endian)), Op.step hunmap, Op.step (rfl : (get : Op Lib) _ = .ok (_, _)),
    Op.step (rfl : mmap env 0 _ _ = _)] at hx
  cases ha : env.mmap s.remaps 0 s.file.length with
  | none =>
    rw [ha] at hx
    cases hx
    exact ⟨⟨hl, Or.inl rfl⟩, Or.inl rfl⟩
  | some a =>
    rw [ha] at hx
    cases hx
    refine ⟨⟨hl, Or.inr rfl⟩, Or.inr ⟨a, ⟨rfl, h.shows.file, ?_, env.mmap_places _ _ _ _ ha⟩, h.size⟩⟩
    exact Nat.le_of_eq (congrArg List.length h.shows.file).symm

theorem reopen_lost (h : s.Lost) : reopen env s = .error .fault :=
  Op.step_fails (Op.step_fails (look_fails (libLen_lost h env.endian)))

/-- Where every deletion leaves the number of pages as it is, only the pages of the file are ever mapped. -/
theorem Session.tight (he : env.Settled) (h : Session env (fun s c => c.KeepsPages env.endian s) s) :
    s.Tight ∧ (s.Lost ∨ ∃ b I, Holds b I s) := by
  induction h with
  | @created name mediaPrefix s h =>
    obtain ⟨hn, hp, b, hI, -⟩ := h.holds
    refine ⟨?_, Or.inr ⟨b, _, hI⟩⟩
    cases h
    exact ⟨rfl, Or.inr rfl⟩
  | reopened _ hx ih =>
    obtain ⟨ht, hl | ⟨b, I, hI⟩⟩ := ih
    · rw [reopen_lost hl] at hx
      cases hx
    · obtain ⟨ht', hl | ⟨a, hI'⟩⟩ := reopen_holds hI ht hx
      · exact ⟨ht', Or.inl hl⟩
      · exact ⟨ht', Or.inr ⟨a, I, hI'⟩⟩
  | called _ hc hx ih =>
    obtain ⟨ht, hl | ⟨b, I, hI⟩⟩ := ih
    · rw [Call.exec_lost hl] at hx
      cases hx
    · refine ⟨Call.exec_tight he hI ht hc _ _ hx, ?_⟩
      rcases Call.exec_tries he hI _ hx with hl | ⟨ret', I', k, -, hI'⟩
      · exact Or.inl hl
      · exact Or.inr ⟨b, I', hI'⟩

theorem Lib.Tight.covered (ht : s.Tight) (h : Holds b I s) : s.Covered e := by
  obtain ⟨hl, hlost | hpages⟩ := ht
  · exact absurd hlost h.mapped
  refine ⟨hl, fun len hlen => ?_⟩
  cases (h.libLen e).symm.trans hlen
  rw [h.file_length] at hpages
  refine ⟨hpages, fun t hx => ?_⟩
  rw [munmap, if_pos rfl, hpages, if_neg (Nat.lt_irrefl _)] at hx
  cases hx
  exact ⟨rfl, hl⟩

theorem Lib.Covered.tight (hc : s.Covered e) (h : Holds b I s) : s.Tight := by
  obtain ⟨hl, hlen⟩ := hc
  refine ⟨hl, Or.inr ?_⟩
  rw [h.file_length]
  exact (hlen _ (h.libLen e)).1

/-- In every session in which no deletion changes the number of pages, the length in the header covers
the mapping, and unmapping by it leaves nothing. -/
theorem mapping_covered (he : env.Settled) (h : Session env (fun s c => c.KeepsPages env.endian s) s) :
    s.Covered env.endian := by
  obtain ⟨ht, hl | ⟨b, I, hI⟩⟩ := h.tight he
  · refine ⟨ht.1, fun len hlen => ?_⟩
    rw [libLen_lost hl] at hlen
    cases hlen
  · exact ht.covered hI

/-- A playlist is started and deleted again while the file has one page. -/
theorem mapping_covered_again : ∃ s t, mlibDeletePlaylist (.steady .little) nameA s = .ok (0, t) ∧
    Session (.steady .little) (fun s c => c.KeepsPages .little s) t ∧ t.Covered .little := by
  obtain ⟨s, hn, hp, b, hs, hI, -⟩ := @Env.steady_created CStr.empty (by decide)
  have hlack := @Image.created_lacks CStr.empty CStr.empty hn hp nameA (by decide)
  have hc := Env.steady_calm .little
  have hsize := @Image.size_created CStr.empty CStr.empty hn hp
  obtain ⟨s₁, hx₁, h₁, -⟩ := hI.started hc hlack (by rw [hsize]; decide)
  set I₁ := (Image.created CStr.empty CStr.empty hn hp).withRecs
    ((Image.created CStr.empty CStr.empty hn hp).recs ++ [.started nameA])
  have hsize₁ : I₁.size = 1568 := (Image.size_started _ nameA).trans (congrArg (· + 272) hsize)
  have hname : storedName nameA = nameA := storedName_eq (by decide)
  have hf : I₁.Finds nameA [.started dotGlobal] (.started nameA) [] := by
    refine ⟨rfl, hname, fun r hr => ?_⟩
    exact hlack r hr
  have hcall₁ : Session (.steady .little) (fun s c => c.KeepsPages .little s) s₁ :=
    @Session.called _ _ (.startPlaylist nameA) _ _ _ (.created hs) trivial hx₁
  obtain ⟨t, hx, -⟩ := deletePlaylist_deletes h₁.shows hf.recs h₁.size (by rw [hf.name]; exact hf.first) (hc.ftruncate s₁.clock)
  rw [hf.name] at hx
  have hkeeps : Call.KeepsPages .little s₁ (.deletePlaylist nameA) := by
    intro plist len hfind hlen
    obtain rfl := Option.some.inj (Except.ok.inj ((h₁.find_some hf .little).symm.trans hfind))
    rw [h₁.shows.mem] at hlen
    obtain rfl := Except.ok.inj ((plistLen_image hf.recs h₁.size).symm.trans hlen)
    rw [h₁.file_length, hsize₁]
    rfl
  have hcall : Session (.steady .little) (fun s c => c.KeepsPages .little s) t :=
    @Session.called _ _ (.deletePlaylist nameA) _ _ _ hcall₁ hkeeps hx
  exact ⟨s₁, t, hx, hcall, mapping_covered hc.settled hcall⟩

/-- A path of 3000 bytes, which makes a playlist go over a page boundary. -/
def longPath : CStr := ⟨List.replicate 3000 97, fun h => by cases List.eq_of_mem_replicate h⟩

/-- Deleting a playlist that reaches into the second page leaves both pages mapped, and the length
that `munmap` is given later covers one. -/
theorem deletion_uncovers : ∃ s t, Session (.steady .little) (fun _ _ => True) s ∧ s.Covered .little ∧
    mlibDeletePlaylist (.steady .little) dotGlobal s = .ok (0, t) ∧ ¬ t.Covered .little := by
  obtain ⟨s, hn, hp, b, hs, hI, -⟩ := @Env.steady_created CStr.empty (by decide)
  have hc := Env.steady_calm .little
  have hsize := @Image.size_created CStr.empty CStr.empty hn hp
  have hrounds : (Record.started dotGlobal).rounds longPath = 23 := by
    rw [Record.rounds, CStr.mem_length, longPath, List.length_replicate]
    rfl
  have hrecs : (Image.created CStr.empty CStr.empty hn hp).recs = [] ++ .started dotGlobal :: [] := rfl
  have hnew : longPath ∉ (Record.started dotGlobal).paths := List.not_mem_nil
  obtain ⟨s₁, hx₁, hs₁, -⟩ := addPathToPlist_adds hI.shows hrecs hc.grows hnew
    (by rw [CStr.mem_length, longPath, List.length_replicate]; decide) (by rw [hrounds, hsize]; decide)
    (hc.landing hI.shows.placed _ _ _)
  set I₁ := (Image.created CStr.empty CStr.empty hn hp).withRecs ([] ++ (Record.started dotGlobal).add longPath hnew :: [])
  have hsize₁ : I₁.size = 4240 := (size_add hrecs hnew).trans (by rw [hrounds, hsize])
  have h₁ : Holds b I₁ s₁ := ⟨hs₁, by rw [hsize₁]; decide⟩
  have hfind := @Image.created_finds CStr.empty CStr.empty hn hp
  have hcall₁ : Call.exec (.steady .little) (.addPath dotGlobal longPath) s = .ok (0, s₁) := by
    rw [addPath_global, addPathToPlist_exec hI hfind]
    exact hx₁
  have hcreated : s.Tight := by
    cases hs
    exact ⟨rfl, Or.inr rfl⟩
  have ht₁ : s₁.Tight := addPath_tight hc.settled hI hcreated dotGlobal longPath _ _ hcall₁
  have hf : I₁.Finds dotGlobal [] ((Record.started dotGlobal).add longPath hnew) [] :=
    ⟨rfl, storedName_eq (by decide), by rintro r ⟨⟩⟩
  obtain ⟨t, hx, hs', -⟩ := deletePlaylist_deletes hs₁ hf.recs h₁.size (by rintro r ⟨⟩) (hc.ftruncate s₁.clock)
  rw [hf.name] at hx
  refine ⟨s₁, t, @Session.called _ _ (.addPath dotGlobal longPath) _ _ _ (.created hs) trivial hcall₁,
    ht₁.covered h₁, hx, fun hcov => ?_⟩
  have hpages := (deletePlaylist_tight_iff h₁ ht₁ hf (hc.ftruncate _) hx).mp (hcov.tight ⟨hs', show 1024 < 2 ^ 32 by decide⟩)
  rw [h₁.file_length, hsize₁, Record.add_length, hrounds] at hpages
  exact absurd hpages (by decide)

end Mlib

import Mlib.Foundation.Following
import Mlib.Image.Creation
import Mlib.Image.Rounds

/-! What is left when the system turns calls down: a failed growth leaves nothing mapped,
and a call that ends with the library mapped did what it does on a host where nothing fails. -/
namespace Mlib
open Foundation
variable {α : Type} {env : Env} {b : Nat} {I : Image} {s t : Lib} {n p : CStr} {ret : Int}

/-- Files are cut off when they are asked to be, and stay in place when they are mapped again.
All other calls may fail. -/
structure Env.Settled (env : Env) : Prop where
  ftruncate : ∀ n, env.ftruncate n = true
  mmap_again : ∀ n hint len addr, Placed hint → env.mmap n hint len = some addr → addr = hint

theorem Env.Calm.settled (hc : env.Calm) : env.Settled where
  ftruncate := hc.ftruncate
  mmap_again n hint len _ hp ha := Option.some.inj (ha.symm.trans (hc.mmap_again n hint len hp))

def Env.calmed (env : Env) : Env := { Env.steady env.endian with sorter := env.sorter }

theorem Env.calmed_calm (env : Env) : env.calmed.Calm :=
  have h := Env.steady_calm env.endian
  ⟨h.lseek, h.write, h.msync, h.ftruncate, h.mmap_new, h.mmap_again⟩

/-- Nothing of the file is mapped, as after a growth that failed half way. -/
def Lib.Lost (s : Lib) : Prop := s.mapped = 0

abbrev Op.Follows (x y : Op α) : Prop := Foundation.Follows (fun s : Lib => Placed s.header) Lib.Lost x y

theorem follows_look (f : Mem → Outcome α) : (look f).Follows (look f) := by
  apply follows_self
  intro s a t h
  unfold look at h
  cases hf : f s.mem with
  | error why =>
    rw [hf] at h
    cases h
  | ok b =>
    rw [hf] at h
    cases h
    exact ⟨id, id⟩

theorem follows_get : (get : Op Lib).Follows get := by
  apply follows_self
  intro s a t h
  cases h
  exact ⟨id, id⟩

theorem follows_stop (why : Stop) : (stop why : Op α).Follows (stop why) := by
  apply follows_self
  intro s a t h
  cases h

theorem follows_store (addr : Nat) (bs : Bytes) : (store addr bs).Follows (store addr bs) := by
  apply follows_self
  intro s a t h
  unfold store at h
  split at h
  · cases h
    exact ⟨id, id⟩
  · cases h

theorem follows_writel (e : Endian) (addr val : Nat) :
    (mlibWritel e addr val).Follows (mlibWritel e addr val) :=
  follows_store addr _

theorem follows_setLen (e : Endian) (val : Nat) : (mlibLibSetLen e val).Follows (mlibLibSetLen e val) :=
  fun s => follows_writel e (s.header + 8) val s

theorem follows_memmove (dst src k : Nat) : (memmove dst src k).Follows (memmove dst src k) :=
  follows_bind (follows_look _) fun _ => follows_store dst _

theorem libLen_lost (h : s.Lost) (e : Endian) : mlibLibLen e s.mem = .error .fault := libLen_unmapped h

private theorem expandFd_follows (env : Env) (len : Nat) (s : Lib) :
    (∃ t, mlibLibraryExpandFd env len s = .ok (-1, t) ∧ t.header = s.header ∧ t.mapped = s.mapped) ∨
      ∃ t, mlibLibraryExpandFd env len s = .ok (1, t) ∧ mlibLibraryExpandFd env.calmed len s = .ok (1, t) ∧
        t.header = s.header ∧ t.mapped = s.mapped := by
  have hcalm : mlibLibraryExpandFd env.calmed len s =
      .ok (1, { s with clock := s.clock + 2, file := pwrite s.file (len - 1) [0] }) := rfl
  rw [hcalm, mlibLibraryExpandFd, Op.step (rfl : sysCall env.lseek s = .ok (env.lseek s.clock, _))]
  cases env.lseek s.clock with
  | false => exact Or.inl ⟨_, rfl, rfl, rfl⟩
  | true =>
    rw [if_neg (by decide), Op.step (rfl : sysCall env.write _ = .ok (env.write (s.clock + 1), _))]
    cases env.write (s.clock + 1) with
    | false => exact Or.inl ⟨_, rfl, rfl, rfl⟩
    | true => exact Or.inr ⟨_, rfl, rfl, rfl, rfl⟩

private theorem remap_follows (he : env.Settled) {h : Nat} (hp : Placed h) (ht : t.header = h)
    (hm : t.mapped = 0)
    (len : Nat) {u : Lib}
    (hx : (do
      match ← mmap env h len with
      | none => return -1
      | some newHeader =>
        setHeader newHeader len
        mlibLibSetLen env.endian len
        return 0 : Op Int) t = .ok (ret, u)) :
    Placed u.header ∧ (u.Lost ∨ (do
      match ← mmap env.calmed h len with
      | none => return -1
      | some newHeader =>
        setHeader newHeader len
        mlibLibSetLen env.calmed.endian len
        return 0 : Op Int) t = .ok (ret, u)) := by
  rw [Op.step (rfl : mmap env h len t = _)] at hx
  rw [Op.step (rfl : mmap env.calmed h len t = _), env.calmed_calm.mmap_again _ _ _ hp]
  cases ha : env.mmap t.remaps h len with
  | none =>
    rw [ha] at hx
    cases hx
    exact ⟨show Placed t.header from ht ▸ hp, Or.inl hm⟩
  | some a =>
    obtain rfl := he.mmap_again _ _ _ _ hp ha
    rw [ha] at hx
    dsimp only at hx ⊢
    rw [Op.step (rfl : setHeader a len _ = _)] at hx ⊢
    have hlen : (do mlibLibSetLen env.endian len; return 0 : Op Int).Follows _ :=
      follows_bind (follows_setLen env.endian len) fun _ => follows_pure 0
    obtain ⟨hgood, -, hsame⟩ := hlen _ ret u (by exact hp) hx
    exact ⟨hgood, hsame⟩

theorem expand_follows (he : env.Settled) (len : Nat) :
    (mlibLibraryExpand env len).Follows (mlibLibraryExpand env.calmed len) := by
  intro s ret t hp h
  unfold mlibLibraryExpand at h ⊢
  cases hlen : mlibLibLen env.endian s.mem with
  | error why =>
    rw [Op.step_fails (look_fails hlen)] at h
    cases h
  | ok L =>
    have hmapped : ¬ s.Lost := fun hl => by
      rw [libLen_lost hl] at hlen
      cases hlen
    have hlook : look (mlibLibLen env.endian) s = .ok (L, s) := look_ok hlen
    have hlook' : look (mlibLibLen env.calmed.endian) s = .ok (L, s) := hlook
    rw [Op.step hlook] at h
    rw [Op.step hlook']
    by_cases hle : len ≤ L
    · rw [if_pos hle] at h ⊢
      cases h
      exact ⟨hp, fun hl => absurd hl hmapped, Or.inr rfl⟩
    rw [if_neg hle, Op.step (rfl : (get : Op Lib) s = .ok (s, s)), Op.step hlook,
      Op.step (if_pos rfl : munmap s.header L s = _)] at h
    rw [if_neg hle, Op.step (rfl : (get : Op Lib) s = .ok (s, s)), Op.step hlook',
      Op.step (if_pos rfl : munmap s.header L s = _)]
    rcases expandFd_follows env len { s with mapped := 0, leftover := _ } with ⟨t₁, hx, hh, hm⟩ | ⟨t₁, hx, hx', hh, hm⟩
    · rw [Op.step hx] at h
      cases h
      exact ⟨show Placed t.header from hh ▸ hp, fun hl => absurd hl hmapped, Or.inl hm⟩
    rw [Op.step hx, if_neg (by decide)] at h
    rw [Op.step hx', if_neg (by decide)]
    obtain ⟨hgood, hsame⟩ := remap_follows he hp hh hm len h
    exact ⟨hgood, fun hl => absurd hl hmapped, hsame⟩

private theorem insertSpace_follows (he : env.Settled) (offset length : Nat) :
    (mlibLibraryInsertSpace env offset length).Follows (mlibLibraryInsertSpace env.calmed offset length) := by
  apply follows_bind (follows_look _)
  intro libLen
  apply follows_bind (follows_look _)
  intro libLen'
  apply follows_bind (expand_follows he _)
  intro ret
  apply follows_ite
  · exact follows_pure _
  apply follows_bind follows_get
  intro lib
  apply follows_bind (follows_memmove _ _ _)
  intro _
  exact follows_bind (follows_store _ _) fun _ => follows_pure _

private theorem bucketExpand_follows (he : env.Settled) (bucket length : Nat) :
    (mlibBucketExpand env bucket length).Follows (mlibBucketExpand env.calmed bucket length) := by
  apply follows_bind (follows_look _)
  intro offs
  apply follows_bind follows_get
  intro lib
  apply follows_bind
  · apply follows_self
    intro s a t h
    cases h
    exact ⟨id, id⟩
  intro bucketOffset
  apply follows_bind (insertSpace_follows he _ _)
  intro ret
  apply follows_ite
  · exact follows_pure _
  apply follows_bind follows_get
  intro lib
  apply follows_bind (follows_look _)
  intro len
  apply follows_bind (follows_writel _ _ _)
  intro _
  apply follows_bind (follows_look _)
  intro indexOffs
  apply follows_bind (follows_writel _ _ _)
  intro _
  apply follows_bind (follows_look _)
  intro plistLen
  exact follows_bind (follows_writel _ _ _) fun _ => follows_pure _

private theorem makeRoom_follows (he : env.Settled) (len fuel bucket : Nat) :
    (mlibBucketMakeRoom env len fuel bucket).Follows (mlibBucketMakeRoom env.calmed len fuel bucket) := by
  induction fuel generalizing bucket with
  | zero => exact follows_stop .hang
  | succ fuel ih =>
    apply follows_bind (follows_look _)
    intro strBytes
    apply follows_bind (follows_look _)
    intro indexOffs
    apply follows_ite
    · apply follows_bind (bucketExpand_follows he _ _)
      intro grown
      cases grown with
      | none => exact follows_pure _
      | some bucket => exact ih bucket
    · exact follows_pure _

private theorem bucketSort_follows (env : Env) (bucket : Nat) :
    (mlibBucketSort env bucket).Follows (mlibBucketSort env.calmed bucket) := by
  apply follows_bind (follows_look _)
  intro indexes
  apply follows_bind (follows_look _)
  intro n
  apply follows_bind (follows_look _)
  intro xs
  apply follows_bind follows_get
  intro lib
  exact follows_ite _ (follows_stop .fault) (follows_store _ _)

private theorem bucketAdd_follows (he : env.Settled) (bucket : Nat) (str : CArg) :
    (mlibBucketAdd env bucket str).Follows (mlibBucketAdd env.calmed bucket str) := by
  apply follows_bind (follows_look _)
  intro len
  apply follows_bind (follows_look _)
  intro found
  apply follows_ite
  · exact follows_pure _
  apply follows_bind (makeRoom_follows he _ _ _)
  intro room
  cases room with
  | none => exact follows_pure _
  | some room =>
    apply follows_bind (follows_bind (follows_look _) fun _ => follows_store _ _)
    intro _
    apply follows_bind (follows_writel _ _ _)
    intro _
    apply follows_bind (follows_look _)
    intro indexOffs
    apply follows_bind (follows_writel _ _ _)
    intro _
    apply follows_bind (follows_look _)
    intro strBytes
    apply follows_bind (follows_writel _ _ _)
    intro _
    exact follows_bind (bucketSort_follows env _) fun _ => follows_pure _

private theorem addPathToPlist_follows (he : env.Settled) (plist : Nat) (path : CArg) :
    (mlibAddPathToPlist env plist path).Follows (mlibAddPathToPlist env.calmed plist path) := by
  apply follows_bind (follows_look _)
  intro magic
  apply follows_ite
  · exact follows_pure _
  apply follows_bind (bucketAdd_follows he _ _)
  intro ret
  apply follows_ite
  · exact follows_pure _
  apply follows_bind (follows_look _)
  intro mcount
  exact follows_bind (follows_writel _ _ _) fun _ => follows_pure _

private theorem addTo_follows (he : env.Settled) (n p : CStr) :
    (Call.exec env (.addPathToPlist n p)).Follows (Call.exec env.calmed (.addPathToPlist n p)) := by
  apply follows_bind (follows_look _)
  intro plist
  cases plist with
  | none => exact follows_pure _
  | some plist => exact addPathToPlist_follows he plist _

private theorem addPath_follows (he : env.Settled) (n p : CStr) :
    (Call.exec env (.addPath n p)).Follows (Call.exec env.calmed (.addPath n p)) := by
  apply follows_bind (follows_look _)
  intro cmp
  apply follows_ite
  · apply follows_bind (follows_look _)
    intro globalPlist
    cases globalPlist with
    | none => exact follows_pure _
    | some globalPlist =>
      exact follows_bind (addPathToPlist_follows he globalPlist _) fun _ => addTo_follows he n p
  · exact addTo_follows he n p

/-- Where calls of the system fail, starting a playlist fails with nothing mapped any more, or
it is a step; an error that it returns may then be that of `msync`. -/
theorem startPlaylist_tries (he : env.Settled) (h : Holds b I s)
    (hx : mlibStartPlaylist env n s = .ok (ret, t)) :
    (t.Lost ∧ ret = -1) ∨
      ∃ ret' I' k, I.Steps (.startPlaylist n) ret' I' k ∧ Holds b I' t ∧ (ret = 0 → ret' = 0) := by
  obtain ⟨hs, hsz⟩ := id h
  rcases I.finds_or_lacks n with hn | ⟨l, r, u, hf⟩
  · by_cases hsize : I.size + 272 < 2 ^ 32
    · rcases startPlaylist_cases env hs hn hsize with ⟨s', hfail, -, hm, -⟩ | ⟨a, s₁, hfill, hs₁, -, -, hmap⟩
      · rw [hfail] at hx
        cases hx
        exact Or.inl ⟨hm, rfl⟩
      · obtain rfl := he.mmap_again _ _ _ _ hs.placed hmap
        obtain ⟨t', ht, hs', -⟩ := @fillRecord_image env a I s₁ n hsize hs₁
        rw [hfill, ht] at hx
        cases hx
        exact Or.inr ⟨0, _, 0, .started hn, ⟨hs', by rwa [Image.size_started]⟩, fun _ => rfl⟩
    · rw [startPlaylist_refused hs hsz hn (by omega)] at hx
      cases hx
      exact Or.inr ⟨-1, I, 1, .startRefused hn, ⟨⟨hs.header, hs.file, hs.mapped, hs.placed⟩, hsz⟩, id⟩
  · obtain ⟨hI, rfl, hl⟩ := id hf
    rw [startPlaylist_present hs hI hsz hl] at hx
    cases hx
    exact Or.inr ⟨-1, I, 0, .startPresent hf, h, id⟩

private theorem takes_tries {c : Call} {op : Op Int} {path : Option CStr} (ht : Takes b s op (I.Steps c) path)
    (hx : op s = .ok (ret, t)) : ∃ I' k, I.Steps c ret I' k ∧ Holds b I' t := by
  rcases ht with ⟨ret', I', k, t', he, hs, hI', -⟩ | ⟨he, -⟩
  · rw [he] at hx
    cases hx
    exact ⟨I', k, hs, hI'⟩
  · rw [he] at hx
    cases hx

/-- What holds an image is mapped: its header is there. -/
theorem Holds.mapped (h : Holds b I s) : ¬ s.Lost := by
  intro hl
  have hm := mem_unmapped hl
  rw [h.shows.mem] at hm
  have hlen : I.bytes.length = 0 := congrArg List.length hm
  rw [Image.bytes_length, Image.size] at hlen
  omega

/-- A call that returns is a step where system calls fail, too, or nothing is mapped after it. -/
theorem Call.exec_tries (he : env.Settled) (h : Holds b I s) (c : Call) (hx : c.exec env s = .ok (ret, t)) :
    t.Lost ∨ ∃ ret' I' k, I.Steps c ret' I' k ∧ Holds b I' t := by
  have hp : Placed s.header := h.shows.header ▸ h.shows.placed
  cases c with
  | startPlaylist n =>
    rcases startPlaylist_tries he h hx with ⟨hl, -⟩ | ⟨ret', I', k, hs, hI', -⟩
    · exact Or.inl hl
    · exact Or.inr ⟨ret', I', k, hs, hI'⟩
  | deletePlaylist n => exact Or.inr ⟨ret, takes_tries (deletePlaylist_takes he.ftruncate h n) hx⟩
  | addPath n p =>
    obtain ⟨-, -, hl | hx'⟩ := addPath_follows he n p _ _ _ hp hx
    · exact Or.inl hl
    · exact Or.inr ⟨ret, takes_tries (addPath_takes env.calmed_calm h n p) hx'⟩
  | addPathToPlist n p =>
    obtain ⟨-, -, hl | hx'⟩ := addTo_follows he n p _ _ _ hp hx
    · exact Or.inl hl
    · exact Or.inr ⟨ret, takes_tries (Call.exec_takes env.calmed_calm h (.addPathToPlist n p)) hx'⟩

/-- No call returns when nothing is mapped: each one looks for a playlist first. -/
theorem Call.exec_lost (h : s.Lost) (c : Call) : c.exec env s = .error .fault := by
  have hfind : ∀ n, look (mlibFindPlaylist env.endian · n) s = .error .fault := fun n => by
    apply look_fails
    rw [mlibFindPlaylist, mlibNextPlaylist, mlibPlistCheckLen, libLen_lost h]
    rfl
  cases c with
  | startPlaylist n => exact Op.step_fails (hfind n)
  | deletePlaylist n => exact Op.step_fails (hfind n)
  | addPath n p =>
    rw [Call.exec, mlibAddPath, Op.step (strcmp_names n dotGlobal)]
    split
    · exact Op.step_fails (hfind dotGlobal)
    · exact Op.step_fails (hfind n)
  | addPathToPlist n p => exact Op.step_fails (hfind n)

theorem forEachPls_lost (h : s.Lost) (e : Endian) : mlibForEachPls e s.mem = .error .fault := by
  rw [mlibForEachPls, mlibNextPlaylist, mlibPlistCheckLen, libLen_lost h]
  rfl

/-- Whatever fails on the way, a library that is still mapped holds an image that every step
kept the property of. -/
theorem Reached.tries {kind : Call → Prop} (he : env.Settled) (P : Image → Prop)
    (hcreated : ∀ name mediaPrefix hn hp, P (Image.created name mediaPrefix hn hp))
    (hstep : ∀ I c ret I' k, kind c → P I → I.Steps c ret I' k → P I') (h : Reached env kind s) :
    s.Lost ∨ ∃ b I, Holds b I s ∧ P I := by
  induction h with
  | @created name mediaPrefix s h =>
    obtain ⟨hn, hp, b, hI, -⟩ := h.holds
    exact Or.inr ⟨b, _, hI, hcreated name mediaPrefix hn hp⟩
  | @call c ret s t _ hk hx ih =>
    rcases ih with hl | ⟨b, I, hI, hP⟩
    · rw [c.exec_lost hl] at hx
      cases hx
    · rcases c.exec_tries he hI hx with hl | ⟨ret', I', k, hs, hI'⟩
      · exact Or.inl hl
      · exact Or.inr ⟨b, I', hI', hstep _ _ _ _ _ hk hP hs⟩

/-- A playlist that is visited in a library that was reached is a record of its image. -/
theorem Reached.visits {kind : Call → Prop} {e : Endian} {plists : List Nat} {plist : Nat} (he : env.Settled)
    (h : Reached env kind s) (hall : mlibForEachPls e s.mem = .ok plists) (hp : plist ∈ plists) :
    ∃ b I l r u, Holds b I s ∧ I.recs = l ++ r :: u ∧ plist = recAddr b l := by
  rcases h.tries he (fun _ => True) (fun _ _ _ _ => trivial) (fun _ _ _ _ _ _ _ _ => trivial) with hl | ⟨b, I, hI, -⟩
  · rw [forEachPls_lost hl] at hall
    cases hall
  · obtain ⟨l, r, u, hrecs, ha⟩ := hI.visited hall hp
    exact ⟨b, I, l, r, u, hI, hrecs, ha⟩

end Mlib

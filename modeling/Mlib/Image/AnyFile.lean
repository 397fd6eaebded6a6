import Mlib.Image.Access
import Mlib.Program.Registry

/-! The walk over the records of a file of arbitrary bytes, of which nothing was checked but
its size: where it goes, and which bytes it reads on the way. -/
namespace Mlib
open Foundation

/-- A record starts at the offset: within the length that the library states, with the right magic. -/
def RecordAt (f : Bytes) (off : Nat) : Prop := off < word f 8 ∧ word f off = mlibPlistHdrMagic

/-- The offsets that a walk over the records `pass` lets by comes to: each is as far behind the
one before as the length that is stored there. -/
inductive Chain (f : Bytes) (pass : Nat → Prop) : Nat → Prop
  | first : Chain f pass 1024
  | next {off : Nat} (h : Chain f pass off) (hr : RecordAt f off) (hp : pass off) (hl : off + 8 ≤ f.length) :
      Chain f pass (off + word f (off + 4))

def arrive (f : Bytes) (b off : Nat) : Outcome (Option Nat) :=
  if word f 8 ≤ off then .ok none
  else if off + 4 ≤ f.length then .ok (if word f off = mlibPlistHdrMagic then some (b + off) else none)
  else .error .fault

variable {e : Endian} {b off : Nat} {f : Bytes} {name : CStr}

theorem RecordAt.inside (h : RecordAt f off) : off + 4 ≤ f.length := by
  apply word_inside
  rw [h.2]
  decide

private theorem checkLen_word (h : 12 ≤ f.length) :
    mlibPlistCheckLen e ⟨b, f⟩ (b + off) = .ok (decide (word f 8 ≤ off)) := by
  rw [mlibPlistCheckLen, libLen_word e b h, ok_bind, pure_ok]
  simp

theorem arrive_eq (h : 12 ≤ f.length) :
    (do
      if ← mlibPlistCheckLen e ⟨b, f⟩ (b + off) then return none
      if (← mlibPlistMagic e ⟨b, f⟩ (b + off)) ≠ mlibPlistHdrMagic then return none
      return some (b + off)) = arrive f b off := by
  rw [checkLen_word h, ok_bind, arrive]
  by_cases hlen : word f 8 ≤ off
  · simp [hlen]
  · rw [if_neg hlen, mlibPlistMagic, mlibReadl_word]
    by_cases hin : off + 4 ≤ f.length
    · by_cases hm : word f off = mlibPlistHdrMagic <;> simp [hlen, hin, hm]
    · simp [hlen, hin]

theorem nextPlaylist_none_word (h : 12 ≤ f.length) : mlibNextPlaylist e ⟨b, f⟩ none = arrive f b 1024 :=
  arrive_eq h

theorem nextPlaylist_some_word (h : 12 ≤ f.length) :
    mlibNextPlaylist e ⟨b, f⟩ (some (b + off)) =
      if off + 8 ≤ f.length then arrive f b (off + word f (off + 4)) else .error .fault := by
  rw [mlibNextPlaylist]
  simp only [Option.getD_some, mlibPlistLen, Nat.add_assoc, mlibReadl_word]
  split
  · rw [ok_bind, ← arrive_eq h]
  · rfl

theorem arrive_record (h : RecordAt f off) : arrive f b off = .ok (some (b + off)) := by
  rw [arrive, if_neg (by have := h.1; omega), if_pos h.inside, if_pos h.2]

/-- A record of length zero is followed by itself. -/
theorem forEach_stuck (h : 12 ≤ f.length) (hr : RecordAt f off) (hl : off + 8 ≤ f.length)
    (hz : word f (off + 4) = 0) (rounds : Nat) :
      mlibForEachPlsFrom e ⟨b, f⟩ rounds (some (b + off)) = .error .hang := by
  induction rounds with
  | zero => rfl
  | succ rounds ih =>
    rw [mlibForEachPlsFrom, nextPlaylist_some_word h, if_pos hl, hz, Nat.add_zero, arrive_record hr,
      ok_bind, ih]
    rfl

theorem arrive_cases (f : Bytes) (b off : Nat) :
    arrive f b off = .error .fault ∧ off < word f 8 ∧ f.length < off + 4 ∨
      arrive f b off = .ok none ∧ (off < word f 8 → off + 4 ≤ f.length) ∧ ¬ RecordAt f off ∨
      arrive f b off = .ok (some (b + off)) ∧ RecordAt f off := by
  unfold arrive
  split
  · exact Or.inr (Or.inl ⟨rfl, by omega, fun h => by have := h.1; omega⟩)
  · split
    · split
      · exact Or.inr (Or.inr ⟨rfl, by omega, ‹_›⟩)
      · exact Or.inr (Or.inl ⟨rfl, fun _ => ‹_›, fun h => absurd h.2 ‹_›⟩)
    · exact Or.inl ⟨rfl, by omega, by omega⟩

theorem word_headerBytes {len : Nat} (h : len < 2 ^ 32) (name mediaPrefix r : Bytes) :
    word (headerBytes len name mediaPrefix ++ r) 8 = len := by
  have hw := word_mid (be32 mlibMagic ++ be32 0) (field 116 name ++ field 896 mediaPrefix ++ r) h
  rw [List.length_append, be32_length, be32_length] at hw
  simpa only [headerBytes, List.append_assoc] using hw

section words
variable (h : off + 144 ≤ f.length) (e : Endian) (b : Nat)
include h

theorem plistMagic_word : mlibPlistMagic e ⟨b, f⟩ (b + off) = .ok (word f off) := by
  rw [mlibPlistMagic, mlibReadl_word, if_pos (by omega)]

theorem plistLen_word : mlibPlistLen e ⟨b, f⟩ (b + off) = .ok (word f (off + 4)) := by
  rw [mlibPlistLen, Nat.add_assoc, mlibReadl_word, if_pos (by omega)]

theorem plistMcount_word : mlibPlistMcount e ⟨b, f⟩ (b + off) = .ok (word f (off + 8)) := by
  rw [mlibPlistMcount, Nat.add_assoc, mlibReadl_word, if_pos (by omega)]

private theorem bucket_word {k : Nat} (hk : k ≤ 12) :
    mlibReadl e ⟨b, f⟩ (plistData (b + off) + k) = .ok (word f (off + 128 + k)) := by
  rw [plistData, Nat.add_assoc, Nat.add_assoc, ← Nat.add_assoc off, mlibReadl_word, if_pos (by omega)]

theorem bucketLength_word : mlibBucketLength e ⟨b, f⟩ (plistData (b + off)) = .ok (word f (off + 132)) :=
  bucket_word h e b (by decide)

theorem bucketIndexOffs_word : mlibBucketIndexOffs e ⟨b, f⟩ (plistData (b + off)) = .ok (word f (off + 136)) :=
  bucket_word h e b (by decide)

theorem bucketStrBytes_word : mlibBucketStrBytes e ⟨b, f⟩ (plistData (b + off)) = .ok (word f (off + 140)) :=
  bucket_word h e b (by decide)

end words

/-- Nothing but its size and its magic is looked at when a file is opened. -/
theorem openLibrary_accepts {env : Env} {header : Nat} (hmap : env.mmap 0 0 f.length = some header)
    (hlen : 1024 ≤ f.length) (hmagic : word f 0 = mlibMagic) :
    mlibOpenLibrary env f false .empty = .ok (some 0, ⟨[⟨0, Lib.opened header f⟩], 1⟩) := by
  have hread : mlibLibMagic env.endian (Lib.opened header f).mem = .ok mlibMagic := by
    rw [opened_mem, mlibLibMagic, ← hmagic]
    exact (mlibReadl_word env.endian header f 0).trans (if_pos (by omega))
  rw [mlibOpenLibrary, if_neg (by decide), mlibOpenLocalLib, if_neg (by omega), Registry.empty, hmap]
  simp only [hread, ok_bind]
  rfl

end Mlib

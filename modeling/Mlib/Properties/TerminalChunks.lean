import Mlib.Image.Creation
import Mlib.Program.Shell
import Mlib.Program.Terminal

/-! How a typed line reaches the lexer. The number that `mlib_readbuf` returns is found with `strlen`, so a
chunk that fills its buffer has no end. -/
namespace Mlib
open Foundation

/-- From the call `i` on, each call stores as many bytes of the text as it returns and NULs behind them; where
the text is used up the next call returns zero, and the lines are all that is left. -/
inductive Delivers (buffers : Nat → Bytes) (lines : List CStr) : Nat → Bytes → Terminal → Prop where
  | chunk {i : Nat} {chunk rest buffer : Bytes} {t t' : Terminal} :
      mlibReadbuf (buffers i) (buffers i).length t = .ok (chunk.length, buffer, t') → chunk ≠ [] →
      chunk.length ≤ (buffers i).length → buffer = chunk ++ zeros ((buffers i).length - chunk.length) →
      Delivers buffers lines (i + 1) rest t' → Delivers buffers lines i (chunk ++ rest) t
  | done {i : Nat} {buffer : Bytes} {t t' : Terminal} :
      mlibReadbuf (buffers i) (buffers i).length t = .ok (0, buffer, t') → t'.readlineBuff = none →
        t'.lines = lines →
      Delivers buffers lines i [] t

variable {buffers : Nat → Bytes} {lines : List CStr} {line : CStr} {t t' : Terminal} {buffer : Bytes} {n : Nat}

theorem promptFrom_cons (t : Terminal) (line : CStr) (lines : List CStr) : promptFrom t (line :: lines) =
    if int32 line.val.length > 0 then .ok ⟨int32 line.val.length, 0, some line, lines⟩
    else promptFrom { t with buffSize := int32 line.val.length } lines := by
  rw [promptFrom, CStr.mem, strlen_string line.val line.2, ok_bind]
  dsimp only
  split
  · rfl
  · with_reducible rfl

/-- The first line that is not empty is taken, if it is below 2 GiB. -/
theorem promptFrom_typed {typed : List CStr} (htyped : typed.dropWhile (·.val = []) = line :: lines)
    (hlen : line.val.length < 2 ^ 31) : promptFrom t typed = .ok ⟨line.val.length, 0, some line, lines⟩ := by
  induction typed generalizing t with
  | nil => cases htyped
  | cons first typed ih =>
    rw [promptFrom_cons]
    by_cases hfirst : first.val = []
    · rw [List.dropWhile_cons_of_pos (by simpa using hfirst)] at htyped
      rw [hfirst, if_neg (by decide)]
      exact ih htyped
    · rw [List.dropWhile_cons_of_neg (by simpa using hfirst)] at htyped
      cases htyped
      have hpos := List.length_pos_iff.mpr hfirst
      rw [int32_nat hlen, if_pos (by omega)]

/-- What the loop ends with: no line, or the start of one, as long as an `int` shows it. -/
theorem promptFrom_result (h : promptFrom t lines = .ok t') : t'.readlineBuff = none ∨
    ∃ line n, t' = ⟨(n : Nat), 0, some line, t'.lines⟩ ∧ 0 < n ∧ n ≤ line.val.length ∧ n < 2 ^ 31 := by
  induction lines generalizing t with
  | nil =>
    cases h
    exact Or.inl rfl
  | cons line lines ih =>
    rw [promptFrom_cons] at h
    split at h
    · have hpos : int32 line.val.length > 0 := ‹_›
      obtain ⟨hle, hlt⟩ := int32_le line.val.length
      obtain ⟨n, hn⟩ := Int.eq_ofNat_of_zero_le hpos.le
      rw [hn] at h hpos hle hlt
      refine Or.inr ⟨line, n, ?_, by omega, by omega, by omega⟩
      rw [← Except.ok.inj h]
    · exact ih h

/-- Where a line is used up it is given back. -/
theorem readbuf_done (buffer : Bytes) (max n : Nat) (line : CStr) (lines : List CStr) :
    mlibReadbuf buffer max ⟨n, n, some line, lines⟩ = .ok (0, buffer, ⟨0, 0, none, lines⟩) := by
  rw [mlibReadbuf, mlibReadbufTerm]
  dsimp only [prompt]
  rw [ok_bind]
  dsimp only
  rw [if_pos (le_refl _)]
  rfl

/-- The first call for a line stores all of it, or as much as the buffer takes. -/
theorem readbufTerm_first (buffer : Bytes) (hn : 0 < n) (hline : n ≤ line.val.length) (hlen : n < 2 ^ 31) :
    mlibReadbufTerm buffer buffer.length ⟨n, 0, some line, lines⟩ =
      .ok (some (line.val.take (min n buffer.length) ++ zeros (buffer.length - n)),
        ⟨n, (min n buffer.length : Nat), some line, lines⟩) := by
  have hmax : (if size64 (n - 0) > buffer.length then int32 buffer.length else n - 0) = (min n buffer.length : Nat) := by
    rw [Int.sub_zero, size64_nat (by omega)]
    split
    · rw [int32_nat (by omega), Nat.min_eq_right (by omega)]
    · rw [Nat.min_eq_left (by omega)]
  have hsrc : viewAt ⟨0, line.mem⟩ 0 = line.val ++ [0] := rfl
  have hfits : min n buffer.length ≤ (line.val ++ [0]).length := by
    rw [List.length_append]
    omega
  have hzeros : (zeros buffer.length).drop (min n buffer.length) = zeros (buffer.length - n) := by
    rw [zeros, List.drop_replicate, zeros]
    congr 1
    omega
  rw [mlibReadbufTerm]
  dsimp only [prompt]
  rw [ok_bind]
  dsimp only
  rw [if_neg (by omega), put_zeros, ok_bind, hmax, hsrc, size64_nat (by omega),
    memcpy_fits hfits (by rw [zeros_length]; omega), ok_bind, hzeros, List.take_append_of_le_length (by omega), Int.zero_add]
  rfl

/-- It returns where the line leaves room for a NUL in the buffer. -/
theorem readbuf_first (buffer : Bytes) (hn : 0 < n) (hline : n ≤ line.val.length) (hlen : n < 2 ^ 31) :
    mlibReadbuf buffer buffer.length ⟨n, 0, some line, lines⟩ =
      if n < buffer.length then
        .ok (n, line.val.take n ++ zeros (buffer.length - n), ⟨n, n, some line, lines⟩)
      else .error .fault := by
  have hnul : ∀ k, (0 : UInt8) ∉ line.val.take k := fun k hmem => line.2 (List.mem_of_mem_take hmem)
  rw [mlibReadbuf, readbufTerm_first buffer hn hline hlen, ok_bind]
  dsimp only
  split
  · obtain ⟨k, hk⟩ : ∃ k, buffer.length - n = k + 1 := ⟨buffer.length - n - 1, by omega⟩
    rw [Nat.min_eq_left (by omega), hk, zeros_succ, strlen_string _ (hnul n), List.length_take_of_le hline]
    rfl
  · rw [Nat.sub_eq_zero_of_le (by omega), zeros_zero, List.append_nil, strlen_fault (hnul _)]
    rfl

/-- A call that finds no line in the static variables prompts for one first. -/
theorem readbuf_prompt (buffer : Bytes) (max : Nat) {b r : Int}
    (h : promptFrom ⟨b, r, none, lines⟩ lines = .ok t) :
    mlibReadbuf buffer max ⟨b, r, none, lines⟩ =
      if t.readlineBuff = none then .ok (0, buffer, t) else mlibReadbuf buffer max t := by
  obtain ⟨b', r', readlineBuff, lines'⟩ := t
  rw [mlibReadbuf, mlibReadbufTerm]
  dsimp only [prompt]
  rw [h, ok_bind]
  cases readlineBuff with
  | none => rfl
  | some line =>
    rw [if_neg (Option.some_ne_none line), mlibReadbuf, mlibReadbufTerm]
    rfl

/-- Behind the line there is nothing to be delivered. -/
theorem Delivers.used_up {i : Nat} {text : Bytes} {lines' : List CStr}
    (h : Delivers buffers lines i text ⟨n, n, some line, lines'⟩) : text = [] := by
  cases h with
  | chunk hcall hne =>
    rw [readbuf_done] at hcall
    injection hcall with hcall
    exact absurd (List.eq_nil_of_length_eq_zero (Prod.ext_iff.mp hcall).1.symm) hne
  | done => rfl

/-- A line that leaves room for a NUL in the first buffer is delivered in one chunk, with the lines behind it left. -/
theorem delivers_line {b r : Int} {typed : List CStr} (htyped : typed.dropWhile (·.val = []) = line :: lines)
    (hne : line.val ≠ []) (hfits : line.val.length < (buffers 0).length) (hlen : line.val.length < 2 ^ 31) :
    Delivers buffers lines 0 line.val ⟨b, r, none, typed⟩ := by
  have hcall : mlibReadbuf (buffers 0) (buffers 0).length ⟨b, r, none, typed⟩ =
      .ok (line.val.length, line.val ++ zeros ((buffers 0).length - line.val.length),
        ⟨line.val.length, line.val.length, some line, lines⟩) := by
    rw [readbuf_prompt _ _ (promptFrom_typed htyped hlen), if_neg (Option.some_ne_none line),
      readbuf_first _ (List.length_pos_iff.mpr hne) (le_refl _) hlen, if_pos hfits, List.take_length]
  have hall := Delivers.chunk hcall hne hfits.le rfl (.done (readbuf_done _ _ _ line lines) rfl rfl)
  rwa [List.append_nil] at hall

/-- What the lexer's input is taken to be is what the calls deliver, where the buffer is as long as the lexer says. -/
theorem readbufs_delivered {stdin : Ptr} {s s' : Input (buffers 0).length} {text : Bytes} {b r : Int}
    (hstdin : stdin ≠ null)
    (hcur : s.streams.current = stdin) (h : mlibReadbufs stdin s = .ok (text, s')) (hne : text ≠ [])
    (hlen : (buffers 0).length ≤ 2 ^ 31) :
    Delivers buffers s'.terminal 0 text ⟨b, r, none, s.terminal⟩ := by
  rw [mlibReadbufs, if_neg (by rwa [hcur]), if_neg (not_not_intro hcur)] at h
  cases htyped : s.terminal.dropWhile (·.val = []) with
  | nil =>
    rw [htyped] at h
    cases h
    exact absurd rfl hne
  | cons line lines =>
    rw [htyped] at h
    dsimp only at h
    split at h
    · have hfits : line.val.length < (buffers 0).length := ‹_›
      cases h
      exact delivers_line htyped hne hfits (hfits.trans_le hlen)
    · cases h

/-- A line is delivered as it was typed exactly where the first buffer has room for it and a NUL, and an `int`
for its length. -/
theorem delivers_iff (buffers : Nat → Bytes) (lines : List CStr) (b r : Int) (hne : line.val ≠ []) :
    Delivers buffers lines 0 line.val ⟨b, r, none, line :: lines⟩ ↔
      line.val.length < (buffers 0).length ∧ line.val.length < 2 ^ 31 := by
  constructor
  · intro h
    generalize line.val = text, line :: lines = typed at h hne
    cases h with
    | done => exact absurd rfl hne
    | @chunk _ chunk rest buffer _ t' hcall hchunk _ _ hrest =>
      cases hprompt : promptFrom ⟨b, r, none, typed⟩ typed with
      | error why =>
        rw [mlibReadbuf, mlibReadbufTerm] at hcall
        dsimp only [prompt] at hcall
        rw [hprompt] at hcall
        cases hcall
      | ok t =>
        rw [readbuf_prompt _ _ hprompt] at hcall
        split at hcall
        · injection hcall with hcall
          exact absurd (List.eq_nil_of_length_eq_zero (Prod.ext_iff.mp hcall).1.symm) hchunk
        · obtain hnone | ⟨line', n, ht, hpos, hle, hlt⟩ := promptFrom_result hprompt
          · contradiction
          rw [ht, readbuf_first _ hpos hle hlt] at hcall
          split at hcall
          · cases hcall
            obtain rfl := hrest.used_up
            rw [List.append_nil]
            omega
          · cases hcall
  · rintro ⟨hfits, hlen⟩
    exact delivers_line (List.dropWhile_cons_of_neg (by simpa using hne)) hne hfits hlen

/-- A line of one character in buffers of two bytes. -/
theorem delivers_a : Delivers (fun _ => zeros 2) [] 0 nameA.val ⟨0, 0, none, [nameA]⟩ :=
  (delivers_iff (fun _ => zeros 2) [] 0 0 (by decide)).mpr ⟨by decide, by decide⟩

/-- In a buffer of one byte the end of the same line is looked for behind the buffer. -/
theorem delivers_fills : ¬ Delivers (fun _ => zeros 1) [] 0 nameA.val ⟨0, 0, none, [nameA]⟩ := by
  intro h
  have hfault : mlibReadbuf (zeros 1) 1 ⟨0, 0, none, [nameA]⟩ = .error .fault := by decide
  generalize htext : nameA.val = text at h
  cases h with
  | chunk hcall => cases hfault.symm.trans hcall
  | done => exact absurd htext (by decide)

end Mlib

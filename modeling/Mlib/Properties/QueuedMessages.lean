import Mlib.Program.Messages

/-! Messages are printed whole, once and in the order in which they were linked, when none of
them has a NUL in it or is as long as the largest `int`. -/
namespace Mlib
open Foundation

/-- A message that a string and an `int` can hold. -/
def Sound (text : Bytes) : Prop := text.length < intMax ∧ (0 : UInt8) ∉ text

/-- Any interleaving of threads that queue sound messages with printing the queue: the queue, the
message that each thread has formatted and not linked yet, and the texts linked so far, in order. -/
inductive Interleaved (mlibPrintQueue : Ptr) : PrintQueue → (Nat → Option (Ptr × Bytes)) → List Bytes → Prop
  | start (L : Links Ptr) (text : Ptr → Bytes) :
      Interleaved mlibPrintQueue ⟨initListHead mlibPrintQueue L, text, []⟩ (fun _ => none) []
  | format {q q' : PrintQueue} {waiting : Nat → Option (Ptr × Bytes)} {sent : List Bytes} {thread fuel : Nat}
      {text : Bytes} {msg : Ptr} (h : Interleaved mlibPrintQueue q waiting sent) (hidle : waiting thread = none)
      (hmsg : ∀ l, Ring q.links mlibPrintQueue l → msg ∉ mlibPrintQueue :: l)
      (hfree : ∀ thread' text', waiting thread' ≠ some (msg, text')) (hs : Sound text)
      (hx : mlibQueueFormat fuel text msg q = .ok q') :
      Interleaved mlibPrintQueue q' (Function.update waiting thread (some (msg, text))) sent
  | link {q : PrintQueue} {waiting : Nat → Option (Ptr × Bytes)} {sent : List Bytes} {thread : Nat} {text : Bytes}
      {msg : Ptr} (h : Interleaved mlibPrintQueue q waiting sent) (hw : waiting thread = some (msg, text)) :
      Interleaved mlibPrintQueue (mlibQueueLink mlibPrintQueue msg q) (Function.update waiting thread none) (sent ++ [text])
  | empty {q q' : PrintQueue} {waiting : Nat → Option (Ptr × Bytes)} {sent : List Bytes} {ret : Int}
      (h : Interleaved mlibPrintQueue q waiting sent) (hx : mlibEmptyPrintQueue mlibPrintQueue q = .ok (ret, q')) :
      Interleaved mlibPrintQueue q' waiting sent

variable {mlibPrintQueue msg : Ptr} {q q' : PrintQueue} {waiting : Nat → Option (Ptr × Bytes)} {text m : Bytes}
  {l : List Ptr} {outs texts sent : List Bytes} {fuel : Nat}

private theorem vsnprintf_fits {size : Int} (hlen : text.length ≤ intMax) (h : (text.length : Int) < size)
    (hsize : size ≤ intMax) : vsnprintf (sizeOfInt size) text = ((text.length : Int), text ++ [0]) := by
  have hs : sizeOfInt size = size.toNat := by
    rw [sizeOfInt, Int.emod_eq_of_lt (by omega) (by simp only [intMax] at hsize; omega)]
  rw [vsnprintf, if_pos hlen, hs, if_neg (by omega), List.take_of_length_le (by omega)]

/-- Where the text is too long for the first buffer, the second one has its size. -/
theorem format_ends (h : text.length < intMax) : mlibFormatFrom text 2 32 = .ok (text ++ [0]) := by
  have hn : ∀ size, (vsnprintf size text).1 = (text.length : Int) := fun size => if_pos (le_of_lt h)
  have hadd : addInt text.length 1 = text.length + 1 := by
    rw [addInt, Int.bmod_def]
    simp only [intMax] at h
    omega
  rw [mlibFormatFrom, hn]
  by_cases hlt : text.length < 32
  · rw [if_pos (by omega), vsnprintf_fits (le_of_lt h) (by omega) (by decide)]
  · rw [if_neg (by omega), if_pos (by omega), mlibFormatFrom, hn, hadd, if_pos (by omega),
      vsnprintf_fits (le_of_lt h) (by omega) (by omega)]

/-- One more than the largest `int` is negative, and the loop goes on with that size for ever. -/
theorem format_hangs (h : text.length = intMax) (fuel : Nat) : mlibFormatFrom text fuel 32 = .error .hang := by
  have hn : ∀ size, (vsnprintf size text).1 = (text.length : Int) := fun size => if_pos (le_of_eq h)
  have hadd : addInt text.length 1 = -2 ^ 31 := by
    rw [h]
    rfl
  have hloop : ∀ fuel, mlibFormatFrom text fuel (-2 ^ 31) = .error .hang := by
    intro fuel
    induction fuel with
    | zero => rfl
    | succ fuel ih => rw [mlibFormatFrom, hn, if_neg (by omega), if_pos (by omega), hadd, ih]
  cases fuel with
  | zero => rfl
  | succ fuel =>
    simp only [intMax] at h
    rw [mlibFormatFrom, hn, if_neg (by omega), if_pos (by omega), hadd, hloop]

private theorem format_mono {size : Int} {fuel' : Nat} (h : mlibFormatFrom text fuel size = .ok m)
    (hle : fuel ≤ fuel') :
    mlibFormatFrom text fuel' size = .ok m := by
  induction fuel generalizing size fuel' with
  | zero => cases h
  | succ fuel ih =>
    obtain ⟨fuel', rfl⟩ : ∃ k, fuel' = k + 1 := ⟨fuel' - 1, by omega⟩
    rw [mlibFormatFrom] at h ⊢
    split at h
    · rwa [if_pos ‹_›]
    · rw [if_neg ‹_›]
      exact ih h (by omega)

/-- The loop ends exactly on texts shorter than the largest `int`, and then with the whole text. -/
theorem format_ends_iff (h : text.length ≤ intMax) :
    mlibFormatFrom text fuel 32 = .ok m → m = text ++ [0] ∧ text.length < intMax := by
  intro hx
  have hlt : text.length < intMax := lt_of_le_of_ne h fun he => by
    rw [format_hangs he] at hx
    cases hx
  have hboth := (format_mono hx (Nat.le_add_right fuel 2)).symm.trans
    (format_mono (format_ends hlt) (Nat.le_add_left 2 fuel))
  exact ⟨Except.ok.inj hboth, hlt⟩

private theorem empty_ring {L : Links Ptr} {mem : Ptr → Bytes} (h : Ring L mlibPrintQueue l)
    (ho : List.Forall₂ (fun p out => chars (mem p) = .ok out) l outs) (printed : Bytes)
      (hfuel : l.length < fuel) :
    ∃ L', mlibEmptyPrintQueueFrom mlibPrintQueue fuel ⟨L, mem, printed⟩ = .ok ⟨L', mem,
      printed ++ outs.flatten⟩ ∧
      Ring L' mlibPrintQueue [] := by
  obtain ⟨fuel, rfl⟩ : ∃ k, fuel = k + 1 := ⟨fuel - 1, by omega⟩
  induction ho generalizing L printed fuel with
  | nil =>
    refine ⟨L, ?_, h⟩
    rw [mlibEmptyPrintQueueFrom, if_pos ((listEmpty_iff h).mpr rfl), List.flatten_nil, List.append_nil]
  | @cons p out l outs hp ho ih =>
    obtain ⟨fuel, rfl⟩ : ∃ k, fuel = k + 1 := ⟨fuel - 1, by simp at hfuel; omega⟩
    have hnext : L.next mlibPrintQueue = p := h.linked.1
    obtain ⟨L', he, hL'⟩ := ih (listDel_first h) (printed ++ out) fuel (by simpa using hfuel)
    refine ⟨L', ?_, hL'⟩
    rw [mlibEmptyPrintQueueFrom, if_neg ((listEmpty_iff h).not.mpr (List.cons_ne_nil p l))]
    simp only [hnext, hp, ok_bind, he, List.flatten_cons, List.append_assoc]

/-- What was linked is printed or still in the queue, and each waiting message is stored at an
address of its own. -/
structure Accounted (mlibPrintQueue : Ptr) (q : PrintQueue) (waiting : Nat →
  Option (Ptr × Bytes)) (sent : List Bytes)
    (l : List Ptr) (texts : List Bytes) : Prop where
  ring : Ring q.links mlibPrintQueue l
  queued : List.Forall₂ (fun p x => q.text p = x ++ [0] ∧ (0 : UInt8) ∉ x) l texts
  account : q.printed ++ texts.flatten = sent.flatten
  kept : ∀ thread p x, waiting thread = some (p, x) → (q.text p = x ++ [0] ∧ (0 : UInt8) ∉ x) ∧
    p ∉ mlibPrintQueue :: l
  apart : ∀ thread thread' p x x', waiting thread = some (p, x) → waiting thread' = some (p, x') →
    thread = thread'

private theorem chars_stored {m : Bytes} (h : m = text ++ [0] ∧ (0 : UInt8) ∉ text) : chars m = .ok text := by
  rw [h.1]
  exact chars_string text h.2 []

/-- The queued messages do not change when another one is stored. -/
theorem Accounted.stored (h : Accounted mlibPrintQueue q waiting sent l texts)
    (hmsg : msg ∉ mlibPrintQueue :: l)
    (m : Bytes) :
    List.Forall₂ (fun p x => Function.update q.text msg m p = x ++ [0] ∧ (0 : UInt8) ∉ x) l texts := by
  refine List.forall₂_iff_get.mpr ⟨h.queued.length_eq, fun i hl ht => ?_⟩
  have hne : l.get ⟨i, hl⟩ ≠ msg := fun he => hmsg (List.mem_cons_of_mem _ (he ▸ List.get_mem l ⟨i, hl⟩))
  rw [Function.update_of_ne hne]
  exact (List.forall₂_iff_get.mp h.queued).2 i hl ht

theorem Accounted.empty (h : Accounted mlibPrintQueue q waiting sent l texts) :
    ∃ q', mlibEmptyPrintQueue mlibPrintQueue q = .ok (0, q') ∧ q'.printed = sent.flatten ∧
      Accounted mlibPrintQueue q' waiting sent [] [] := by
  obtain ⟨L', he, hL'⟩ := empty_ring h.ring (h.queued.imp fun p x hx => chars_stored hx) q.printed (ring_length_lt h.ring)
  refine ⟨⟨L', q.text, q.printed ++ texts.flatten⟩, ?_, h.account, hL', .nil, ?_, ?_, h.apart⟩
  · rw [mlibEmptyPrintQueue, he]
    rfl
  · rw [List.flatten_nil, List.append_nil]
    exact h.account
  · intro thread p x hw
    obtain ⟨hx, hp⟩ := h.kept thread p x hw
    exact ⟨hx, List.mem_cons.not.mpr (not_or.mpr ⟨fun he => hp (he ▸ List.mem_cons_self), List.not_mem_nil⟩)⟩

/-- Formatting a message changes the memory of no other one. -/
theorem Accounted.format {thread : Nat} (h : Accounted mlibPrintQueue q waiting sent l texts)
    (hmsg : msg ∉ mlibPrintQueue :: l) (hfree : ∀ thread' text', waiting thread' ≠ some (msg, text'))
    (hz : (0 : UInt8) ∉ text) : Accounted mlibPrintQueue { q with text := Function.update q.text msg (text ++ [0]) }
      (Function.update waiting thread (some (msg, text))) sent l texts := by
  have hother : ∀ t p x, t ≠ thread → Function.update waiting thread (some (msg, text)) t = some (p, x) →
      waiting t = some (p, x) := fun t p x ht hw => by rwa [Function.update_of_ne ht] at hw
  have hself : ∀ p x, Function.update waiting thread (some (msg, text)) thread = some (p, x) → p = msg ∧
    x = text :=
    fun p x hw => by
      rw [Function.update_self] at hw
      cases hw
      exact ⟨rfl, rfl⟩
  refine ⟨h.ring, h.stored hmsg _, h.account, ?_, ?_⟩
  · intro t p x hw
    by_cases ht : t = thread
    · subst ht
      obtain ⟨rfl, rfl⟩ := hself p x hw
      exact ⟨⟨Function.update_self _ _ _, hz⟩, hmsg⟩
    · have hw' := hother t p x ht hw
      obtain ⟨hx, hp⟩ := h.kept t p x hw'
      have hne : p ≠ msg := by
        rintro rfl
        exact hfree t x hw'
      refine ⟨?_, hp⟩
      dsimp only
      rw [Function.update_of_ne hne]
      exact hx
  · intro t t' p x x' hw hw'
    by_cases ht : t = thread
    · by_cases ht' : t' = thread
      · exact ht.trans ht'.symm
      · subst ht
        obtain ⟨rfl, rfl⟩ := hself p x hw
        exact absurd (hother t' p x' ht' hw') (hfree t' x')
    · by_cases ht' : t' = thread
      · subst ht'
        obtain ⟨rfl, rfl⟩ := hself p x' hw'
        exact absurd (hother t p x ht hw) (hfree t x)
      · exact h.apart t t' p x x' (hother t p x ht hw) (hother t' p x' ht' hw')

/-- Linking a message puts it behind all that were linked before. -/
theorem Accounted.link {thread : Nat} (h : Accounted mlibPrintQueue q waiting sent l texts)
    (hw : waiting thread = some (msg, text)) : Accounted mlibPrintQueue (mlibQueueLink mlibPrintQueue msg q)
      (Function.update waiting thread none) (sent ++ [text]) (l ++ [msg]) (texts ++ [text]) := by
  obtain ⟨hx, hp⟩ := h.kept thread msg text hw
  have hother : ∀ t p x, Function.update waiting thread none t = some (p, x) → t ≠ thread ∧
    waiting t = some (p, x) := by
    intro t p x ht
    by_cases he : t = thread
    · subst he
      rw [Function.update_self] at ht
      cases ht
    · exact ⟨he, by rwa [Function.update_of_ne he] at ht⟩
  refine ⟨listAddTail_last h.ring hp, List.rel_append h.queued (.cons hx .nil), ?_, ?_, ?_⟩
  · rw [List.flatten_append, List.flatten_append, ← List.append_assoc]
    exact congrArg (· ++ [text].flatten) h.account
  · intro t p x ht
    obtain ⟨hne, ht⟩ := hother t p x ht
    obtain ⟨hx', hp'⟩ := h.kept t p x ht
    refine ⟨hx', ?_⟩
    rw [← List.cons_append, List.mem_append, List.mem_singleton, not_or]
    refine ⟨hp', ?_⟩
    rintro rfl
    exact hne (h.apart t thread p x text ht hw)
  · exact fun t t' p x x' ht ht' => h.apart t t' p x x' (hother t p x ht).2 (hother t' p x' ht').2

theorem Interleaved.accounted (h : Interleaved mlibPrintQueue q waiting sent) :
    ∃ l texts, Accounted mlibPrintQueue q waiting sent l texts := by
  induction h with
  | start L text =>
    exact ⟨[], [], initListHead_ring mlibPrintQueue L, .nil, rfl, by rintro _ _ _ ⟨⟩, by rintro _ _ _ _ _ ⟨⟩⟩
  | @format q q' waiting sent thread fuel text msg h hidle hmsg hfree hs hx ih =>
    obtain ⟨l, texts, ha⟩ := ih
    obtain ⟨m, hm, hq⟩ := bind_ok hx
    cases hq
    obtain ⟨rfl, -⟩ := format_ends_iff (le_of_lt hs.1) hm
    exact ⟨l, texts, ha.format (hmsg l ha.ring) hfree hs.2⟩
  | @link q waiting sent thread text msg h hw ih =>
    obtain ⟨l, texts, ha⟩ := ih
    exact ⟨l ++ [msg], texts ++ [text], ha.link hw⟩
  | @empty q q' waiting sent ret h hx ih =>
    obtain ⟨l, texts, ha⟩ := ih
    obtain ⟨q'', he, -, ha'⟩ := ha.empty
    rw [he] at hx
    cases hx
    exact ⟨[], [], ha'⟩

private theorem chars_buffer (text : Bytes) : ∃ y, chars (text ++ [0]) = .ok y ∧ (0 : UInt8) ∉ y := by
  induction text with
  | nil => exact ⟨[], rfl, List.not_mem_nil⟩
  | cons a text ih =>
    obtain ⟨y, hy, hz⟩ := ih
    rw [List.cons_append, chars, hy]
    by_cases ha : a = 0
    · exact ⟨[], if_pos ha, List.not_mem_nil⟩
    · exact ⟨a :: y, if_neg ha, List.mem_cons.not.mpr (not_or.mpr ⟨Ne.symm ha, hz⟩)⟩

/-- A message that is queued and printed behind what is there already comes out whole exactly
when it is sound. -/
theorem Accounted.whole_iff (h : Accounted mlibPrintQueue q waiting sent l texts) (hlen : text.length ≤ intMax)
    (hmsg : msg ∉ mlibPrintQueue :: l) :
    (∃ fuel q₁ q₂, mlibQueuePrintf mlibPrintQueue fuel text msg q = .ok (0, q₁) ∧
      mlibEmptyPrintQueue mlibPrintQueue q₁ = .ok (0, q₂) ∧ q₂.printed = (sent ++ [text]).flatten) ↔
        Sound text := by
  have hsent : (sent ++ [text]).flatten = sent.flatten ++ text := by simp
  have hstored : List.Forall₂ (fun p x => chars (Function.update q.text msg (text ++ [0]) p) = .ok x) l texts :=
    (h.stored hmsg _).imp fun p x hx => chars_stored hx
  have hring := listAddTail_last h.ring hmsg
  -- what comes out is what the string in the buffer is
  have hprint : ∀ y, chars (text ++ [0]) = .ok y → ∃ q₂, mlibEmptyPrintQueue mlibPrintQueue
      ⟨listAddTail msg mlibPrintQueue q.links, Function.update q.text msg (text ++ [0]),
        q.printed⟩ = .ok (0, q₂) ∧
        q₂.printed = sent.flatten ++ y := fun y hy => by
    have hlast : chars (Function.update q.text msg (text ++ [0]) msg) = .ok y := by rwa [Function.update_self]
    obtain ⟨L', he, -⟩ := empty_ring hring (List.rel_append hstored (.cons hlast .nil)) q.printed (ring_length_lt hring)
    refine ⟨_, by rw [mlibEmptyPrintQueue, he]; rfl, ?_⟩
    rw [← h.account, List.flatten_append, List.flatten_singleton, List.append_assoc]
  constructor
  · rintro ⟨fuel, q₁, q₂, hx, he, hq₂⟩
    obtain ⟨q₀, hf, hq₁⟩ := bind_ok hx
    obtain ⟨m, hm, hq₀⟩ := bind_ok hf
    obtain ⟨rfl, hlt⟩ := format_ends_iff hlen hm
    cases hq₀
    cases hq₁
    obtain ⟨y, hy, hz⟩ := chars_buffer text
    obtain ⟨q₂', he', hq₂'⟩ := hprint y hy
    cases he.symm.trans he'
    rw [hq₂', hsent, List.append_cancel_left_eq] at hq₂
    exact ⟨hlt, hq₂ ▸ hz⟩
  · rintro ⟨hlt, hz⟩
    obtain ⟨q₂, he, hq₂⟩ := hprint text (chars_string text hz [])
    refine ⟨2, _, q₂, ?_, he, hq₂.trans hsent.symm⟩
    rw [mlibQueuePrintf, mlibQueueFormat, format_ends hlt]
    rfl

/-- The formatting loop ends with the whole text exactly when that is shorter than the largest
`int`. In every interleaving of sound messages, what is printed and then what is queued are the
texts in the order in which they were linked, and the queue can be printed. And a message that is
queued and printed in such a state comes out whole exactly when it is sound. -/
theorem messages_printed_iff (mlibPrintQueue : Ptr) :
    (∀ text : Bytes, text.length ≤ intMax →
      ((∃ fuel, mlibFormatFrom text fuel 32 = .ok (text ++ [0])) ↔ text.length < intMax)) ∧
    ∀ q waiting sent, Interleaved mlibPrintQueue q waiting sent →
      (∃ l texts, Ring q.links mlibPrintQueue l ∧
        List.Forall₂ (fun p x => q.text p = x ++ [0] ∧ (0 : UInt8) ∉ x) l texts ∧
        q.printed ++ texts.flatten = sent.flatten) ∧
      (∃ q', mlibEmptyPrintQueue mlibPrintQueue q = .ok (0, q') ∧ q'.printed = sent.flatten) ∧
      ∀ (text : Bytes) (msg : Ptr), text.length ≤ intMax →
        (∀ l, Ring q.links mlibPrintQueue l → msg ∉ mlibPrintQueue :: l) →
        ((∃ fuel q₁ q₂, mlibQueuePrintf mlibPrintQueue fuel text msg q = .ok (0, q₁) ∧
          mlibEmptyPrintQueue mlibPrintQueue q₁ = .ok (0, q₂) ∧ q₂.printed = (sent ++ [text]).flatten) ↔
            Sound text) := by
  constructor
  · intro text hlen
    constructor
    · rintro ⟨fuel, hx⟩
      exact (format_ends_iff hlen hx).2
    · exact fun hlt => ⟨2, format_ends hlt⟩
  · intro q waiting sent h
    obtain ⟨l, texts, ha⟩ := h.accounted
    obtain ⟨q', he, hq', -⟩ := ha.empty
    exact ⟨⟨l, texts, ha.ring, ha.queued, ha.account⟩, ⟨q', he, hq'⟩,
      fun text msg hlen hmsg => ha.whole_iff hlen (hmsg l ha.ring)⟩

/-- The message `a`, queued and printed first. -/
theorem messages_printed_iff_a : ∃ fuel q₁ q₂, mlibQueuePrintf null fuel [97] ⟨1, by decide⟩
      ⟨initListHead null ⟨id, id⟩, fun _ => [], []⟩ = .ok (0, q₁) ∧
    mlibEmptyPrintQueue null q₁ = .ok (0, q₂) ∧ q₂.printed = [97] := by
  have h := ((messages_printed_iff null).2 _ _ _ (.start ⟨id, id⟩ fun _ => [])).2.2 [97] ⟨1,
    by decide⟩ (by decide)
  refine (h ?_).mpr ⟨by decide, by decide⟩
  intro l hl
  obtain rfl := hl.unique (initListHead_ring null ⟨id, id⟩)
  decide

/-- A message with a NUL in it is cut off there when it is printed, and one as long as the largest
`int` is never formatted. -/
theorem queuePrintf_cut : (∃ q₁ q₂, mlibQueuePrintf null 2 [97, 0, 98] ⟨1, by decide⟩
      ⟨initListHead null ⟨id, id⟩, fun _ => [], []⟩ = .ok (0, q₁) ∧
    mlibEmptyPrintQueue null q₁ = .ok (0, q₂) ∧ q₂.printed = [97]) ∧
    ∀ fuel, mlibFormatFrom (List.replicate intMax 97) fuel 32 = .error .hang :=
  ⟨⟨_, _, rfl, rfl, rfl⟩, format_hangs List.length_replicate⟩

end Mlib

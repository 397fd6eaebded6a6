import Mlib.Foundation.Bytes

/-! One region of mapped memory seen through absolute addresses, and the two ways
a piece of code can fail to come back. -/
namespace Foundation

/-- Why code does not return: it touched memory that is not mapped, or it loops for ever. -/
inductive Stop where
  | fault
  | hang
  deriving DecidableEq, Repr

abbrev Outcome := Except Stop

section
variable {α β : Type}

@[simp] theorem ok_bind (a : α) (f : α → Outcome β) : (Except.ok a : Outcome α) >>= f = f a := rfl
@[simp] theorem error_bind (why : Stop) (f : α → Outcome β) :
    (Except.error why : Outcome α) >>= f = .error why := rfl
@[simp] theorem map_ok (f : α → β) (a : α) : f <$> (Except.ok a : Outcome α) = .ok (f a) := rfl
@[simp] theorem map_error (f : α → β) (why : Stop) : f <$> (Except.error why : Outcome α) = .error why := rfl
@[simp] theorem pure_ok (a : α) : (pure a : Outcome α) = .ok a := rfl

theorem ok_ne_error (a : α) (why : Stop) : (Except.ok a : Outcome α) ≠ .error why := fun h => by cases h

end

theorem bind_ok {α β : Type} {x : Outcome α} {f : α → Outcome β} {b : β} (h : x >>= f = .ok b) :
    ∃ a, x = .ok a ∧ f a = .ok b := by
  cases x with
  | error why => cases h
  | ok a => exact ⟨a, rfl, h⟩

/-- The mapped bytes and the address of the first one. -/
structure Mem where
  base : Nat
  bytes : Bytes

/-- The mapped bytes from address `a` on; none when `a` is outside the region. -/
def Mem.view (m : Mem) (a : Nat) : Bytes := if m.base ≤ a then m.bytes.drop (a - m.base) else []

/-- Read `n` bytes at `a`; all of them have to be mapped. -/
def Mem.load (m : Mem) (a n : Nat) : Outcome Bytes :=
  if ((m.view a).take n).length = n then .ok ((m.view a).take n) else .error .fault

theorem Mem.view_at (b : Nat) (l r : Bytes) : (Mem.mk b (l ++ r)).view (b + l.length) = r := by
  simp [Mem.view]

theorem Mem.view_drop (b off : Nat) (f : Bytes) : (Mem.mk b f).view (b + off) = f.drop off := by
  simp [Mem.view]

theorem Mem.load_at (b : Nat) (l w r : Bytes) :
    (Mem.mk b (l ++ (w ++ r))).load (b + l.length) w.length = .ok w := by
  rw [Mem.load, Mem.view_at]
  simp

/-- A load that succeeds read bytes of the region, at the address it was given. -/
theorem Mem.load_ok {m : Mem} {a n : Nat} {w : Bytes} (h : m.load a n = .ok w) :
    w = (m.view a).take n ∧ w.length = n := by
  unfold Mem.load at h
  split at h
  · cases h
    exact ⟨rfl, ‹_›⟩
  · cases h

/-- A load of at least one byte succeeds exactly on addresses of the region. -/
theorem Mem.load_isOk_iff (m : Mem) (a n : Nat) (hn : 0 < n) :
    (∃ w, m.load a n = .ok w) ↔ m.base ≤ a ∧ a + n ≤ m.base + m.bytes.length := by
  have hl : ((m.view a).take n).length = n ↔ m.base ≤ a ∧ a + n ≤ m.base + m.bytes.length := by
    unfold Mem.view
    split
    · simp only [List.length_take, List.length_drop]
      omega
    · simp only [List.take_nil, List.length_nil]
      omega
  rw [← hl]
  constructor
  · rintro ⟨w, h⟩
    obtain ⟨rfl, hw⟩ := Mem.load_ok h
    exact hw
  · intro h
    exact ⟨_, if_pos h⟩

theorem Mem.load_fault {m : Mem} {a n : Nat} (hn : 0 < n)
    (h : ¬ (m.base ≤ a ∧ a + n ≤ m.base + m.bytes.length)) : m.load a n = .error .fault := by
  cases hl : m.load a n with
  | ok w => exact absurd ((m.load_isOk_iff a n hn).mp ⟨w, hl⟩) h
  | error why =>
    unfold Mem.load at hl
    split at hl
    · cases hl
    · cases hl
      rfl

/-- When `x` returns, so does `y`, with the same value. -/
def Below {α : Type} (x y : Outcome α) : Prop := ∀ a, x = .ok a → y = .ok a

section
variable {α β : Type} {x y : Outcome α}

theorem Below.refl (x : Outcome α) : Below x x := fun _ h => h

theorem Below.bind {f g : α → Outcome β} (h : Below x y) (hf : ∀ a, x = .ok a → Below (f a) (g a)) :
    Below (x >>= f) (y >>= g) := by
  intro c hc
  obtain ⟨a, ha, hc⟩ := bind_ok hc
  rw [h a ha, ok_bind]
  exact hf a ha c hc

theorem Below.map (h : Below x y) (f : α → β) : Below (f <$> x) (f <$> y) := by
  cases x with
  | error why =>
    intro c hc
    cases hc
  | ok a =>
    rw [h a rfl]
    exact .refl _

theorem Below.mapM {f g : α → Outcome β} {xs : List α} (h : ∀ a ∈ xs, Below (f a) (g a)) :
    Below (xs.mapM f) (xs.mapM g) := by
  induction xs with
  | nil => exact .refl _
  | cons a xs ih =>
    rw [List.mapM_cons, List.mapM_cons]
    refine Below.bind (h a List.mem_cons_self) fun b _ => ?_
    exact Below.bind (ih fun a' ha' => h a' (List.mem_cons_of_mem a ha')) fun bs _ => .refl _

end

/-- From `lo` on, `m'` has the bytes of `m`, and maybe more behind them. -/
def Continues (lo : Nat) (m m' : Mem) : Prop := ∀ a, lo ≤ a → m.view a <+: m'.view a

theorem Continues.load {lo a : Nat} {m m' : Mem} (h : Continues lo m m') (ha : lo ≤ a) (n : Nat) :
    Below (m.load a n) (m'.load a n) := by
  intro w hw
  obtain ⟨rfl, hl⟩ := Mem.load_ok hw
  obtain ⟨rest, hrest⟩ := h a ha
  have hn : n ≤ (m.view a).length := by
    rw [List.length_take] at hl
    omega
  rw [Mem.load, ← hrest, List.take_append_of_le_length hn, if_pos hl]

end Foundation

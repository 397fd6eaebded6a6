import Mlib.Foundation.Mapping

/-! Stateful operations that keep a property of the state, and those that establish one when they
are started in a given state. -/
namespace Foundation
variable {σ α β : Type} {Q : σ → Prop} {s : σ}

/-- Whenever `x` returns, the property stands if it stood before. -/
def Keeps (Q : σ → Prop) (x : StateT σ Outcome α) : Prop := ∀ s a t, x s = .ok (a, t) → Q s → Q t

/-- Started in this state, `x` returns with the property or not at all. -/
def Ensures (x : StateT σ Outcome α) (s : σ) (Q : σ → Prop) : Prop := ∀ a t, x s = .ok (a, t) → Q t

theorem keeps_pure (a : α) : Keeps Q (pure a) := by
  intro s b t h
  cases h
  exact id

theorem keeps_get : Keeps Q (get : StateT σ Outcome σ) := by
  intro s b t h
  cases h
  exact id

theorem keeps_error (why : Stop) : Keeps Q (fun _ => .error why : StateT σ Outcome α) := by
  intro s a t h
  cases h

theorem keeps_bind {x : StateT σ Outcome α} {f : α → StateT σ Outcome β} (hx : Keeps Q x)
    (hf : ∀ a, Keeps Q (f a)) :
    Keeps Q (x >>= f) := by
  intro s b u h hs
  obtain ⟨⟨a, t⟩, ha, h⟩ := bind_ok h
  exact hf a t b u h (hx s a t ha hs)

theorem keeps_ite (c : Prop) [Decidable c] {x y : StateT σ Outcome α} (hx : Keeps Q x) (hy : Keeps Q y) :
    Keeps Q (if c then x else y) := by
  split
  · exact hx
  · exact hy

/-- What is established by the first part is kept by the rest. -/
theorem ensures_bind {x : StateT σ Outcome α} {f : α → StateT σ Outcome β} (hx : Ensures x s Q)
    (hf : ∀ a, Keeps Q (f a)) : Ensures (x >>= f) s Q := by
  intro b u h
  obtain ⟨⟨a, t⟩, ha, h⟩ := bind_ok h
  exact hf a t b u h (hx a t ha)

theorem ensures_step {x : StateT σ Outcome α} {f : α → StateT σ Outcome β} {a : α} {t : σ}
    (hx : x s = .ok (a, t))
    (hf : Ensures (f a) t Q) : Ensures (x >>= f) s Q := by
  intro b u h
  obtain ⟨⟨a', t'⟩, ha, h⟩ := bind_ok h
  cases hx.symm.trans ha
  exact hf b u h

end Foundation

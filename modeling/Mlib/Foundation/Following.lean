import Mlib.Foundation.Mapping

/-! Stateful operations that do what others do as long as nothing is lost: a relation
between two operations that goes through sequences and branches. -/
namespace Foundation
variable {σ α β : Type} {good lost : σ → Prop}

/-- When `x` returns from a good state it is in a good state again, what was lost before stays
lost, and `y` does the same unless something is lost now. -/
def Follows (good lost : σ → Prop) (x y : StateT σ Outcome α) : Prop :=
  ∀ s a t, good s → x s = .ok (a, t) → good t ∧ (lost s → lost t) ∧ (lost t ∨ y s = .ok (a, t))

/-- An operation follows itself when it leaves good states good and lost ones lost. -/
theorem follows_self {x : StateT σ Outcome α}
    (h : ∀ s a t, x s = .ok (a, t) → (good s → good t) ∧ (lost s → lost t)) : Follows good lost x x :=
  fun s a t hg hx => ⟨(h s a t hx).1 hg, (h s a t hx).2, Or.inr hx⟩

theorem follows_pure (a : α) : Follows good lost (pure a) (pure a) := by
  apply follows_self
  intro s b t h
  cases h
  exact ⟨id, id⟩

theorem follows_bind {x y : StateT σ Outcome α} {f g : α → StateT σ Outcome β} (hx : Follows good lost x y)
    (hf : ∀ a, Follows good lost (f a) (g a)) : Follows good lost (x >>= f) (y >>= g) := by
  intro s b u hg h
  obtain ⟨⟨a, t⟩, ha, h⟩ := bind_ok h
  obtain ⟨hgt, hlt, hyt⟩ := hx s a t hg ha
  obtain ⟨hgu, hlu, hyu⟩ := hf a t b u hgt h
  refine ⟨hgu, hlu ∘ hlt, ?_⟩
  rcases hyt with hlost | hy
  · exact Or.inl (hlu hlost)
  rcases hyu with hlost | hgb
  · exact Or.inl hlost
  right
  change (y s >>= _) = _
  rw [hy]
  exact hgb

theorem follows_ite (c : Prop) [Decidable c] {x y x' y' : StateT σ Outcome α} (hx : Follows good lost x x')
    (hy : Follows good lost y y') : Follows good lost (if c then x else y) (if c then x' else y') := by
  split
  · exact hx
  · exact hy

end Foundation

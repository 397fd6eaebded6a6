import Mlib.Foundation.Mapping
import Mathlib.Algebra.GroupWithZero.Nat

/-! Runs of a system whose operations return a value, change the state, or do not
come back. -/
namespace Foundation
variable {σ ο ρ : Type}

/-- Apply the operations in order and collect what they return. -/
def run (step : ο → σ → Outcome (ρ × σ)) : List ο → σ → Outcome (List ρ × σ)
  | [], s => .ok ([], s)
  | o :: os, s => do
    let (r, t) ← step o s
    let (rs, u) ← run step os t
    pure (r :: rs, u)

variable {step : ο → σ → Outcome (ρ × σ)}

theorem run_step {o : ο} {os : List ο} {s t u : σ} {r : ρ} {rs : List ρ} (ho : step o s = .ok (r, t))
    (hr : run step os t = .ok (rs, u)) : run step (o :: os) s = .ok (r :: rs, u) := by
  simp only [run, ho]
  change (run step os t >>= _) = _
  rw [hr]
  rfl

/-- When every operation returns from every state of the invariant, so does every run. -/
theorem run_returns (P : σ → Prop) (Q : ο → Prop)
    (hstep : ∀ o s, Q o → P s → ∃ r t, step o s = .ok (r, t) ∧ P t) (os : List ο) (s : σ)
    (hq : ∀ o ∈ os, Q o) (hs : P s) : ∃ rs t, run step os s = .ok (rs, t) ∧ P t := by
  induction os generalizing s with
  | nil => exact ⟨[], s, rfl, hs⟩
  | cons o os ih =>
    obtain ⟨r, t, ho, ht⟩ := hstep o s (hq o List.mem_cons_self) hs
    obtain ⟨rs, u, hr, hu⟩ := ih t (fun p hp => hq p (List.mem_cons_of_mem _ hp)) ht
    exact ⟨r :: rs, u, run_step ho hr, hu⟩

/-- The operations in order on a model of the system, in which each of them comes back. -/
def follow {α : Type} (model : ο → α → ρ × α) : List ο → α → List ρ × α
  | [], a => ([], a)
  | o :: os, a => ((model o a).1 :: (follow model os (model o a).2).1, (follow model os (model o a).2).2)

section
variable {α : Type} {model : ο → α → ρ × α} {P : α → Prop} {Q : ο → Prop} {o : ο} {os os' : List ο} {a : α}

end

/-- Each operation is admitted at the state that the model has come to by then. -/
def Along {α : Type} (model : ο → α → ρ × α) (Q : ο → α → Prop) : List ο → α → Prop
  | [], _ => True
  | o :: os, a => Q o a ∧ Along model Q os (model o a).2

theorem Along.of_forall {α : Type} {model : ο → α → ρ × α} {Q : ο → α → Prop} {os : List ο}
    (h : ∀ o ∈ os, ∀ a, Q o a)
    (a : α) : Along model Q os a := by
  induction os generalizing a with
  | nil => trivial
  | cons o os ih => exact ⟨h o List.mem_cons_self a, ih (fun p hp => h p (List.mem_cons_of_mem o hp)) _⟩

/-- Where every operation that is admitted returns what the model says and keeps the relation to it, at a cost that a
budget has to cover, so does every run whose whole cost is covered. -/
theorem run_simulates_along {α : Type} {model : ο → α → ρ × α} {cost : ο → Nat} (R : Nat → α → σ → Prop)
    (Q : ο → α → Prop)
    (hstep : ∀ o n a s, Q o a → R (cost o + n) a s → ∃ t, step o s = .ok ((model o a).1, t) ∧
      R n (model o a).2 t)
    (os : List ο) {n : Nat} {a : α} {s : σ} (hq : Along model Q os a) (h : R ((os.map cost).sum + n) a s) :
    ∃ t, run step os s = .ok ((follow model os a).1, t) ∧ R n (follow model os a).2 t := by
  induction os generalizing a s with
  | nil => exact ⟨s, rfl, by simpa [follow] using h⟩
  | cons o os ih =>
    rw [List.map_cons, List.sum_cons, Nat.add_assoc] at h
    obtain ⟨t, ho, ht⟩ := hstep o _ a s hq.1 h
    obtain ⟨u, hr, hu⟩ := ih hq.2 ht
    exact ⟨u, run_step ho hr, hu⟩

/-- The same of operations that are admitted in every state. -/
theorem run_simulates {α : Type} {model : ο → α → ρ × α} {cost : ο → Nat} (R : Nat → α → σ → Prop)
    (Q : ο → Prop)
    (hstep : ∀ o n a s, Q o → R (cost o + n) a s → ∃ t, step o s = .ok ((model o a).1, t) ∧ R n (model o a).2 t)
    (os : List ο) {n : Nat} {a : α} {s : σ} (hq : ∀ o ∈ os, Q o) (h : R ((os.map cost).sum + n) a s) :
    ∃ t, run step os s = .ok ((follow model os a).1, t) ∧ R n (follow model os a).2 t :=
  run_simulates_along R (fun o _ => Q o) hstep os (.of_forall (fun o ho _ => hq o ho) a) h

/-- A program that does not come back with too little fuel, and returns `a` with enough of it. -/
def Returns (f : Nat → Outcome ρ) (a : ρ) : Prop :=
  ∃ n, ∀ fuel, f fuel = if n ≤ fuel then .ok a else .error .hang

/-- A program that does not come back with any fuel. -/
def Hangs (f : Nat → Outcome ρ) : Prop := ∀ fuel, f fuel = .error .hang

/-- A program that returns nothing with any fuel: it hangs, or it stops at a fault. -/
def NoReturn (f : Nat → Outcome ρ) : Prop := ∀ fuel, ∃ why, f fuel = .error why

variable {f g : Nat → Outcome ρ} {a b : ρ}

theorem Hangs.noReturn (h : Hangs f) : NoReturn f := fun fuel => ⟨.hang, h fuel⟩

theorem NoReturn.later (h : NoReturn g) (h0 : f 0 = .error .hang) (hs : ∀ fuel, f (fuel + 1) = g fuel) : NoReturn f := by
  intro fuel
  cases fuel with
  | zero => exact ⟨.hang, h0⟩
  | succ fuel =>
    rw [hs]
    exact h fuel

theorem Hangs.later (h : Hangs g) (h0 : f 0 = .error .hang) (hs : ∀ fuel, f (fuel + 1) = g fuel) : Hangs f := by
  intro fuel
  cases fuel with
  | zero => exact h0
  | succ fuel => rw [hs, h]

theorem Returns.now (h0 : f 0 = .error .hang) (hs : ∀ fuel, f (fuel + 1) = .ok a) : Returns f a := by
  refine ⟨1, fun fuel => ?_⟩
  cases fuel with
  | zero => exact h0
  | succ fuel => rw [hs, if_pos (Nat.le_add_left 1 fuel)]

/-- One round more. -/
theorem Returns.later (h : Returns g a) (h0 : f 0 = .error .hang) (hs : ∀ fuel, f (fuel + 1) = g fuel) :
    Returns f a := by
  obtain ⟨n, hn⟩ := h
  refine ⟨n + 1, fun fuel => ?_⟩
  cases fuel with
  | zero => exact h0
  | succ fuel =>
    rw [hs, hn]
    simp only [Nat.add_le_add_iff_right]

theorem Returns.ends (h : Returns f a) : ∃ fuel, f fuel = .ok a := by
  obtain ⟨n, hn⟩ := h
  exact ⟨n, by rw [hn, if_pos (Nat.le_refl n)]⟩

theorem Returns.unique (h : Returns f a) (h' : Returns f b) : a = b := by
  obtain ⟨n, hn⟩ := h
  obtain ⟨m, hm⟩ := h'
  have hsame : f (n + m) = .ok a := by rw [hn, if_pos (Nat.le_add_right n m)]
  rw [hm, if_pos (Nat.le_add_left m n)] at hsame
  exact (Except.ok.inj hsame).symm

end Foundation

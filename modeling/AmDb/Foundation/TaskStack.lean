import AmDb.Foundation.Run

/-! # Tasks on a stack

    A machine that takes the task on top of its stack, lets it change a state,
    and pushes the tasks it returns, the last of them on top.  Its runs are
    given by a bound on the number of tasks and by a relation without one, which
    is the one to reason with: what two stacks do, one over the other, is what
    the upper one does and then the lower one. -/

namespace TaskStack

variable {ι σ φ : Type}

/-- Run the tasks, at most this many. -/
def run (f : ι → σ → Except φ (List ι × σ)) (outOfFuel : φ) :
    Nat → List ι → σ → Except φ σ
  | _, [], s => .ok s
  | 0, _ :: _, _ => .error outOfFuel
  | fuel + 1, t :: ts, s =>
      match f t s with
      | .error e => .error e
      | .ok (pushed, s) => run f outOfFuel fuel (pushed.reverse ++ ts) s

/-- The tasks run until the stack is empty. -/
inductive Runs (f : ι → σ → Except φ (List ι × σ)) : List ι → σ → σ → Prop
  | nil {s : σ} : Runs f [] s s
  | cons {t : ι} {ts pushed : List ι} {s s₁ s₂ : σ}
      (ht : f t s = .ok (pushed, s₁)) (h : Runs f (pushed.reverse ++ ts) s₁ s₂) :
      Runs f (t :: ts) s s₂

variable {f : ι → σ → Except φ (List ι × σ)} {t : ι} {ts ts' pushed : List ι}
  {s s₁ s₂ : σ}

/-- The upper part of a stack runs first. -/
theorem Runs.append (h : Runs f ts s s₁) (h' : Runs f ts' s₁ s₂) :
    Runs f (ts ++ ts') s s₂ := by
  induction h with
  | nil => exact h'
  | cons ht _ ih =>
      rw [List.cons_append]
      refine .cons ht ?_
      rw [← List.append_assoc]
      exact ih h'

/-- A task, then what it pushed. -/
theorem Runs.single (ht : f t s = .ok (pushed, s₁))
    (h : Runs f pushed.reverse s₁ s₂) : Runs f [t] s s₂ :=
  .cons ht (by rwa [List.append_nil])

theorem Runs.of_empty (ht : f t s = .ok ([], s₁)) : Runs f [t] s s₁ :=
  .single ht .nil

/-- A bound that is large enough. -/
theorem Runs.run_eq (h : Runs f ts s s₁) (outOfFuel : φ) :
    ∃ n, ∀ fuel, n ≤ fuel → run f outOfFuel fuel ts s = .ok s₁ := by
  induction h with
  | nil => exact ⟨0, fun fuel _ => by cases fuel <;> rfl⟩
  | cons ht _ ih =>
      obtain ⟨n, hn⟩ := ih
      refine ⟨n + 1, ?_⟩
      intro fuel hfuel
      obtain ⟨m, rfl⟩ := Nat.exists_eq_add_of_le hfuel
      rw [show n + 1 + m = n + m + 1 by omega, run, ht]
      exact hn _ (Nat.le_add_right n m)

/-- A run within a bound is a run. -/
theorem runs_of_run {outOfFuel : φ} {fuel : Nat}
    (h : run f outOfFuel fuel ts s = .ok s₁) : Runs f ts s s₁ := by
  induction fuel generalizing ts s with
  | zero =>
      cases ts with
      | nil =>
          cases h
          exact .nil
      | cons t ts => cases h
  | succ fuel ih =>
      cases ts with
      | nil =>
          cases h
          exact .nil
      | cons t ts =>
          rw [run] at h
          cases ht : f t s with
          | error e =>
              rw [ht] at h
              cases h
          | ok r =>
              rw [ht] at h
              exact .cons ht (ih h)

/-- The tasks decide the run. -/
theorem Runs.unique (h : Runs f ts s s₁) (h' : Runs f ts s s₂) : s₁ = s₂ := by
  induction h with
  | nil =>
      cases h'
      rfl
  | cons ht _ ih =>
      cases h' with
      | cons ht' hrest =>
          obtain ⟨rfl, rfl⟩ :=
            Prod.mk.inj (Except.ok.inj (ht.symm.trans ht'))
          exact ih hrest

/-! ## One task at a time -/

/-- The task on top is taken, and what it pushes goes on top. -/
def Step (f : ι → σ → Except φ (List ι × σ)) (s : List ι × σ) (t : ι)
    (s' : List ι × σ) : Prop :=
  ∃ ts pushed, s.1 = t :: ts ∧ f t s.2 = .ok (pushed, s'.2)
    ∧ s'.1 = pushed.reverse ++ ts

/-- A run to the empty stack is a run of such steps, whatever labels them. -/
theorem Runs.steps {ε : Type} {step : List ι × σ → ε → List ι × σ → Prop}
    (hstep : ∀ s t s', Step f s t s' → ∃ e, step s e s')
    (h : Runs f ts s s₁) : ∃ es, AmDb.Run step (ts, s) es ([], s₁) := by
  induction h with
  | nil => exact ⟨[], .nil⟩
  | @cons t ts pushed s s₁ s₂ ht _ ih =>
      obtain ⟨es, hrun⟩ := ih
      obtain ⟨e, he⟩ := hstep (t :: ts, s) t (pushed.reverse ++ ts, s₁)
        ⟨ts, pushed, rfl, ht, rfl⟩
      exact ⟨e :: es, hrun.cons he⟩

end TaskStack

import Mathlib.Data.List.Basic

/-! # Runs of a step relation

    A run is a sequence of labelled steps together with its history.  The rules
    here are the ones a claim about every run needs: an invariant over state and
    history, a change of the step relation, and, for steps that are computed,
    the runs of a list of inputs and the simulation of one system by another. -/

namespace AmDb

variable {σ τ ε ι ρ φ : Type}

/-- From `s` the steps of the history lead to a state. -/
inductive Run (step : σ → ε → σ → Prop) (s : σ) : List ε → σ → Prop
  | nil : Run step s [] s
  | snoc {h : List ε} {t : σ} {e : ε} {u : σ} :
      Run step s h t → step t e u → Run step s (h ++ [e]) u

namespace Run

variable {step step' : σ → ε → σ → Prop} {s t u : σ} {h : List ε} {e : ε}

/-- What holds at first and is kept by every step holds after every run. -/
theorem invariant {I : List ε → σ → Prop} (hr : Run step s h t) (h₀ : I [] s)
    (hstep : ∀ {h t e u}, I h t → step t e u → I (h ++ [e]) u) : I h t := by
  induction hr with
  | nil => exact h₀
  | snoc _ hs ih => exact hstep ih hs

/-- The same for what does not speak of the history. -/
theorem preserves {I : σ → Prop} (hr : Run step s h t) (h₀ : I s)
    (hstep : ∀ {t e u}, I t → step t e u → I u) : I t :=
  hr.invariant (I := fun _ => I) h₀ hstep

/-- A step before a run. -/
theorem cons (hs : step s e t) (hr : Run step t h u) :
    Run step s (e :: h) u := by
  induction hr with
  | nil => exact .snoc .nil hs
  | snoc _ hs' ih => exact .snoc ih hs'

end Run

/-- The latest event of one kind comes after every event of another kind. -/
def Since (p q : ε → Prop) (h : List ε) : Prop :=
  ∃ h₁ e h₂, h = h₁ ++ e :: h₂ ∧ p e ∧ ∀ x ∈ h₂, ¬ q x

theorem not_since_nil {p q : ε → Prop} : ¬ Since p q [] := by
  rintro ⟨h₁, e, h₂, heq, -⟩
  exact absurd heq (by simp)

theorem since_of_last {p q : ε → Prop} {h : List ε} {e : ε} (he : p e) :
    Since p q (h ++ [e]) :=
  ⟨h, e, [], rfl, he, fun _ hx => nomatch hx⟩

/-- It happened now, or before and was not undone. -/
theorem since_snoc {p q : ε → Prop} {h : List ε} {e : ε}
    (hs : Since p q (h ++ [e])) : p e ∨ (Since p q h ∧ ¬ q e) := by
  obtain ⟨h₁, x, h₂, heq, hp, hq⟩ := hs
  rcases List.eq_nil_or_concat h₂ with rfl | ⟨h₃, y, rfl⟩
  · obtain ⟨-, hx⟩ := List.append_inj' heq rfl
    exact Or.inl (List.head_eq_of_cons_eq hx ▸ hp)
  · rw [List.concat_eq_append, ← List.cons_append, ← List.append_assoc] at heq
    obtain ⟨hh, hy⟩ := List.append_inj' heq rfl
    rw [List.head_eq_of_cons_eq hy]
    rw [List.concat_eq_append] at hq
    exact Or.inr ⟨⟨h₁, x, h₃, hh, hp, fun z hz => hq z (by simp [hz])⟩,
      hq y (by simp)⟩

/-- It still counts when it was not undone. -/
theorem since_snoc_of_not {p q : ε → Prop} {h : List ε} {e : ε}
    (hs : Since p q h) (he : ¬ q e) : Since p q (h ++ [e]) := by
  obtain ⟨h₁, x, h₂, rfl, hp, hq⟩ := hs
  refine ⟨h₁, x, h₂ ++ [e], by simp, hp, ?_⟩
  intro y hy
  rcases List.mem_append.mp hy with hy | hy
  · exact hq y hy
  · rw [List.mem_singleton.mp hy]
    exact he

/-! ## Steps that are computed -/

/-- Run some inputs in order and keep every input with its reply. -/
def execAll (f : σ → ι → Except φ (ρ × σ)) :
    σ → List ι → Except φ (List (ι × ρ) × σ)
  | s, [] => .ok ([], s)
  | s, i :: is => do
      let (r, t) ← f s i
      let (h, u) ← execAll f t is
      return ((i, r) :: h, u)

/-- Inputs that all return make a run. -/
theorem run_of_execAll {f : σ → ι → Except φ (ρ × σ)}
    {step : σ → ι × ρ → σ → Prop}
    (hstep : ∀ {s i r t}, f s i = .ok (r, t) → step s (i, r) t) :
    ∀ {is : List ι} {s t : σ} {h : List (ι × ρ)},
      execAll f s is = .ok (h, t) → Run step s h t := by
  intro is
  induction is with
  | nil =>
      intro s t h heq
      cases heq
      exact .nil
  | cons i is ih =>
      intro s t h heq
      rw [execAll] at heq
      cases hf : f s i with
      | error e => rw [hf] at heq; exact nomatch heq
      | ok r =>
          rw [hf] at heq
          cases hrest : execAll f r.2 is with
          | error e =>
              simp only [bind, Except.bind, hrest] at heq
              exact nomatch heq
          | ok rest =>
              simp only [bind, Except.bind, hrest] at heq
              cases heq
              exact (ih hrest).cons (hstep hf)

/-- Inputs without replies that all return make a run. -/
theorem run_of_foldlM {f : σ → ι → Except φ σ} {step : σ → ι → σ → Prop}
    (hstep : ∀ {s i t}, f s i = .ok t → step s i t) {is : List ι} {s t : σ}
    (heq : is.foldlM f s = .ok t) : Run step s is t := by
  induction is generalizing s with
  | nil =>
      cases heq
      exact .nil
  | cons i is ih =>
      rw [List.foldlM_cons] at heq
      cases hf : f s i with
      | error e => rw [hf] at heq; cases heq
      | ok u =>
          rw [hf] at heq
          exact (ih heq).cons (hstep hf)

/-- An input that is not taken unless a condition holds. -/
def guarded (P : σ → ι → Prop) [∀ s i, Decidable (P s i)] (refusal : φ)
    (f : σ → ι → Except φ (ρ × σ)) (s : σ) (i : ι) : Except φ (ρ × σ) :=
  if P s i then f s i else .error refusal

/-- Inputs that were all taken and return make a run. -/
theorem run_of_guarded {P : σ → ι → Prop} [∀ s i, Decidable (P s i)]
    {refusal : φ} {f : σ → ι → Except φ (ρ × σ)} {step : σ → ι × ρ → σ → Prop}
    (hstep : ∀ {s i r t}, P s i → f s i = .ok (r, t) → step s (i, r) t)
    {is : List ι} {s t : σ} {h : List (ι × ρ)}
    (heq : execAll (guarded P refusal f) s is = .ok (h, t)) :
    Run step s h t := by
  refine run_of_execAll ?_ heq
  intro s i r t hf
  rw [guarded] at hf
  split_ifs at hf with hP
  exact hstep hP hf

/-- A view of a result, read off what was computed. -/
theorem exists_of_computed {α : Type} {x : Except φ α} {g : α → τ} {y : τ}
    (hg : x.toOption.map g = some y) : ∃ a, x = .ok a ∧ g a = y := by
  cases x with
  | error e => cases hg
  | ok a => exact ⟨a, rfl, Option.some.inj hg⟩

/-- A view of the history and the last state, read off a computed run. -/
theorem exists_of_execAll {f : σ → ι → Except φ (ρ × σ)} {s : σ} {is : List ι}
    {g : List (ι × ρ) × σ → τ} {y : τ}
    (hg : (execAll f s is).toOption.map g = some y) :
    ∃ h t, execAll f s is = .ok (h, t) ∧ g (h, t) = y := by
  obtain ⟨⟨h, t⟩, heq, hview⟩ := exists_of_computed hg
  exact ⟨h, t, heq, hview⟩

/-- The history of a computed run, from its inputs and the replies. -/
theorem history_of_execAll {f : σ → ι → Except φ (ρ × σ)} {is : List ι}
    {s t : σ} {h : List (ι × ρ)} (heq : execAll f s is = .ok (h, t)) :
    h = is.zip (h.map Prod.snd) := by
  induction is generalizing s h with
  | nil =>
      cases heq
      rfl
  | cons i is ih =>
      rw [execAll] at heq
      cases hf : f s i with
      | error e => rw [hf] at heq; cases heq
      | ok r =>
          rw [hf] at heq
          cases hrest : execAll f r.2 is with
          | error e =>
              simp only [bind, Except.bind, hrest] at heq
              cases heq
          | ok rest =>
              simp only [bind, Except.bind, hrest] at heq
              cases heq
              rw [List.map_cons, List.zip_cons_cons, ← ih hrest]

/-- A computed system whose every admitted input is answered as an abstract
    system answers it returns on every list of admitted inputs, and its history
    is one of the abstract system. -/
theorem execAll_simulates {f : σ → ι → Except φ (ρ × σ)}
    {spec : τ → ι × ρ → τ → Prop} {R : σ → τ → Prop} {admitted : ι → Prop}
    (hstep : ∀ {s a i}, R s a → admitted i →
      ∃ r t b, f s i = .ok (r, t) ∧ spec a (i, r) b ∧ R t b) :
    ∀ {is : List ι} {s : σ} {a : τ}, R s a → (∀ i ∈ is, admitted i) →
      ∃ h t b, execAll f s is = .ok (h, t) ∧ h.map Prod.fst = is
        ∧ Run spec a h b ∧ R t b := by
  intro is
  induction is with
  | nil => intro s a hR _; exact ⟨[], s, a, rfl, rfl, .nil, hR⟩
  | cons i is ih =>
      intro s a hR hadm
      obtain ⟨r, t, b, hf, hs, hR'⟩ := hstep hR (hadm i List.mem_cons_self)
      obtain ⟨h, u, c, hex, hmap, hrun, hRu⟩ :=
        ih hR' (fun j hj => hadm j (List.mem_cons_of_mem _ hj))
      refine ⟨(i, r) :: h, u, c, ?_, by rw [List.map_cons, hmap],
        hrun.cons hs, hRu⟩
      rw [execAll, hf]
      simp only [bind, Except.bind, hex]
      rfl

end AmDb

import AmDb.Foundation.Run
import Mathlib.Logic.Function.Basic

/-! # Components over one store

    Components take turns on a store they share.  Each has a state of its own,
    which only its own steps change; all of them read and write the store.  An
    invariant of a component that its own steps keep, and that the steps of the
    others do not disturb, is kept in every interleaving; and where the others
    leave a component's view of the store alone, an interleaving is, for that
    component, a run of its own. -/

namespace AmDb.Interleaving

variable {ι σ κ ε : Type} [DecidableEq ι]

/-- A component's step, from its state and the store to its state and the
    store. -/
abbrev LocalStep (ι σ κ ε : Type) := ι → σ × κ → ε → σ × κ → Prop

/-- One component takes a step; the states of the others stay. -/
def Turn (step : LocalStep ι σ κ ε) (s : (ι → σ) × κ) (e : ι × ε)
    (s' : (ι → σ) × κ) : Prop :=
  ∃ t, step e.1 (s.1 e.1, s.2) e.2 (t, s'.2)
    ∧ s'.1 = Function.update s.1 e.1 t

section Invariant

variable {step : LocalStep ι σ κ ε} {I : ι → σ × κ → Prop}
  {s s' : (ι → σ) × κ} {e : ι × ε} {h : List (ι × ε)}

/-- Another component's state after a turn. -/
theorem Turn.other (ht : Turn step s e s') {j : ι} (hj : j ≠ e.1) :
    s'.1 j = s.1 j := by
  obtain ⟨t, -, hs'⟩ := ht
  rw [hs', Function.update_of_ne hj]

/-- The step of the component whose turn it is. -/
theorem Turn.own (ht : Turn step s e s') :
    step e.1 (s.1 e.1, s.2) e.2 (s'.1 e.1, s'.2) := by
  obtain ⟨t, hstep, hs'⟩ := ht
  rw [hs', Function.update_self]
  exact hstep

/-- What every component keeps and no other disturbs holds of all of them after
    every interleaving. -/
theorem invariant
    (own : ∀ {i p e p'}, I i p → step i p e p' → I i p')
    (others : ∀ {i p e p' j t}, I i p → step i p e p' → j ≠ i →
      I j (t, p.2) → I j (t, p'.2))
    (hr : Run (Turn step) s h s') (h₀ : ∀ i, I i (s.1 i, s.2)) :
    ∀ i, I i (s'.1 i, s'.2) := by
  refine hr.preserves (I := fun s => ∀ i, I i (s.1 i, s.2)) h₀ ?_
  intro s e s' hI ht j
  by_cases hj : j = e.1
  · subst hj
    exact own (hI _) ht.own
  · rw [ht.other hj]
    exact others (hI e.1) ht.own hj (hI j)

/-- The steps of one component, in their order. -/
def turnsOf (i : ι) (h : List (ι × ε)) : List ε :=
  (h.filter (fun e => e.1 = i)).map Prod.snd

/-- One's own turns, with the last of all. -/
theorem turnsOf_snoc (i : ι) (h : List (ι × ε)) (e : ι × ε) :
    turnsOf i (h ++ [e])
      = if e.1 = i then turnsOf i h ++ [e.2] else turnsOf i h := by
  rw [turnsOf, List.filter_append, List.map_append]
  by_cases he : e.1 = i
  · rw [if_pos he, List.filter_singleton, decide_eq_true he]
    rfl
  · rw [if_neg he, List.filter_singleton, decide_eq_false he]
    exact List.append_nil _

/-- What a component does in an interleaving is a run of its own, on its view
    of the store. -/
theorem projection {i : ι} (view : κ → κ)
    (own : ∀ {i p e p'}, I i p → step i p e p' → I i p')
    (others : ∀ {i p e p' j t}, I i p → step i p e p' → j ≠ i →
      I j (t, p.2) → I j (t, p'.2))
    (seen : ∀ {p e p'}, I i p → step i p e p' →
      step i (p.1, view p.2) e (p'.1, view p'.2))
    (unseen : ∀ {j p e p'}, I j p → step j p e p' → j ≠ i →
      view p'.2 = view p.2)
    (hr : Run (Turn step) s h s') (h₀ : ∀ i, I i (s.1 i, s.2)) :
    Run (step i) (s.1 i, view s.2) (turnsOf i h) (s'.1 i, view s'.2) := by
  induction hr with
  | nil => exact .nil
  | snoc hr ht ih =>
      have hI := @invariant _ _ _ _ _ step I _ _ _ @own @others hr h₀
      rw [turnsOf_snoc]
      split
      · case _ he =>
          subst he
          exact ih.snoc (seen (hI _) ht.own)
      · case _ he =>
          have hview := unseen (hI _) ht.own he
          rw [ht.other (Ne.symm he)]
          simp only at hview
          rw [hview]
          exact ih

end Invariant

/-! ## Computed turns -/

section Computed

variable {φ : Type} {step : LocalStep ι σ κ ε}
  {f : ι → σ × κ → ε → Except φ (σ × κ)} {s s' : (ι → σ) × κ}
  {es : List (ι × ε)}

def takeTurn (f : ι → σ × κ → ε → Except φ (σ × κ)) (s : (ι → σ) × κ)
    (e : ι × ε) : Except φ ((ι → σ) × κ) :=
  (f e.1 (s.1 e.1, s.2) e.2).map
    (fun p => (Function.update s.1 e.1 p.1, p.2))

/-- Turns that are computed one by one are a run. -/
theorem run_of_turns (hf : ∀ {i p e p'}, f i p e = .ok p' → step i p e p')
    (h : es.foldlM (takeTurn f) s = .ok s') : Run (Turn step) s es s' := by
  refine run_of_foldlM ?_ h
  intro s e s' hturn
  rw [takeTurn] at hturn
  cases hcall : f e.1 (s.1 e.1, s.2) e.2 with
  | error x =>
      rw [hcall] at hturn
      cases hturn
  | ok p =>
      rw [hcall] at hturn
      cases hturn
      exact ⟨p.1, hf hcall, rfl⟩

end Computed

end AmDb.Interleaving

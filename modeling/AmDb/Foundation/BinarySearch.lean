import Mathlib.Data.List.Basic

/-! # Bisection of a list

    The halving search behind `std::lower_bound` and `std::upper_bound`: on a
    list whose first part satisfies a predicate and whose rest does not it
    returns the length of the first part; on any other list some index. -/

namespace BinarySearch

variable {α : Type}

/-- One half is dropped at a time; the first argument bounds the halvings. -/
def search (p : α → Bool) : Nat → List α → Nat
  | 0, _ => 0
  | n + 1, l =>
      match l.drop (l.length / 2) with
      | [] => 0
      | x :: right =>
          if p x then l.length / 2 + 1 + search p n right
          else search p n (l.take (l.length / 2))

/-- Where the first part ends. -/
def partitionPoint (p : α → Bool) (l : List α) : Nat := search p l.length l

/-- What one halving step sees. -/
theorem drop_half_eq {l : List α} {x : α} {right : List α}
    (h : l.drop (l.length / 2) = x :: right) :
    l = l.take (l.length / 2) ++ x :: right
      ∧ l.length / 2 + 1 + right.length = l.length := by
  have hl : l.take (l.length / 2) ++ x :: right = l := by
    rw [← h]; exact List.take_append_drop _ _
  have hlen := congrArg List.length h
  rw [List.length_drop, List.length_cons] at hlen
  exact ⟨hl.symm, by omega⟩

/-- The search ends where the predicate does. -/
theorem search_append {p : α → Bool} {n : Nat} {l₁ l₂ : List α}
    (hn : (l₁ ++ l₂).length ≤ n) (h₁ : ∀ x ∈ l₁, p x = true)
    (h₂ : ∀ x ∈ l₂, p x = false) : search p n (l₁ ++ l₂) = l₁.length := by
  induction n generalizing l₁ l₂ with
  | zero =>
      rw [List.length_append] at hn
      show 0 = l₁.length
      omega
  | succ n ih =>
      rw [search]
      split
      · next h =>
          have := congrArg List.length h
          rw [List.length_drop, List.length_nil] at this
          rw [List.length_append] at this
          omega
      · next x right h =>
          obtain ⟨hl, hlen⟩ := drop_half_eq h
          -- the middle element lies in the first part or behind it
          rcases List.append_eq_append_iff.mp hl with
            ⟨m, hm, hl₂⟩ | ⟨m, hm, hr⟩
          · have hx : p x = false := h₂ x (by rw [hl₂]; simp)
            rw [hx, if_neg Bool.false_ne_true, hm]
            refine ih ?_ h₁ (fun y hy => h₂ y (by rw [hl₂]; simp [hy]))
            rw [← hm, List.length_take]
            omega
          · cases m with
            | nil =>
                have hx : p x = false := by
                  refine h₂ x ?_
                  rw [List.nil_append] at hr
                  rw [← hr]; simp
                rw [hx, if_neg Bool.false_ne_true]
                rw [List.append_nil] at hm
                rw [← hm]
                have hlen₁ := congrArg List.length hm
                rw [List.length_take] at hlen₁
                have hrec := @ih l₁ [] (by
                  rw [List.append_nil]
                  omega) h₁ (fun y hy => absurd hy List.not_mem_nil)
                rwa [List.append_nil] at hrec
            | cons y m =>
                rw [List.cons_append, List.cons.injEq] at hr
                obtain ⟨rfl, rfl⟩ := hr
                have hx : p x = true := h₁ x (by rw [hm]; simp)
                rw [hx, if_pos rfl]
                have hrec := @ih m l₂ (by
                    rw [List.length_append] at hlen hn ⊢
                    rw [List.length_append] at hlen
                    omega)
                  (fun z hz => h₁ z (by rw [hm]; simp [hz])) h₂
                rw [hrec]
                have h₃ := congrArg List.length hm
                rw [List.length_append, List.length_take, List.length_cons]
                  at h₃
                omega

/-- On a partitioned list the search finds the boundary. -/
theorem partitionPoint_append {p : α → Bool} {l₁ l₂ : List α}
    (h₁ : ∀ x ∈ l₁, p x = true) (h₂ : ∀ x ∈ l₂, p x = false) :
    partitionPoint p (l₁ ++ l₂) = l₁.length :=
  search_append (Nat.le_refl _) h₁ h₂

/-- A list on which a predicate never comes back is partitioned by it. -/
theorem exists_partition {p : α → Bool} {l : List α}
    (h : l.Pairwise (fun a b => p b = true → p a = true)) :
    ∃ l₁ l₂, l = l₁ ++ l₂ ∧ (∀ x ∈ l₁, p x = true)
      ∧ ∀ x ∈ l₂, p x = false := by
  induction l with
  | nil => exact ⟨[], [], rfl, by simp, by simp⟩
  | cons a l ih =>
      obtain ⟨ha, hl⟩ := List.pairwise_cons.mp h
      cases hp : p a with
      | false =>
          refine ⟨[], a :: l, rfl, by simp, ?_⟩
          intro x hx
          rcases List.mem_cons.mp hx with rfl | hx
          · exact hp
          · cases hpx : p x with
            | false => rfl
            | true => exact absurd (ha x hx hpx) (by simp [hp])
      | true =>
          obtain ⟨l₁, l₂, rfl, h₁, h₂⟩ := ih hl
          refine ⟨a :: l₁, l₂, rfl, ?_, h₂⟩
          intro x hx
          rcases List.mem_cons.mp hx with rfl | hx
          · exact hp
          · exact h₁ x hx

end BinarySearch

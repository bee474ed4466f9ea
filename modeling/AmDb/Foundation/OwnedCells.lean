import Mathlib.Logic.Function.Basic

/-! # Cells and their owners

    Cells of a heap are allocated and freed; some names own one.  `Owned` says
    that every owned cell is live and has one owner.  It survives a new cell for
    a name, a name that gives its cell to another or loses it, and a cell freed
    by its owner; none of these changes what the other names own. -/

namespace OwnedCells

/-- The live cells.  The next one comes behind all there have been. -/
structure Heap (α : Type) where
  cell : Nat → Option α := fun _ => none
  next : Nat := 0

namespace Heap

variable {α : Type}

/-- `new`. -/
def new (h : Heap α) (a : α) : Nat × Heap α :=
  (h.next, { cell := Function.update h.cell h.next (some a), next := h.next + 1 })

/-- `delete`. -/
def delete (h : Heap α) (p : Nat) : Heap α :=
  { h with cell := Function.update h.cell p none }

@[simp] theorem cell_new_self (h : Heap α) (a : α) :
    (h.new a).2.cell (h.new a).1 = some a :=
  Function.update_self ..

theorem cell_new_ne {h : Heap α} {p : Nat} (a : α) (hp : p ≠ (h.new a).1) :
    (h.new a).2.cell p = h.cell p :=
  Function.update_of_ne hp ..

@[simp] theorem cell_delete_self (h : Heap α) (p : Nat) :
    (h.delete p).cell p = none :=
  Function.update_self ..

theorem cell_delete_ne {h : Heap α} {p q : Nat} (hq : q ≠ p) :
    (h.delete p).cell q = h.cell q :=
  Function.update_of_ne hq ..

end Heap

variable {ν α : Type}

/-- Owned cells are live, each has one owner, and no live cell lies ahead. -/
structure Owned (owner : ν → Option Nat) (h : Heap α) : Prop where
  live   : ∀ x p, owner x = some p → ∃ a, h.cell p = some a
  sole   : ∀ x y p, owner x = some p → owner y = some p → x = y
  behind : ∀ p a, h.cell p = some a → p < h.next

/-- What the name's cell holds. -/
def contents (owner : ν → Option Nat) (h : Heap α) (x : ν) : Option α :=
  (owner x).bind h.cell

namespace Owned

variable {owner owner' : ν → Option Nat} {h : Heap α} {x y : ν} {p : Nat} {a : α}

theorem empty : Owned (fun _ : ν => none) ({} : Heap α) where
  live   := fun _ _ hx => by cases hx
  sole   := fun _ _ _ hx => by cases hx
  behind := fun _ _ hp => by cases hp

/-- An owned cell is not the next one. -/
theorem ne_new (ho : Owned owner h) (hx : owner x = some p) (a : α) :
    p ≠ (h.new a).1 := by
  obtain ⟨b, hb⟩ := ho.live x p hx
  exact Nat.ne_of_lt (ho.behind p b hb)

/-- A name loses its cell; the cell stays. -/
theorem forget (ho : Owned owner h) (hx : owner' x = none)
    (hrest : ∀ y, y ≠ x → owner' y = owner y) : Owned owner' h := by
  have hold : ∀ y p, owner' y = some p → owner y = some p := by
    intro y p hy
    by_cases hyx : y = x
    · rw [hyx, hx] at hy
      cases hy
    · rw [← hrest y hyx]
      exact hy
  exact ⟨fun y p hy => ho.live y p (hold y p hy),
    fun y z p hy hz => ho.sole y z p (hold y p hy) (hold z p hz), ho.behind⟩

/-- A name gets a new cell. -/
theorem fresh (ho : Owned owner h) (a : α) (hx : owner' x = some (h.new a).1)
    (hrest : ∀ y, y ≠ x → owner' y = owner y) : Owned owner' (h.new a).2 := by
  have hcases : ∀ y p, owner' y = some p →
      (y = x ∧ p = (h.new a).1) ∨ (y ≠ x ∧ owner y = some p) := by
    intro y p hy
    by_cases hyx : y = x
    · rw [hyx, hx] at hy
      exact Or.inl ⟨hyx, (Option.some.inj hy).symm⟩
    · exact Or.inr ⟨hyx, by rw [← hrest y hyx]; exact hy⟩
  refine ⟨?_, ?_, ?_⟩
  · intro y p hy
    rcases hcases y p hy with ⟨-, rfl⟩ | ⟨-, hy⟩
    · exact ⟨a, Heap.cell_new_self h a⟩
    · rw [Heap.cell_new_ne a (ho.ne_new hy a)]
      exact ho.live y p hy
  · intro y z p hy hz
    rcases hcases y p hy with ⟨rfl, hp⟩ | ⟨-, hy⟩ <;>
      rcases hcases z p hz with ⟨rfl, hp'⟩ | ⟨-, hz⟩
    · rfl
    · exact absurd hp (ho.ne_new hz a)
    · exact absurd hp' (ho.ne_new hy a)
    · exact ho.sole y z p hy hz
  · intro p b hp
    by_cases hpn : p = (h.new a).1
    · rw [hpn]
      exact Nat.lt_succ_self _
    · rw [Heap.cell_new_ne a hpn] at hp
      exact Nat.lt_succ_of_lt (ho.behind p b hp)

/-- A name gives its cell to another. -/
theorem give (ho : Owned owner h) (hx : owner' x = owner y)
    (hy : owner' y = none) (hrest : ∀ z, z ≠ x → z ≠ y → owner' z = owner z) :
    Owned owner' h := by
  -- every owner after it stands for one before it
  have hold : ∀ z p, owner' z = some p →
      (z = x ∧ owner y = some p) ∨ (z ≠ x ∧ z ≠ y ∧ owner z = some p) := by
    intro z p hz
    by_cases hzx : z = x
    · rw [hzx, hx] at hz
      exact Or.inl ⟨hzx, hz⟩
    · by_cases hzy : z = y
      · rw [hzy, hy] at hz
        cases hz
      · exact Or.inr ⟨hzx, hzy, by rw [← hrest z hzx hzy]; exact hz⟩
  refine ⟨?_, ?_, ho.behind⟩
  · intro z p hz
    rcases hold z p hz with ⟨-, h'⟩ | ⟨-, -, h'⟩
    · exact ho.live y p h'
    · exact ho.live z p h'
  · intro z w p hz hw
    rcases hold z p hz with ⟨rfl, hz⟩ | ⟨-, hzy, hz⟩ <;>
      rcases hold w p hw with ⟨rfl, hw⟩ | ⟨-, hwy, hw⟩
    · rfl
    · exact absurd (ho.sole w y p hw hz) hwy
    · exact absurd (ho.sole z y p hz hw) hzy
    · exact ho.sole z w p hz hw

/-- A name frees its cell. -/
theorem free (ho : Owned owner h) (hx : owner x = some p)
    (hx' : owner' x = none) (hrest : ∀ y, y ≠ x → owner' y = owner y) :
    Owned owner' (h.delete p) := by
  have hlost := ho.forget hx' hrest
  have hother : ∀ y q, owner' y = some q → q ≠ p := by
    intro y q hy hqp
    have hyx : y ≠ x := by
      rintro rfl
      rw [hx'] at hy
      cases hy
    rw [hrest y hyx, hqp] at hy
    exact hyx (ho.sole y x p hy hx)
  refine ⟨?_, hlost.sole, ?_⟩
  · intro y q hy
    rw [Heap.cell_delete_ne (hother y q hy)]
    exact hlost.live y q hy
  · intro q a hq
    by_cases hqp : q = p
    · rw [hqp, Heap.cell_delete_self] at hq
      cases hq
    · rw [Heap.cell_delete_ne hqp] at hq
      exact ho.behind q a hq

/-! ## What the others own -/

/-- A new cell changes nothing of what others own. -/
theorem contents_new (ho : Owned owner h) (a : α) (hy : owner' y = owner y) :
    contents owner' (h.new a).2 y = contents owner h y := by
  rw [contents, contents, hy]
  cases hp : owner y with
  | none => rfl
  | some p => exact Heap.cell_new_ne a (ho.ne_new hp a)

/-- Deleting a cell changes nothing of what others own. -/
theorem contents_delete (ho : Owned owner h) (hx : owner x = some p)
    (hyx : y ≠ x) (hy : owner' y = owner y) :
    contents owner' (h.delete p) y = contents owner h y := by
  rw [contents, contents, hy]
  cases hq : owner y with
  | none => rfl
  | some q =>
      refine Heap.cell_delete_ne ?_
      rintro rfl
      exact hyx (ho.sole y x q hq hx)

end Owned

end OwnedCells

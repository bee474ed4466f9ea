import Mathlib.Data.List.Basic
import Mathlib.Data.List.Nodup
import Mathlib.Logic.Function.Basic

/-! # Vectors that grow, and pointers into them

    A vector has a buffer of some capacity.  A push beyond it moves the elements
    to another buffer, and a pointer into the old one dangles.  A map from keys
    to pointers stays exact as long as every push fits. -/

namespace GrowingVector

variable {α κ : Type}

/-- The place of an element: a buffer and a position in it. -/
structure Pointer where
  buffer   : Nat
  position : Nat
  deriving DecidableEq

/-- A vector; its buffers are numbered as they replace each other. -/
structure Vec (α : Type) where
  buffer   : Nat := 0
  capacity : Nat := 0
  elems    : List α := []

namespace Vec

/-- `reserve`. -/
def reserve (v : Vec α) (n : Nat) : Vec α :=
  if n ≤ v.capacity then v else { v with buffer := v.buffer + 1, capacity := n }

/-- `emplace_back`: a full buffer is replaced by one of twice its capacity. -/
def emplaceBack (v : Vec α) (a : α) : Vec α :=
  if v.elems.length < v.capacity then { v with elems := v.elems ++ [a] }
  else {
    buffer := v.buffer + 1
    capacity := max 1 (2 * v.capacity)
    elems := v.elems ++ [a] }

/-- The address of an element. -/
def pointerTo (v : Vec α) (i : Nat) : Pointer := ⟨v.buffer, i⟩

/-- The address of the last element. -/
def pointerToBack (v : Vec α) : Pointer := v.pointerTo (v.elems.length - 1)

/-- What a pointer leads to: nothing when its buffer is gone. -/
def deref (v : Vec α) (p : Pointer) : Option α :=
  if p.buffer = v.buffer then v.elems[p.position]? else none

variable {v : Vec α} {a : α}

@[simp] theorem deref_pointerTo (v : Vec α) (i : Nat) :
    v.deref (v.pointerTo i) = v.elems[i]? :=
  if_pos rfl

@[simp] theorem elems_emplaceBack (v : Vec α) (a : α) :
    (v.emplaceBack a).elems = v.elems ++ [a] := by
  rw [emplaceBack]
  split_ifs <;> rfl

@[simp] theorem pointerToBack_emplaceBack (v : Vec α) (a : α) :
    (v.emplaceBack a).pointerToBack
      = (v.emplaceBack a).pointerTo v.elems.length := by
  rw [pointerToBack, elems_emplaceBack, List.length_append,
    List.length_singleton, Nat.add_sub_cancel]

/-- A push that fits leaves every pointer good. -/
theorem emplaceBack_of_lt (h : v.elems.length < v.capacity) :
    v.emplaceBack a = { v with elems := v.elems ++ [a] } :=
  if_pos h

theorem pointerTo_emplaceBack (h : v.elems.length < v.capacity) (i : Nat) :
    (v.emplaceBack a).pointerTo i = v.pointerTo i := by
  rw [emplaceBack_of_lt h]
  rfl

theorem capacity_emplaceBack (h : v.elems.length < v.capacity) :
    (v.emplaceBack a).capacity = v.capacity := by
  rw [emplaceBack_of_lt h]

/-- `reserve` makes the capacity. -/
theorem le_capacity_reserve (v : Vec α) (n : Nat) :
    n ≤ (v.reserve n).capacity := by
  rw [reserve]
  split_ifs with h
  · exact h
  · exact Nat.le_refl n

@[simp] theorem elems_reserve (v : Vec α) (n : Nat) :
    (v.reserve n).elems = v.elems := by
  rw [reserve]
  split_ifs <;> rfl

end Vec

/-- The pointers to the elements with a property. -/
def PointsTo (v : Vec α) (P : α → Prop) (p : Pointer) : Prop :=
  ∃ i a, v.elems[i]? = some a ∧ P a ∧ p = v.pointerTo i

/-- A map holds just the pointers to the elements, each under its key. -/
def Indexes (m : κ → Option Pointer) (v : Vec α) (key : α → κ) : Prop :=
  ∀ k p, m k = some p ↔ PointsTo v (fun a => key a = k) p

section Push

variable {v : Vec α} {a : α} {P : α → Prop} {p : Pointer}

theorem pointsTo_nil (hv : v.elems = []) : ¬ PointsTo v P p := by
  rintro ⟨i, a, hi, -⟩
  rw [hv] at hi
  cases hi

/-- A push that fits adds the new element's pointer. -/
theorem pointsTo_emplaceBack (h : v.elems.length < v.capacity) :
    PointsTo (v.emplaceBack a) P p ↔ PointsTo v P p
      ∨ P a ∧ p = (v.emplaceBack a).pointerToBack := by
  simp only [PointsTo, Vec.elems_emplaceBack, Vec.pointerTo_emplaceBack h,
    Vec.pointerToBack_emplaceBack]
  constructor
  · rintro ⟨i, b, hi, hb, rfl⟩
    rcases Nat.lt_or_ge i v.elems.length with hlt | hge
    · rw [List.getElem?_append_left hlt] at hi
      exact Or.inl ⟨i, b, hi, hb, rfl⟩
    · rw [List.getElem?_append_right hge, List.getElem?_singleton] at hi
      split_ifs at hi with hzero
      obtain rfl := Option.some.inj hi
      exact Or.inr ⟨hb, by rw [show i = v.elems.length by omega]⟩
  · rintro (⟨i, b, hi, hb, rfl⟩ | ⟨ha, rfl⟩)
    · refine ⟨i, b, ?_, hb, rfl⟩
      rw [List.getElem?_append_left (List.getElem?_eq_some_iff.mp hi).1]
      exact hi
    · exact ⟨v.elems.length, a, by simp, ha, rfl⟩

/-- An empty map indexes an empty vector. -/
theorem indexes_nil (hv : v.elems = []) (key : α → κ) :
    Indexes (fun _ => none) v key := by
  intro k p
  refine ⟨fun h => ?_, fun h => absurd h (pointsTo_nil hv)⟩
  cases h

variable [DecidableEq κ] {m : κ → Option Pointer} {key : α → κ}

/-- Pushing an element with a new key and entering it under the key. -/
theorem Indexes.emplaceBack (hm : Indexes m v key)
    (h : v.elems.length < v.capacity) (hnew : key a ∉ v.elems.map key) :
    Indexes (Function.update m (key a)
      (some (v.emplaceBack a).pointerToBack)) (v.emplaceBack a) key := by
  intro k p
  rw [pointsTo_emplaceBack h]
  by_cases hk : k = key a
  · subst hk
    rw [Function.update_self, Option.some.injEq, eq_comm]
    constructor
    · exact fun hp => Or.inr ⟨rfl, hp⟩
    · rintro (⟨i, b, hi, hb, -⟩ | ⟨-, hp⟩)
      · exact absurd (hb ▸ List.mem_map_of_mem (List.mem_of_getElem? hi)) hnew
      · exact hp
  · rw [Function.update_of_ne hk, hm]
    constructor
    · exact Or.inl
    · rintro (hp | ⟨ha, -⟩)
      · exact hp
      · exact absurd ha.symm hk

end Push

/-! ## Maps to lists -/

section Multimap

variable {β : Type}

/-- What a map holds for these values: an entry is made by its first. -/
def entry (l : List β) : Option (List β) := if l = [] then none else some l

@[simp] theorem getD_entry (l : List β) : (entry l).getD [] = l := by
  rw [entry]
  split_ifs with h
  · exact h.symm
  · rfl

theorem entry_append_singleton (l : List β) (b : β) :
    entry (l ++ [b]) = some (l ++ [b]) :=
  if_neg (by simp)

/-- `m[k].emplace_back(b)`. -/
def addTo [DecidableEq κ] (m : κ → Option (List β)) (e : κ × β) :
    κ → Option (List β) :=
  Function.update m e.1 (some ((m e.1).getD [] ++ [e.2]))

/-- The values under a key. -/
def valuesOf [DecidableEq κ] (es : List (κ × β)) (k : κ) : List β :=
  (es.filter (fun e => e.1 = k)).map Prod.snd

/-- Values added one by one stand under their keys in the order they came. -/
theorem foldl_addTo [DecidableEq κ] (es : List (κ × β)) (values : κ → List β) :
    es.foldl addTo (fun k => entry (values k))
      = fun k => entry (values k ++ valuesOf es k) := by
  induction es generalizing values with
  | nil => simp [valuesOf]
  | cons e es ih =>
      have hstep : addTo (fun k => entry (values k)) e
          = fun k => entry (values k ++ valuesOf [e] k) := by
        funext k
        by_cases hk : k = e.1
        · subst hk
          simp [addTo, valuesOf, entry_append_singleton]
        · have hne : ¬ e.1 = k := fun h => hk h.symm
          simp [addTo, valuesOf, hk, hne]
      rw [List.foldl_cons, hstep, ih]
      funext k
      rw [List.append_assoc, valuesOf, valuesOf, valuesOf, ← List.map_append,
        ← List.filter_append, List.singleton_append]

end Multimap

end GrowingVector

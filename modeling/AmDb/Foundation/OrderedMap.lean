import Mathlib.Data.List.Pairwise
import Mathlib.Order.Bounds.Basic

/-! # Ordered maps as ascending entry lists

    A map over a linear order, kept as the list of its entries in strictly
    ascending key order.  The raw list operations come first (they are what a
    proof about a concatenation of several maps needs), then the bundled type
    `OrderedMap`, which carries the ordering as a field. -/

namespace OrderedMap

variable {α β : Type} [LinearOrder α]

/-! ## Entry lists -/

/-- Keys strictly ascend along the list. -/
def Ascending (l : List (α × β)) : Prop :=
  l.Pairwise (fun a b => a.1 < b.1)

instance (l : List (α × β)) : Decidable (Ascending l) :=
  inferInstanceAs (Decidable (l.Pairwise (fun a b => a.1 < b.1)))

/-- The value of a key. -/
def lookup (k : α) : List (α × β) → Option β
  | [] => none
  | e :: l => if e.1 = k then some e.2 else lookup k l

/-- Add an entry at its place; a key that is there already keeps its value. -/
def insertNew (k : α) (v : β) : List (α × β) → List (α × β)
  | [] => [(k, v)]
  | e :: l =>
      if k < e.1 then (k, v) :: e :: l
      else if e.1 < k then e :: insertNew k v l
      else e :: l

/-- Drop the entry of a key. -/
def remove (k : α) (l : List (α × β)) : List (α × β) :=
  l.filter (fun e => e.1 ≠ k)

/-- The keys of an entry list. -/
def keys (l : List (α × β)) : Set α := {k | ∃ e ∈ l, e.1 = k}

@[simp] theorem lookup_nil (k : α) : lookup k ([] : List (α × β)) = none := rfl

theorem lookup_cons (k : α) (e : α × β) (l : List (α × β)) :
    lookup k (e :: l) = if e.1 = k then some e.2 else lookup k l := rfl

/-- A key is looked up in the first list, then in the second. -/
theorem lookup_append (k : α) (l₁ l₂ : List (α × β)) :
    lookup k (l₁ ++ l₂) = (lookup k l₁).or (lookup k l₂) := by
  induction l₁ with
  | nil => simp
  | cons e l ih =>
      rw [List.cons_append, lookup_cons, lookup_cons]
      by_cases h : e.1 = k
      · rw [if_pos h, if_pos h]; rfl
      · rw [if_neg h, if_neg h]; exact ih

/-- A key that is not found is none of the keys. -/
theorem lookup_eq_none {k : α} {l : List (α × β)} :
    lookup k l = none ↔ ∀ e ∈ l, e.1 ≠ k := by
  induction l with
  | nil => simp
  | cons e l ih =>
      rw [lookup_cons]
      by_cases h : e.1 = k
      · simp [h]
      · simp [h, ih]

theorem lookup_ne_none {k : α} {l : List (α × β)} :
    lookup k l ≠ none ↔ k ∈ keys l := by
  rw [Ne, lookup_eq_none]
  simp [keys]

/-! ## Adding an entry -/

/-- An entry is the new one or an old one. -/
theorem mem_insertNew {k : α} {v : β} {e : α × β} {l : List (α × β)}
    (h : e ∈ insertNew k v l) : e = (k, v) ∨ e ∈ l := by
  induction l with
  | nil => exact Or.inl (List.mem_singleton.mp h)
  | cons x l ih =>
      rw [insertNew] at h
      split_ifs at h with h₁ h₂
      · rcases List.mem_cons.mp h with rfl | hm
        · exact Or.inl rfl
        · exact Or.inr hm
      · rcases List.mem_cons.mp h with rfl | hm
        · exact Or.inr List.mem_cons_self
        · exact (ih hm).imp id (List.mem_cons_of_mem _)
      · exact Or.inr h

/-- Insertion keeps the order. -/
theorem ascending_insertNew (k : α) (v : β) {l : List (α × β)}
    (ha : Ascending l) : Ascending (insertNew k v l) := by
  induction l with
  | nil => exact List.pairwise_singleton _ _
  | cons x l ih =>
      obtain ⟨hlt, hrest⟩ := List.pairwise_cons.mp ha
      rw [insertNew]
      split_ifs with h₁ h₂
      · refine List.pairwise_cons.mpr ⟨?_, ha⟩
        intro e he
        rcases List.mem_cons.mp he with rfl | hm
        · exact h₁
        · exact lt_trans h₁ (hlt e hm)
      · refine List.pairwise_cons.mpr ⟨?_, ih hrest⟩
        intro e he
        rcases mem_insertNew he with rfl | hm
        · exact h₂
        · exact hlt e hm
      · exact ha

/-- The key then has the value it had, or the new one. -/
theorem lookup_insertNew_self (k : α) (v : β) {l : List (α × β)}
    (ha : Ascending l) :
    lookup k (insertNew k v l) = some ((lookup k l).getD v) := by
  induction l with
  | nil => simp [insertNew, lookup_cons]
  | cons x l ih =>
      obtain ⟨hlt, hrest⟩ := List.pairwise_cons.mp ha
      rw [insertNew]
      split_ifs with h₁ h₂
      · have hnone : lookup k (x :: l) = none := by
          refine lookup_eq_none.mpr ?_
          intro e he
          rcases List.mem_cons.mp he with rfl | hm
          · exact ne_of_gt h₁
          · exact ne_of_gt (lt_trans h₁ (hlt e hm))
        rw [hnone, lookup_cons, if_pos rfl]; rfl
      · rw [lookup_cons, lookup_cons, if_neg (ne_of_lt h₂),
          if_neg (ne_of_lt h₂), ih hrest]
      · have hx : x.1 = k := le_antisymm (not_lt.mp h₁) (not_lt.mp h₂)
        rw [lookup_cons, if_pos hx]; rfl

/-- The other keys are looked up as before. -/
theorem lookup_insertNew_ne {k k' : α} (v : β) (l : List (α × β))
    (h : k' ≠ k) : lookup k' (insertNew k v l) = lookup k' l := by
  induction l with
  | nil => rw [insertNew, lookup_cons, if_neg (Ne.symm h)]
  | cons x l ih =>
      rw [insertNew]
      split_ifs with h₁ h₂
      · rw [lookup_cons, if_neg (Ne.symm h)]
      · rw [lookup_cons, lookup_cons, ih]
      · rfl

/-- A key that is there already is left alone. -/
theorem insertNew_of_lookup {k : α} (v : β) {l : List (α × β)}
    (ha : Ascending l) (h : lookup k l ≠ none) : insertNew k v l = l := by
  induction l with
  | nil => exact absurd rfl h
  | cons x l ih =>
      obtain ⟨hlt, hrest⟩ := List.pairwise_cons.mp ha
      rw [insertNew]
      split_ifs with h₁ h₂
      · obtain ⟨e, he, rfl⟩ := lookup_ne_none.mp h
        rcases List.mem_cons.mp he with rfl | hm
        · exact absurd h₁ (lt_irrefl _)
        · exact absurd (lt_trans h₁ (hlt e hm)) (lt_irrefl _)
      · rw [lookup_cons, if_neg (ne_of_lt h₂)] at h
        rw [ih hrest h]
      · rfl

/-- Behind smaller keys a new one goes to the second list. -/
theorem insertNew_append_left {k : α} (v : β) {l₁ l₂ : List (α × β)}
    (h : ∀ e ∈ l₁, e.1 < k) :
    insertNew k v (l₁ ++ l₂) = l₁ ++ insertNew k v l₂ := by
  induction l₁ with
  | nil => rfl
  | cons x l ih =>
      have hx : x.1 < k := h x List.mem_cons_self
      rw [List.cons_append, insertNew, if_neg (lt_asymm hx), if_pos hx,
        ih (fun e he => h e (List.mem_cons_of_mem _ he))]
      rfl

/-- Before greater keys a new one goes to the first list. -/
theorem insertNew_append_right {k : α} (v : β) {l₁ l₂ : List (α × β)}
    (h : ∀ e ∈ l₂, k < e.1) :
    insertNew k v (l₁ ++ l₂) = insertNew k v l₁ ++ l₂ := by
  induction l₁ with
  | nil =>
      cases l₂ with
      | nil => rfl
      | cons x l =>
          show insertNew k v (x :: l) = (k, v) :: x :: l
          rw [insertNew, if_pos (h x List.mem_cons_self)]
  | cons x l ih =>
      rw [List.cons_append, insertNew, insertNew, ih]
      split_ifs <;> rfl

/-- Something is in it then. -/
theorem insertNew_ne_nil (k : α) (v : β) (l : List (α × β)) :
    insertNew k v l ≠ [] := by
  cases l with
  | nil => exact List.cons_ne_nil _ _
  | cons x l =>
      rw [insertNew]
      split_ifs <;> exact List.cons_ne_nil _ _

/-- The keys with the new one. -/
theorem keys_insertNew (k : α) (v : β) (l : List (α × β)) :
    keys (insertNew k v l) = insert k (keys l) := by
  ext x
  rw [Set.mem_insert_iff, ← lookup_ne_none, ← lookup_ne_none]
  by_cases hx : x = k
  · simp only [hx, true_or, iff_true]
    induction l with
    | nil => simp [insertNew, lookup_cons]
    | cons y l ih =>
        rw [insertNew]
        split_ifs with h₁ h₂
        · simp [lookup_cons]
        · rw [lookup_cons, if_neg (ne_of_lt h₂)]; exact ih
        · rw [lookup_cons, if_pos (le_antisymm (not_lt.mp h₁) (not_lt.mp h₂))]
          exact Option.some_ne_none _
  · rw [lookup_insertNew_ne v l hx]
    simp [hx]

/-- One entry more, if the key is new. -/
theorem length_insertNew {k : α} (v : β) {l : List (α × β)}
    (h : k ∉ keys l) : (insertNew k v l).length = l.length + 1 := by
  induction l with
  | nil => rfl
  | cons e l ih =>
      have hne : e.1 ≠ k := fun he => h ⟨e, List.mem_cons_self, he⟩
      have hl : k ∉ keys l := fun ⟨x, hx, he⟩ =>
        h ⟨x, List.mem_cons_of_mem _ hx, he⟩
      rw [insertNew]
      split_ifs with h₁ h₂
      · rfl
      · rw [List.length_cons, ih hl, List.length_cons]
      · exact absurd (le_antisymm (not_lt.mp h₁) (not_lt.mp h₂)) hne

/-- The greatest of a set with one more. -/
theorem isGreatest_insert {s : Set α} {x k : α} [Decidable (x < k)]
    (h : IsGreatest s x) : IsGreatest (insert k s) (if x < k then k else x) := by
  have hmax := h.insert k
  split_ifs with hlt
  · rwa [max_eq_left_of_lt hlt] at hmax
  · rwa [max_eq_right (not_lt.mp hlt)] at hmax

/-- The least of a set with one more. -/
theorem isLeast_insert {s : Set α} {x k : α} [Decidable (k < x)]
    (h : IsLeast s x) : IsLeast (insert k s) (if k < x then k else x) := by
  have hmin := h.insert k
  split_ifs with hlt
  · rwa [min_eq_left_of_lt hlt] at hmin
  · rwa [min_eq_right (not_lt.mp hlt)] at hmin

/-! ## Removing an entry -/

theorem ascending_remove (k : α) {l : List (α × β)} (ha : Ascending l) :
    Ascending (remove k l) :=
  ha.sublist List.filter_sublist

/-- The keys without it. -/
theorem keys_remove (k : α) (l : List (α × β)) :
    keys (remove k l) = keys l \ {k} := by
  ext x
  constructor
  · rintro ⟨e, he, rfl⟩
    obtain ⟨hm, hne⟩ := List.mem_filter.mp he
    exact ⟨⟨e, hm, rfl⟩, of_decide_eq_true hne⟩
  · rintro ⟨⟨e, he, rfl⟩, hne⟩
    exact ⟨e, List.mem_filter.mpr ⟨he, decide_eq_true hne⟩, rfl⟩

/-- A key that was removed is not found. -/
theorem lookup_remove_self (k : α) (l : List (α × β)) :
    lookup k (remove k l) = none := by
  by_contra h
  have hk := lookup_ne_none.mp h
  rw [keys_remove] at hk
  exact hk.2 rfl

/-- The other keys are found as before. -/
theorem lookup_remove_ne {k k' : α} (l : List (α × β)) (h : k' ≠ k) :
    lookup k' (remove k l) = lookup k' l := by
  induction l with
  | nil => rfl
  | cons e l ih =>
      rw [remove, List.filter_cons]
      by_cases he : e.1 = k
      · rw [if_neg (by simp [he]), lookup_cons,
          if_neg (fun hk => h (hk.symm.trans he))]
        exact ih
      · rw [if_pos (by simp [he]), lookup_cons, lookup_cons]
        rw [show lookup k' (l.filter fun e => decide (e.1 ≠ k)) = lookup k' l
          from ih]

/-- One entry less, if it was there. -/
theorem length_remove {k : α} {l : List (α × β)} (ha : Ascending l)
    (hk : k ∈ keys l) : (remove k l).length + 1 = l.length := by
  induction l with
  | nil =>
      obtain ⟨x, hx, -⟩ := hk
      exact absurd hx List.not_mem_nil
  | cons e l ih =>
      obtain ⟨hlt, hl⟩ := List.pairwise_cons.mp ha
      by_cases he : e.1 = k
      · have hrest : k ∉ keys l := by
          rintro ⟨x, hx, hxk⟩
          have := hlt x hx
          rw [he, hxk] at this
          exact lt_irrefl _ this
        have hcons : remove k (e :: l) = remove k l :=
          List.filter_cons_of_neg (by simpa using he)
        rw [hcons, remove, List.filter_eq_self.mpr ?_, List.length_cons]
        intro x hx
        exact decide_eq_true fun hxk => hrest ⟨x, hx, hxk⟩
      · have hcons : remove k (e :: l) = e :: remove k l :=
          List.filter_cons_of_pos (by simpa using he)
        have hkl : k ∈ keys l := by
          obtain ⟨x, hx, hxk⟩ := hk
          rcases List.mem_cons.mp hx with rfl | hx
          · exact absurd hxk he
          · exact ⟨x, hx, hxk⟩
        rw [hcons, List.length_cons, List.length_cons, ih hl hkl]

theorem remove_append (k : α) (l₁ l₂ : List (α × β)) :
    remove k (l₁ ++ l₂) = remove k l₁ ++ remove k l₂ :=
  List.filter_append ..

/-- A key that is not there leaves all as it is. -/
theorem remove_of_not_mem {k : α} {l : List (α × β)} (h : k ∉ keys l) :
    remove k l = l := by
  refine List.filter_eq_self.mpr ?_
  intro e he
  exact decide_eq_true (fun hk => h ⟨e, he, hk⟩)

/-! ## Concatenations, ends and halves -/

omit [LinearOrder α] in
@[simp] theorem keys_nil : keys ([] : List (α × β)) = ∅ := by
  ext x; simp [keys]

omit [LinearOrder α] in
theorem ne_nil_of_mem_keys {k : α} {l : List (α × β)} (h : k ∈ keys l) :
    l ≠ [] := by
  obtain ⟨e, he, -⟩ := h
  exact List.ne_nil_of_mem he

omit [LinearOrder α] in
theorem keys_append (l₁ l₂ : List (α × β)) :
    keys (l₁ ++ l₂) = keys l₁ ∪ keys l₂ := by
  ext x; simp [keys, or_and_right, exists_or]

/-- A list is in order when its parts are, one below the other. -/
theorem ascending_append {l₁ l₂ : List (α × β)} :
    Ascending (l₁ ++ l₂) ↔ Ascending l₁ ∧ Ascending l₂ ∧
      ∀ a ∈ keys l₁, ∀ b ∈ keys l₂, a < b := by
  rw [Ascending, List.pairwise_append]
  refine and_congr Iff.rfl (and_congr Iff.rfl ?_)
  constructor
  · rintro h _ ⟨a, ha, rfl⟩ _ ⟨b, hb, rfl⟩
    exact h a ha b hb
  · intro h a ha b hb
    exact h a.1 ⟨a, ha, rfl⟩ b.1 ⟨b, hb, rfl⟩

/-- The last entry of an ascending list has the greatest key. -/
theorem isGreatest_getLast {l : List (α × β)} {e : α × β} (ha : Ascending l)
    (h : l.getLast? = some e) : IsGreatest (keys l) e.1 := by
  obtain ⟨l', rfl⟩ := List.getLast?_eq_some_iff.mp h
  refine ⟨⟨e, by simp, rfl⟩, ?_⟩
  rintro _ ⟨a, hm, rfl⟩
  rcases List.mem_append.mp hm with hl | hr
  · exact le_of_lt ((List.pairwise_append.mp ha).2.2 a hl e (by simp))
  · rw [List.mem_singleton.mp hr]

/-- The first entry of an ascending list has the least key. -/
theorem isLeast_head {l : List (α × β)} {e : α × β} (ha : Ascending l)
    (h : l.head? = some e) : IsLeast (keys l) e.1 := by
  obtain ⟨l', rfl⟩ : ∃ l', l = e :: l' := by
    cases l with
    | nil => exact nomatch h
    | cons x l => exact ⟨l, by rw [Option.some.inj h]⟩
  refine ⟨⟨e, by simp, rfl⟩, ?_⟩
  rintro _ ⟨a, hm, rfl⟩
  rcases List.mem_cons.mp hm with rfl | hr
  · exact le_refl _
  · exact le_of_lt ((List.pairwise_cons.mp ha).1 a hr)

end OrderedMap

/-! ## The bundled map -/

/-- A map over a linear order, as its entries in ascending key order. -/
structure OrderedMap (α β : Type) [LinearOrder α] where
  entries   : List (α × β)
  ascending : OrderedMap.Ascending entries

namespace OrderedMap

variable {α β : Type} [LinearOrder α]

theorem ext_entries {m m' : OrderedMap α β} (h : m.entries = m'.entries) :
    m = m' := by
  cases m; cases m'; cases h; rfl

instance [DecidableEq β] : DecidableEq (OrderedMap α β) := fun m m' =>
  decidable_of_iff (m.entries = m'.entries)
    ⟨ext_entries, fun h => h ▸ rfl⟩

/-- The map without entries. -/
def empty : OrderedMap α β := ⟨[], List.Pairwise.nil⟩

instance : Inhabited (OrderedMap α β) := ⟨empty⟩

/-- The value of a key. -/
def find? (m : OrderedMap α β) (k : α) : Option β := lookup k m.entries

instance : Membership α (OrderedMap α β) := ⟨fun m k => k ∈ keys m.entries⟩

theorem mem_iff {m : OrderedMap α β} {k : α} : k ∈ m ↔ m.find? k ≠ none :=
  lookup_ne_none.symm

instance (k : α) (m : OrderedMap α β) : Decidable (k ∈ m) :=
  decidable_of_iff ((m.find? k).isSome = true)
    (by rw [mem_iff, Option.isSome_iff_ne_none])

/-- Number of entries. -/
def size (m : OrderedMap α β) : Nat := m.entries.length

/-- Add an entry unless the key is there. -/
def emplace (m : OrderedMap α β) (k : α) (v : β) : OrderedMap α β :=
  ⟨insertNew k v m.entries, ascending_insertNew k v m.ascending⟩

/-- Drop the entry of a key. -/
def erase (m : OrderedMap α β) (k : α) : OrderedMap α β :=
  ⟨remove k m.entries, ascending_remove k m.ascending⟩

/-- The first `n` entries. -/
def take (m : OrderedMap α β) (n : Nat) : OrderedMap α β :=
  ⟨m.entries.take n, m.ascending.sublist (List.take_sublist n _)⟩

/-- The entries after the first `n`. -/
def drop (m : OrderedMap α β) (n : Nat) : OrderedMap α β :=
  ⟨m.entries.drop n, m.ascending.sublist (List.drop_sublist n _)⟩

/-- The entries from the first key that is not below `k` on. -/
def lowerBound (m : OrderedMap α β) (k : α) : List (α × β) :=
  m.entries.dropWhile (fun e => decide (e.1 < k))

/-- The entries from the first key above `k` on. -/
def upperBound (m : OrderedMap α β) (k : α) : List (α × β) :=
  m.entries.dropWhile (fun e => !decide (k < e.1))

/-- `lower_bound` drops the smaller keys. -/
theorem lowerBound_eq (m : OrderedMap α β) {k : α} {p : α → Bool}
    (hp : ∀ a, p a = true ↔ a < k) :
    m.lowerBound k = m.entries.dropWhile (fun e => p e.1) := by
  rw [lowerBound]
  congr 1
  funext e
  rw [Bool.eq_iff_iff, decide_eq_true_eq, hp]

/-- `upper_bound` those that are not greater. -/
theorem upperBound_eq (m : OrderedMap α β) {k : α} {p : α → Bool}
    (hp : ∀ a, p a = true ↔ ¬ k < a) :
    m.upperBound k = m.entries.dropWhile (fun e => p e.1) := by
  rw [upperBound]
  congr 1
  funext e
  rw [Bool.eq_iff_iff, Bool.not_eq_true', decide_eq_false_iff_not, hp]

@[simp] theorem entries_empty : (empty : OrderedMap α β).entries = [] := rfl
@[simp] theorem entries_emplace (m : OrderedMap α β) (k : α) (v : β) :
    (m.emplace k v).entries = insertNew k v m.entries := rfl
@[simp] theorem entries_erase (m : OrderedMap α β) (k : α) :
    (m.erase k).entries = remove k m.entries := rfl
@[simp] theorem entries_take (m : OrderedMap α β) (n : Nat) :
    (m.take n).entries = m.entries.take n := rfl
@[simp] theorem entries_drop (m : OrderedMap α β) (n : Nat) :
    (m.drop n).entries = m.entries.drop n := rfl

theorem emplace_of_mem {m : OrderedMap α β} {k : α} (v : β) (h : k ∈ m) :
    m.emplace k v = m :=
  ext_entries (insertNew_of_lookup v m.ascending (lookup_ne_none.mpr h))

/-- The keys after `emplace`. -/
theorem mem_emplace {m : OrderedMap α β} {k x : α} {v : β} :
    x ∈ m.emplace k v ↔ x = k ∨ x ∈ m := by
  show x ∈ keys (insertNew k v m.entries) ↔ _
  rw [keys_insertNew]
  exact Set.mem_insert_iff

/-- The keys after `erase`. -/
theorem mem_erase {m : OrderedMap α β} {k x : α} :
    x ∈ m.erase k ↔ x ∈ m ∧ x ≠ k := by
  show x ∈ keys (remove k m.entries) ↔ _
  rw [keys_remove]
  exact Iff.rfl

/-- The keys after some entries were added. -/
theorem mem_foldl_emplace {m : OrderedMap α β} {l : List (α × β)} {x : α} :
    x ∈ l.foldl (fun m e => m.emplace e.1 e.2) m ↔ x ∈ m ∨ x ∈ keys l := by
  induction l generalizing m with
  | nil =>
      refine ⟨Or.inl, ?_⟩
      rintro (hm | ⟨e, he, -⟩)
      · exact hm
      · exact absurd he List.not_mem_nil
  | cons e l ih =>
      rw [List.foldl_cons, ih, mem_emplace]
      constructor
      · rintro ((rfl | hm) | ⟨e', he', rfl⟩)
        · exact Or.inr ⟨e, List.mem_cons_self, rfl⟩
        · exact Or.inl hm
        · exact Or.inr ⟨e', List.mem_cons_of_mem _ he', rfl⟩
      · rintro (hm | ⟨e', he', rfl⟩)
        · exact Or.inl (Or.inr hm)
        · rcases List.mem_cons.mp he' with rfl | he'
          · exact Or.inl (Or.inl rfl)
          · exact Or.inr ⟨e', he', rfl⟩

/-- Adding entries whose keys are all there changes nothing. -/
theorem foldl_emplace_of_mem {m : OrderedMap α β} {l : List (α × β)}
    (h : ∀ e ∈ l, e.1 ∈ m) :
    l.foldl (fun m e => m.emplace e.1 e.2) m = m := by
  induction l with
  | nil => rfl
  | cons e l ih =>
      rw [List.foldl_cons, emplace_of_mem e.2 (h e List.mem_cons_self)]
      exact ih (fun x hx => h x (List.mem_cons_of_mem _ hx))

/-- A key that is not there adds an entry. -/
theorem size_emplace {m : OrderedMap α β} {k : α} (v : β) (h : k ∉ m) :
    (m.emplace k v).size = m.size + 1 :=
  length_insertNew v h

/-- Adding ascending entries above everything present appends them. -/
theorem foldl_emplace_append {m : OrderedMap α β} {l : List (α × β)}
    (ha : Ascending (m.entries ++ l)) :
    (l.foldl (fun m e => m.emplace e.1 e.2) m).entries = m.entries ++ l := by
  induction l generalizing m with
  | nil => simp
  | cons e l ih =>
      have hlt : ∀ x ∈ m.entries, x.1 < e.1 := fun x hx =>
        (List.pairwise_append.mp ha).2.2 x hx e List.mem_cons_self
      have hm : (m.emplace e.1 e.2).entries = m.entries ++ [e] := by
        rw [entries_emplace]
        have happ : insertNew e.1 e.2 (m.entries ++ [])
            = m.entries ++ insertNew e.1 e.2 [] := insertNew_append_left e.2 hlt
        rw [List.append_nil] at happ
        exact happ
      rw [List.foldl_cons, ih (by rw [hm]; simpa using ha), hm]
      simp

end OrderedMap

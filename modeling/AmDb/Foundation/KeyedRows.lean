import Mathlib.Data.List.Sort

/-! # Rows with distinct keys

    A table as the rows it holds: rows go in when their keys are new, and come
    out in the order of the keys.  A list that ascends strictly and has the
    right rows is that listing. -/

namespace AmDb

/-- Rows no two of which have the same key. -/
structure KeyedRows {α κ : Type} (key : α → κ) where
  rows     : List α
  distinct : (rows.map key).Nodup

namespace KeyedRows

variable {α κ : Type} {key : α → κ}

def empty (key : α → κ) : KeyedRows key := ⟨[], List.nodup_nil⟩

/-- The rows have keys of their own. -/
def Takes (t : KeyedRows key) (new : List α) : Prop :=
  ((t.rows ++ new).map key).Nodup

instance [DecidableEq κ] (t : KeyedRows key) (new : List α) :
    Decidable (t.Takes new) :=
  inferInstanceAs (Decidable (List.Nodup _))

def insert (t : KeyedRows key) (new : List α) (h : t.Takes new) :
    KeyedRows key := ⟨t.rows ++ new, h⟩

@[simp] theorem mem_insert {t : KeyedRows key} {new : List α}
    (h : t.Takes new) {a : α} :
    a ∈ (t.insert new h).rows ↔ a ∈ t.rows ∨ a ∈ new :=
  List.mem_append

/-- New rows are taken when their keys are new and different. -/
theorem takes_iff {t : KeyedRows key} {new : List α} :
    t.Takes new ↔ (new.map key).Nodup
      ∧ ∀ a ∈ new, ∀ b ∈ t.rows, key b ≠ key a := by
  rw [Takes, List.map_append, List.nodup_append]
  constructor
  · rintro ⟨-, hnew, hapart⟩
    refine ⟨hnew, ?_⟩
    intro a ha b hb
    exact hapart _ (List.mem_map_of_mem hb) _ (List.mem_map_of_mem ha)
  · rintro ⟨hnew, hapart⟩
    refine ⟨t.distinct, hnew, ?_⟩
    intro k hk k' hk'
    obtain ⟨b, hb, rfl⟩ := List.mem_map.mp hk
    obtain ⟨a, ha, rfl⟩ := List.mem_map.mp hk'
    exact hapart a ha b hb

section Listing

variable [LinearOrder κ] {p : α → Prop} [DecidablePred p]

/-- The rows of some kind, in the order of their keys. -/
def listing (t : KeyedRows key) (p : α → Prop) [DecidablePred p] : List α :=
  (t.rows.filter p).insertionSort (fun a b => key a ≤ key b)

theorem mem_listing {t : KeyedRows key} {a : α} :
    a ∈ t.listing p ↔ a ∈ t.rows ∧ p a := by
  rw [listing, List.mem_insertionSort, List.mem_filter, decide_eq_true_eq]

/-- A listing is in order of the keys. -/
theorem pairwise_listing (t : KeyedRows key) :
    (t.listing p).Pairwise (fun a b => key a < key b) := by
  have : Std.Total (fun a b : α => key a ≤ key b) :=
    ⟨fun a b => le_total (key a) (key b)⟩
  have : IsTrans α (fun a b => key a ≤ key b) := ⟨fun _ _ _ => le_trans⟩
  have hle : (t.listing p).Pairwise (fun a b => key a ≤ key b) :=
    List.pairwise_insertionSort _ _
  have hne : (t.listing p).Pairwise (fun a b => key a ≠ key b) := by
    have hperm : (t.listing p).Perm (t.rows.filter p) :=
      List.perm_insertionSort _ _
    have hnd : ((t.rows.filter p).map key).Nodup :=
      t.distinct.sublist (List.filter_sublist.map key)
    rw [← List.pairwise_map, ← List.nodup_iff_pairwise_ne]
    exact (hperm.map key).nodup_iff.mpr hnd
  exact (hle.and hne).imp (fun h => lt_of_le_of_ne h.1 h.2)

/-- There is one list of these rows that ascends strictly. -/
theorem eq_listing {t : KeyedRows key} {l : List α}
    (hl : l.Pairwise (fun a b => key a < key b))
    (hmem : ∀ a, a ∈ l ↔ a ∈ t.rows ∧ p a) : l = t.listing p := by
  have : Std.Asymm (fun a b : α => key a < key b) :=
    ⟨fun _ _ => lt_asymm⟩
  refine List.Pairwise.eq_of_mem_iff hl t.pairwise_listing ?_
  intro a
  rw [hmem, mem_listing]

end Listing

end KeyedRows

end AmDb

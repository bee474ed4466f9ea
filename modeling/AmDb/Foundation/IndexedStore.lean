import Mathlib.Data.Set.Insert

/-! # Indexes over a store of records

    Rows are stored as records, a value under a key each.  An index is a set of
    codes; it agrees with the store when its codes are those of just the stored
    rows.  It keeps agreeing when new rows are stored and their codes added, and
    when stored rows are removed and their codes taken away. -/

namespace IndexedStore

/-- How a row is stored. -/
structure Layout (ρ κ β : Type) where
  key   : ρ → κ
  value : ρ → β

variable {ρ κ β γ : Type}

/-- The record of the row is in the store. -/
def Stored (L : Layout ρ κ β) (data : κ → Option β) (r : ρ) : Prop :=
  data (L.key r) = some (L.value r)

/-- Codes for rows of a kind: equal records have equal codes, and rows of one
    code share their key. -/
structure Coding (L : Layout ρ κ β) (D : ρ → Prop) (code : ρ → γ) : Prop where
  ofRecord : ∀ r r', D r → D r' → L.key r = L.key r' → L.value r = L.value r' →
    code r = code r'
  toKey    : ∀ r r', D r → D r' → code r = code r' → L.key r = L.key r'

/-- The index has the codes of just the stored rows. -/
def Agrees (L : Layout ρ κ β) (D : ρ → Prop) (code : ρ → γ)
    (data : κ → Option β) (S : Set γ) : Prop :=
  ∀ c, c ∈ S ↔ ∃ r, D r ∧ Stored L data r ∧ code r = c

/-- What is stored under the key of a row is the record of a row. -/
def Sourced (L : Layout ρ κ β) (D : ρ → Prop) (data : κ → Option β) : Prop :=
  ∀ r, D r → data (L.key r) ≠ none → ∃ r', D r' ∧ L.key r' = L.key r
    ∧ Stored L data r'

/-- The rows were stored: each under its key, and nothing else. -/
structure Puts (L : Layout ρ κ β) (rs : List ρ) (data data' : κ → Option β) :
    Prop where
  rows : ∀ r ∈ rs, Stored L data' r
  rest : ∀ k, (∀ r ∈ rs, L.key r ≠ k) → data' k = data k

/-- The rows were removed, and nothing else. -/
structure Removes (L : Layout ρ κ β) (rs : List ρ) (data data' : κ → Option β) :
    Prop where
  rows : ∀ r ∈ rs, data' (L.key r) = none
  rest : ∀ k, (∀ r ∈ rs, L.key r ≠ k) → data' k = data k

variable {L : Layout ρ κ β} {D : ρ → Prop} {code : ρ → γ}
  {data data' : κ → Option β} {S : Set γ} {rs : List ρ} {r : ρ}

theorem Stored.ne_none (h : Stored L data r) : data (L.key r) ≠ none := by
  rw [show data (L.key r) = _ from h]
  exact Option.some_ne_none _

/-- Stored rows of one key are one record. -/
theorem Stored.value_eq {r' : ρ} (h : Stored L data r) (h' : Stored L data r')
    (hkey : L.key r = L.key r') : L.value r = L.value r' := by
  have h : data (L.key r) = some (L.value r) := h
  rw [hkey, show data (L.key r') = _ from h'] at h
  exact (Option.some.inj h).symm

/-- They have one code. -/
theorem Stored.code_eq {r' : ρ} (hc : Coding L D code) (hD : D r) (hD' : D r')
    (h : Stored L data r) (h' : Stored L data r') (hkey : L.key r = L.key r') :
    code r = code r' :=
  hc.ofRecord r r' hD hD' hkey (h.value_eq h' hkey)

section Batches

/-- A row is stored after a batch as before it, or it is one of the batch. -/
theorem Puts.stored (h : Puts L rs data data') (hr : Stored L data' r) :
    Stored L data r ∨ ∃ r₁ ∈ rs, L.key r = L.key r₁ := by
  by_cases hk : ∃ r₁ ∈ rs, L.key r₁ = L.key r
  · obtain ⟨r₁, hr₁, hkey⟩ := hk
    exact Or.inr ⟨r₁, hr₁, hkey.symm⟩
  · have hsame := h.rest (L.key r) (fun r₁ hr₁ hkey => hk ⟨r₁, hr₁, hkey⟩)
    exact Or.inl (hsame.symm.trans hr)

/-- What was stored before a batch of new rows still is. -/
theorem Puts.keeps (h : Puts L rs data data')
    (hnew : ∀ r ∈ rs, data (L.key r) = none) (hr : Stored L data r) :
    Stored L data' r := by
  refine (h.rest (L.key r) ?_).trans hr
  intro r₁ hr₁ hkey
  have hnone := hnew r₁ hr₁
  rw [hkey] at hnone
  exact hr.ne_none hnone

/-- After a batch of new rows there are the old rows and those of the batch. -/
theorem Puts.stored_iff (h : Puts L rs data data')
    (hnew : ∀ r ∈ rs, data (L.key r) = none) :
    Stored L data' r ↔ Stored L data r
      ∨ ∃ r₁ ∈ rs, L.key r₁ = L.key r ∧ L.value r₁ = L.value r := by
  constructor
  · intro hr
    rcases h.stored hr with hold | ⟨r₁, hr₁, hkey⟩
    · exact Or.inl hold
    · exact Or.inr ⟨r₁, hr₁, hkey.symm,
        (h.rows r₁ hr₁).value_eq hr hkey.symm⟩
  · rintro (hold | ⟨r₁, hr₁, hkey, hvalue⟩)
    · exact h.keeps hnew hold
    · have hr : data' (L.key r₁) = some (L.value r₁) := h.rows r₁ hr₁
      rw [hkey, hvalue] at hr
      exact hr

/-- Putting new records adds their codes. -/
theorem Agrees.puts (ha : Agrees L D code data S) (hc : Coding L D code)
    (h : Puts L rs data data') (hD : ∀ r ∈ rs, D r)
    (hnew : ∀ r ∈ rs, data (L.key r) = none) :
    Agrees L D code data' (S ∪ {c | ∃ r ∈ rs, code r = c}) := by
  intro c
  constructor
  · rintro (hold | ⟨r, hr, rfl⟩)
    · obtain ⟨r, hr, hstored, hcode⟩ := (ha c).mp hold
      exact ⟨r, hr, h.keeps hnew hstored, hcode⟩
    · exact ⟨r, hD r hr, h.rows r hr, rfl⟩
  · rintro ⟨r, hr, hstored, rfl⟩
    rcases h.stored hstored with hold | ⟨r₁, hr₁, hkey⟩
    · exact Or.inl ((ha _).mpr ⟨r, hr, hold, rfl⟩)
    · refine Or.inr ⟨r₁, hr₁, ?_⟩
      exact (hstored.code_eq hc hr (hD r₁ hr₁) (h.rows r₁ hr₁) hkey).symm

/-- What is under the keys comes from records still. -/
theorem Sourced.puts (hs : Sourced L D data) (h : Puts L rs data data')
    (hD : ∀ r ∈ rs, D r) (hnew : ∀ r ∈ rs, data (L.key r) = none) :
    Sourced L D data' := by
  intro r hr hne
  by_cases hk : ∃ r₁ ∈ rs, L.key r₁ = L.key r
  · obtain ⟨r₁, hr₁, hkey⟩ := hk
    exact ⟨r₁, hD r₁ hr₁, hkey, h.rows r₁ hr₁⟩
  · rw [h.rest (L.key r) (fun r₁ hr₁ hkey => hk ⟨r₁, hr₁, hkey⟩)] at hne
    obtain ⟨r', hr', hkey, hstored⟩ := hs r hr hne
    exact ⟨r', hr', hkey, h.keeps hnew hstored⟩

/-- What is stored after a removal was stored, and under another key. -/
theorem Removes.stored (h : Removes L rs data data') (hr : Stored L data' r) :
    Stored L data r ∧ ∀ r₁ ∈ rs, L.key r₁ ≠ L.key r := by
  have hk : ∀ r₁ ∈ rs, L.key r₁ ≠ L.key r := by
    intro r₁ hr₁ hkey
    have hnone := h.rows r₁ hr₁
    rw [hkey] at hnone
    exact hr.ne_none hnone
  exact ⟨(h.rest _ hk).symm.trans hr, hk⟩

/-- Removing stored records removes their codes. -/
theorem Agrees.removes (ha : Agrees L D code data S) (hc : Coding L D code)
    (h : Removes L rs data data') (hD : ∀ r ∈ rs, D r)
    (hstored : ∀ r ∈ rs, Stored L data r) :
    Agrees L D code data' {c ∈ S | ∀ r ∈ rs, code r ≠ c} := by
  intro c
  constructor
  · rintro ⟨hold, hne⟩
    obtain ⟨r, hr, hrs, rfl⟩ := (ha c).mp hold
    refine ⟨r, hr, (h.rest _ ?_).trans hrs, rfl⟩
    intro r₁ hr₁ hkey
    exact hne r₁ hr₁ ((hstored r₁ hr₁).code_eq hc (hD r₁ hr₁) hr hrs hkey)
  · rintro ⟨r, hr, hrs, rfl⟩
    obtain ⟨hold, hk⟩ := h.stored hrs
    refine ⟨(ha _).mpr ⟨r, hr, hold, rfl⟩, ?_⟩
    intro r₁ hr₁ hcode
    exact hk r₁ hr₁ (hc.toKey r₁ r (hD r₁ hr₁) hr hcode)

/-- What is left comes from records. -/
theorem Sourced.removes (hs : Sourced L D data) (h : Removes L rs data data') :
    Sourced L D data' := by
  intro r hr hne
  have hk : ∀ r₁ ∈ rs, L.key r₁ ≠ L.key r := by
    intro r₁ hr₁ hkey
    rw [← hkey] at hne
    exact hne (h.rows r₁ hr₁)
  rw [h.rest _ hk] at hne
  obtain ⟨r', hr', hkey, hstored⟩ := hs r hr hne
  refine ⟨r', hr', hkey, ?_⟩
  rw [Stored, hkey, h.rest _ hk, ← hkey]
  exact hstored

/-- Agreement is about the records only. -/
theorem Agrees.congr (ha : Agrees L D code data S)
    (h : ∀ r, D r → data' (L.key r) = data (L.key r)) :
    Agrees L D code data' S := by
  intro c
  rw [ha c]
  refine exists_congr (fun r => and_congr_right (fun hr => ?_))
  rw [Stored, Stored, h r hr]

/-- Data that did not change keeps its sources. -/
theorem Sourced.congr (hs : Sourced L D data)
    (h : ∀ r, D r → data' (L.key r) = data (L.key r)) : Sourced L D data' := by
  intro r hr hne
  rw [h r hr] at hne
  obtain ⟨r', hr', hkey, hstored⟩ := hs r hr hne
  exact ⟨r', hr', hkey, (h r' hr').trans hstored⟩

/-- A row whose code is not in an index told by keys has a new key. -/
theorem Agrees.new (ha : Agrees L D code data S) (hs : Sourced L D data)
    (hcode : ∀ r r', D r → D r' → L.key r = L.key r' → code r = code r')
    (hr : D r) (hnot : code r ∉ S) : data (L.key r) = none := by
  by_contra hne
  obtain ⟨r', hr', hkey, hstored⟩ := hs r hr hne
  exact hnot ((ha _).mpr ⟨r', hr', hstored, hcode r' r hr' hr hkey⟩)

end Batches

/-- An empty store and an empty index. -/
theorem agrees_empty (h : ∀ r, D r → data (L.key r) = none) :
    Agrees L D code data ∅ := by
  intro c
  refine ⟨fun hc => absurd hc (Set.notMem_empty c), ?_⟩
  rintro ⟨r, hr, hstored, -⟩
  exact absurd (h r hr) hstored.ne_none

theorem sourced_empty (h : ∀ r, D r → data (L.key r) = none) :
    Sourced L D data :=
  fun r hr hne => absurd (h r hr) hne

end IndexedStore

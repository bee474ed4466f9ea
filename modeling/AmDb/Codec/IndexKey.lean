import AmDb.Codec.RcCodec

/-! # Keys of rows

    What `EncodeIndex` and `EncodeRow` make of two rows of one table: equal
    keys come from equal columns, and a comparison of keys against the
    comparison of the columns. -/

namespace AmDb.Codec

open PrefixCode AmDb.Expr Schema Chunk

section TwoRows

variable {r₁ r₂ : Row} {cols : List ColumnInfo}

/-- Column codes of rows of one layout, with anything behind them. -/
theorem columnsCode_append_inj (h₁ : r₁.Has codecTypes cols)
    (h₂ : r₂.Has codecTypes cols) {r s : Bytes}
    (h : columnsCode r₁ cols ++ r = columnsCode r₂ cols ++ s) :
    (∀ c ∈ cols, r₁.value c = r₂.value c) ∧ r = s := by
  obtain ⟨hvals, hrs⟩ := delimited_taggedCode.flatMap_append_inj (by simp)
    (encodable_of_has h₁) (encodable_of_has h₂) h
  exact ⟨List.map_inj_left.mp hvals, hrs⟩

/-- Keys of the same columns are equal just when the values are. -/
theorem columnsCode_eq_iff (h₁ : r₁.Has codecTypes cols)
    (h₂ : r₂.Has codecTypes cols) :
    columnsCode r₁ cols = columnsCode r₂ cols
      ↔ ∀ c ∈ cols, r₁.value c = r₂.value c := by
  constructor
  · intro h
    exact (columnsCode_append_inj h₁ h₂ (congrArg (· ++ []) h)).1
  · intro h
    rw [columnsCode, columnsCode, List.map_inj_left.mpr h]

/-- Column codes of any rows are equal column by column. -/
theorem columnsCode_eq_iff_codes (h₁ : ∀ c ∈ cols, (r₁.value c).Bounded)
    (h₂ : ∀ c ∈ cols, (r₂.value c).Bounded) :
    columnsCode r₁ cols = columnsCode r₂ cols
      ↔ ∀ c ∈ cols, taggedCode (r₁.value c) = taggedCode (r₂.value c) := by
  have hcode : ∀ row : Row, columnsCode row cols
      = (cols.map (fun c => taggedCode (row.value c))).flatMap id := by
    intro row
    rw [columnsCode, List.flatMap_map, List.flatMap_map]
    rfl
  have hdelim : Delimited (fun s => ∃ v : ExprValue, v.Bounded
      ∧ taggedCode v = s) (id : Bytes → Bytes) := by
    rintro _ _ ⟨v, hv, rfl⟩ ⟨w, hw, rfl⟩ r s h
    exact taggedCode_append_inj hv hw h
  have hcodes : ∀ {row : Row}, (∀ c ∈ cols, (row.value c).Bounded) →
      ∀ s ∈ cols.map (fun c => taggedCode (row.value c)),
        ∃ v : ExprValue, v.Bounded ∧ taggedCode v = s := by
    intro row hrow s hs
    obtain ⟨c, hc, rfl⟩ := List.mem_map.mp hs
    exact ⟨row.value c, hrow c hc, rfl⟩
  rw [hcode, hcode, ← List.map_inj_left]
  constructor
  · intro h
    exact (hdelim.flatMap_append_inj (by simp) (hcodes h₁) (hcodes h₂)
      (congrArg (· ++ []) h)).1
  · exact congrArg _

/-- One key begins another only when they are equal. -/
theorem columnsCode_eq_of_prefix (h₁ : r₁.Has codecTypes cols)
    (h₂ : r₂.Has codecTypes cols)
    (h : columnsCode r₁ cols <+: columnsCode r₂ cols) :
    columnsCode r₁ cols = columnsCode r₂ cols := by
  obtain ⟨t, ht⟩ := h
  rw [← List.append_nil (columnsCode r₂ cols)] at ht
  obtain ⟨-, rfl⟩ := columnsCode_append_inj h₁ h₂ ht
  simpa using ht

/-- Data keys made of values of one layout. -/
theorem dataKeys_eq_iff (table : TableInfo) {f g : ColumnInfo → ExprValue}
    (hf : ∀ c ∈ cols, Encodable (f c)) (hg : ∀ c ∈ cols, (g c).Bounded)
    (htype : ∀ c ∈ cols, (f c).type = (g c).type) :
    encodeDataKeys table.dbId table.id
          (cols.map (fun c => (f c).toString)) []
        = encodeDataKeys table.dbId table.id
          (cols.map (fun c => (g c).toString)) []
      ↔ ∀ c ∈ cols, f c = g c := by
  have hbound : ∀ {v : ColumnInfo → ExprValue}, (∀ c ∈ cols, (v c).Bounded) →
      ∀ s ∈ cols.map (fun c => (v c).toString), s.length < 256 ^ 4 := by
    intro v hv s hs
    obtain ⟨c, hc, rfl⟩ := List.mem_map.mp hs
    exact lt_of_lt_of_eq (length_toString_lt (hv c hc)) (by decide)
  constructor
  · intro h c hc
    rw [encodeDataKeys_eq, encodeDataKeys_eq, List.nil_append,
      List.nil_append] at h
    obtain ⟨hkeys, -⟩ := StoreKey.delimited_dataKeyPart.flatMap_append_inj
      (by simp) (hbound (fun c hc => (hf c hc).2)) (hbound hg)
      (congrArg (· ++ []) h)
    exact toString_injective (htype c hc) (hf c hc).1
      (List.map_inj_left.mp hkeys c hc)
  · intro h
    rw [List.map_inj_left.mpr (fun c hc => by rw [h c hc])]

/-- Data keys of rows of one table. -/
theorem rowKey_eq_iff (table : TableInfo) {primary : IndexInfo}
    (h₁ : r₁.Has codecTypes primary.columns)
    (h₂ : r₂.Has codecTypes primary.columns) (hdesc : r₁.desc = r₂.desc) :
    rowKey table primary r₁ = rowKey table primary r₂
      ↔ ∀ c ∈ primary.columns, r₁.value c = r₂.value c :=
  dataKeys_eq_iff table (fun _ hc => (h₁.spec hc).2.2)
    (fun _ hc => (h₂.spec hc).2.2.2)
    (fun _ hc => h₁.type_eq h₂ hdesc hc)

end TwoRows

/-- The rows have the same values in these columns. -/
def Agree (r₁ r₂ : Row) (cols : List ColumnInfo) : Prop :=
  ∀ c ∈ cols, r₁.value c = r₂.value c

instance (r₁ r₂ : Row) (cols : List ColumnInfo) :
    Decidable (Agree r₁ r₂ cols) :=
  inferInstanceAs (Decidable (∀ c ∈ cols, _))

/-- Index keys and data keys tell two rows apart by just the columns they are
    for, and no index key begins the other. -/
structure TellApart (primary index : IndexInfo) (r₁ r₂ : Row)
    (k₁ k₂ d₁ d₂ : Bytes) : Prop where
  index : k₁ = k₂ ↔ Agree r₁ r₂ index.columns ∧ Agree r₁ r₂ primary.columns
  left  : k₁ <+: k₂ → k₁ = k₂
  right : k₂ <+: k₁ → k₂ = k₁
  data  : d₁ = d₂ ↔ Agree r₁ r₂ primary.columns

/-- The keys of two rows tell them apart unless the index is left out of its
    keys, as one of the primary index's type is, and the rows differ in it
    alone. -/
theorem keys_eq_iff {table : TableInfo} {primary index : IndexInfo}
    {r₁ r₂ : Row} {k₁ k₂ e₁ e₂ d₁ d₂ v₁ v₂ : Bytes}
    (hp : table.primary = some primary) (hdesc : r₁.desc = r₂.desc)
    (h₁ : r₁.Has codecTypes (index.columns ++ primary.columns))
    (h₂ : r₂.Has codecTypes (index.columns ++ primary.columns))
    (hk₁ : encodeIndex table index r₁ [] = .ok (k₁, e₁))
    (hk₂ : encodeIndex table index r₂ [] = .ok (k₂, e₂))
    (hd₁ : encodeRow table r₁ [] [] = .ok (d₁, v₁))
    (hd₂ : encodeRow table r₂ [] [] = .ok (d₂, v₂)) :
    TellApart primary index r₁ r₂ k₁ k₂ d₁ d₂
      ↔ (primary.type = index.type → Agree r₁ r₂ primary.columns →
        Agree r₁ r₂ index.columns) := by
  have hc₁ := h₁.mono (fun _ ht => ht) (fun c => mem_of_mem_keyColumns)
  have hc₂ := h₂.mono (fun _ ht => ht) (fun c => mem_of_mem_keyColumns)
  have hp₁ := h₁.mono (fun _ ht => ht)
    (fun c => List.mem_append_right index.columns)
  have hp₂ := h₂.mono (fun _ ht => ht)
    (fun c => List.mem_append_right index.columns)
  rw [encodeIndex_eq hp hc₁] at hk₁
  rw [encodeIndex_eq hp hc₂] at hk₂
  obtain ⟨rfl, -⟩ := Prod.mk.inj (Except.ok.inj hk₁)
  obtain ⟨rfl, -⟩ := Prod.mk.inj (Except.ok.inj hk₂)
  obtain rfl := encodeRow_key hp hp₁ hd₁
  obtain rfl := encodeRow_key hp hp₂ hd₂
  -- codes are equal just when the values are, column by column
  have hkey := columnsCode_eq_iff hc₁ hc₂
  constructor
  · -- rows of one primary key have one key when only that is in it
    intro h ht hprim
    refine (h.index.mp (hkey.mpr ?_)).1
    rwa [keyColumns, if_neg (not_not.mpr ht)]
  · intro h
    refine ⟨?_, columnsCode_eq_of_prefix hc₁ hc₂,
      columnsCode_eq_of_prefix hc₂ hc₁, rowKey_eq_iff table hp₁ hp₂ hdesc⟩
    rw [hkey, keyColumns]
    split_ifs with ht
    · simp only [Agree, List.mem_append, or_imp, forall_and]
    · exact ⟨fun hprim => ⟨h (not_not.mp ht) hprim, hprim⟩, And.right⟩

/-- Two users of one name: their keys in the index on names differ, as do
    their data keys. -/
theorem keys_eq_iff_users :
    columnsCode (user 3 65) [nameColumn, idColumn]
        ≠ columnsCode (user 4 65) [nameColumn, idColumn]
      ∧ rowKey users usersById (user 3 65)
        ≠ rowKey users usersById (user 4 65) := by
  have h := (@keys_eq_iff users usersById usersByName
    (user 3 65) (user 4 65) _ _ [] [] _ _
    (columnsCode (user 3 65) users.columnList)
    (columnsCode (user 4 65) users.columnList)
    rfl rfl (by decide) (by decide) rfl rfl rfl rfl).mpr
    (fun ht => absurd ht (by decide))
  have hne : ¬ Agree (user 3 65) (user 4 65) usersById.columns := by decide
  exact ⟨fun heq => hne (h.index.mp heq).2, fun heq => hne (h.data.mp heq)⟩

/-- In the index of the first of two primary keys the points (1, 5) and (2, 5)
    have one key. -/
theorem first_primary_key_is_left_out :
    encodeIndex points pointsByX (point 1 5) []
        = .ok (columnsCode (point 1 5) [yColumn], [])
      ∧ encodeIndex points pointsByX (point 2 5) []
        = .ok (columnsCode (point 1 5) [yColumn], [])
      ∧ ¬ TellApart pointsByY pointsByX (point 1 5) (point 2 5)
        (columnsCode (point 1 5) [yColumn]) (columnsCode (point 1 5) [yColumn])
        (rowKey points pointsByY (point 1 5))
        (rowKey points pointsByY (point 2 5)) := by
  refine ⟨rfl, rfl, fun h => ?_⟩
  exact absurd (h.index.mp rfl).1 (by decide)

end AmDb.Codec

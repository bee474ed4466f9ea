import AmDb.Codec.KeyOrder
import AmDb.Plan.Range

/-! # Ranges of a `SELECT`

    `SelectAnalyzer::Analyze` builds one range for each primary-key column,
    from `NewMin` to `NewMax` of its type.  Which row keys those ranges cover,
    and which of them twice. -/

namespace AmDb.Analyzer

open PrefixCode Codec AmDb.Expr Schema Chunk Plan

/-- The loop of `Analyze` over the columns of the primary key. -/
def indexRanges (primary : IndexInfo) : List IndexRange :=
  primary.columns.map (fun c =>
    let type := toExprType c.type.type
    { lower := { value := [ExprValue.newMin type], type := .leftClose }
      upper := { value := [ExprValue.newMax type], type := .rightOpen } })

/-- Some range holds the key, and no two of them do. -/
def CoveredOnce (ranges : List IteratorOptions) (key : Bytes) : Prop :=
  (∃ r ∈ ranges, r.Contains key)
    ∧ ranges.Pairwise (fun r r' => ¬ (r.Contains key ∧ r'.Contains key))

/-- The types `ToExprType` makes of a column type. -/
def columnTypes : List ExprValueType := [.int32, .int64, .string]

/-- The range of a column, on keys. -/
def typeRange (type : ExprValueType) : IteratorOptions where
  lower := taggedCode (ExprValue.newMin type)
  upper := taggedCode (ExprValue.newMax type)
  lowerOpen := false
  upperOpen := true

/-- The scan of a `SELECT` has one range for each column of the primary key. -/
theorem map_addRange_indexRanges (primary : IndexInfo) :
    (indexRanges primary).map addRange
      = primary.columns.map (fun c => typeRange (toExprType c.type.type)) := by
  rw [indexRanges, List.map_map]
  refine List.map_inj_left.mpr (fun c _ => ?_)
  simp [addRange, IndexRange.encoded, typeRange]

/-- The range of a type is from its least value to below its greatest. -/
theorem contains_typeRange_iff {type : ExprValueType} {key : Bytes} :
    (typeRange type).Contains key
      ↔ taggedCode (ExprValue.newMin type) ≤ key
        ∧ key < taggedCode (ExprValue.newMax type) := by
  simp [IteratorOptions.Contains, IteratorOptions.AboveLower,
    IteratorOptions.BelowUpper, typeRange]

/-- The type byte decides first. -/
theorem taggedCode_lt_of_type {v w : ExprValue} (h : v.type.val < w.type.val)
    (r s : Bytes) : taggedCode v ++ r < taggedCode w ++ s := by
  rw [taggedCode, taggedCode, List.append_assoc, List.append_assoc,
    (delimited_bigEndian 1).append_lt_append v.type.val_lt w.type.val_lt
      (ne_of_lt h), bigEndian_lt_iff v.type.val_lt w.type.val_lt]
  exact h

/-- Only the range of `Int64` holds any key: the others end before they
    begin. -/
theorem contains_typeRange_of_ne {type : ExprValueType}
    (ht : type ∈ columnTypes) (hne : type ≠ .int64) (key : Bytes) :
    ¬ (typeRange type).Contains key := by
  rw [contains_typeRange_iff]
  rintro ⟨hlo, hhi⟩
  have hlt := lt_of_le_of_lt hlo hhi
  simp only [columnTypes, List.mem_cons, List.not_mem_nil, or_false] at ht
  rcases ht with rfl | rfl | rfl
  · exact absurd hlt (by decide)
  · exact hne rfl
  · exact lt_irrefl _ hlt

/-- Keys that begin with an `Int64` against the code of one. -/
theorem taggedCode_int64_lt_iff (u w : BitVec 64) (r : Bytes) :
    taggedCode (.int64 u) ++ r < taggedCode (.int64 w)
      ↔ u.toNat < w.toNat := by
  have henc : ∀ x : BitVec 64, Encodable (.int64 x) := fun x =>
    ⟨by simp [ExprValue.type, codecTypes], trivial⟩
  by_cases h : u = w
  · subst h
    have hnil := @append_lt_append_left _ _ (taggedCode (.int64 u)) r []
    rw [List.append_nil] at hnil
    rw [hnil]
    simp
  · have happ := delimited_taggedCode.append_lt_append (henc u) (henc w)
      (by simpa using h) r []
    rw [List.append_nil] at happ
    rw [happ, taggedCode, taggedCode]
    have htype : (ExprValue.int64 u).type = (ExprValue.int64 w).type := rfl
    rw [htype, append_lt_append_left]
    exact bigEndian_lt_iff u.isLt w.isLt

/-- The range of `Int64` holds the keys that begin with an `Int64` from 0 on
    and below the maximum. -/
theorem contains_typeRange_int64_iff {v : ExprValue} (hv : Encodable v)
    (r : Bytes) :
    (typeRange .int64).Contains (taggedCode v ++ r)
      ↔ ∃ u : BitVec 64, v = .int64 u ∧ u.toNat < 2 ^ 63 - 1 := by
  rw [contains_typeRange_iff]
  have hmax : ExprValue.newMax .int64 = .int64 (BitVec.intMax 64) := rfl
  have hmin : ExprValue.newMin .int64 = .int64 0 := rfl
  rw [hmax, hmin]
  constructor
  · rintro ⟨hlo, hhi⟩
    have htype : v.type = .int64 := by
      rcases lt_trichotomy v.type.val ExprValueType.int64.val with h | h | h
      · have := @taggedCode_lt_of_type v (.int64 0) h r []
        rw [List.append_nil] at this
        exact absurd hlo (not_le.mpr this)
      · exact ExprValueType.val_injective h
      · have := @taggedCode_lt_of_type (.int64 (BitVec.intMax 64)) v h [] r
        rw [List.append_nil] at this
        exact absurd hhi this.asymm
    cases v with
    | int64 u => exact ⟨u, rfl, (taggedCode_int64_lt_iff u _ r).mp hhi⟩
    | _ => cases htype
  · rintro ⟨u, rfl, hu⟩
    refine ⟨not_lt.mp ?_, (taggedCode_int64_lt_iff u _ r).mpr hu⟩
    rw [taggedCode_int64_lt_iff]
    exact Nat.not_lt_zero _

/-- The ranges of a `SELECT` cover a row's key, and cover it once, just when
    the first column of the primary key is the only one of type `Int64`, and
    its value in the row is neither negative nor the maximum. -/
theorem coveredOnce_iff {table : TableInfo} {primary : IndexInfo} {row : Row}
    {k e : Bytes} (hp : table.primary = some primary)
    (ht : ∀ c ∈ primary.columns, toExprType c.type.type ∈ columnTypes)
    (hrow : row.Has columnTypes primary.columns)
    (hv : ∀ c ∈ primary.columns,
      (row.value c).type = toExprType c.type.type)
    (hk : encodeIndex table primary row [] = .ok (k, e)) :
    CoveredOnce ((indexRanges primary).map addRange) k
      ↔ ∃ c cs u, primary.columns = c :: cs ∧ row.value c = .int64 u
        ∧ 0 ≤ u.toInt ∧ u.toInt < 2 ^ 63 - 1
        ∧ ∀ c' ∈ cs, toExprType c'.type.type ≠ .int64 := by
  have hcols : keyColumns primary primary = primary.columns := by
    simp [keyColumns]
  have hsigned : ∀ u : BitVec 64, u.toNat < 2 ^ 63 - 1
      ↔ 0 ≤ u.toInt ∧ u.toInt < 2 ^ 63 - 1 := by
    intro u
    rw [BitVec.toInt_eq_toNat_cond]
    split_ifs <;> omega
  rw [encodeIndex_eq hp (hcols ▸ hrow), hcols] at hk
  obtain ⟨rfl, -⟩ := Prod.mk.inj (Except.ok.inj hk)
  rw [map_addRange_indexRanges]
  cases hpc : primary.columns with
  | nil => simp [CoveredOnce]
  | cons c cs =>
      rw [hpc] at ht hrow hv
      obtain ⟨-, -, hcol, hb⟩ := hrow.spec List.mem_cons_self
      have henc : Encodable (row.value c) := by
        refine ⟨?_, hb⟩
        revert hcol
        cases (row.value c).type <;> decide
      have hin : ∀ c' ∈ c :: cs,
          (typeRange (toExprType c'.type.type)).Contains
              (columnsCode row (c :: cs))
            ↔ toExprType c'.type.type = .int64
              ∧ ∃ u : BitVec 64, row.value c = .int64 u
                ∧ u.toNat < 2 ^ 63 - 1 := by
        intro c' hc'
        by_cases h64 : toExprType c'.type.type = .int64
        · rw [h64, columnsCode_cons, contains_typeRange_int64_iff henc]
          simp
        · have := contains_typeRange_of_ne (ht c' hc') h64
            (columnsCode row (c :: cs))
          simp [this, h64]
      have hfirst : ∀ u : BitVec 64, row.value c = .int64 u →
          toExprType c.type.type = .int64 := by
        intro u hu
        rw [← hv c List.mem_cons_self, hu]
        rfl
      constructor
      · rintro ⟨⟨r, hr, hcont⟩, honce⟩
        obtain ⟨c', hc', rfl⟩ := List.mem_map.mp hr
        obtain ⟨-, u, hu, hlt⟩ := (hin c' hc').mp hcont
        refine ⟨c, cs, u, rfl, hu, (hsigned u).mp hlt |>.1,
          (hsigned u).mp hlt |>.2, ?_⟩
        intro x hx h64
        rw [List.map_cons, List.pairwise_cons] at honce
        refine honce.1 _ (List.mem_map.mpr ⟨x, hx, rfl⟩) ⟨?_, ?_⟩
        · exact (hin c List.mem_cons_self).mpr ⟨hfirst u hu, u, hu, hlt⟩
        · exact (hin x (List.mem_cons_of_mem _ hx)).mpr ⟨h64, u, hu, hlt⟩
      · rintro ⟨_, _, u, hcons, hu, h0, hmax, hother⟩
        obtain ⟨rfl, rfl⟩ := List.cons.inj hcons
        have hlt := (hsigned u).mpr ⟨h0, hmax⟩
        refine ⟨⟨_, List.mem_map.mpr ⟨c, List.mem_cons_self, rfl⟩,
          (hin c List.mem_cons_self).mpr ⟨hfirst u hu, u, hu, hlt⟩⟩, ?_⟩
        -- every pair has a column behind the first, whose range is empty
        rw [List.map_cons, List.pairwise_cons, List.pairwise_map]
        have hout : ∀ x ∈ cs, ¬ (typeRange (toExprType x.type.type)).Contains
            (columnsCode row (c :: cs)) := by
          intro x hx hcont
          exact hother x hx ((hin x (List.mem_cons_of_mem _ hx)).mp hcont).1
        constructor
        · intro r hr hboth
          obtain ⟨x, hx, rfl⟩ := List.mem_map.mp hr
          exact hout x hx hboth.2
        · exact List.pairwise_of_forall_mem_list
            (fun x _ y hy hboth => hout y hy hboth.2)

/-- The row of user 3. -/
theorem coveredOnce_iff_users :
    CoveredOnce ((indexRanges usersById).map addRange)
      (columnsCode (user 3 65) [idColumn]) :=
  (@coveredOnce_iff users usersById (user 3 65) _ [] rfl (by decide)
    (by decide) (by decide) rfl).mpr
    ⟨idColumn, [], 3, rfl, rfl, by decide, by decide, by simp⟩

/-- The row of user -1 is in no range. -/
theorem negative_row_is_not_covered :
    ∃ k, encodeIndex users usersById (user (-1) 65) [] = .ok (k, [])
      ∧ ∀ r ∈ (indexRanges usersById).map addRange, ¬ r.Contains k :=
  ⟨columnsCode (user (-1) 65) [idColumn], rfl, by decide⟩

end AmDb.Analyzer

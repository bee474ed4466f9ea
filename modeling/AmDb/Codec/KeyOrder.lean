import AmDb.Codec.IndexKey

/-! # Order of keys

    `ExprValuesCmp` on the columns of two rows against `DataCmp` on their index
    keys.  Numbers are written as their bits, high byte first, and strings
    behind their length, so the two orders agree up to the first column in
    which a sign or a length speaks against the values. -/

namespace AmDb.Codec

open PrefixCode AmDb.Expr Schema Chunk

theorem dataCmp_congr {s t s' t' : Bytes} (h : s < t ↔ s' < t')
    (h' : t < s ↔ t' < s') : dataCmp s t = dataCmp s' t' := by
  simp only [dataCmp, h, h']

theorem dataCmp_append_left (u r s : Bytes) :
    dataCmp (u ++ r) (u ++ s) = dataCmp r s :=
  dataCmp_congr append_lt_append_left append_lt_append_left

theorem dataCmp_self (s : Bytes) : dataCmp s s = .eq :=
  dataCmp_eq_eq.mpr rfl

theorem dataCmp_bigEndian {k m n : Nat} (hm : m < 256 ^ k) (hn : n < 256 ^ k) :
    dataCmp (bigEndian k m) (bigEndian k n) = compareIntType m n := by
  simp only [dataCmp, compareIntType, bigEndian_lt_iff hm hn,
    bigEndian_lt_iff hn hm, gt_iff_lt, Nat.cast_lt]

/-- Different values decide a comparison of what they begin. -/
theorem dataCmp_taggedCode_append {v w : ExprValue} (hv : Encodable v)
    (hw : Encodable w) (hne : v ≠ w) (r s : Bytes) :
    dataCmp (taggedCode v ++ r) (taggedCode w ++ s)
      = dataCmp (taggedCode v) (taggedCode w) :=
  dataCmp_congr (delimited_taggedCode.append_lt_append hv hw hne r s)
    (delimited_taggedCode.append_lt_append hw hv hne.symm s r)

/-- Codes are written in the order of the values. -/
def CodeOrdered : ExprValue → ExprValue → Prop
  | .int8 a, .int8 b => 0 ≤ a.toInt ↔ 0 ≤ b.toInt
  | .int32 a, .int32 b => 0 ≤ a.toInt ↔ 0 ≤ b.toInt
  | .int64 a, .int64 b => 0 ≤ a.toInt ↔ 0 ≤ b.toInt
  | .string s, .string t =>
      (s < t → s.length ≤ t.length) ∧ (t < s → t.length ≤ s.length)
  | _, _ => True

/-- Bits read with a sign are ordered as without when the signs agree. -/
theorem compareIntType_toInt_iff {w : Nat} (a b : BitVec w) :
    compareIntType a.toInt b.toInt = compareIntType a.toNat b.toNat
      ↔ (0 ≤ a.toInt ↔ 0 ≤ b.toInt) := by
  have ha := a.isLt
  have hb := b.isLt
  rw [(threeWay_compareIntType _ _).eq_iff (threeWay_compareIntType _ _),
    compareIntType_eq_lt, compareIntType_eq_lt, compareIntType_eq_eq,
    compareIntType_eq_eq, BitVec.toInt_inj, Int.natCast_inj, BitVec.toNat_inj]
  simp only [iff_self, and_true, BitVec.toInt_eq_toNat_cond]
  by_cases hab : a = b
  · subst hab
    simp
  · have hne : a.toNat ≠ b.toNat := fun h => hab (BitVec.toNat_inj.mp h)
    split_ifs <;> omega

/-- Strings are written in the order of their lengths first. -/
theorem lengthPrefixed_lt_iff {s t : Bytes} (hs : s.length < 2 ^ 32)
    (ht : t.length < 2 ^ 32) : lengthPrefixed s < lengthPrefixed t
      ↔ s.length < t.length ∨ (s.length = t.length ∧ s < t) := by
  by_cases hlen : s.length = t.length
  · rw [lengthPrefixed, lengthPrefixed, hlen, append_lt_append_left]
    simp
  · rw [lengthPrefixed, lengthPrefixed,
      (delimited_bigEndian 4).append_lt_append (by omega) (by omega) hlen,
      bigEndian_lt_iff (by omega) (by omega)]
    simp [hlen]

/-- Two strings compare as with their lengths in front just when the lengths do
not speak against it. -/
theorem dataCmp_lengthPrefixed_iff {s t : Bytes} (hs : s.length < 2 ^ 32)
    (ht : t.length < 2 ^ 32) :
    dataCmp s t = dataCmp (lengthPrefixed s) (lengthPrefixed t)
      ↔ CodeOrdered (.string s) (.string t) := by
  rcases lt_trichotomy s t with hlt | rfl | hgt
  · rw [dataCmp_eq_lt.mpr hlt, eq_comm, dataCmp_eq_lt,
      lengthPrefixed_lt_iff hs ht]
    simp only [CodeOrdered, hlt, hlt.asymm, and_true, forall_const,
      false_imp_iff]
    omega
  · simp [dataCmp_self, CodeOrdered]
  · have hcmp : ∀ {x y : Bytes}, y < x → dataCmp x y = .gt := by
      intro x y h
      rw [dataCmp, if_neg h.asymm, if_pos h]
    have hback : ∀ {x y : Bytes}, dataCmp x y = .gt ↔ y < x := by
      intro x y
      simpa [isCmpGt] using isCmpGt_dataCmp x y
    rw [hcmp hgt, eq_comm, hback, lengthPrefixed_lt_iff ht hs]
    simp only [CodeOrdered, hgt, hgt.asymm, and_true, forall_const,
      false_imp_iff, true_and]
    omega

/-- One column: the orders agree just where the codes are in order. -/
theorem exprValueCmp_taggedCode_iff {v w : ExprValue} (ht : v.type = w.type)
    (hv : Encodable v) (hw : Encodable w) :
    exprValueCmp v w = dataCmp (taggedCode v) (taggedCode w)
      ↔ CodeOrdered v w := by
  rw [taggedCode, taggedCode, ht, dataCmp_append_left]
  have hk := hv.1
  revert hv hw
  refine codecType_cases (motive := fun v w => Encodable v → Encodable w →
    (exprValueCmp v w = dataCmp (valueCode v) (valueCode w)
      ↔ CodeOrdered v w))
    ?int8 ?uint8 ?int32 ?uint32 ?int64 ?uint64 ?string ht hk
  case string => exact fun s t hs ht => dataCmp_lengthPrefixed_iff hs.2 ht.2
  case int8 | int32 | int64 =>
    intro a b _ _
    show compareIntType a.toInt b.toInt = dataCmp (bigEndian _ a.toNat)
      (bigEndian _ b.toNat) ↔ (0 ≤ a.toInt ↔ 0 ≤ b.toInt)
    rw [dataCmp_bigEndian a.isLt b.isLt]
    exact compareIntType_toInt_iff a b
  all_goals
    intro a b _ _
    show compareIntType a.toNat b.toNat = dataCmp (bigEndian _ a.toNat)
      (bigEndian _ b.toNat) ↔ True
    rw [dataCmp_bigEndian a.isLt b.isLt]
    simp

/-- The order in which values of one type are written: numbers by their bits,
    strings by their length first. -/
def writtenCmp : ExprValue → ExprValue → CmpOpt
  | .int8 a, .int8 b => compareIntType a.toNat b.toNat
  | .int32 a, .int32 b => compareIntType a.toNat b.toNat
  | .int64 a, .int64 b => compareIntType a.toNat b.toNat
  | .string s, .string t =>
      if s.length = t.length then dataCmp s t
      else compareIntType s.length t.length
  | v, w => exprValueCmp v w

/-- The order strings are written in. -/
theorem dataCmp_lengthPrefixed {s t : Bytes} (hs : s.length < 2 ^ 32)
    (ht : t.length < 2 ^ 32) :
    dataCmp (lengthPrefixed s) (lengthPrefixed t)
      = writtenCmp (.string s) (.string t) := by
  show _ = if s.length = t.length then dataCmp s t
    else compareIntType s.length t.length
  split_ifs with hlen
  · rw [lengthPrefixed, lengthPrefixed, hlen, dataCmp_append_left]
  · have hlen' : t.length ≠ s.length := fun h => hlen h.symm
    simp only [dataCmp, compareIntType, lengthPrefixed_lt_iff hs ht,
      lengthPrefixed_lt_iff ht hs, hlen, hlen', false_and, or_false, gt_iff_lt,
      Nat.cast_lt]

/-- The codes of two values of one type compare as they are written. -/
theorem dataCmp_taggedCode {v w : ExprValue} (ht : v.type = w.type)
    (hv : Encodable v) (hw : Encodable w) :
    dataCmp (taggedCode v) (taggedCode w) = writtenCmp v w := by
  rw [taggedCode, taggedCode, ht, dataCmp_append_left]
  have hk := hv.1
  revert hv hw
  refine codecType_cases (motive := fun v w => Encodable v → Encodable w →
    dataCmp (valueCode v) (valueCode w) = writtenCmp v w)
    ?int8 ?uint8 ?int32 ?uint32 ?int64 ?uint64 ?string ht hk
  case string => exact fun s t hs ht => dataCmp_lengthPrefixed hs.2 ht.2
  all_goals exact fun a b _ _ => dataCmp_bigEndian a.isLt b.isLt

/-! ## Tuples -/

/-- The first values in which two tuples differ. -/
def firstDifference :
    List ExprValue → List ExprValue → Option (ExprValue × ExprValue)
  | v :: vs, w :: ws => if v = w then firstDifference vs ws else some (v, w)
  | _, _ => none

/-- Behind what does not differ the rest decides. -/
theorem firstDifference_append {vs ws : List ExprValue}
    (hlen : vs.length = ws.length) (xs ys : List ExprValue) :
    firstDifference (vs ++ xs) (ws ++ ys)
      = (firstDifference vs ws).or (firstDifference xs ys) := by
  induction vs generalizing ws with
  | nil =>
      obtain rfl := List.length_eq_zero_iff.mp hlen.symm
      rfl
  | cons v vs ih =>
      cases ws with
      | nil => cases hlen
      | cons w ws =>
          simp only [List.cons_append, firstDifference]
          split_ifs with hvw
          · exact ih (Nat.succ.inj hlen)
          · rfl

/-- Tuples of one layout. -/
structure SameLayout (vs ws : List ExprValue) : Prop where
  types : vs.map ExprValue.type = ws.map ExprValue.type
  left  : ∀ v ∈ vs, Encodable v
  right : ∀ w ∈ ws, Encodable w

/-- Two values of one type that differ. -/
structure Differ (v w : ExprValue) : Prop where
  type  : v.type = w.type
  left  : Encodable v
  right : Encodable w
  ne    : v ≠ w

theorem SameLayout.length {vs ws : List ExprValue} (h : SameLayout vs ws) :
    vs.length = ws.length := by
  rw [← List.length_map ExprValue.type, h.types, List.length_map]

/-- What is left of them is of one layout too. -/
theorem SameLayout.tail {v w : ExprValue} {vs ws : List ExprValue}
    (h : SameLayout (v :: vs) (w :: ws)) : SameLayout vs ws where
  types := (List.cons.inj h.types).2
  left x hx := h.left x (List.mem_cons_of_mem v hx)
  right x hx := h.right x (List.mem_cons_of_mem w hx)

/-- Values that are not equal there differ. -/
theorem SameLayout.head {v w : ExprValue} {vs ws : List ExprValue}
    (h : SameLayout (v :: vs) (w :: ws)) (hne : v ≠ w) : Differ v w where
  type := (List.cons.inj h.types).1
  left := h.left v List.mem_cons_self
  right := h.right w List.mem_cons_self
  ne := hne

/-- Where two tuples of one layout differ first, the types are the same. -/
theorem SameLayout.differ {vs ws : List ExprValue} (h : SameLayout vs ws)
    {d : ExprValue × ExprValue} (hd : firstDifference vs ws = some d) :
    Differ d.1 d.2 := by
  induction vs generalizing ws with
  | nil => cases hd
  | cons v vs ih =>
      cases ws with
      | nil => cases hd
      | cons w ws =>
          rw [firstDifference] at hd
          split_ifs at hd with hvw
          · exact ih h.tail hd
          · obtain rfl := Option.some.inj hd
            exact h.head hvw

/-- The first difference decides. -/
theorem SameLayout.exprValuesCmp {vs ws : List ExprValue}
    (h : SameLayout vs ws) : Expr.exprValuesCmp vs ws
      = (firstDifference vs ws).elim .eq (fun d => exprValueCmp d.1 d.2) := by
  induction vs generalizing ws with
  | nil =>
      obtain rfl := List.length_eq_zero_iff.mp h.length.symm
      rfl
  | cons v vs ih =>
      cases ws with
      | nil => cases h.types
      | cons w ws =>
          have hcmp := exprValueCmp_eq_eq (List.cons.inj h.types).1
            (h.left v List.mem_cons_self).1
          rw [Expr.exprValuesCmp, firstDifference]
          split_ifs with hopt hvw hvw
          · rw [hcmp.mpr hvw] at hopt
            cases hopt
          · rfl
          · exact ih h.tail
          · exact absurd (by simpa [isCmpNe, isCmpEq] using hopt)
              (fun heq => hvw (hcmp.mp heq))

/-- And it decides between the codes. -/
theorem SameLayout.dataCmp {vs ws : List ExprValue} (h : SameLayout vs ws) :
    AmDb.dataCmp (vs.flatMap taggedCode) (ws.flatMap taggedCode)
      = (firstDifference vs ws).elim .eq (fun d => writtenCmp d.1 d.2) := by
  induction vs generalizing ws with
  | nil =>
      obtain rfl := List.length_eq_zero_iff.mp h.length.symm
      exact dataCmp_self []
  | cons v vs ih =>
      cases ws with
      | nil => cases h.types
      | cons w ws =>
          rw [List.flatMap_cons, List.flatMap_cons, firstDifference]
          split_ifs with hvw
          · rw [hvw, dataCmp_append_left]
            exact ih h.tail
          · have hd := h.head hvw
            rw [dataCmp_taggedCode_append hd.left hd.right hd.ne]
            exact dataCmp_taggedCode hd.type hd.left hd.right

theorem Differ.exprValueCmp_ne {v w : ExprValue} (h : Differ v w) :
    exprValueCmp v w ≠ .eq :=
  fun heq => h.ne ((exprValueCmp_eq_eq h.type h.left.1).mp heq)

/-- Values that differ do not compare as equal when written. -/
theorem Differ.writtenCmp_ne {v w : ExprValue} (h : Differ v w) :
    writtenCmp v w ≠ .eq := by
  rw [← dataCmp_taggedCode h.type h.left h.right]
  intro heq
  refine h.ne (delimited_taggedCode v w h.left h.right [] [] ?_).1
  rw [dataCmp_eq_eq.mp heq]

/-! ## Index keys -/

/-- The values a row of an index is found by. -/
def indexTuple (primary index : IndexInfo) (row : Row) : List ExprValue :=
  (index.columns ++ primary.columns).map row.value

/-- The key has the index's own columns in it. -/
def InKey (primary index : IndexInfo) : Prop :=
  index = primary ∨ primary.type ≠ index.type

/-- What the tuples differ in compares as what the keys differ in is written. -/
def DecidedAlike :
    Option (ExprValue × ExprValue) → Option (ExprValue × ExprValue) → Prop
  | none, none => True
  | some d, some d' => exprValueCmp d.1 d.2 = writtenCmp d'.1 d'.2
  | _, _ => False

/-- The first difference is written in order; where the index's columns are left
    out of the key, that of the primary key stands in for it. -/
structure KeyOrdered (primary index : IndexInfo) (r₁ r₂ : Row) : Prop where
  inKey : InKey primary index → ∀ d ∈ firstDifference
    (indexTuple primary index r₁) (indexTuple primary index r₂),
      CodeOrdered d.1 d.2
  left  : ¬ InKey primary index → DecidedAlike
    (firstDifference (indexTuple primary index r₁)
      (indexTuple primary index r₂))
    (firstDifference (primary.columns.map r₁.value)
      (primary.columns.map r₂.value))

section TwoTuples

variable {primary index : IndexInfo} {r₁ r₂ : Row} {cols : List ColumnInfo}

/-- Two rows of one layout, in columns that both of them have. -/
theorem sameLayout_of_has (hdesc : r₁.desc = r₂.desc)
    (h₁ : r₁.Has codecTypes cols) (h₂ : r₂.Has codecTypes cols) :
    SameLayout (cols.map r₁.value) (cols.map r₂.value) where
  types := by
    rw [List.map_map, List.map_map]
    exact List.map_inj_left.mpr (fun c hc => h₁.type_eq h₂ hdesc hc)
  left := encodable_of_has h₁
  right := encodable_of_has h₂

/-- What the columns in the key differ in first, the tuples do. -/
theorem firstDifference_indexTuple (h : InKey primary index) (r₁ r₂ : Row) :
    firstDifference (indexTuple primary index r₁) (indexTuple primary index r₂)
      = firstDifference ((keyColumns primary index).map r₁.value)
        ((keyColumns primary index).map r₂.value) := by
  rcases h with rfl | ht
  · rw [indexTuple, indexTuple, keyColumns, if_neg (not_not.mpr rfl),
      List.map_append, List.map_append, firstDifference_append (by simp)]
    exact Option.or_self
  · rw [indexTuple, indexTuple, keyColumns, if_pos ht]

/-- Two comparisons by first differences. -/
theorem elim_eq_elim_iff {d d' : Option (ExprValue × ExprValue)}
    (hd : ∀ x ∈ d, Differ x.1 x.2) (hd' : ∀ x ∈ d', Differ x.1 x.2) :
    d.elim .eq (fun x => exprValueCmp x.1 x.2)
        = d'.elim .eq (fun x => writtenCmp x.1 x.2)
      ↔ DecidedAlike d d' := by
  cases d with
  | none =>
      cases d' with
      | none => exact iff_of_true rfl trivial
      | some x' => exact iff_of_false (hd' x' rfl).writtenCmp_ne.symm id
  | some x =>
      cases d' with
      | none => exact iff_of_false (hd x rfl).exprValueCmp_ne id
      | some x' => exact Iff.rfl

/-- A difference compares as it is written just when its codes are in order. -/
theorem decidedAlike_self_iff {d : Option (ExprValue × ExprValue)}
    (hd : ∀ x ∈ d, Differ x.1 x.2) :
    DecidedAlike d d ↔ ∀ x ∈ d, CodeOrdered x.1 x.2 := by
  cases d with
  | none => exact iff_of_true trivial (fun x hx => by cases hx)
  | some x =>
      have hx := hd x rfl
      rw [DecidedAlike, ← dataCmp_taggedCode hx.type hx.left hx.right,
        exprValueCmp_taggedCode_iff hx.type hx.left hx.right]
      simp

/-- The keys of two rows compare as their tuples do just when the first
    difference is written in order. -/
theorem encodeIndex_ordered_iff {table : TableInfo} {k₁ k₂ e₁ e₂ : Bytes}
    (hp : table.primary = some primary) (hdesc : r₁.desc = r₂.desc)
    (h₁ : r₁.Has codecTypes (index.columns ++ primary.columns))
    (h₂ : r₂.Has codecTypes (index.columns ++ primary.columns))
    (hk₁ : encodeIndex table index r₁ [] = .ok (k₁, e₁))
    (hk₂ : encodeIndex table index r₂ [] = .ok (k₂, e₂)) :
    exprValuesCmp (indexTuple primary index r₁) (indexTuple primary index r₂)
        = dataCmp k₁ k₂
      ↔ KeyOrdered primary index r₁ r₂ := by
  have hc₁ := h₁.mono (fun _ ht => ht) (fun c => mem_of_mem_keyColumns)
  have hc₂ := h₂.mono (fun _ ht => ht) (fun c => mem_of_mem_keyColumns)
  rw [encodeIndex_eq hp hc₁] at hk₁
  rw [encodeIndex_eq hp hc₂] at hk₂
  obtain ⟨rfl, -⟩ := Prod.mk.inj (Except.ok.inj hk₁)
  obtain ⟨rfl, -⟩ := Prod.mk.inj (Except.ok.inj hk₂)
  have htuple : SameLayout (indexTuple primary index r₁)
      (indexTuple primary index r₂) := sameLayout_of_has hdesc h₁ h₂
  have hkey := sameLayout_of_has hdesc hc₁ hc₂
  rw [columnsCode, columnsCode, htuple.exprValuesCmp, hkey.dataCmp,
    elim_eq_elim_iff (fun _ => htuple.differ) (fun _ => hkey.differ)]
  by_cases hin : InKey primary index
  · rw [← firstDifference_indexTuple hin,
      decidedAlike_self_iff (fun _ => htuple.differ)]
    exact ⟨fun h => ⟨fun _ => h, fun hout => absurd hin hout⟩,
      fun h => h.inKey hin⟩
  · have hcols : keyColumns primary index = primary.columns :=
      if_neg (fun ht => hin (Or.inr ht))
    rw [hcols]
    exact ⟨fun h => ⟨fun hin' => absurd hin' hin, fun _ => h⟩,
      fun h => h.left hin⟩

end TwoTuples

/-- Two users of one name, in the order of their ids, in the index on names. -/
theorem encodeIndex_ordered_iff_users :
    exprValuesCmp [.string [65], .int64 3] [.string [65], .int64 4]
      = dataCmp (columnsCode (user 3 65) [nameColumn, idColumn])
          (columnsCode (user 4 65) [nameColumn, idColumn]) := by
  refine (@encodeIndex_ordered_iff usersById usersByName (user 3 65)
    (user 4 65) users _ _ [] [] rfl rfl (by decide) (by decide) rfl rfl).mpr
    ⟨fun _ d hd => ?_, fun hout => absurd (Or.inr (by decide)) hout⟩
  obtain rfl : d = (.int64 3, .int64 4) := (Option.some.inj hd).symm
  show 0 ≤ (3 : BitVec 64).toInt ↔ 0 ≤ (4 : BitVec 64).toInt
  decide

/-- User -1 comes before user 1, and its key after. -/
theorem negative_key_comes_last :
    exprValuesCmp (indexTuple usersById usersById (user (-1) 65))
        (indexTuple usersById usersById (user 1 65)) = .lt
      ∧ (do
          let (k₁, _) ← encodeIndex users usersById (user (-1) 65) []
          let (k₂, _) ← encodeIndex users usersById (user 1 65) []
          return dataCmp k₁ k₂) = .ok .gt := by
  decide

end AmDb.Codec

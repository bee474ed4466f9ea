import AmDb.Codec.IndexKey

/-! # Reading rows back

    `DecodeRow` undoes `EncodeRow`.  `DecodeIndex` starts over for every column
    and looks at a fixed number of bytes, so it undoes `EncodeIndex` on keys of
    one value only. -/

namespace AmDb.Codec

open PrefixCode AmDb.Expr Schema Chunk

/-! ## Records -/

theorem readDataAt_append (u v r : Bytes) :
    readDataAt (u ++ (v ++ r)) u.length v.length = .ok v := by
  rw [readDataAt, if_pos (by simp; omega), List.append_assoc,
    List.drop_left' rfl, List.append_assoc, List.take_left' rfl]

/-- Reading what is written last. -/
theorem readRest_append (u v : Bytes) :
    readRest (u ++ v) u.length = .ok v := by
  have h := readDataAt_append u v []
  rw [List.append_nil] at h
  rw [readRest, if_pos (by simp), List.length_append, Nat.add_sub_cancel_left,
    h]

/-- A value's code is no longer than the length of a string allows. -/
theorem length_valueCode_lt {v : ExprValue} (hb : v.Bounded) :
    (valueCode v).length < 2 ^ 64 - 1 := by
  cases v with
  | string s =>
      have hs : s.length < 2 ^ 32 := hb
      rw [valueCode, lengthPrefixed, List.length_append, length_bigEndian]
      omega
  | _ => simp [valueCode]

theorem addSize_of_lt {offset n : Nat} (h : n < 2 ^ 64 - 1) :
    addSize offset n = offset + n :=
  if_neg h.ne

/-- The loop from any offset at which the columns' codes start. -/
theorem decodeColumns_columnsCode {row : Row} {cols : List ColumnInfo}
    (h : row.Has decodeTypes cols) (u : Bytes) :
    decodeColumns (u ++ columnsCode row cols) cols u.length
      = .ok (cols.map (fun c => (c.id, row.value c)),
          (u ++ columnsCode row cols).length) := by
  induction cols generalizing u with
  | nil =>
      rw [decodeColumns, columnsCode]
      simp
  | cons c cs ih =>
      obtain ⟨-, -, ht, hb⟩ := h.spec List.mem_cons_self
      have hcs := h.mono (fun _ ht => ht)
        (fun _ hc => List.mem_cons_of_mem c hc)
      have hval : columnsCode row (c :: cs) = bigEndian 1 (row.value c).type.val
          ++ (valueCode (row.value c) ++ columnsCode row cs) := by
        rw [columnsCode_cons, taggedCode, List.append_assoc]
      -- the type byte, then the value, then the rest from a later offset
      have htag : readDataAt (u ++ columnsCode row (c :: cs)) u.length 1
          = .ok (bigEndian 1 (row.value c).type.val) := by
        rw [hval]
        exact readDataAt_append u (bigEndian 1 _) _
      have hrest : readRest (u ++ columnsCode row (c :: cs)) (u.length + 1)
          = .ok (valueCode (row.value c) ++ columnsCode row cs) := by
        have := readRest_append (u ++ bigEndian 1 (row.value c).type.val)
          (valueCode (row.value c) ++ columnsCode row cs)
        rwa [List.append_assoc, List.length_append, length_bigEndian,
          ← hval] at this
      have hlast := ih hcs (u ++ taggedCode (row.value c))
      rw [List.append_assoc, ← columnsCode_cons, List.length_append,
        taggedCode, List.length_append, length_bigEndian,
        ← Nat.add_assoc] at hlast
      simp only [decodeColumns, htag, Exec.bind_ok,
        decodeUInt8_self (ExprValueType.val_lt _), hrest,
        ExprValueType.ofVal_val, decodeExprValue_valueCode ht hb,
        addSize_of_lt (length_valueCode_lt hb), hlast]
      rfl

/-- `DecodeRow` hands `SetColValue` each column's value, in the order of
    `column_list`, and ends at the end of the record. -/
theorem decodeRow_encodeRow {table : TableInfo} {row : Row} {key value : Bytes}
    (h : row.Has decodeTypes table.columnList)
    (he : encodeRow table row [] [] = .ok (key, value)) :
    decodeRow table value
      = .ok (table.columnList.map (fun c => (c.id, row.value c)),
          value.length) := by
  have hval : value = columnsCode row table.columnList := by
    rw [encodeRow] at he
    cases hp : table.primary with
    | none => rw [hp] at he; cases he
    | some primary =>
        rw [hp] at he
        obtain ⟨keys, -, he⟩ := Exec.bind_eq_ok.mp he
        rw [encodeColumns_eq h, Exec.bind_ok, List.nil_append] at he
        exact (Prod.mk.inj (Except.ok.inj he)).2.symm
  rw [hval]
  exact decodeColumns_columnsCode h []

/-- A user's record. -/
theorem decodeRow_encodeRow_users :
    decodeRow users (columnsCode (user 3 65) users.columnList)
      = .ok ([(0, .int64 3), (1, .string [65])],
          (columnsCode (user 3 65) users.columnList).length) :=
  @decodeRow_encodeRow users (user 3 65) (rowKey users usersById (user 3 65)) _
    (by decide) rfl

/-! ## Index keys -/

/-- The value each `decode` finds, whatever its column is. -/
def firstValue (key : Bytes) : Exec ExprValue := do
  let tmp ← readDataAt key 0 1
  let (offset, type) ← decodeUInt8 tmp
  let exprValue := ExprValue.newEmpty (.ofVal type)
  let tmp ← readDataAt key offset (typeSize exprValue.type)
  let (_, v) ← decodeExprValue exprValue.type tmp
  return v

/-- Every column is read from the start of the key. -/
theorem decodeColumn_eq (key : Bytes) (c : ColumnInfo) :
    decodeColumn key c = (firstValue key).map (fun v => (c.id, v)) := by
  unfold decodeColumn firstValue
  rcases readDataAt key 0 1 with _ | tmp
  · rfl
  simp only [Exec.bind_ok]
  rcases decodeUInt8 tmp with _ | ⟨offset, type⟩
  · rfl
  simp only [Exec.bind_ok]
  rcases readDataAt key offset _ with _ | tmp
  · rfl
  simp only [Exec.bind_ok]
  rcases decodeExprValue _ tmp with _ | ⟨n, v⟩ <;> rfl

/-- A column is set to the first value of the key. -/
theorem decodeColumn_eq_ok_iff {key : Bytes} {c : ColumnInfo}
    {call : Nat × ExprValue} : decodeColumn key c = .ok call
      ↔ call.1 = c.id ∧ firstValue key = .ok call.2 := by
  rw [decodeColumn_eq]
  cases firstValue key with
  | error e => exact iff_of_false (fun h => by cases h) (fun h => by cases h.2)
  | ok v =>
      obtain ⟨i, w⟩ := call
      show Except.ok (c.id, v) = .ok (i, w) ↔ i = c.id ∧ Except.ok v = .ok w
      rw [Except.ok.injEq, Except.ok.injEq, Prod.mk.injEq, eq_comm (a := i)]

/-- Every column is read alike. -/
theorem mapM_decodeColumn_iff {key : Bytes} {cols : List ColumnInfo}
    (f : ColumnInfo → ExprValue) :
    cols.mapM (decodeColumn key) = .ok (cols.map (fun c => (c.id, f c)))
      ↔ ∀ c ∈ cols, firstValue key = .ok (f c) := by
  rw [Exec.mapM_eq_ok, List.forall₂_map_right_iff, List.forall₂_same]
  exact forall₂_congr (fun c _ =>
    decodeColumn_eq_ok_iff.trans (and_iff_right rfl))

/-- `DecodeIndex` reads each column of the key by itself. -/
theorem decodeIndex_eq {table : TableInfo} {primary : IndexInfo}
    (hp : table.primary = some primary) (index : IndexInfo) (key : Bytes) :
    decodeIndex table index key
      = (keyColumns primary index).mapM (decodeColumn key) := by
  rw [decodeIndex, hp, keyColumns]
  simp only
  split_ifs with ht
  · rw [List.mapM_append]
  · rw [Exec.bind_ok]
    cases primary.columns.mapM (decodeColumn key) <;> rfl

/-- Where `DecodeIndex` stops reading a key. -/
def windowEnd (key : Bytes) : Nat :=
  1 + typeSize (.ofVal (key.headD 0).val)

section FirstValue

variable {v w : ExprValue} {r : Bytes}

/-- The window of the first value is as long as its type says. -/
theorem windowEnd_taggedCode (v : ExprValue) (r : Bytes) :
    windowEnd (taggedCode v ++ r) = 1 + typeSize v.type := by
  have hhead : ((taggedCode v ++ r).headD 0).val = v.type.val := by
    show v.type.val / 256 ^ 0 % 256 = _
    rw [Nat.pow_zero, Nat.div_one, Nat.mod_eq_of_lt v.type.val_lt]
  rw [windowEnd, hhead, ExprValueType.ofVal_val]

/-- What is found in the window behind the type byte. -/
theorem firstValue_of_window {n : Nat} {window : Bytes}
    (hw : readDataAt (taggedCode v ++ r) 1 (typeSize v.type) = .ok window)
    (hd : decodeExprValue v.type window = .ok (n, w)) :
    firstValue (taggedCode v ++ r) = .ok w := by
  have htag : readDataAt (taggedCode v ++ r) 0 1
      = .ok (bigEndian 1 v.type.val) := by
    rw [taggedCode, List.append_assoc]
    exact readDataAt_append [] (bigEndian 1 v.type.val) _
  simp only [firstValue, htag, Exec.bind_ok,
    decodeUInt8_self v.type.val_lt, ExprValueType.ofVal_val,
    ExprValue.newEmpty_type, hw, hd]
  rfl

/-- Bytes read from inside a key. -/
theorem readDataAt_one {b : Bytes} (hb : b.length = 1) {s : Bytes} {n : Nat}
    (hn : n ≤ s.length) : readDataAt (b ++ s) 1 n = .ok (s.take n) := by
  have h := readDataAt_append b (s.take n) (s.drop n)
  rwa [List.take_append_drop, hb, List.length_take_of_le hn] at h

/-- A number is found whole. -/
theorem firstValue_number (ht : v.type ∈ decodeTypes) (hb : v.Bounded)
    (hs : v.type ≠ .string) :
    firstValue (taggedCode v ++ r) = .ok v
      ∧ windowEnd (taggedCode v ++ r) ≤ (taggedCode v).length := by
  have hsize : typeSize v.type = (valueCode v).length := by
    cases v with
    | uint8 | int32 | uint32 | int64 | uint64 => simp [ExprValue.type,
        typeSize, valueCode]
    | string s => exact absurd rfl hs
    | null | minInf | maxInf | invalid | bool | int8 =>
        simp [ExprValue.type, decodeTypes] at ht
  have hdec := decodeExprValue_valueCode ht hb []
  rw [List.append_nil] at hdec
  refine ⟨firstValue_of_window ?_ hdec, ?_⟩
  · rw [hsize, taggedCode, List.append_assoc]
    exact readDataAt_append (bigEndian 1 _) _ _
  · rw [windowEnd_taggedCode, hsize, taggedCode, List.length_append,
      length_bigEndian]

/-- A string is found when it fits the window, and lost when it does not. -/
theorem firstValue_string {s : Bytes} (hs : s.length < 2 ^ 32)
    (hlen : 12 ≤ (lengthPrefixed s ++ r).length) :
    firstValue (taggedCode (.string s) ++ r)
      = .ok (.string (if s.length ≤ 8 then s else [])) := by
  have hcode : taggedCode (.string s) ++ r
      = bigEndian 1 ExprValueType.string.val ++ (lengthPrefixed s ++ r) :=
    List.append_assoc ..
  have hw : readDataAt (taggedCode (.string s) ++ r) 1
      (typeSize (ExprValue.string s).type)
      = .ok ((lengthPrefixed s ++ r).take 12) := by
    rw [hcode]
    exact readDataAt_one rfl hlen
  have hpre : (lengthPrefixed s).length = 4 + s.length := by
    rw [lengthPrefixed, List.length_append, length_bigEndian]
  split_ifs with h8
  · have hwin : (lengthPrefixed s ++ r).take 12
        = lengthPrefixed s ++ r.take (12 - (lengthPrefixed s).length) := by
      rw [List.take_append, List.take_of_length_le (by omega)]
    refine @firstValue_of_window _ _ _ (s.length + 4) _ hw ?_
    show (decodeBytes _ [] >>= _) = _
    rw [hwin, decodeBytes_append hs]
    rfl
  · -- the length is read, the bytes it announces are not all there
    have hwin : (lengthPrefixed s ++ r).take 12
        = bigEndian 4 s.length ++ (s ++ r).take 8 := by
      rw [lengthPrefixed, List.append_assoc, List.take_append,
        List.take_of_length_le (by simp), length_bigEndian]
    have hshort : decodeBytes ((lengthPrefixed s ++ r).take 12) []
        = .ok (2 ^ 64 - 1, []) := by
      rw [decodeBytes, hwin, decodeUInt32_bigEndian hs, Exec.bind_ok]
      simp only
      rw [if_neg (by simp; omega)]
      rfl
    refine @firstValue_of_window _ _ _ (2 ^ 64 - 1) _ hw ?_
    show (decodeBytes _ [] >>= _) = _
    rw [hshort]
    rfl

end FirstValue

/-- The data key `TableIterator::GetItem` makes of the row `DecodeIndex`
    filled; a primary-key column never set is uninitialized memory. -/
def getItemKey (objects : StringObjects) (table : TableInfo)
    (primary : IndexInfo) (desc : RowDescriptor)
    (calls : List (Nat × ExprValue)) : Exec Bytes := do
  let cells ← setColValues desc calls (fun _ => none)
  let keys ← primary.columns.mapM (fun c =>
    match cells (c.id % 2 ^ 32) with
    | none => .error .undefined
    | some v => .ok (objects.reread (c.id % 2 ^ 32) v).toString)
  return encodeDataKeys table.dbId table.id keys []

/-- The strings of the primary key are read back. -/
def KeyReadsBack (objects : StringObjects) (primary : IndexInfo)
    (row : Row) : Prop :=
  ∀ c ∈ primary.columns, ∀ s, row.value c = .string s →
    objects.bytes (c.id % 2 ^ 32) s = s

/-- The data key of the row as it is read back. -/
def rereadKey (objects : StringObjects) (table : TableInfo)
    (primary : IndexInfo) (row : Row) : Bytes :=
  encodeDataKeys table.dbId table.id (primary.columns.map (fun c =>
    (objects.reread (c.id % 2 ^ 32) (row.value c)).toString)) []

/-- The key of the record, from the values that were set. -/
theorem getItemKey_eq {objects : StringObjects} {table : TableInfo}
    {primary : IndexInfo} {row : Row} {types : List ExprValueType}
    {cols : List ColumnInfo} (h : row.Has types cols)
    (hp : ∀ c ∈ primary.columns, c ∈ cols) :
    getItemKey objects table primary row.desc
        (cols.map (fun c => (c.id, row.value c)))
      = .ok (rereadKey objects table primary row) := by
  obtain ⟨cells, hset, hin, -⟩ := setColValues_values h (fun _ => none)
  have hkeys : ∀ {cs : List ColumnInfo}, (∀ c ∈ cs, c ∈ cols) →
      cs.mapM (fun c => match cells (c.id % 2 ^ 32) with
        | none => (.error .undefined : Exec Bytes)
        | some v => .ok (objects.reread (c.id % 2 ^ 32) v).toString)
        = .ok (cs.map (fun c =>
            (objects.reread (c.id % 2 ^ 32) (row.value c)).toString)) := by
    intro cs hcs
    induction cs with
    | nil => rfl
    | cons c cs ih =>
        rw [List.mapM_cons, hin c (hcs c List.mem_cons_self),
          ih (fun x hx => hcs x (List.mem_cons_of_mem _ hx))]
        rfl
  rw [getItemKey, hset, Exec.bind_ok, hkeys hp]
  rfl

/-- Only a string can be read as another value. -/
theorem reread_eq_self_iff (objects : StringObjects) (i : Nat)
    (v : ExprValue) :
    objects.reread i v = v ↔ ∀ s, v = .string s → objects.bytes i s = s := by
  constructor
  · rintro h s rfl
    exact ExprValue.string.inj h
  · intro h
    cases v with
    | string s => exact congrArg ExprValue.string (h s rfl)
    | _ => rfl

/-- It is the row's own just when the strings in it are read back. -/
theorem rereadKey_eq_iff {objects : StringObjects} (table : TableInfo)
    {primary : IndexInfo} {row : Row}
    (h : row.Has codecTypes primary.columns) :
    rereadKey objects table primary row = rowKey table primary row
      ↔ KeyReadsBack objects primary row := by
  have hspec : ∀ c ∈ primary.columns, Encodable (row.value c) :=
    fun _ hc => (h.spec hc).2.2
  have hsame := @dataKeys_eq_iff primary.columns table
    (fun c => row.value c)
    (fun c => objects.reread (c.id % 2 ^ 32) (row.value c)) hspec
    (fun c hc => objects.reread_bounded _ (hspec c hc).2)
    (fun c _ => (objects.reread_type _ _).symm)
  rw [eq_comm]
  refine hsame.trans (forall₂_congr ?_)
  intro c _
  rw [eq_comm, reread_eq_self_iff]

/-- `DecodeIndex` on an index key: it sets the columns of the index and of the
    primary key to the row's values, stays inside the key, and leads to the
    row's record. -/
structure DecodesBack (objects : StringObjects) (table : TableInfo)
    (primary index : IndexInfo) (row : Row) (key dataKey : Bytes) : Prop where
  values : ∃ calls cells, decodeIndex table index key = .ok calls
    ∧ setColValues row.desc calls (fun _ => none) = .ok cells
    ∧ ∀ c ∈ index.columns ++ primary.columns,
      cells (c.id % 2 ^ 32) = some (row.value c)
  inside : keyColumns primary index ≠ [] → windowEnd key ≤ key.length
  record : ∃ calls, decodeIndex table index key = .ok calls
    ∧ getItemKey objects table primary row.desc calls = .ok dataKey

/-- Every column of the index is one of its keys. -/
def KeyCovers (primary index : IndexInfo) : Prop :=
  ∀ c ∈ index.columns, ∃ c' ∈ keyColumns primary index,
    c'.id % 2 ^ 32 = c.id % 2 ^ 32

instance (primary index : IndexInfo) : Decidable (KeyCovers primary index) :=
  inferInstanceAs (Decidable (∀ c ∈ index.columns, _))

/-- The columns hold one value; a string of at most 8 bytes, in a key of at
    least 13. -/
structure OneShortValue (row : Row) (cols : List ColumnInfo) : Prop where
  same  : ∀ c ∈ cols, ∀ c' ∈ cols, row.value c = row.value c'
  short : ∀ c ∈ cols, ∀ s, row.value c = .string s →
    s.length ≤ 8 ∧ 13 ≤ cols.length * (s.length + 5)

/-- A key of one value repeated. -/
theorem length_columnsCode {row : Row} {cols : List ColumnInfo} {v : ExprValue}
    (h : ∀ c ∈ cols, row.value c = v) :
    (columnsCode row cols).length = cols.length * (taggedCode v).length := by
  induction cols with
  | nil => simp [columnsCode]
  | cons c cs ih =>
      rw [columnsCode_cons, List.length_append, List.length_cons,
        ih (fun x hx => h x (List.mem_cons_of_mem _ hx)),
        h c List.mem_cons_self, Nat.succ_mul, Nat.add_comm]

/-- A string takes five bytes more than it has. -/
theorem length_taggedCode_string (s : Bytes) :
    (taggedCode (.string s)).length = s.length + 5 := by
  simp only [taggedCode, valueCode, lengthPrefixed, List.length_append,
    length_bigEndian]
  omega

/-- A key is read back as its first value everywhere, and that stays inside it,
    just when it holds one short value. -/
theorem firstValue_columnsCode_iff {row : Row} {cols : List ColumnInfo}
    (h : row.Has decodeTypes cols) :
    ((∀ c ∈ cols, firstValue (columnsCode row cols) = .ok (row.value c))
        ∧ (cols ≠ [] →
          windowEnd (columnsCode row cols) ≤ (columnsCode row cols).length))
      ↔ OneShortValue row cols := by
  cases cols with
  | nil => exact ⟨fun _ => ⟨by simp, by simp⟩, fun _ => ⟨by simp, by simp⟩⟩
  | cons c cs =>
      obtain ⟨-, -, ht, hb⟩ := h.spec List.mem_cons_self
      -- the bytes behind the type byte of a string column
      have hstring : ∀ s, row.value c = .string s →
          (∀ c' ∈ c :: cs, row.value c' = row.value c) →
          (columnsCode row (c :: cs)).length
            = (c :: cs).length * (s.length + 5) := by
        intro s hs hall
        rw [length_columnsCode hall, hs, length_taggedCode_string]
      have hlen : ∀ s, row.value c = .string s →
          (columnsCode row (c :: cs)).length
            = 1 + (lengthPrefixed s ++ columnsCode row cs).length := by
        intro s hs
        rw [columnsCode_cons, hs, taggedCode, List.append_assoc,
          List.length_append, length_bigEndian]
        rfl
      constructor
      · rintro ⟨hfirst, hwin⟩
        -- every column reads the first value, so all have it
        have hsame : ∀ c' ∈ c :: cs, row.value c' = row.value c := by
          intro c' hc'
          have := (hfirst c' hc').symm.trans (hfirst c List.mem_cons_self)
          exact Except.ok.inj this
        refine ⟨fun x hx y hy => (hsame x hx).trans (hsame y hy).symm, ?_⟩
        intro x hx s hs
        rw [hsame x hx] at hs
        have hw := hwin (List.cons_ne_nil c cs)
        rw [columnsCode_cons, windowEnd_taggedCode, ← columnsCode_cons,
          hs] at hw
        have hw' : 1 + 12 ≤ (columnsCode row (c :: cs)).length := hw
        have hval := hfirst c List.mem_cons_self
        rw [hs] at hb hval
        rw [columnsCode_cons, hs, firstValue_string hb
          (by have := hlen s hs; omega)] at hval
        refine ⟨?_, by rw [← hstring s hs hsame]; exact hw'⟩
        -- a longer string is cut to nothing
        by_contra hlong
        rw [if_neg hlong] at hval
        have := ExprValue.string.inj (Except.ok.inj hval)
        rw [← this] at hlong
        exact hlong (Nat.zero_le 8)
      · rintro ⟨hsame, hshort⟩
        have hfirst : firstValue (columnsCode row (c :: cs))
              = .ok (row.value c)
            ∧ windowEnd (columnsCode row (c :: cs))
              ≤ (columnsCode row (c :: cs)).length := by
          -- the first value is read back: a short string, or a number
          by_cases hs : (row.value c).type = .string
          · obtain ⟨s, hv⟩ := ExprValue.exists_string hs
            obtain ⟨h8, h13⟩ := hshort c List.mem_cons_self s hv
            have hall := hstring s hv
              (fun x hx => hsame x hx c List.mem_cons_self)
            have hl := hlen s hv
            rw [columnsCode_cons, windowEnd_taggedCode, ← columnsCode_cons, hv,
              columnsCode_cons, hv, firstValue_string (by rw [hv] at hb; exact hb)
                (by omega), if_pos h8, ← hv, ← columnsCode_cons]
            refine ⟨rfl, ?_⟩
            rw [hall, hv]
            exact h13
          · obtain ⟨hv, hw⟩ := @firstValue_number _ (columnsCode row cs) ht hb hs
            rw [columnsCode_cons]
            refine ⟨hv, hw.trans ?_⟩
            rw [List.length_append]
            exact Nat.le_add_right _ _
        refine ⟨?_, fun _ => hfirst.2⟩
        intro x hx
        rw [hfirst.1, hsame x hx c List.mem_cons_self]

/-- Every call sets what is read first. -/
theorem firstValue_of_mapM {key : Bytes} {cols : List ColumnInfo}
    {calls : List (Nat × ExprValue)}
    (h : cols.mapM (decodeColumn key) = .ok calls) {call : Nat × ExprValue}
    (hcall : call ∈ calls) :
    firstValue key = .ok call.2 ∧ ∃ c ∈ cols, call.1 = c.id := by
  rw [Exec.mapM_eq_ok] at h
  induction h with
  | nil => cases hcall
  | @cons c _ _ _ hdec _ ih =>
      rcases List.mem_cons.mp hcall with rfl | hmem
      · obtain ⟨hid, hv⟩ := decodeColumn_eq_ok_iff.mp hdec
        exact ⟨hv, c, List.mem_cons_self, hid⟩
      · obtain ⟨hv, c', hc', hid⟩ := ih hmem
        exact ⟨hv, c', List.mem_cons_of_mem _ hc', hid⟩

/-- `DecodeIndex` undoes `EncodeIndex` just on keys of one short value with the
    index's columns in them, and the record is found when the row reads its
    primary key back. -/
theorem decodesBack_iff {objects : StringObjects} {table : TableInfo}
    {primary index : IndexInfo} {row : Row} {k e d v : Bytes}
    (hp : table.primary = some primary)
    (h : row.Has decodeTypes (index.columns ++ primary.columns))
    (hk : encodeIndex table index row [] = .ok (k, e))
    (hd : encodeRow table row [] [] = .ok (d, v)) :
    DecodesBack objects table primary index row k d
      ↔ OneShortValue row (keyColumns primary index)
        ∧ KeyCovers primary index ∧ KeyReadsBack objects primary row := by
  have hcols := h.mono (fun _ ht => ht) (fun c => mem_of_mem_keyColumns)
  have hprim := h.mono (fun _ ht => ht)
    (fun c => List.mem_append_right index.columns)
  rw [encodeIndex_eq hp hcols] at hk
  obtain ⟨rfl, -⟩ := Prod.mk.inj (Except.ok.inj hk)
  obtain rfl := encodeRow_key hp hprim hd
  have hrecord := @getItemKey_eq objects table primary _ _ _ hcols
    (fun c => primary_mem_keyColumns)
  have hback := @rereadKey_eq_iff objects table _ _
    (hprim.mono (fun _ => mem_codecTypes_of_mem_decodeTypes) (fun _ hc => hc))
  have hdecode := decodeIndex_eq hp index
    (columnsCode row (keyColumns primary index))
  rw [← firstValue_columnsCode_iff hcols, ← hback]
  constructor
  · rintro ⟨⟨calls, cells, hcalls, hset, hcells⟩, hin, calls', hcalls', hkey⟩
    -- what a column holds in the end was the first value of the key
    have hfound : ∀ c ∈ index.columns ++ primary.columns,
        firstValue (columnsCode row (keyColumns primary index))
            = .ok (row.value c)
          ∧ ∃ c' ∈ keyColumns primary index,
            c'.id % 2 ^ 32 = c.id % 2 ^ 32 := by
      intro c hc
      rcases setColValues_eq_some hset (hcells c hc) with
        hnone | ⟨call, hcall, hid, hval⟩
      · cases hnone
      · obtain ⟨hfirst, c', hc', hid'⟩ :=
          firstValue_of_mapM (hdecode.symm.trans hcalls) hcall
        exact ⟨hval ▸ hfirst, c', hc', hid' ▸ hid⟩
    have hall := fun c hc => (hfound c (mem_of_mem_keyColumns hc)).1
    have hvalues := hdecode.trans (mapM_decodeColumn_iff row.value |>.mpr hall)
    obtain rfl := Except.ok.inj (hvalues.symm.trans hcalls')
    exact ⟨⟨hall, hin⟩, fun c hc =>
      (hfound c (List.mem_append_left _ hc)).2,
      Except.ok.inj (hrecord.symm.trans hkey)⟩
  · rintro ⟨⟨hall, hin⟩, hcovers, hkey⟩
    have hvalues := hdecode.trans (mapM_decodeColumn_iff row.value |>.mpr hall)
    obtain ⟨cells, hset, hcells, -⟩ := setColValues_values hcols (fun _ => none)
    refine ⟨⟨_, cells, hvalues, hset, fun c hc => ?_⟩, hin, _, hvalues,
      hkey ▸ hrecord⟩
    rcases List.mem_append.mp hc with hc | hc
    · obtain ⟨c', hc', hid⟩ := hcovers c hc
      rw [← hid, hcells c' hc', row.value_congr hid]
    · exact hcells c (primary_mem_keyColumns hc)

/-- A key of one number is read back. -/
theorem decodesBack_iff_users :
    DecodesBack (.ofAddresses (fun _ => 64)) users usersById usersById
      (user 3 65) (columnsCode (user 3 65) [idColumn])
      (rowKey users usersById (user 3 65)) := by
  have hnumber : ∀ c ∈ usersById.columns, ∀ s,
      (user 3 65).value c ≠ .string s := by
    intro c hc s hs
    obtain rfl := List.mem_singleton.mp hc
    cases hs
  refine (@decodesBack_iff (.ofAddresses (fun _ => 64)) users usersById
    usersById (user 3 65) _ [] _ (columnsCode (user 3 65) users.columnList)
    rfl (by decide) rfl rfl).mpr ⟨⟨?_, ?_⟩, by decide, ?_⟩
  · decide
  · exact fun c hc s hs => absurd hs (hnumber c hc s)
  · exact fun c hc s hs => absurd hs (hnumber c hc s)

/-- In a key of a name and an id the id is read as the name. -/
theorem second_column_is_not_decoded :
    ¬ DecodesBack (.ofAddresses (fun _ => 64)) users usersById usersByName
      (user 3 65) (columnsCode (user 3 65) [nameColumn, idColumn])
      (rowKey users usersById (user 3 65)) := by
  intro h
  have hcalls : decodeIndex users usersByName
      (columnsCode (user 3 65) [nameColumn, idColumn])
      = .ok [(1, .string [65]), (0, .string [65])] := by decide
  obtain ⟨calls, cells, hcalls', hset, hcells⟩ := h.values
  obtain rfl := Except.ok.inj (hcalls.symm.trans hcalls')
  obtain rfl := Except.ok.inj hset
  exact absurd (hcells idColumn (by decide)) (by decide)

end AmDb.Codec

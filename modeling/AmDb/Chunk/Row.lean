import AmDb.Expression.ExprValue
import AmDb.Foundation.ByteMemory
import Mathlib.Logic.Function.Basic

/-! # Rows and chunks

    `row.cc`, `row_description.h`, `chunk.cc` and `chunk_util.cc` of
    `sql/chunk`.  A row is read through `GetColValue`; the model keeps what it
    returns for each column, not the bytes of the tuple. -/

namespace AmDb.Chunk

open AmDb.Expr Schema

structure ColumnDescriptor where
  type  : ExprValueType
  colId : Nat
  deriving DecidableEq

/-- `RowDescriptor::cols`; a column is looked up by its position. -/
abbrev RowDescriptor := List ColumnDescriptor

/-- `ToRowDesc`. -/
def toRowDesc (table : TableInfo) : RowDescriptor :=
  table.columnList.map (fun c => ⟨toExprType c.type.type, c.id⟩)

/-- `tuple` is null before the first `SetColValue`.  A column is read as a
    value of its descriptor's type, a string with a size of 32 bits. -/
structure Row where
  desc    : RowDescriptor
  tuple   : Option (List ExprValue)
  typed   : ∀ vs ∈ tuple,
    vs.map ExprValue.type = desc.map ColumnDescriptor.type
  bounded : ∀ vs ∈ tuple, ∀ v ∈ vs, v.Bounded

namespace Row

/-- `GetColValue`: `col_id` is a `uint32_t`, `cols.at` checks it. -/
def getColValue (row : Row) (colId : Nat) : Exec ExprValue :=
  match row.tuple with
  | none => .ok .null
  | some vs =>
      match vs[colId % 2 ^ 32]? with
      | none => .error .assertion
      | some v => .ok v

/-- The value of a column, where there is one. -/
def value (row : Row) (c : ColumnInfo) : ExprValue :=
  (row.getColValue c.id).toOption.getD .null

/-- The row of these values, in a layout of just their columns. -/
def ofValues (vs : List ExprValue) (h : ∀ v ∈ vs, v.Bounded) : Row where
  desc := vs.zipIdx.map (fun e => ⟨e.1.type, e.2⟩)
  tuple := some vs
  typed := by
    intro ws hws
    obtain rfl := Option.some.inj hws
    rw [List.map_map]
    show vs.map ExprValue.type = vs.zipIdx.map (ExprValue.type ∘ Prod.fst)
    rw [← List.map_map, List.zipIdx_map_fst]
  bounded := by
    intro ws hws
    obtain rfl := Option.some.inj hws
    exact h

/-- `GetColValue` returns on these columns, with values of these types. -/
def Has (row : Row) (types : List ExprValueType) (cols : List ColumnInfo) :
    Prop :=
  row.tuple.isSome ∧ ∀ c ∈ cols,
    ∃ d, row.desc[c.id % 2 ^ 32]? = some d ∧ d.type ∈ types

instance (row : Row) (types : List ExprValueType) (cols : List ColumnInfo) :
    Decidable (row.Has types cols) :=
  haveI : ∀ c : ColumnInfo,
      Decidable (∃ d, row.desc[c.id % 2 ^ 32]? = some d ∧ d.type ∈ types) :=
    fun c => match h : row.desc[c.id % 2 ^ 32]? with
      | none => isFalse (by simp)
      | some d => decidable_of_iff (d.type ∈ types) (by simp)
  inferInstanceAs (Decidable (_ ∧ _))

section Has

variable {row : Row} {types : List ExprValueType} {cols : List ColumnInfo}

/-- What is read from a column: its value, of the descriptor's type. -/
theorem Has.spec (h : row.Has types cols) {c : ColumnInfo} (hc : c ∈ cols) :
    row.getColValue c.id = .ok (row.value c)
      ∧ (∃ d, row.desc[c.id % 2 ^ 32]? = some d
          ∧ (row.value c).type = d.type)
      ∧ (row.value c).type ∈ types ∧ (row.value c).Bounded := by
  obtain ⟨hsome, hcols⟩ := h
  obtain ⟨vs, hvs⟩ := Option.isSome_iff_exists.mp hsome
  obtain ⟨d, hd, ht⟩ := hcols c hc
  have htyped := congrArg (·[c.id % 2 ^ 32]?) (row.typed vs hvs)
  simp only [List.getElem?_map, hd, Option.map_some] at htyped
  obtain ⟨v, hv, hvt⟩ := Option.map_eq_some_iff.mp htyped
  have hget : row.getColValue c.id = .ok v := by
    rw [getColValue, hvs]
    simp only [hv]
  have hval : row.value c = v := by
    rw [value, hget]
    rfl
  rw [hval]
  refine ⟨hget, ⟨d, hd, hvt⟩, hvt ▸ ht, ?_⟩
  exact row.bounded vs hvs v (List.mem_of_getElem? hv)

/-- Fewer columns and more types. -/
theorem Has.mono {types' : List ExprValueType} {cols' : List ColumnInfo}
    (h : row.Has types cols) (ht : ∀ t ∈ types, t ∈ types')
    (hc : ∀ c ∈ cols', c ∈ cols) : row.Has types' cols' := by
  refine ⟨h.1, ?_⟩
  intro c hmem
  obtain ⟨d, hd, hdt⟩ := h.2 c (hc c hmem)
  exact ⟨d, hd, ht _ hdt⟩

/-- Columns of the same ids. -/
theorem Has.of_ids {cols' : List ColumnInfo} (h : row.Has types cols)
    (hc : ∀ c ∈ cols', ∃ d ∈ cols, d.id = c.id) : row.Has types cols' := by
  refine ⟨h.1, ?_⟩
  intro c hmem
  obtain ⟨d, hd, hid⟩ := hc c hmem
  rw [← hid]
  exact h.2 d hd

/-- Rows of one layout read values of one type from a column. -/
theorem Has.type_eq {row' : Row} {types' : List ExprValueType}
    (h : row.Has types cols) (h' : row'.Has types' cols)
    (hdesc : row.desc = row'.desc) {c : ColumnInfo} (hc : c ∈ cols) :
    (row.value c).type = (row'.value c).type := by
  obtain ⟨-, ⟨d, hd, ht⟩, -⟩ := h.spec hc
  obtain ⟨-, ⟨d', hd', ht'⟩, -⟩ := h'.spec hc
  rw [hdesc, hd'] at hd
  rw [ht, ht', Option.some.inj hd]

end Has

/-- A column's value depends on its position only. -/
theorem value_congr (row : Row) {c c' : ColumnInfo}
    (h : c.id % 2 ^ 32 = c'.id % 2 ^ 32) : row.value c = row.value c' := by
  rw [value, value, getColValue, getColValue, h]

end Row

/-! ## Filling a row -/

/-- What the columns of a row hold so far. -/
abbrev Cells := Nat → Option ExprValue

/-- `SetColValue`: a value of another type than the column's is refused. -/
def setColValue (desc : RowDescriptor) (cells : Cells) (colId : Nat)
    (v : ExprValue) : Exec (Status × Cells) :=
  match desc[colId % 2 ^ 32]? with
  | none => .error .assertion
  | some d =>
      if v.type ≠ d.type then .ok (.columnDescError, cells)
      else .ok (.ok, Function.update cells (colId % 2 ^ 32) (some v))

/-- A sequence of calls, their statuses ignored. -/
def setColValues (desc : RowDescriptor) :
    List (Nat × ExprValue) → Cells → Exec Cells
  | [], cells => .ok cells
  | call :: calls, cells => do
      let (_, cells) ← setColValue desc cells call.1 call.2
      setColValues desc calls cells

/-- Setting the values of a row in another row of its layout. -/
theorem setColValues_values {row : Row} {types : List ExprValueType}
    {cols : List ColumnInfo} (h : row.Has types cols) (cells : Cells) :
    ∃ cells', setColValues row.desc (cols.map (fun c => (c.id, row.value c)))
        cells = .ok cells'
      ∧ (∀ c ∈ cols, cells' (c.id % 2 ^ 32) = some (row.value c))
      ∧ ∀ p, (∀ c ∈ cols, c.id % 2 ^ 32 ≠ p) → cells' p = cells p := by
  induction cols generalizing cells with
  | nil => exact ⟨cells, rfl, by simp, fun _ _ => rfl⟩
  | cons c cs ih =>
      obtain ⟨-, ⟨d, hd, ht⟩, -⟩ := h.spec List.mem_cons_self
      obtain ⟨cells', hset, hin, hout⟩ := ih
        (h.mono (fun _ ht => ht) (fun _ hc => List.mem_cons_of_mem _ hc))
        (Function.update cells (c.id % 2 ^ 32) (some (row.value c)))
      refine ⟨cells', ?_, ?_, ?_⟩
      · have hcall : setColValue row.desc cells c.id (row.value c) = .ok (.ok,
            Function.update cells (c.id % 2 ^ 32) (some (row.value c))) := by
          simp only [setColValue, hd, ht, ne_eq, not_true_eq_false, if_false]
        rw [List.map_cons, setColValues, hcall]
        exact hset
      · intro c' hc'
        by_cases hpos : ∃ c'' ∈ cs, c''.id % 2 ^ 32 = c'.id % 2 ^ 32
        · obtain ⟨c'', hc'', heq⟩ := hpos
          rw [← heq, hin c'' hc'', row.value_congr heq]
        · rcases List.mem_cons.mp hc' with rfl | hmem
          · rw [hout _ (fun x hx heq => hpos ⟨x, hx, heq⟩),
              Function.update_self]
          · exact absurd ⟨c', hmem, rfl⟩ hpos
      · intro p hp
        rw [hout p (fun x hx => hp x (List.mem_cons_of_mem _ hx)),
          Function.update_of_ne (hp c List.mem_cons_self).symm]

/-- What is in a cell was there, or was set by a call. -/
theorem setColValues_eq_some {desc : RowDescriptor}
    {calls : List (Nat × ExprValue)} {cells cells' : Cells} {p : Nat}
    {v : ExprValue} (h : setColValues desc calls cells = .ok cells')
    (hv : cells' p = some v) :
    cells p = some v ∨ ∃ call ∈ calls, call.1 % 2 ^ 32 = p ∧ call.2 = v := by
  induction calls generalizing cells with
  | nil =>
      obtain rfl := Except.ok.inj h
      exact Or.inl hv
  | cons call calls ih =>
      obtain ⟨⟨status, cells₁⟩, hcall, hrest⟩ := Exec.bind_eq_ok.mp h
      rcases ih hrest with hold | ⟨call', hmem, hset⟩
      · rw [setColValue] at hcall
        split at hcall
        · cases hcall
        · split_ifs at hcall with ht
          · cases hcall
            exact Or.inl hold
          · cases hcall
            by_cases hp : p = call.1 % 2 ^ 32
            · subst hp
              rw [Function.update_self] at hold
              exact Or.inr ⟨call, List.mem_cons_self, rfl,
                Option.some.inj hold⟩
            · rw [Function.update_of_ne hp] at hold
              exact Or.inl hold
      · exact Or.inr ⟨call', List.mem_cons_of_mem _ hmem, hset⟩

/-- What the cell of a string reads as, by column and string.  It holds the
    address of the string's object, and `GetColValue` takes as many bytes from
    there as the string has: those of the object, and of what lies behind it. -/
structure StringObjects where
  bytes        : Nat → Bytes → Bytes
  length_bytes : ∀ i s, (bytes i s).length = s.length

/-- Objects at these addresses: a pointer to the characters, their number, and
    the characters. -/
def StringObjects.ofAddresses (addr : Nat → Nat) : StringObjects where
  bytes i s := (ByteMemory.littleEndian 8 (addr i + 16)
    ++ ByteMemory.littleEndian 8 s.length ++ s).take s.length
  length_bytes i s := by
    rw [List.length_take, List.length_append]
    omega

/-- The value read from the cell of a value. -/
def StringObjects.reread (objects : StringObjects) (i : Nat) :
    ExprValue → ExprValue
  | .string s => .string (objects.bytes i s)
  | v => v

@[simp] theorem StringObjects.reread_type (objects : StringObjects) (i : Nat)
    (v : ExprValue) : (objects.reread i v).type = v.type := by
  cases v <;> rfl

/-- A value that is read again is still one the code can hold. -/
theorem StringObjects.reread_bounded (objects : StringObjects) (i : Nat)
    {v : ExprValue} (h : v.Bounded) : (objects.reread i v).Bounded := by
  cases v with
  | string s =>
      show (objects.bytes i s).length < 2 ^ 32
      rw [objects.length_bytes]
      exact h
  | _ => exact h

/-- What the bytes of a new tuple read as in a layout, before anything is set
    in it, and what the strings set in it read as. -/
structure Memory (desc : RowDescriptor) where
  values  : List ExprValue
  typed   : values.map ExprValue.type = desc.map ColumnDescriptor.type
  bounded : ∀ v ∈ values, v.Bounded
  objects : StringObjects

/-- What a column reads as after some were set.  A cell holds a value of its
    column's type, and a string's length is kept in 32 bits. -/
def readCell (objects : StringObjects) (cells : Cells)
    (e : ExprValue × Nat) : ExprValue :=
  match cells e.2 with
  | none => e.1
  | some v =>
      if v.type = e.1.type ∧ v.Bounded then objects.reread e.2 v else e.1

section ReadCell

variable (objects : StringObjects) (cells : Cells)

/-- A cell that is read keeps its type. -/
theorem readCell_type (e : ExprValue × Nat) :
    (readCell objects cells e).type = e.1.type := by
  rw [readCell]
  split
  · rfl
  · split_ifs with h
    · rw [objects.reread_type, h.1]
    · rfl

/-- A cell that is read holds a value in the bounds of its type. -/
theorem readCell_bounded {e : ExprValue × Nat} (h : e.1.Bounded) :
    (readCell objects cells e).Bounded := by
  rw [readCell]
  split
  · exact h
  · split_ifs with hv
    · exact objects.reread_bounded e.2 hv.2
    · exact h

end ReadCell

namespace Row

/-- A row in which nothing is set. -/
def blank (desc : RowDescriptor) : Row where
  desc
  tuple := none
  typed := by simp
  bounded := by simp

/-- A row in which these cells are set. -/
def fill {desc : RowDescriptor} (memory : Memory desc) (cells : Cells) :
    Row where
  desc
  tuple := some
    (memory.values.zipIdx.map (readCell memory.objects cells))
  typed := by
    intro vs hvs
    obtain rfl := Option.some.inj hvs
    rw [List.map_map, ← memory.typed, ← List.zipIdx_map_fst 0 memory.values,
      List.map_map, List.zipIdx_map_fst]
    exact List.map_congr_left (fun e _ => readCell_type _ cells e)
  bounded := by
    intro vs hvs v hv
    obtain rfl := Option.some.inj hvs
    obtain ⟨e, he, rfl⟩ := List.mem_map.mp hv
    exact readCell_bounded _ cells
      (memory.bounded e.1 (List.fst_mem_of_mem_zipIdx he))

end Row

/-! ## Chunks -/

/-- `Chunk`: the rows it points to and the fields beside them. -/
structure Chunk where
  select      : List Row := []
  cursor      : Nat := 0
  rowDesc     : Option RowDescriptor := none
  curCapacity : Nat := 0
  maxCapacity : Nat := 1024

/-- Move assignment: the target, which keeps its descriptor, and the source,
    whose vector is left empty. -/
def Chunk.moveAssign (target source : Chunk) : Chunk × Chunk :=
  ({ target with
      select := source.select, cursor := source.cursor,
      curCapacity := source.curCapacity, maxCapacity := source.maxCapacity },
    { source with select := [] })

end AmDb.Chunk

import AmDb.Chunk.Row
import AmDb.Foundation.ByteMemory
import Mathlib.Algebra.Group.Action.Defs
import Mathlib.Algebra.Order.BigOperators.Group.List

/-! # Rows in memory

    `row_description.cc`, `row.cc` and the two functions of `expr_value.cc` that
    move a value to and from a tuple.  `byte_size_` has 64 bits and the offset
    of a column 32, so the columns of a long row wrap around. -/

namespace AmDb.Chunk

open AmDb.Expr ByteMemory

/-! ## Layout -/

/-- What `InitAllColDesc` leaves in a column's descriptor. -/
structure Slot where
  type        : ExprValueType
  bytesCount  : Nat
  bytesOffset : Nat
  deriving DecidableEq

def Slot.span (s : Slot) : Span := ⟨s.bytesOffset, s.bytesCount⟩

/-- A column where `byte_size_` has come to some value. -/
def Slot.at (c : ColumnDescriptor) (byteSize : Nat) : Slot :=
  ⟨c.type, typeSize c.type, byteSize % 2 ^ 32⟩

/-- The descriptors, and `byte_size_`. -/
structure Layout where
  slots    : List Slot
  byteSize : Nat
  deriving DecidableEq

/-- The loop over the columns. -/
def initFrom : Nat → RowDescriptor → Layout
  | byteSize, [] => ⟨[], byteSize⟩
  | byteSize, c :: cs =>
      let slot := Slot.at c byteSize
      let rest := initFrom (u64 (byteSize + slot.bytesCount)) cs
      ⟨slot :: rest.slots, rest.byteSize⟩

/-- `InitAllColDesc`: a counter of 32 bits never reaches `2^32` columns. -/
def initAllColDesc (desc : RowDescriptor) : Exec Layout :=
  if desc.length < 2 ^ 32 then .ok (initFrom 0 desc) else .error .fuel

/-- The sizes of the columns. -/
def columnSizes (desc : RowDescriptor) : List Nat :=
  desc.map (fun c => typeSize c.type)

/-- The offset of the last column has 32 bits. -/
def Fits (desc : RowDescriptor) : Prop :=
  desc.length < 2 ^ 32 ∧ (columnSizes desc).dropLast.sum < 2 ^ 32

instance (desc : RowDescriptor) : Decidable (Fits desc) :=
  inferInstanceAs (Decidable (_ ∧ _))

theorem typeSize_pos (t : ExprValueType) : 0 < typeSize t := by
  cases t <;> decide

theorem typeSize_le (t : ExprValueType) : typeSize t ≤ 255 := by
  cases t <;> decide

/-- A row has at most 255 bytes for each column. -/
theorem sum_columnSizes_le (desc : RowDescriptor) :
    (columnSizes desc).sum ≤ desc.length * 255 := by
  have h := List.sum_le_card_nsmul (columnSizes desc) 255 ?_
  · rwa [columnSizes, List.length_map] at h
  · intro n hn
    obtain ⟨c, -, rfl⟩ := List.mem_map.mp hn
    exact typeSize_le c.type

/-- The loop lays the columns out one after another, offsets in 32 bits. -/
theorem initFrom_eq {desc : RowDescriptor} {start : Nat}
    (h : start + (columnSizes desc).sum < 2 ^ 64) :
    (∀ i : Nat, (initFrom start desc).slots[i]? = desc[i]?.map
        (fun c => Slot.at c (start + offset (columnSizes desc) i)))
      ∧ (initFrom start desc).byteSize = start + (columnSizes desc).sum := by
  induction desc generalizing start with
  | nil => exact ⟨fun i => rfl, rfl⟩
  | cons c cs ih =>
      have hsum : (columnSizes (c :: cs)).sum
          = typeSize c.type + (columnSizes cs).sum := List.sum_cons
      rw [hsum] at h
      obtain ⟨hslots, hsize⟩ :=
        @ih (start + typeSize c.type) (by omega)
      have hstart : u64 (start + (Slot.at c start).bytesCount)
          = start + typeSize c.type :=
        u64_of_lt (show start + typeSize c.type < 2 ^ 64 by omega)
      rw [initFrom, hstart]
      refine ⟨?_, by rw [hsum, hsize, Nat.add_assoc]⟩
      intro i
      cases i with
      | zero => rfl
      | succ i =>
          rw [List.getElem?_cons_succ, List.getElem?_cons_succ, hslots]
          simp only [columnSizes, List.map_cons, offset_cons_succ,
            Nat.add_assoc]

section Layout

variable {desc : RowDescriptor} {layout : Layout} {i j : Nat} {s s' : Slot}

/-- What `InitAllColDesc` makes of a descriptor: every slot at its offset. -/
theorem initAllColDesc_eq (h : initAllColDesc desc = .ok layout) :
    desc.length < 2 ^ 32
      ∧ (∀ i : Nat, layout.slots[i]? = desc[i]?.map
        (fun c => Slot.at c (offset (columnSizes desc) i)))
      ∧ layout.byteSize = (columnSizes desc).sum := by
  rw [initAllColDesc] at h
  split_ifs at h with hlen
  obtain rfl := Except.ok.inj h
  have hsum := sum_columnSizes_le desc
  obtain ⟨hslots, hsize⟩ := @initFrom_eq desc 0 (by omega)
  simp only [Nat.zero_add] at hslots hsize
  exact ⟨hlen, hslots, hsize⟩

theorem getElem?_columnSizes (desc : RowDescriptor) (i : Nat) :
    (columnSizes desc)[i]? = desc[i]?.map (fun c => typeSize c.type) :=
  List.getElem?_map

/-- One slot for each column. -/
theorem length_slots (h : initAllColDesc desc = .ok layout) :
    layout.slots.length = desc.length := by
  obtain ⟨-, hslots, -⟩ := initAllColDesc_eq h
  refine Nat.le_antisymm ?_ ?_
  · rw [← List.getElem?_eq_none_iff, hslots, List.getElem?_eq_none le_rfl]
    rfl
  · have hnone := hslots layout.slots.length
    rw [List.getElem?_eq_none le_rfl, eq_comm, Option.map_eq_none_iff] at hnone
    exact List.getElem?_eq_none_iff.mp hnone

/-- A slot, by its column. -/
theorem slot_eq (h : initAllColDesc desc = .ok layout)
    (hs : layout.slots[i]? = some s) :
    (columnSizes desc)[i]? = some s.bytesCount
      ∧ s.bytesOffset = offset (columnSizes desc) i % 2 ^ 32
      ∧ s.bytesCount = typeSize s.type ∧ i < desc.length := by
  obtain ⟨-, hslots, -⟩ := initAllColDesc_eq h
  rw [hslots] at hs
  obtain ⟨c, hc, rfl⟩ := Option.map_eq_some_iff.mp hs
  rw [getElem?_columnSizes, hc]
  exact ⟨rfl, rfl, rfl, (List.getElem?_eq_some_iff.mp hc).1⟩

/-- Every offset that is used has 32 bits. -/
theorem Fits.offset_lt (h : Fits desc) (hi : i < desc.length) :
    offset (columnSizes desc) i < 2 ^ 32 := by
  have hlast : (columnSizes desc).dropLast.sum
      = offset (columnSizes desc) (desc.length - 1) := by
    rw [List.dropLast_eq_take, columnSizes, List.length_map]
    rfl
  exact lt_of_le_of_lt (offset_mono (by omega)) (hlast ▸ h.2)

/-- The slots have the sizes of their types and lie in the tuple. -/
structure Layout.Inside (layout : Layout) : Prop where
  counts : ∀ (i : Nat) (s : Slot), layout.slots[i]? = some s →
    s.bytesCount = typeSize s.type
  inside : ∀ (i : Nat) (s : Slot), layout.slots[i]? = some s →
    s.bytesOffset + s.bytesCount ≤ layout.byteSize

/-- They are apart, too. -/
structure Layout.Sound (layout : Layout) : Prop extends layout.Inside where
  apart  : ∀ (i j : Nat) (s s' : Slot), i ≠ j → layout.slots[i]? = some s →
    layout.slots[j]? = some s' → s.span.Apart s'.span

/-- An offset that wraps around does not leave the tuple. -/
theorem inside_of_init (h : initAllColDesc desc = .ok layout) :
    layout.Inside := by
  obtain ⟨-, -, hsize⟩ := initAllColDesc_eq h
  refine ⟨fun i s hs => (slot_eq h hs).2.2.1, ?_⟩
  intro i s hs
  obtain ⟨hcount, hoff, -, -⟩ := slot_eq h hs
  rw [hoff, hsize]
  have hle := Nat.mod_le (offset (columnSizes desc) i) (2 ^ 32)
  exact (Nat.add_le_add_right hle _).trans (offset_add_le_sum hcount)

/-- If no offset wraps around, the slots are apart and inside the row. -/
theorem sound_of_fits (hf : Fits desc) (h : initAllColDesc desc = .ok layout) :
    layout.Sound := by
  have hslot : ∀ {i : Nat} {s : Slot}, layout.slots[i]? = some s →
      (columnSizes desc)[i]? = some s.bytesCount
        ∧ s.bytesOffset = offset (columnSizes desc) i := by
    intro i s hs
    obtain ⟨hcount, hoff, -, hi⟩ := slot_eq h hs
    rw [Nat.mod_eq_of_lt (hf.offset_lt hi)] at hoff
    exact ⟨hcount, hoff⟩
  refine ⟨inside_of_init h, ?_⟩
  intro i j s s' hij hs hs'
  obtain ⟨hcount, hoff⟩ := hslot hs
  obtain ⟨hcount', hoff'⟩ := hslot hs'
  rcases Nat.lt_or_gt_of_ne hij with hlt | hgt
  · refine Or.inl ?_
    show s.bytesOffset + s.bytesCount ≤ s'.bytesOffset
    rw [hoff, hoff']
    exact offset_add_le hcount hlt
  · refine Or.inr ?_
    show s'.bytesOffset + s'.bytesCount ≤ s.bytesOffset
    rw [hoff, hoff']
    exact offset_add_le hcount' hgt

/-- The first offset with more than 32 bits lies in the slot of a column before
    it. -/
theorem fits_of_apart (h : initAllColDesc desc = .ok layout)
    (hapart : ∀ (i j : Nat) (s s' : Slot), i ≠ j →
      layout.slots[i]? = some s → layout.slots[j]? = some s' →
      s.span.Apart s'.span) : Fits desc := by
  obtain ⟨hlen, hslots, -⟩ := initAllColDesc_eq h
  refine ⟨hlen, ?_⟩
  by_contra hbig
  have hlast : (columnSizes desc).dropLast.sum
      = offset (columnSizes desc) (desc.length - 1) := by
    rw [List.dropLast_eq_take, columnSizes, List.length_map]
    rfl
  have hex : ∃ i, 2 ^ 32 ≤ offset (columnSizes desc) i :=
    ⟨desc.length - 1, by omega⟩
  let i := Nat.find hex
  have hi : 2 ^ 32 ≤ offset (columnSizes desc) i := Nat.find_spec hex
  have hle : i ≤ desc.length - 1 := Nat.find_min' hex (by omega)
  have hpos : 0 < i := by
    rcases Nat.eq_zero_or_pos i with hzero | hpos
    · rw [hzero, offset_zero] at hi
      omega
    · exact hpos
  obtain ⟨j, hj, n, hn, hlo, hhi⟩ := @exists_field
    (columnSizes desc) i (offset (columnSizes desc) i % 2 ^ 32) (by omega)
  have hsmall : offset (columnSizes desc) j < 2 ^ 32 :=
    Nat.lt_of_not_le (Nat.find_min hex hj)
  -- both columns are there
  have hci : desc[i]? = some desc[i] := List.getElem?_eq_getElem (by omega)
  have hcj : desc[j]? = some desc[j] := List.getElem?_eq_getElem (by omega)
  have hsi := hslots i
  have hsj := hslots j
  rw [hci, Option.map_some] at hsi
  rw [hcj, Option.map_some] at hsj
  rw [getElem?_columnSizes, hcj] at hn
  have hcount : typeSize desc[j].type = n := Option.some.inj hn
  rw [← hcount] at hhi
  refine Span.not_apart_of_mem (x := offset (columnSizes desc) i % 2 ^ 32)
    ?_ ?_ (hapart i j _ _ (by omega) hsi hsj)
  · exact ⟨Nat.le_refl _, Nat.lt_add_of_pos_right (typeSize_pos _)⟩
  · simp only [Slot.span, Slot.at, Span.stop, Nat.mod_eq_of_lt hsmall]
    exact ⟨hlo, hhi⟩

end Layout

/-! ## Cells -/

/-- Nothing there: the run ends. -/
def orFault {α : Type} (e : Fault) : Option α → Exec α
  | none => .error e
  | some a => .ok a

@[simp] theorem orFault_some {α : Type} (e : Fault) (a : α) :
    orFault e (some a) = .ok a := rfl

@[simp] theorem orFault_eq_ok {α : Type} {e : Fault} {o : Option α} {a : α} :
    orFault e o = .ok a ↔ o = some a := by
  cases o <;> simp [orFault]

/-- `ToData`: a string is copied to a new object, whose address is stored. -/
def toData (alloc : Allocator) (value : ExprValue) (colPtr : Nat)
    (heap : Heap) : Exec Heap :=
  match value with
  | .int8 u => orFault .undefined (heap.store colPtr (littleEndian 1 u.toNat))
  | .uint8 u => orFault .undefined (heap.store colPtr (littleEndian 1 u.toNat))
  | .int32 u => orFault .undefined (heap.store colPtr (littleEndian 4 u.toNat))
  | .uint32 u => orFault .undefined (heap.store colPtr (littleEndian 4 u.toNat))
  | .int64 u => orFault .undefined (heap.store colPtr (littleEndian 8 u.toNat))
  | .uint64 u => orFault .undefined (heap.store colPtr (littleEndian 8 u.toNat))
  | .string s => do
      let (str, heap) ← orFault .assertion (alloc.newString s heap)
      let heap ← orFault .undefined (heap.store colPtr (littleEndian 8 str))
      orFault .undefined (heap.store (colPtr + 8) (littleEndian 4 s.length))
  | _ => .ok heap

/-- `ToExprValue`, for a value of this type: a string is read at the address. -/
def toExprValue (heap : Heap) (colPtr : Nat) :
    ExprValueType → Exec ExprValue
  | .int8 => do
      let bs ← orFault .undefined (heap.load colPtr 1)
      .ok (.int8 (.ofNat 8 (ofLittleEndian bs)))
  | .uint8 => do
      let bs ← orFault .undefined (heap.load colPtr 1)
      .ok (.uint8 (.ofNat 8 (ofLittleEndian bs)))
  | .int32 => do
      let bs ← orFault .undefined (heap.load colPtr 4)
      .ok (.int32 (.ofNat 32 (ofLittleEndian bs)))
  | .uint32 => do
      let bs ← orFault .undefined (heap.load colPtr 4)
      .ok (.uint32 (.ofNat 32 (ofLittleEndian bs)))
  | .int64 => do
      let bs ← orFault .undefined (heap.load colPtr 8)
      .ok (.int64 (.ofNat 64 (ofLittleEndian bs)))
  | .uint64 => do
      let bs ← orFault .undefined (heap.load colPtr 8)
      .ok (.uint64 (.ofNat 64 (ofLittleEndian bs)))
  | .string => do
      let ptr ← orFault .undefined (heap.load colPtr 8)
      let size ← orFault .undefined (heap.load (colPtr + 8) 4)
      let s ← orFault .undefined
        (heap.load (ofLittleEndian ptr) (ofLittleEndian size))
      .ok (.string s)
  | t => .ok (.newEmpty t)

/-- The bytes of a cell, where a string has its object at `str`. -/
def cellBytes (str : Nat) : ExprValue → Bytes
  | .int8 u => littleEndian 1 u.toNat
  | .uint8 u => littleEndian 1 u.toNat
  | .int32 u => littleEndian 4 u.toNat
  | .uint32 u => littleEndian 4 u.toNat
  | .int64 u => littleEndian 8 u.toNat
  | .uint64 u => littleEndian 8 u.toNat
  | .string s => littleEndian 8 str ++ littleEndian 4 s.length
  | _ => []

theorem ofNat_word {w n : Nat} (u : BitVec w) (h : 256 ^ n = 2 ^ w) :
    BitVec.ofNat w (ofLittleEndian (littleEndian n u.toNat)) = u := by
  rw [ofLittleEndian_littleEndian, h, Nat.mod_eq_of_lt u.isLt,
    BitVec.ofNat_toNat, BitVec.setWidth_eq]

section ToData

variable {alloc : Allocator} {h h' : Heap} {v : ExprValue} {colPtr : Nat}

theorem length_cellBytes_le (str : Nat) (v : ExprValue) :
    (cellBytes str v).length ≤ typeSize v.type := by
  cases v <;> simp [cellBytes, typeSize, ExprValue.type]

theorem length_cellBytes (str : Nat) (hv : v.type ∈ codecTypes) :
    (cellBytes str v).length = typeSize v.type := by
  cases v <;> simp [codecTypes, ExprValue.type] at hv <;>
    simp [cellBytes, typeSize, ExprValue.type]

/-- What `ToData` does: a string object may be made, then the cell is
    written. -/
theorem toData_eq_ok (h₁ : toData alloc v colPtr h = .ok h') :
    ∃ str mid, h.Grows mid nowhere
      ∧ h'.blocks = mid.blocks
      ∧ h'.bytes = write mid.bytes colPtr (cellBytes str v)
      ∧ ∀ s, v = .string s → alloc.newString s h = some (str, mid) := by
  have hstore : ∀ {bs : Bytes}, orFault .undefined (h.store colPtr bs) = .ok h' →
      h'.blocks = h.blocks ∧ h'.bytes = write h.bytes colPtr bs := by
    intro bs hs
    obtain ⟨-, rfl⟩ := Heap.store_eq_some_iff.mp (orFault_eq_ok.mp hs)
    exact ⟨rfl, rfl⟩
  cases v with
  | string s =>
      obtain ⟨⟨str, mid⟩, hnew, h₁⟩ := Exec.bind_eq_ok.mp h₁
      obtain ⟨h₂, hptr, hsize⟩ := Exec.bind_eq_ok.mp h₁
      rw [orFault_eq_ok] at hnew hptr hsize
      obtain ⟨-, rfl⟩ := Heap.store_eq_some_iff.mp hptr
      obtain ⟨-, rfl⟩ := Heap.store_eq_some_iff.mp hsize
      refine ⟨str, mid, (Allocator.newString_eq_some hnew).2.2, rfl, ?_, ?_⟩
      · have happ := write_append mid.bytes colPtr (littleEndian 8 str)
          (littleEndian 4 s.length)
        rwa [length_littleEndian] at happ
      · intro s' hs'
        obtain rfl := ExprValue.string.inj hs'
        exact hnew
  | null | minInf | maxInf | invalid | bool =>
      obtain rfl := Except.ok.inj h₁
      refine ⟨0, h, Heap.Grows.refl h _, rfl, ?_, by simp⟩
      funext x
      refine (write_outside ?_).symm
      exact Nat.lt_or_ge x _
  | int8 | uint8 | int32 | uint32 | int64 | uint64 =>
      obtain ⟨hblocks, hbytes⟩ := hstore h₁
      exact ⟨0, h, Heap.Grows.refl h _, hblocks, hbytes, by simp⟩

/-- `ToData` writes in the cell only. -/
theorem toData_grows (h₁ : toData alloc v colPtr h = .ok h') :
    h.Grows h' (fun x => colPtr ≤ x ∧ x < colPtr + typeSize v.type) := by
  obtain ⟨str, mid, hmid, hblocks, hbytes, -⟩ := toData_eq_ok h₁
  have hlen := length_cellBytes_le str v
  refine ⟨fun s hs => hblocks ▸ hmid.blocks s hs, ?_⟩
  intro s hs x hx hx' hout
  rw [hbytes, write_outside (by omega)]
  exact hmid.bytes s hs x hx hx' id

end ToData

/-! ## Rows -/

/-- A `Row`: the addresses in `data_`, null before a tuple is allocated, and the
    memory they point into. -/
structure TupleRow where
  data : List (Option Nat)
  heap : Heap

/-- A call of `SetColValue`. -/
structure SetCall where
  rowId : Nat
  colId : Nat
  value : ExprValue

namespace TupleRow

/-- `Row::Row`: there are as many tuples as columns. -/
def new (alloc : Allocator) (layout : Layout) (heap : Heap) :
    Exec TupleRow := do
  let rowSize := layout.slots.length * 8
  let (_, heap) ← orFault .assertion (alloc.allocate heap rowSize)
  .ok ⟨List.replicate layout.slots.length none, heap⟩

/-- `tupleAt`, where a null address is replaced. -/
def tupleFor (alloc : Allocator) (layout : Layout) (row : TupleRow)
    (rowId : Nat) : Exec (Nat × TupleRow) :=
  match row.data[rowId % 2 ^ 32]? with
  | none => .error .undefined
  | some (some tuple) => .ok (tuple, row)
  | some none => do
      let (tuple, heap) ←
        orFault .assertion (alloc.allocate row.heap layout.byteSize)
      .ok (tuple, ⟨row.data.set (rowId % 2 ^ 32) (some tuple), heap⟩)

/-- `SetColValue`: the tuple is allocated even for a value that is refused. -/
def setColValue (alloc : Allocator) (layout : Layout) (row : TupleRow)
    (c : SetCall) : Exec (Status × TupleRow) := do
  let (tuple, row) ← row.tupleFor alloc layout c.rowId
  match layout.slots[c.colId % 2 ^ 32]? with
  | none => .error .assertion
  | some slot =>
      if c.value.type ≠ slot.type then .ok (.columnDescError, row)
      else do
        let heap ← toData alloc c.value (tuple + slot.bytesOffset) row.heap
        .ok (.ok, { row with heap })

/-- Calls one after another, and their statuses. -/
def setColValues (alloc : Allocator) (layout : Layout) (row : TupleRow) :
    List SetCall → Exec (List Status × TupleRow)
  | [] => .ok ([], row)
  | c :: calls => do
      let (status, row) ← row.setColValue alloc layout c
      let (statuses, row) ← setColValues alloc layout row calls
      .ok (status :: statuses, row)

/-- `GetColValue`. -/
def getColValue (layout : Layout) (row : TupleRow) (rowId colId : Nat) :
    Exec ExprValue :=
  match row.data[rowId % 2 ^ 32]? with
  | none => .error .undefined
  | some none => .ok .null
  | some (some tuple) =>
      match layout.slots[colId % 2 ^ 32]? with
      | none => .error .assertion
      | some slot =>
          toExprValue row.heap (tuple + slot.bytesOffset) slot.type

/-- The range of a column's bytes, once the row has its tuple. -/
def cell (layout : Layout) (row : TupleRow) (rowId colId : Nat) :
    Option Span := do
  let tuple ← row.data[rowId % 2 ^ 32]?.join
  let slot ← layout.slots[colId % 2 ^ 32]?
  some ⟨tuple + slot.bytesOffset, slot.bytesCount⟩

/-- The bytes of a cell: its row's tuple and its slot. -/
theorem cell_eq_some {layout : Layout} {row : TupleRow} {r i : Nat}
    {s : Span} : row.cell layout r i = some s ↔ ∃ tuple slot,
      row.data[r % 2 ^ 32]? = some (some tuple)
        ∧ layout.slots[i % 2 ^ 32]? = some slot
        ∧ s = ⟨tuple + slot.bytesOffset, slot.bytesCount⟩ := by
  simp only [cell, Option.bind_eq_bind, Option.bind_eq_some_iff,
    Option.join_eq_some_iff, Option.some.injEq]
  constructor
  · rintro ⟨t, ht, slot, hslot, rfl⟩
    exact ⟨t, slot, ht, hslot, rfl⟩
  · rintro ⟨t, slot, ht, hslot, rfl⟩
    exact ⟨t, ht, slot, hslot, rfl⟩

/-- Every tuple is a block, and no two are one. -/
structure Sound (layout : Layout) (row : TupleRow) : Prop where
  tuples : ∀ (r t : Nat), row.data[r]? = some (some t) →
    ⟨t, layout.byteSize⟩ ∈ row.heap.blocks
  apart  : ∀ (r r' t t' : Nat), r ≠ r' → row.data[r]? = some (some t) →
    row.data[r']? = some (some t') →
    (⟨t, layout.byteSize⟩ : Span).Apart ⟨t', layout.byteSize⟩

/-- One row after another: its tuples are kept, and so is what lies outside of
    some ranges. -/
structure Extends (row row' : TupleRow) (written : Nat → Prop) : Prop where
  tuples : ∀ (r t : Nat), row.data[r]? = some (some t) →
    row'.data[r]? = some (some t)
  grows  : row.heap.Grows row'.heap written

section Calls

variable {alloc : Allocator} {layout : Layout} {row row' : TupleRow}
  {c : SetCall} {status : Status} {P Q : Nat → Prop}

theorem Extends.refl (row : TupleRow) (P : Nat → Prop) :
    row.Extends row P :=
  ⟨fun _ _ ht => ht, Heap.Grows.refl _ _⟩

theorem Extends.trans {row'' : TupleRow} (h : row.Extends row' P)
    (h' : row'.Extends row'' Q) :
    row.Extends row'' (fun x => P x ∨ Q x) :=
  ⟨fun r t ht => h'.tuples r t (h.tuples r t ht), h.grows.trans h'.grows⟩

theorem Extends.mono (h : row.Extends row' P) (hPQ : ∀ x, P x → Q x) :
    row.Extends row' Q :=
  ⟨h.tuples, h.grows.mono hPQ⟩

theorem Extends.cell (h : row.Extends row' P) {r i : Nat} {s : Span}
    (hs : row.cell layout r i = some s) : row'.cell layout r i = some s := by
  obtain ⟨t, slot, ht, hslot, rfl⟩ := cell_eq_some.mp hs
  exact cell_eq_some.mpr ⟨t, slot, h.tuples _ t ht, hslot, rfl⟩

/-- A new row has no tuples yet. -/
theorem sound_new {heap : Heap} (h : new alloc layout heap = .ok row) :
    row.Sound layout := by
  obtain ⟨⟨a, heap'⟩, -, h⟩ := Exec.bind_eq_ok.mp h
  obtain rfl := Except.ok.inj h
  have hnone : ∀ r t : Nat,
      (List.replicate layout.slots.length (none : Option Nat))[r]?
        ≠ some (some t) := by
    intro r t ht
    have := List.eq_of_mem_replicate (List.mem_of_getElem? ht)
    cases this
  exact ⟨fun r t ht => absurd ht (hnone r t),
    fun r _ t _ _ ht _ => absurd ht (hnone r t)⟩

/-- The tuple of a row is there, or is allocated. -/
theorem tupleFor_cases {r t : Nat}
    (h : row.tupleFor alloc layout r = .ok (t, row')) :
    row.data[r % 2 ^ 32]? = some (some t) ∧ row' = row
      ∨ row.data[r % 2 ^ 32]? = some none
        ∧ alloc.allocate row.heap layout.byteSize = some (t, row'.heap)
        ∧ row'.data = row.data.set (r % 2 ^ 32) (some t) := by
  rw [tupleFor] at h
  split at h
  · cases h
  · next tuple ht =>
      obtain ⟨rfl, rfl⟩ := Prod.mk.inj (Except.ok.inj h)
      exact Or.inl ⟨ht, rfl⟩
  · next hnull =>
      obtain ⟨⟨a, heap⟩, ha, h⟩ := Exec.bind_eq_ok.mp h
      obtain ⟨rfl, rfl⟩ := Prod.mk.inj (Except.ok.inj h)
      exact Or.inr ⟨hnull, orFault_eq_ok.mp ha, rfl⟩

theorem tupleFor_of_some {r t : Nat}
    (h : row.data[r % 2 ^ 32]? = some (some t)) :
    row.tupleFor alloc layout r = .ok (t, row) := by
  rw [tupleFor, h]

/-- A cell of a tuple that is there is read at its offset. -/
theorem getColValue_of_some {r t : Nat} {i : Nat} {slot : Slot}
    (h : row.data[r % 2 ^ 32]? = some (some t))
    (hslot : layout.slots[i % 2 ^ 32]? = some slot) :
    row.getColValue layout r i
      = toExprValue row.heap (t + slot.bytesOffset) slot.type := by
  rw [getColValue, h]
  simp only
  rw [hslot]

/-- A tuple was there before, or its place was free. -/
theorem tupleFor_tuples {r t q u : Nat}
    (h : row.tupleFor alloc layout r = .ok (t, row'))
    (hu : row'.data[q]? = some (some u)) :
    row.data[q]? = some (some u)
      ∨ q = r % 2 ^ 32 ∧ u = t ∧ row.heap.Fresh ⟨u, layout.byteSize⟩ := by
  rcases tupleFor_cases h with ⟨-, rfl⟩ | ⟨-, ha, hdata⟩
  · exact Or.inl hu
  · rw [hdata, List.getElem?_set] at hu
    split_ifs at hu with heq
    · obtain rfl := Option.some.inj (Option.some.inj hu)
      exact Or.inr ⟨heq.symm, rfl, (Allocator.allocate_eq_some ha).1⟩
    · exact Or.inl hu

/-- `tupleFor` finds a tuple or makes one, and writes none. -/
theorem tupleFor_spec {r t : Nat} (hsound : row.Sound layout)
    (h : row.tupleFor alloc layout r = .ok (t, row')) :
    row'.data[r % 2 ^ 32]? = some (some t) ∧ row'.Sound layout
      ∧ row.Extends row' nowhere := by
  rcases tupleFor_cases h with ⟨ht, rfl⟩ | ⟨hnull, ha, hdata⟩
  · exact ⟨ht, hsound, Extends.refl _ _⟩
  · obtain ⟨-, hblocks, hgrows⟩ := Allocator.allocate_eq_some ha
    obtain ⟨hlt, -⟩ := List.getElem?_eq_some_iff.mp hnull
    refine ⟨by rw [hdata, List.getElem?_set_self hlt], ⟨?_, ?_⟩, ?_, hgrows⟩
    · intro q u hu
      rcases tupleFor_tuples h hu with hold | ⟨-, rfl, -⟩
      · exact hgrows.blocks _ (hsound.tuples q u hold)
      · exact hblocks ▸ List.mem_cons_self
    · intro q q' u u' hne hu hu'
      rcases tupleFor_tuples h hu with hold | ⟨rfl, rfl, hfresh⟩ <;>
        rcases tupleFor_tuples h hu' with hold' | ⟨rfl, rfl, hfresh'⟩
      · exact hsound.apart q q' u u' hne hold hold'
      · exact (hfresh'.2 _ (hsound.tuples q u hold)).symm
      · exact hfresh.2 _ (hsound.tuples q' u' hold')
      · exact absurd rfl hne
    · intro q u hu
      rw [hdata, List.getElem?_set_ne ?_]
      · exact hu
      · rintro rfl
        rw [hnull] at hu
        cases hu

/-- Everything a call can do. -/
theorem setColValue_cases
    (h : row.setColValue alloc layout c = .ok (status, row')) :
    ∃ t slot mid, row.tupleFor alloc layout c.rowId = .ok (t, mid)
      ∧ layout.slots[c.colId % 2 ^ 32]? = some slot
      ∧ (c.value.type ≠ slot.type ∧ status = .columnDescError ∧ row' = mid
        ∨ c.value.type = slot.type ∧ status = .ok ∧ row'.data = mid.data
          ∧ toData alloc c.value (t + slot.bytesOffset) mid.heap
            = .ok row'.heap) := by
  obtain ⟨⟨t, mid⟩, htuple, h⟩ := Exec.bind_eq_ok.mp h
  simp only at h
  split at h
  · cases h
  · next slot hslot =>
      refine ⟨t, slot, mid, htuple, hslot, ?_⟩
      split_ifs at h with htype
      · obtain ⟨rfl, rfl⟩ := Prod.mk.inj (Except.ok.inj h)
        exact Or.inl ⟨htype, rfl, rfl⟩
      · obtain ⟨heap, hdata, h⟩ := Exec.bind_eq_ok.mp h
        obtain ⟨rfl, rfl⟩ := Prod.mk.inj (Except.ok.inj h)
        exact Or.inr ⟨not_not.mp htype, rfl, rfl, hdata⟩

/-- The bytes a call writes: those of its cell, when it succeeds. -/
def Written (layout : Layout) (c : SetCall) (status : Status)
    (row' : TupleRow) (x : Nat) : Prop :=
  status = .ok ∧ ∃ s, row'.cell layout c.rowId c.colId = some s
    ∧ s.base ≤ x ∧ x < s.stop

/-- `SetColValue` writes in its own cell only. -/
theorem setColValue_spec (hl : layout.Inside) (hsound : row.Sound layout)
    (h : row.setColValue alloc layout c = .ok (status, row')) :
    row'.Sound layout ∧ (row'.cell layout c.rowId c.colId).isSome
      ∧ row.Extends row' (Written layout c status row') := by
  obtain ⟨t, slot, mid, htuple, hslot, hcase⟩ := setColValue_cases h
  obtain ⟨ht, hmid, hext⟩ := tupleFor_spec hsound htuple
  rcases hcase with ⟨-, -, rfl⟩ | ⟨htype, rfl, hdata, hheap⟩
  · refine ⟨hmid, ?_, hext.mono (fun _ hx => hx.elim)⟩
    rw [cell_eq_some.mpr ⟨t, slot, ht, hslot, rfl⟩]
    rfl
  · have hgrows := toData_grows hheap
    have hcell : row'.cell layout c.rowId c.colId
        = some ⟨t + slot.bytesOffset, slot.bytesCount⟩ :=
      cell_eq_some.mpr ⟨t, slot, hdata ▸ ht, hslot, rfl⟩
    refine ⟨⟨?_, ?_⟩, by rw [hcell]; rfl, ?_⟩
    · intro r u hu
      exact hgrows.blocks _ (hmid.tuples r u (hdata ▸ hu))
    · intro r r' u u' hne hu hu'
      exact hmid.apart r r' u u' hne (hdata ▸ hu) (hdata ▸ hu')
    · have hstep : mid.Extends row' (Written layout c .ok row') := by
        refine ⟨fun r u hu => hdata ▸ hu, hgrows.mono ?_⟩
        rintro x ⟨hx, hx'⟩
        refine ⟨rfl, _, hcell, hx, ?_⟩
        rwa [htype, ← hl.counts _ _ hslot] at hx'
      exact (hext.trans hstep).mono (fun _ hx => hx.elim False.elim id)

/-- A cell lies in the block of its tuple. -/
theorem cell_inside (hl : layout.Inside) (hsound : row.Sound layout)
    {r i : Nat} {s : Span} (hs : row.cell layout r i = some s) :
    ∃ t, row.data[r % 2 ^ 32]? = some (some t)
      ∧ ⟨t, layout.byteSize⟩ ∈ row.heap.blocks
      ∧ s.Inside ⟨t, layout.byteSize⟩ := by
  obtain ⟨t, slot, ht, hslot, rfl⟩ := cell_eq_some.mp hs
  refine ⟨t, ht, hsound.tuples _ t ht, Nat.le_add_right t _, ?_⟩
  have := hl.inside _ _ hslot
  simp only [Span.stop]
  omega

/-- Two cells share no byte. -/
theorem cells_apart (hl : layout.Sound) (hsound : row.Sound layout)
    {r r' i i' : Nat} {s s' : Span} (hs : row.cell layout r i = some s)
    (hs' : row.cell layout r' i' = some s')
    (hne : (r % 2 ^ 32, i % 2 ^ 32) ≠ (r' % 2 ^ 32, i' % 2 ^ 32)) :
    s.Apart s' := by
  by_cases hr : r % 2 ^ 32 = r' % 2 ^ 32
  · obtain ⟨t, slot, ht, hslot, rfl⟩ := cell_eq_some.mp hs
    obtain ⟨t', slot', ht', hslot', rfl⟩ := cell_eq_some.mp hs'
    rw [hr, ht'] at ht
    obtain rfl := Option.some.inj (Option.some.inj ht)
    have hi : i % 2 ^ 32 ≠ i' % 2 ^ 32 := fun hi => hne (Prod.ext hr hi)
    have hslots := hl.apart _ _ _ _ hi hslot hslot'
    simp only [Span.Apart, Span.stop, Slot.span] at hslots ⊢
    omega
  · obtain ⟨t, ht, -, hin⟩ := cell_inside hl.toInside hsound hs
    obtain ⟨t', ht', -, hin'⟩ := cell_inside hl.toInside hsound hs'
    have htuples := hsound.apart _ _ t t' hr ht ht'
    exact ((htuples.mono hin).symm.mono hin').symm

/-- A call leaves every other cell as it is, and so does a call that is
    refused. -/
theorem setColValue_keeps (hl : layout.Sound) (hsound : row.Sound layout)
    (h : row.setColValue alloc layout c = .ok (status, row')) {r i : Nat}
    {s : Span} (hs : row.cell layout r i = some s)
    (hother : status = .ok →
      (r % 2 ^ 32, i % 2 ^ 32) ≠ (c.rowId % 2 ^ 32, c.colId % 2 ^ 32)) :
    row'.cell layout r i = some s
      ∧ read row'.heap.bytes s.base s.size
        = read row.heap.bytes s.base s.size := by
  obtain ⟨hsound', -, hext⟩ := setColValue_spec hl.toInside hsound h
  obtain ⟨t, -, hblock, hin⟩ := cell_inside hl.toInside hsound hs
  refine ⟨hext.cell hs, hext.grows.read hblock hin ?_⟩
  rintro x hx hx' ⟨hok, s', hs', hx₁, hx₂⟩
  exact Span.not_apart_of_mem ⟨hx, hx'⟩ ⟨hx₁, hx₂⟩
    (cells_apart hl hsound' (hext.cell hs) hs' (hother hok))

/-- Rows stay sound through every sequence of calls. -/
theorem setColValues_sound (hl : layout.Inside) {calls : List SetCall}
    {statuses : List Status} (hsound : row.Sound layout)
    (h : row.setColValues alloc layout calls = .ok (statuses, row')) :
    row'.Sound layout := by
  induction calls generalizing row statuses with
  | nil =>
      obtain ⟨-, rfl⟩ := Prod.mk.inj (Except.ok.inj h)
      exact hsound
  | cons c calls ih =>
      obtain ⟨⟨status, row₁⟩, hcall, h⟩ := Exec.bind_eq_ok.mp h
      obtain ⟨⟨rest, row₂⟩, hcalls, h⟩ := Exec.bind_eq_ok.mp h
      obtain ⟨-, rfl⟩ := Prod.mk.inj (Except.ok.inj h)
      exact ih (setColValue_spec hl hsound hcall).1 hcalls

end Calls

end TupleRow

/-! ## The slots of a descriptor -/

/-- The columns have their bytes to themselves: the slots are apart and inside
    the tuple, a column's value is written in its slot, and a call, successful
    or refused, leaves the bytes of every other column of an allocated tuple. -/
structure Layout.KeepsSlots (layout : Layout) : Prop where
  apart  : ∀ (i j : Nat) (s s' : Slot), i ≠ j → layout.slots[i]? = some s →
    layout.slots[j]? = some s' → s.span.Apart s'.span
  inside : ∀ (i : Nat) (s : Slot), layout.slots[i]? = some s →
    s.bytesOffset + s.bytesCount ≤ layout.byteSize
  writes : ∀ (alloc : Allocator) (h h' : Heap) (s : Slot) (v : ExprValue)
    (colPtr : Nat), s ∈ layout.slots → v.type = s.type →
    toData alloc v colPtr h = .ok h' →
    h.Grows h' (fun x => colPtr ≤ x ∧ x < colPtr + s.bytesCount)
  calls  : ∀ (alloc : Allocator) (heap : Heap) (row₀ row row' : TupleRow)
    (calls : List SetCall) (statuses : List Status) (c : SetCall)
    (status : Status), TupleRow.new alloc layout heap = .ok row₀ →
    row₀.setColValues alloc layout calls = .ok (statuses, row) →
    row.setColValue alloc layout c = .ok (status, row') →
    ∀ (r i : Nat) (s : Span), row.cell layout r i = some s →
      (r % 2 ^ 32, i % 2 ^ 32) ≠ (c.rowId % 2 ^ 32, c.colId % 2 ^ 32) →
      row'.cell layout r i = some s
        ∧ read row'.heap.bytes s.base s.size
          = read row.heap.bytes s.base s.size

/-- `InitAllColDesc` returns, and leaves such slots. -/
def KeepsSlots (desc : RowDescriptor) : Prop :=
  ∃ layout, initAllColDesc desc = .ok layout ∧ layout.KeepsSlots

/-- Slots that are apart keep their bytes to themselves. -/
theorem Layout.Sound.keepsSlots {layout : Layout} (hl : layout.Sound) :
    layout.KeepsSlots := by
  refine ⟨hl.apart, hl.inside, ?_, ?_⟩
  · intro alloc h h' s v colPtr hs htype hdata
    obtain ⟨i, hi⟩ := List.mem_iff_getElem?.mp hs
    rw [hl.counts i s hi, ← htype]
    exact toData_grows hdata
  · intro alloc heap row₀ row row' calls statuses c status hnew hcalls hcall
      r i s hs hne
    have hsound := TupleRow.setColValues_sound hl.toInside
      (TupleRow.sound_new hnew) hcalls
    exact TupleRow.setColValue_keeps hl hsound hcall hs (fun _ => hne)

theorem fits_of_keepsSlots {desc : RowDescriptor} (h : KeepsSlots desc) :
    Fits desc := by
  obtain ⟨layout, hinit, hkeeps⟩ := h
  exact fits_of_apart hinit hkeeps.apart

/-- Columns keep to their slots just when the offset of the last one has 32
    bits. -/
theorem keepsSlots_iff (desc : RowDescriptor) :
    KeepsSlots desc ↔ Fits desc := by
  refine ⟨fits_of_keepsSlots, ?_⟩
  intro hf
  have hinit : initAllColDesc desc = .ok (initFrom 0 desc) := if_pos hf.1
  exact ⟨_, hinit, (sound_of_fits hf hinit).keepsSlots⟩

/-- As many columns of strings. -/
def stringColumns (n : Nat) : RowDescriptor :=
  (List.range n).map (fun i => ⟨.string, i⟩)

/-- A string cell has 12 bytes. -/
theorem columnSizes_stringColumns (n : Nat) :
    columnSizes (stringColumns n) = List.replicate n 12 := by
  rw [columnSizes, stringColumns, List.map_map, List.eq_replicate_iff]
  refine ⟨by simp, ?_⟩
  intro b hb
  obtain ⟨i, -, rfl⟩ := List.mem_map.mp hb
  rfl

/-- How many string columns fit a 32-bit offset. -/
theorem fits_stringColumns_iff (n : Nat) :
    Fits (stringColumns n) ↔ n < 2 ^ 32 ∧ (n - 1) * 12 < 2 ^ 32 := by
  rw [Fits, columnSizes_stringColumns, List.dropLast_replicate,
    List.sum_replicate, stringColumns, List.length_map, List.length_range,
    smul_eq_mul]

/-- The last of 357913943 columns of strings is at offset 8, in the slot of the
    first. -/
theorem last_column_wraps_around : ¬ KeepsSlots (stringColumns 357913943) := by
  intro h
  have hfits := (fits_stringColumns_iff 357913943).mp (fits_of_keepsSlots h)
  omega

end AmDb.Chunk

import AmDb.Chunk.Tuple

/-! # What is read back from a row

    A number comes back as it was set.  Of a string the address of its object
    is stored, and the characters are read at that address: what comes back are
    bytes of the object itself. -/

namespace AmDb.Chunk

open AmDb.Expr ByteMemory

/-! ## One cell -/

section Word

variable {h : Heap} {v : ExprValue} {a str : Nat} {b : Span}

/-- Bytes of a word's width are those of the word they make. -/
theorem eq_ofNat_word {w n : Nat} {bs : Bytes} (h : 256 ^ n = 2 ^ w)
    (hlen : bs.length = n) :
    littleEndian n (BitVec.ofNat w (ofLittleEndian bs)).toNat = bs := by
  have hlt := ofLittleEndian_lt bs
  rw [hlen, h] at hlt
  rw [BitVec.toNat_ofNat, Nat.mod_eq_of_lt hlt, ← hlen,
    littleEndian_ofLittleEndian]

/-- A cell reads as a number just when it holds its bytes. -/
theorem toExprValue_number_iff (hb : b ∈ h.blocks)
    (hin : (⟨a, typeSize v.type⟩ : Span).Inside b)
    (hv : v.type ∈ codecTypes) (hs : v.type ≠ .string) :
    toExprValue h a v.type = .ok v
      ↔ read h.bytes a (typeSize v.type) = cellBytes str v := by
  have hload := Heap.load_eq_some (Heap.accessible_of_mem hb hin)
  have hword : ∀ {w n : Nat} {u : BitVec w} {f : BitVec w → ExprValue},
      256 ^ n = 2 ^ w → h.load a n = some (read h.bytes a n) →
      (∀ {u u' : BitVec w}, f u = f u' → u = u') →
      ((orFault .undefined (h.load a n) >>= fun bs =>
          (.ok (f (.ofNat w (ofLittleEndian bs))) : Exec ExprValue))
        = .ok (f u) ↔ read h.bytes a n = littleEndian n u.toNat) := by
    intro w n u f hw hl hf
    rw [hl, orFault_some, Exec.bind_ok]
    constructor
    · intro hu
      rw [← hf (Except.ok.inj hu), eq_ofNat_word hw (length_read _ _ _)]
    · intro hu
      rw [hu, ofNat_word u hw]
  cases v with
  | int8 u => exact hword (n := 1) rfl hload ExprValue.int8.inj
  | uint8 u => exact hword (n := 1) rfl hload ExprValue.uint8.inj
  | int32 u => exact hword (n := 4) rfl hload ExprValue.int32.inj
  | uint32 u => exact hword (n := 4) rfl hload ExprValue.uint32.inj
  | int64 u => exact hword (n := 8) rfl hload ExprValue.int64.inj
  | uint64 u => exact hword (n := 8) rfl hload ExprValue.uint64.inj
  | string s => exact absurd rfl hs
  | null | minInf | maxInf | invalid | bool =>
      simp [ExprValue.type, codecTypes] at hv

/-- A string cell is read through the pointer and the length it begins with. -/
theorem toExprValue_string_eq {ptr size : Bytes}
    (hptr : h.load a 8 = some ptr) (hsize : h.load (a + 8) 4 = some size) :
    toExprValue h a .string = (orFault .undefined
      (h.load (ofLittleEndian ptr) (ofLittleEndian size)) >>=
        fun s => .ok (.string s)) := by
  rw [toExprValue, hptr, hsize]
  rfl

/-- Of a string's cell the object is read, as many bytes as the string has. -/
theorem toExprValue_string {s : Bytes} (hb : b ∈ h.blocks)
    (hin : (⟨a, 12⟩ : Span).Inside b)
    (hread : read h.bytes a 12 = cellBytes str (.string s))
    (hobject : ⟨str, stringSize⟩ ∈ h.blocks) :
    toExprValue h a .string = .ok (.string s)
      ↔ s.length ≤ stringSize ∧ read h.bytes str s.length = s := by
  have hstop : str + 32 ≤ 2 ^ 64 := h.addressable _ hobject
  have hstr : str % 256 ^ 8 = str := Nat.mod_eq_of_lt (by omega)
  have hin' : ∀ {k n : Nat}, k + n ≤ 12 →
      h.Accessible ⟨a + k, n⟩ := by
    intro k n hkn
    refine Heap.accessible_of_mem hb ⟨hin.1.trans (Nat.le_add_right a k), ?_⟩
    have hstop := hin.2
    simp only [Span.stop] at hstop ⊢
    omega
  -- the cell is a pointer and a size
  have hptr : h.load a 8 = some (littleEndian 8 str) := by
    have htake := take_read (m := h.bytes) (a := a) (show 8 ≤ 12 by decide)
    have hacc := hin' (show 0 + 8 ≤ 12 by decide)
    rw [Nat.add_zero] at hacc
    rw [Heap.load_eq_some hacc, ← htake, hread, cellBytes,
      List.take_left' (length_littleEndian 8 str)]
  have hsize : h.load (a + 8) 4 = some (littleEndian 4 s.length) := by
    have hacc := hin' (show 8 + 4 ≤ 12 by decide)
    rw [Heap.load_eq_some hacc, ← drop_read h.bytes a 8 4, hread, cellBytes,
      List.drop_left' (length_littleEndian 8 str)]
  have hacc : h.Accessible ⟨str, s.length % 256 ^ 4⟩
      ↔ s.length % 256 ^ 4 ≤ stringSize :=
    Heap.accessible_base_iff hobject (Nat.zero_lt_succ 31)
  rw [toExprValue_string_eq hptr hsize, ofLittleEndian_littleEndian,
    ofLittleEndian_littleEndian, hstr]
  constructor
  · intro hget
    -- what was read lies in the string's object, so no longer than it
    obtain ⟨bs, hload, hbs⟩ := Exec.bind_eq_ok.mp hget
    obtain rfl := ExprValue.string.inj (Except.ok.inj hbs)
    rw [orFault_eq_ok, Heap.load] at hload
    split_ifs at hload with hn
    have hn' := hacc.mp hn
    have hread' := Option.some.inj hload
    have hlen := congrArg List.length hread'
    rw [length_read] at hlen
    rw [hlen] at hn' hread'
    exact ⟨hn', hread'⟩
  · rintro ⟨hlen, hs⟩
    have hlen' : s.length ≤ 32 := hlen
    have hmod : s.length % 256 ^ 4 = s.length := Nat.mod_eq_of_lt (by omega)
    rw [hmod] at hacc ⊢
    rw [Heap.load_eq_some (hacc.mpr hlen), hs]
    rfl

end Word

/-! ## Runs -/

namespace TupleRow

/-- After a call: its cell holds the value, and the object of a string is a
    block apart from the tuples. -/
structure Holds (layout : Layout) (row : TupleRow) (c : SetCall) (str : Nat)
    (object : Bytes) : Prop where
  cell   : ∃ t slot, row.data[c.rowId % 2 ^ 32]? = some (some t)
    ∧ layout.slots[c.colId % 2 ^ 32]? = some slot
    ∧ c.value.type = slot.type
    ∧ read row.heap.bytes (t + slot.bytesOffset) slot.bytesCount
      = cellBytes str c.value
  object : c.value.type = .string →
    ⟨str, stringSize⟩ ∈ row.heap.blocks
      ∧ (∀ (r t : Nat), row.data[r]? = some (some t) →
        (⟨str, stringSize⟩ : Span).Apart ⟨t, layout.byteSize⟩)
      ∧ read row.heap.bytes str stringSize = object

/-- A string whose object, made by this call, starts with the string itself. -/
def SpellsItself (alloc : Allocator) (layout : Layout) (row : TupleRow)
    (c : SetCall) : Prop :=
  ∀ s, c.value = .string s → s.length ≤ stringSize
    ∧ ∀ t mid str heap, row.tupleFor alloc layout c.rowId = .ok (t, mid) →
      alloc.newString s mid.heap = some (str, heap) →
      read heap.bytes str s.length = s

section Runs

variable {alloc : Allocator} {layout : Layout} {row row' : TupleRow}
  {c c' : SetCall} {status : Status} {str : Nat} {object : Bytes}

/-- A successful call. -/
theorem setColValue_holds (hl : layout.Inside) (hsound : row.Sound layout)
    (hc : c.value.type ∈ codecTypes)
    (h : row.setColValue alloc layout c = .ok (.ok, row')) :
    ∃ t mid str object, row.tupleFor alloc layout c.rowId = .ok (t, mid)
      ∧ Holds layout row' c str object
      ∧ ∀ s, c.value = .string s → ∃ heap,
        alloc.newString s mid.heap = some (str, heap)
          ∧ object = read heap.bytes str stringSize := by
  obtain ⟨t, slot, mid, htuple, hslot, hcase⟩ := setColValue_cases h
  rcases hcase with ⟨-, hst, -⟩ | ⟨htype, -, hdata, hheap⟩
  · cases hst
  obtain ⟨ht, hmid, -⟩ := tupleFor_spec hsound htuple
  obtain ⟨str, heap, -, hblocks, hbytes, hnew⟩ := toData_eq_ok hheap
  have hcount : slot.bytesCount = (cellBytes str c.value).length := by
    rw [length_cellBytes str hc, hl.counts _ _ hslot, htype]
  refine ⟨t, mid, str, read heap.bytes str stringSize, htuple, ⟨?_, ?_⟩,
    fun s hs => ⟨heap, hnew s hs, rfl⟩⟩
  · refine ⟨t, slot, hdata ▸ ht, hslot, htype, ?_⟩
    rw [hcount, hbytes, read_write_self]
  · intro hstring
    obtain ⟨s, hs⟩ := ExprValue.exists_string hstring
    obtain ⟨hfresh, hmem, -⟩ := Allocator.newString_eq_some (hnew s hs)
    have hapart : ∀ (r u : Nat), row'.data[r]? = some (some u) →
        (⟨str, stringSize⟩ : Span).Apart ⟨u, layout.byteSize⟩ :=
      fun r u hu => hfresh.2 _ (hmid.tuples r u (hdata ▸ hu))
    refine ⟨hblocks ▸ hmem, hapart, ?_⟩
    -- the cell is in the tuple, so the object is not written
    rw [hbytes, read_write_outside]
    have hout := hapart _ t (hdata ▸ ht)
    have hin := hl.inside _ _ hslot
    simp only [Span.Apart, Span.stop] at hout
    omega

/-- Later calls on other cells, and calls that are refused, leave it so. -/
theorem Holds.setColValue (hl : layout.Sound) (hsound : row.Sound layout)
    (hh : Holds layout row c str object)
    (h : row.setColValue alloc layout c' = .ok (status, row'))
    (hother : status = .ok → (c.rowId % 2 ^ 32, c.colId % 2 ^ 32)
      ≠ (c'.rowId % 2 ^ 32, c'.colId % 2 ^ 32)) :
    Holds layout row' c str object := by
  obtain ⟨hsound', -, hext⟩ := setColValue_spec hl.toInside hsound h
  refine ⟨?_, ?_⟩
  · obtain ⟨t, slot, ht, hslot, htype, hread⟩ := hh.cell
    have hcell := cell_eq_some.mpr ⟨t, slot, ht, hslot, rfl⟩
    obtain ⟨-, hkept⟩ := setColValue_keeps hl hsound h hcell hother
    exact ⟨t, slot, hext.tuples _ t ht, hslot, htype, hkept.trans hread⟩
  · intro hstring
    obtain ⟨hmem, hapart, hread⟩ := hh.object hstring
    have hapart' : ∀ (r t : Nat), row'.data[r]? = some (some t) →
        (⟨str, stringSize⟩ : Span).Apart ⟨t, layout.byteSize⟩ := by
      intro r t ht
      obtain ⟨u, slot, mid, htuple, -, hcase⟩ := setColValue_cases h
      have hdata : row'.data = mid.data := by
        rcases hcase with ⟨-, -, rfl⟩ | ⟨-, -, hdata, -⟩
        · rfl
        · exact hdata
      rcases tupleFor_tuples htuple (hdata ▸ ht) with hold | ⟨-, -, hfresh⟩
      · exact hapart r t hold
      · exact (hfresh.2 _ hmem).symm
    refine ⟨hext.grows.blocks _ hmem, hapart', ?_⟩
    rw [hext.grows.read hmem ⟨Nat.le_refl _, Nat.le_refl _⟩ ?_, hread]
    rintro x hx hx' ⟨-, s, hs, hsx, hsx'⟩
    obtain ⟨t, ht, -, hin⟩ := cell_inside hl.toInside hsound' hs
    exact Span.not_apart_of_mem ⟨hx, hx'⟩
      ⟨hin.1.trans hsx, lt_of_lt_of_le hsx' hin.2⟩ (hapart' _ t ht)

/-- Calls on other cells leave what a cell holds. -/
theorem Holds.setColValues (hl : layout.Sound) {calls : List SetCall}
    {statuses : List Status} (hsound : row.Sound layout)
    (hh : Holds layout row c str object)
    (h : row.setColValues alloc layout calls = .ok (statuses, row'))
    (hother : ∀ e ∈ calls.zip statuses, e.2 = .ok →
      (c.rowId % 2 ^ 32, c.colId % 2 ^ 32)
        ≠ (e.1.rowId % 2 ^ 32, e.1.colId % 2 ^ 32)) :
    Holds layout row' c str object := by
  induction calls generalizing row statuses with
  | nil =>
      obtain ⟨-, rfl⟩ := Prod.mk.inj (Except.ok.inj h)
      exact hh
  | cons c' calls ih =>
      obtain ⟨⟨status, row₁⟩, hcall, h⟩ := Exec.bind_eq_ok.mp h
      obtain ⟨⟨rest, row₂⟩, hcalls, h⟩ := Exec.bind_eq_ok.mp h
      obtain ⟨rfl, rfl⟩ := Prod.mk.inj (Except.ok.inj h)
      obtain ⟨hfirst, hrest⟩ := List.forall_mem_cons.mp hother
      exact ih (setColValue_spec hl.toInside hsound hcall).1
        (hh.setColValue hl hsound hcall hfirst) hcalls hrest

/-- What is read from such a cell. -/
theorem Holds.getColValue_iff (hl : layout.Inside) (hsound : row.Sound layout)
    (hc : c.value.type ∈ codecTypes) (hh : Holds layout row c str object) :
    row.getColValue layout c.rowId c.colId = .ok c.value
      ↔ ∀ s, c.value = .string s →
        s.length ≤ stringSize ∧ object.take s.length = s := by
  obtain ⟨t, slot, ht, hslot, htype, hread⟩ := hh.cell
  obtain ⟨t', ht', hmem, hin⟩ := cell_inside hl hsound
    (cell_eq_some.mpr ⟨t, slot, ht, hslot, rfl⟩)
  rw [hl.counts _ _ hslot] at hread hin
  rw [getColValue_of_some ht hslot, ← htype]
  rw [← htype] at hread hin
  by_cases hs : c.value.type = .string
  · -- a string is read out of its object
    obtain ⟨hobj, -, hobject⟩ := hh.object hs
    cases hv : c.value with
    | string s =>
        rw [hv] at hread hin
        have htake : ∀ {n : Nat}, n ≤ stringSize →
            object.take n = read row.heap.bytes str n := by
          intro n hn
          rw [← hobject, take_read hn]
        refine (toExprValue_string hmem hin hread hobj).trans ?_
        constructor
        · rintro ⟨hlen, hspell⟩ s' hs'
          obtain rfl := ExprValue.string.inj hs'
          exact ⟨hlen, (htake hlen).trans hspell⟩
        · intro hspell
          obtain ⟨hlen, htaken⟩ := hspell s rfl
          exact ⟨hlen, (htake hlen).symm.trans htaken⟩
    | null | minInf | maxInf | invalid | bool | int8 | uint8 | int32 | uint32
    | int64 | uint64 =>
        rw [hv] at hs
        cases hs
  · -- a number is in the cell itself
    refine iff_of_true ((toExprValue_number_iff hmem hin hc hs).mpr hread) ?_
    intro s hv
    exact absurd (congrArg ExprValue.type hv) hs

end Runs

/-- `c` is the last successful call on its cell in a run that makes a row and
    comes to `row'`; before it the row is `row`. -/
structure LastSet (alloc : Allocator) (layout : Layout) (row : TupleRow)
    (c : SetCall) (row' : TupleRow) : Prop where
  typed   : c.value.type ∈ codecTypes
  reached : ∃ heap row₀ calls statuses, new alloc layout heap = .ok row₀
    ∧ row₀.setColValues alloc layout calls = .ok (statuses, row)
  last    : ∃ row₁ calls statuses,
    row.setColValue alloc layout c = .ok (.ok, row₁)
      ∧ row₁.setColValues alloc layout calls = .ok (statuses, row')
      ∧ ∀ e ∈ calls.zip statuses, e.2 = .ok →
        (c.rowId % 2 ^ 32, c.colId % 2 ^ 32)
          ≠ (e.1.rowId % 2 ^ 32, e.1.colId % 2 ^ 32)

section LastSet

variable {alloc : Allocator} {layout : Layout} {row row' : TupleRow}
  {c : SetCall}

/-- A value is read back unless it is a string that its object does not
    spell. -/
theorem LastSet.getColValue_iff (hl : layout.Sound)
    (h : LastSet alloc layout row c row') :
    row'.getColValue layout c.rowId c.colId = .ok c.value
      ↔ SpellsItself alloc layout row c := by
  obtain ⟨heap, row₀, before, _, hnew, hbefore⟩ := h.reached
  obtain ⟨row₁, after, _, hset, hafter, hother⟩ := h.last
  have hsound := setColValues_sound hl.toInside (sound_new hnew) hbefore
  have hsound₁ := (setColValue_spec hl.toInside hsound hset).1
  obtain ⟨t, mid, str, object, htuple, hholds, hobject⟩ :=
    setColValue_holds hl.toInside hsound h.typed hset
  rw [(hholds.setColValues hl hsound₁ hafter hother).getColValue_iff
    hl.toInside (setColValues_sound hl.toInside hsound₁ hafter) h.typed]
  refine forall_congr' (fun s => forall_congr' (fun hs => ?_))
  obtain ⟨heap', hstring, rfl⟩ := hobject s hs
  refine and_congr_right (fun hlen => ?_)
  rw [take_read hlen]
  constructor
  · intro hspell t' mid' str' heap'' htuple' hstring'
    obtain ⟨-, rfl⟩ := Prod.mk.inj (Except.ok.inj (htuple.symm.trans htuple'))
    obtain ⟨rfl, rfl⟩ :=
      Prod.mk.inj (Option.some.inj (hstring.symm.trans hstring'))
    exact hspell
  · intro hspell
    exact hspell t mid str heap' htuple hstring

end LastSet

/-! ## Calls that return -/

section Returns

variable {alloc : Allocator} {layout : Layout} {row mid : TupleRow}
  {c : SetCall} {slot : Slot} {h : Heap} {v : ExprValue} {t colPtr : Nat}
  {b : Span}

/-- A number is written wherever its bytes fit. -/
theorem toData_number_returns (alloc : Allocator)
    (hacc : h.Accessible ⟨colPtr, typeSize v.type⟩)
    (hv : v.type ∈ codecTypes) (hs : v.type ≠ .string) :
    ∃ h', toData alloc v colPtr h = .ok h' := by
  have hstore : ∀ {n k : Nat}, h.Accessible ⟨colPtr, n⟩ →
      ∃ h', orFault .undefined (h.store colPtr (littleEndian n k))
        = .ok h' := by
    intro n k hn
    refine ⟨_, orFault_eq_ok.mpr (Heap.store_eq_some_iff.mpr ⟨?_, rfl⟩)⟩
    rwa [length_littleEndian]
  cases v with
  | int8 | uint8 | int32 | uint32 | int64 | uint64 => exact hstore hacc
  | string s => exact absurd rfl hs
  | null | minInf | maxInf | invalid | bool =>
      simp [ExprValue.type, codecTypes] at hv

/-- A string is stored when there is memory for its object. -/
theorem toData_string_returns {s : Bytes} {str : Nat} {h₁ : Heap}
    (hb : b ∈ h.blocks) (hin : (⟨colPtr, 12⟩ : Span).Inside b)
    (hnew : alloc.newString s h = some (str, h₁)) :
    ∃ h', toData alloc (.string s) colPtr h = .ok h' := by
  obtain ⟨-, -, hgrows⟩ := Allocator.newString_eq_some hnew
  have hin' : ∀ (k : Nat) (bs : Bytes), k + bs.length ≤ 12 →
      (⟨colPtr + k, bs.length⟩ : Span).Inside b := by
    intro k bs hk
    refine ⟨hin.1.trans (Nat.le_add_right colPtr k), ?_⟩
    have hstop := hin.2
    simp only [Span.stop] at hstop ⊢
    omega
  obtain ⟨h₂, hptr, hblocks⟩ := Heap.store_returns (hgrows.blocks b hb)
    (hin' 0 (littleEndian 8 str) (by simp))
  obtain ⟨h₃, hsize, -⟩ := Heap.store_returns (h := h₂)
    (hblocks ▸ hgrows.blocks b hb)
    (hin' 8 (littleEndian 4 s.length) (by simp))
  refine ⟨h₃, ?_⟩
  rw [Nat.add_zero] at hptr
  rw [toData, hnew, orFault_some, Exec.bind_ok]
  simp only [hptr, orFault_some, Exec.bind_ok]
  rw [hsize, orFault_some]

/-- A call returns when its slot is there, has the value's type and can be
written. -/
theorem setColValue_returns {h' : Heap}
    (htuple : row.tupleFor alloc layout c.rowId = .ok (t, mid))
    (hslot : layout.slots[c.colId % 2 ^ 32]? = some slot)
    (htype : c.value.type = slot.type)
    (hdata : toData alloc c.value (t + slot.bytesOffset) mid.heap = .ok h') :
    ∃ row', row.setColValue alloc layout c = .ok (.ok, row') := by
  rw [setColValue, htuple, Exec.bind_ok]
  simp only [hslot, htype, ne_eq, not_true_eq_false, if_false, hdata,
    Exec.bind_ok]
  exact ⟨_, rfl⟩

/-- A number of its column's type is taken. -/
theorem setColValue_number_returns (hl : layout.Inside)
    (hsound : row.Sound layout)
    (htuple : row.tupleFor alloc layout c.rowId = .ok (t, mid))
    (hslot : layout.slots[c.colId % 2 ^ 32]? = some slot)
    (htype : c.value.type = slot.type) (hv : c.value.type ∈ codecTypes)
    (hs : c.value.type ≠ .string) :
    ∃ row', row.setColValue alloc layout c = .ok (.ok, row') := by
  obtain ⟨ht, hmid, -⟩ := tupleFor_spec hsound htuple
  obtain ⟨t', -, hmem, hin⟩ := cell_inside hl hmid
    (cell_eq_some.mpr ⟨t, slot, ht, hslot, rfl⟩)
  rw [hl.counts _ _ hslot, ← htype] at hin
  obtain ⟨h', hdata⟩ := toData_number_returns alloc
    (Heap.accessible_of_mem hmem hin) hv hs
  exact setColValue_returns htuple hslot htype hdata

end Returns

/-- The first tuple of a row, where there is room for the string object. -/
theorem exists_first_tuple {desc : RowDescriptor} {layout : Layout}
    (hinit : initAllColDesc desc = .ok layout) (hpos : 0 < desc.length) :
    ∃ row t mid, new bump layout Heap.empty = .ok row
      ∧ row.tupleFor bump layout 0 = .ok (t, mid)
      ∧ mid.heap.top + stringSize ≤ 2 ^ 64 := by
  obtain ⟨hlen, -, hsize⟩ := initAllColDesc_eq hinit
  have hsum := sum_columnSizes_le desc
  have hcount := length_slots hinit
  have htop : Heap.empty.top = 0 := rfl
  obtain ⟨h₁, hdata, htop₁⟩ := allocate_bump (h := Heap.empty)
    (n := layout.slots.length * 8) (by omega)
  obtain ⟨h₂, htuple, htop₂⟩ := allocate_bump (h := h₁) (n := layout.byteSize)
    (by omega)
  have hnull : (List.replicate layout.slots.length (none : Option Nat))[0]?
      = some none := by
    rw [List.getElem?_replicate_of_lt (hcount ▸ hpos)]
  refine ⟨⟨List.replicate layout.slots.length none, h₁⟩, h₁.top,
    ⟨(List.replicate layout.slots.length none).set 0 (some h₁.top), h₂⟩,
    ?_, ?_, ?_⟩
  · rw [new]
    simp only [hdata, orFault_some, Exec.bind_ok]
  · rw [tupleFor, Nat.zero_mod]
    simp only [hnull, htuple, orFault_some, Exec.bind_ok]
  · show h₂.top + 32 ≤ 2 ^ 64
    omega

/-- A string that is lost: its object does not start with it. -/
theorem exists_lost_string {desc : RowDescriptor} {layout : Layout}
    {i : Nat} {slot : Slot} (hinit : initAllColDesc desc = .ok layout)
    (hslot : layout.slots[i]? = some slot) (htype : slot.type = .string) :
    ∃ alloc row c row', LastSet alloc layout row c row'
      ∧ row'.getColValue layout c.rowId c.colId ≠ .ok c.value := by
  have hl := inside_of_init hinit
  obtain ⟨-, -, -, hi⟩ := slot_eq hinit hslot
  have hmod : i % 2 ^ 32 = i :=
    Nat.mod_eq_of_lt (hi.trans (initAllColDesc_eq hinit).1)
  obtain ⟨row, t, mid, hnew, htuple, htop⟩ :=
    exists_first_tuple hinit (Nat.zero_lt_of_lt hi)
  have hsound := sound_new hnew
  obtain ⟨ht, hmid, -⟩ := tupleFor_spec hsound htuple
  obtain ⟨h₁, halloc, -⟩ := allocate_bump htop
  -- a byte the object does not start with
  obtain ⟨b, hb⟩ : ∃ b : Byte,
      (littleEndian 8 (mid.heap.top + 16)).take 1 ≠ [b] := by
    by_cases hzero : (littleEndian 8 (mid.heap.top + 16)).take 1 = [0]
    · exact ⟨1, by rw [hzero]; decide⟩
    · exact ⟨0, hzero⟩
  obtain ⟨h₂, hstring⟩ :=
    Allocator.newString_short (s := [b]) halloc (Nat.le_of_ble_eq_true rfl)
  have hslot' : layout.slots[i % 2 ^ 32]? = some slot := hmod.symm ▸ hslot
  obtain ⟨t', ht', hmem, hin⟩ := cell_inside (r := 0) hl hmid
    (cell_eq_some.mpr ⟨t, slot, ht, hslot', rfl⟩)
  rw [hl.counts _ _ hslot', htype] at hin
  obtain ⟨h₃, hdata⟩ := toData_string_returns hmem hin hstring
  obtain ⟨row', hset⟩ := setColValue_returns (c := ⟨0, i, .string [b]⟩)
    htuple hslot' htype.symm hdata
  have htyped : ExprValueType.string ∈ codecTypes := by decide
  refine ⟨bump, row, ⟨0, i, .string [b]⟩, row', ⟨htyped,
    ⟨_, row, [], [], hnew, rfl⟩, ⟨row', [], [], hset, rfl, by simp⟩⟩, ?_⟩
  intro hget
  obtain ⟨t₁, mid₁, str, object, htuple₁, hholds, hobject⟩ :=
    setColValue_holds hl hsound (by exact htyped) hset
  obtain ⟨-, rfl⟩ := Prod.mk.inj (Except.ok.inj (htuple.symm.trans htuple₁))
  obtain ⟨heap, hstring', rfl⟩ := hobject [b] rfl
  obtain ⟨rfl, rfl⟩ :=
    Prod.mk.inj (Option.some.inj (hstring.symm.trans hstring'))
  have hspell : (read h₂.bytes mid.heap.top stringSize).take 1 = [b] :=
    ((hholds.getColValue_iff hl (setColValue_spec hl hsound hset).1
      (by exact htyped)).mp hget [b] rfl).2
  obtain ⟨chars, hchars, hlocal⟩ := Allocator.read_newString hstring
  rw [hlocal (Nat.le_of_ble_eq_true rfl)] at hchars
  rw [← hchars, take_read (by decide)] at hb
  rw [take_read (by decide)] at hspell
  exact hb hspell

theorem newMax_type {type : ExprValueType} (h : type ∈ codecTypes) :
    (ExprValue.newMax type).type = type := by
  revert h
  cases type <;> decide

/-- The bytes of an empty number, and of the greatest one. -/
theorem cellBytes_newEmpty {type : ExprValueType} (hs : type ≠ .string) :
    ∀ b ∈ cellBytes 0 (.newEmpty type), b = 0 := by
  cases type <;> first
    | exact absurd rfl hs
    | decide +kernel

/-- No byte of a greatest number is zero. -/
theorem cellBytes_newMax {type : ExprValueType} (hs : type ≠ .string) :
    ∀ b ∈ cellBytes 0 (.newMax type), b ≠ 0 := by
  cases type <;> first
    | exact absurd rfl hs
    | decide +kernel

/-- The address of an object plays no part in a number's cell. -/
theorem cellBytes_number {v : ExprValue} (hs : v.type ≠ .string) (str : Nat) :
    cellBytes str v = cellBytes 0 v := by
  cases v <;> first
    | rfl
    | exact absurd rfl hs

/-- A number that is lost: the greatest number of a column whose slot overlaps
    was set after it. -/
theorem exists_lost_number {desc : RowDescriptor} {layout : Layout}
    {i j : Nat} {s s' : Slot} (hinit : initAllColDesc desc = .ok layout)
    (hij : i ≠ j) (hs : layout.slots[i]? = some s)
    (hs' : layout.slots[j]? = some s') (hover : ¬ s.span.Apart s'.span)
    (hcodec : s.type ∈ codecTypes) (hcodec' : s'.type ∈ codecTypes)
    (hnum : s.type ≠ .string) (hnum' : s'.type ≠ .string) :
    ∃ alloc row c row', LastSet alloc layout row c row'
      ∧ row'.getColValue layout c.rowId c.colId ≠ .ok c.value := by
  have hl := inside_of_init hinit
  obtain ⟨-, -, -, hi⟩ := slot_eq hinit hs
  obtain ⟨-, -, -, hj⟩ := slot_eq hinit hs'
  have hlen := (initAllColDesc_eq hinit).1
  have himod : i % 2 ^ 32 = i := Nat.mod_eq_of_lt (hi.trans hlen)
  have hjmod : j % 2 ^ 32 = j := Nat.mod_eq_of_lt (hj.trans hlen)
  rw [← himod] at hs
  rw [← hjmod] at hs'
  have htype := newMax_type hcodec
  have htype' := ExprValue.newEmpty_type s'.type
  obtain ⟨row, t, mid, hnew, htuple, -⟩ :=
    exists_first_tuple hinit (Nat.zero_lt_of_lt hi)
  have hsound := sound_new hnew
  obtain ⟨row₁, hset⟩ := setColValue_number_returns
    (c := ⟨0, j, .newEmpty s'.type⟩) hl hsound htuple hs' htype'
    (by rwa [htype']) (by rwa [htype'])
  obtain ⟨hsound₁, -, -⟩ := setColValue_spec hl hsound hset
  obtain ⟨_, _, _, _, -, hholds, -⟩ :=
    setColValue_holds hl hsound (by rwa [htype']) hset
  obtain ⟨u, slot, hu, hslot, -, -⟩ := hholds.cell
  obtain rfl := Option.some.inj (hs'.symm.trans hslot)
  obtain ⟨row₂, hset₂⟩ := setColValue_number_returns
    (c := ⟨0, i, .newMax s.type⟩) hl hsound₁ (tupleFor_of_some hu) hs htype
    (by rwa [htype]) (by rwa [htype])
  obtain ⟨hsound₂, -, hext⟩ := setColValue_spec hl hsound₁ hset₂
  have hu₂ := hext.tuples _ u hu
  have hcalls : row₁.setColValues bump layout [⟨0, i, .newMax s.type⟩]
      = .ok ([.ok], row₂) := by
    rw [setColValues, hset₂]
    rfl
  refine ⟨bump, row, ⟨0, j, .newEmpty s'.type⟩, row₂,
    ⟨by rwa [htype'], ⟨_, row, [], [], hnew, rfl⟩,
      ⟨row₁, _, _, hset, hcalls, ?_⟩⟩, ?_⟩
  · intro e he _ hcell
    obtain rfl := List.mem_singleton.mp he
    have hmod := congrArg Prod.snd hcell
    simp only [himod, hjmod] at hmod
    exact hij hmod.symm
  · intro hget
    -- what the second call wrote, and what the first column reads as
    obtain ⟨_, _, str, _, -, hholds₂, -⟩ :=
      setColValue_holds hl hsound₁ (by rwa [htype]) hset₂
    obtain ⟨u', slot, hu', hslot', -, hread⟩ := hholds₂.cell
    obtain rfl := Option.some.inj (hs.symm.trans hslot')
    obtain rfl := Option.some.inj (Option.some.inj (hu₂.symm.trans hu'))
    obtain ⟨t', -, hmem, hin⟩ := cell_inside hl hsound₂
      (cell_eq_some.mpr ⟨u, s', hu₂, hs', rfl⟩)
    rw [getColValue_of_some hu₂ hs'] at hget
    rw [hl.counts _ _ hs', ← htype'] at hin
    have hzero := (@toExprValue_number_iff _ (.newEmpty s'.type) _ 0 _
      hmem hin (by rwa [htype']) (by rwa [htype'])).mp (by rwa [htype'])
    rw [htype', ← hl.counts _ _ hs'] at hzero
    obtain ⟨x, ⟨hx, hx₂⟩, hx', hx₂'⟩ := Span.exists_mem_of_not_apart
      (by rw [Slot.span, hl.counts _ _ hs]; exact typeSize_pos _)
      (by rw [Slot.span, hl.counts _ _ hs']; exact typeSize_pos _) hover
    simp only [Slot.span, Span.stop] at hx hx₂ hx' hx₂'
    rw [cellBytes_number (by rwa [htype]) str] at hread
    refine cellBytes_newMax hnum _ (hread ▸ mem_read (x := u + x)
      (by omega) (by omega)) ?_
    exact cellBytes_newEmpty hnum' _ (hzero ▸ mem_read (by omega) (by omega))

end TupleRow

/-- `GetColValue` returns the value of the last successful `SetColValue`, of
    every column and in every run. -/
def ReadsLast (desc : RowDescriptor) : Prop :=
  ∃ layout, initAllColDesc desc = .ok layout
    ∧ ∀ alloc row c row', TupleRow.LastSet alloc layout row c row' →
      row'.getColValue layout c.rowId c.colId = .ok c.value

section ReadsLast

variable {desc : RowDescriptor}

/-- A layout that always reads back what was set has no strings. -/
theorem not_string_of_readsLast (h : ReadsLast desc) :
    ∀ c ∈ desc, c.type ≠ .string := by
  obtain ⟨layout, hinit, hreads⟩ := h
  intro c hc htype
  obtain ⟨i, hi⟩ := List.mem_iff_getElem?.mp hc
  have hslot := (initAllColDesc_eq hinit).2.1 i
  rw [hi, Option.map_some] at hslot
  obtain ⟨alloc, row, c, row', hlast, hlost⟩ :=
    TupleRow.exists_lost_string hinit hslot htype
  exact hlost (hreads alloc row c row' hlast)

/-- The offsets of a row that reads its last values do not wrap. -/
theorem fits_of_readsLast (hd : ∀ c ∈ desc, c.type ∈ codecTypes)
    (h : ReadsLast desc) : Fits desc := by
  have hstring := not_string_of_readsLast h
  obtain ⟨layout, hinit, hreads⟩ := h
  have htype : ∀ {i : Nat} {s : Slot}, layout.slots[i]? = some s →
      s.type ∈ codecTypes ∧ s.type ≠ .string := by
    intro i s hs
    rw [(initAllColDesc_eq hinit).2.1] at hs
    obtain ⟨c, hc, rfl⟩ := Option.map_eq_some_iff.mp hs
    have hmem := List.mem_of_getElem? hc
    exact ⟨hd c hmem, hstring c hmem⟩
  refine fits_of_apart hinit ?_
  intro i j s s' hij hs hs'
  by_contra hover
  obtain ⟨alloc, row, c, row', hlast, hlost⟩ := TupleRow.exists_lost_number
    hinit hij hs hs' hover (htype hs).1 (htype hs').1 (htype hs).2
    (htype hs').2
  exact hlost (hreads alloc row c row' hlast)

/-- What is set is read back, whatever is set and in whatever order, just when
    no column has strings and the offset of the last one has 32 bits.  Of a
    column of strings a value is read back just when its object spells it. -/
theorem readsLast_iff (hd : ∀ c ∈ desc, c.type ∈ codecTypes) :
    (ReadsLast desc ↔ Fits desc ∧ ∀ c ∈ desc, c.type ≠ .string)
      ∧ (Fits desc → ∀ layout, initAllColDesc desc = .ok layout →
        ∀ alloc row c row', TupleRow.LastSet alloc layout row c row' →
          (row'.getColValue layout c.rowId c.colId = .ok c.value
            ↔ TupleRow.SpellsItself alloc layout row c)) := by
  refine ⟨⟨fun h => ⟨fits_of_readsLast hd h, not_string_of_readsLast h⟩, ?_⟩,
    ?_⟩
  · rintro ⟨hf, hstring⟩
    have hinit : initAllColDesc desc = .ok (initFrom 0 desc) := if_pos hf.1
    refine ⟨_, hinit, ?_⟩
    intro alloc row c row' hlast
    refine (hlast.getColValue_iff (sound_of_fits hf hinit)).mpr ?_
    intro s hs
    -- a call with a string is refused
    obtain ⟨row₁, _, _, hset, -⟩ := hlast.last
    obtain ⟨t, slot, mid, -, hslot, hcase⟩ := TupleRow.setColValue_cases hset
    rcases hcase with ⟨-, hst, -⟩ | ⟨htype, -⟩
    · cases hst
    · rw [(initAllColDesc_eq hinit).2.1] at hslot
      obtain ⟨d, hd', rfl⟩ := Option.map_eq_some_iff.mp hslot
      refine absurd ?_ (hstring d (List.mem_of_getElem? hd'))
      rw [hs] at htype
      exact htype.symm
  · intro hf layout hinit alloc row c row' hlast
    exact hlast.getColValue_iff (sound_of_fits hf hinit)

/-- A byte and a number of 64 bits. -/
theorem readsLast_iff_numbers : ReadsLast [⟨.uint8, 0⟩, ⟨.int64, 1⟩] :=
  (readsLast_iff (by decide)).1.mpr ⟨by decide, by decide⟩

end ReadsLast

/-- In a row of one string the tuple is at address 8, the object of the first
    string at 20 and its characters at 36, which is what is read. -/
theorem address_is_read_for_string :
    (do
      let layout ← initAllColDesc [⟨.string, 0⟩]
      let row ← TupleRow.new bump layout Heap.empty
      let (_, row) ← row.setColValue bump layout ⟨0, 0, .string [97]⟩
      row.getColValue layout 0 0) = .ok (.string [36])
      ∧ ¬ ReadsLast [⟨.string, 0⟩] := by
  refine ⟨by decide +kernel, ?_⟩
  intro h
  exact not_string_of_readsLast h _ List.mem_cons_self rfl

end AmDb.Chunk

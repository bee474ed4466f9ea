import AmDb.Expression.ExprValue
import AmDb.Foundation.OwnedCells
import AmDb.Foundation.Run

/-! # Values as objects

    `ExprValue` in memory: a type, a union, and for a string an object of its
    own.  The special members of `expr_value.cc` work on these fields; a program
    declares variables, copies, assigns, moves and destroys them.  As long as no
    String without a string is made or taken and no number is assigned to a
    variable that has a string, the variables are values, `ExprValue`s. -/

namespace AmDb.Expr

open OwnedCells

/-- The strings made by `new`. -/
abbrev StringHeap := Heap Bytes

/-- The members of `expr::ExprValue`.  `u` is as wide as its widest integer. -/
structure ExprObject where
  u         : BitVec 64
  type      : ExprValueType
  varPtr    : Option Nat := none
  allocType : ExprValueType := .invalid
  deriving DecidableEq

/-- A member of the union is assigned; the bits above it stay. -/
def assignMember {w : Nat} (u : BitVec 64) (v : BitVec w) : BitVec 64 :=
  u >>> w <<< w ||| v.setWidth 64

/-- A member of the union reads back what was assigned to it. -/
theorem setWidth_assignMember {w : Nat} (hw : w ≤ 64) (u : BitVec 64)
    (v : BitVec w) : (assignMember u v).setWidth w = v := by
  refine BitVec.eq_of_getLsbD_eq ?_
  intro i hi
  have hi' : i < 64 := lt_of_lt_of_le hi hw
  simp [assignMember, hi, hi']

namespace ExprObject

variable (o : ExprObject) (heap : StringHeap)

/-- `SetVarPtr`. -/
def setVarPtr (allocType : ExprValueType) (p : Nat) : ExprObject :=
  { o with varPtr := some p, allocType }

/-- `StringValue`. -/
def stringValue : Exec Bytes :=
  if o.type ≠ .string then .error .assertion
  else match o.varPtr.bind heap.cell with
    | none => .error .undefined
    | some s => .ok s

/-- The `switch` of the copy constructor and of the assignment, on an object
    that took `type_` and `u`. -/
def takeString (other : ExprObject) : Exec (ExprObject × StringHeap) :=
  match other.allocType with
  | .string => do
      let s ← other.stringValue heap
      let (p, heap) := heap.new s
      return (o.setVarPtr .string p, heap)
  | _ => .ok (o, heap)

/-- The copy constructor. -/
def copy (other : ExprObject) : Exec (ExprObject × StringHeap) :=
  takeString { u := other.u, type := other.type } heap other

/-- `operator=`, for two objects.  It leaves `var_ptr` and `alloc_type` as they
    are unless the other one has a string. -/
def assign (other : ExprObject) : Exec (ExprObject × StringHeap) :=
  takeString { o with type := other.type, u := other.u } heap other

/-- The move constructor: the new object and what is left of the other. -/
def move (other : ExprObject) : ExprObject × ExprObject :=
  match other.allocType with
  | .string =>
      ({ u := other.u, type := other.type, varPtr := other.varPtr,
          allocType := other.allocType },
        { other with varPtr := none, allocType := .invalid })
  | _ => ({ u := other.u, type := other.type }, other)

/-- The destructor.  No string is deleted twice. -/
def destroy : Exec StringHeap :=
  match o.varPtr with
  | none => .ok heap
  | some p =>
      if o.allocType ≠ .string then .ok heap
      else match heap.cell p with
        | none => .error .undefined
        | some _ => .ok (heap.delete p)

/-- What the accessor of the type returns. -/
def value : Option ExprValue :=
  match o.type with
  | .null => some .null
  | .minInf => some .minInf
  | .maxInf => some .maxInf
  | .invalid => some .invalid
  | .bool => some (.bool (o.u.setWidth 8))
  | .int8 => some (.int8 (o.u.setWidth 8))
  | .uint8 => some (.uint8 (o.u.setWidth 8))
  | .int32 => some (.int32 (o.u.setWidth 32))
  | .uint32 => some (.uint32 (o.u.setWidth 32))
  | .int64 => some (.int64 o.u)
  | .uint64 => some (.uint64 o.u)
  | .string => (o.varPtr.bind heap.cell).map .string

end ExprObject

/-! ## `New*` -/

/-- `NewEmpty`; `unset` is what is in the union. -/
def newEmptyObject (type : ExprValueType) (unset : BitVec 64) : ExprObject :=
  { u := unset, type }

/-- A value of a type, a member of the union assigned. -/
def newMember (type : ExprValueType) {w : Nat} (v : BitVec w)
    (unset : BitVec 64) : ExprObject :=
  { newEmptyObject type unset with u := assignMember unset v }

/-- A call of one of the functions `New*`. -/
inductive Construction where
  | newNull (type : ExprValueType)
  | newEmpty (type : ExprValueType)
  | newBool (v : Bool)
  | newInt8 (v : BitVec 8)
  | newUInt8 (v : BitVec 8)
  | newInt32 (v : BitVec 32)
  | newUInt32 (v : BitVec 32)
  | newInt64 (v : BitVec 64)
  | newUInt64 (v : BitVec 64)
  | newString (s : Bytes)
  | newMax (type : ExprValueType)
  | newMin (type : ExprValueType)
  deriving DecidableEq

/-- An object with a new string. -/
def withNewString (o : ExprObject) (s : Bytes) (heap : StringHeap) :
    ExprObject × StringHeap :=
  let (p, heap) := heap.new s
  (o.setVarPtr .string p, heap)

namespace Construction

/-- The object, and the strings. -/
def make (unset : BitVec 64) (heap : StringHeap) :
    Construction → Exec (ExprObject × StringHeap)
  | newNull type => .ok (newEmptyObject type unset, heap)
  | newEmpty type => .ok (newEmptyObject type unset, heap)
  | newBool v => .ok (newMember .bool (if v then 1#8 else 0#8) unset, heap)
  | newInt8 v => .ok (newMember .int8 v unset, heap)
  | newUInt8 v => .ok (newMember .uint8 v unset, heap)
  | newInt32 v => .ok (newMember .int32 v unset, heap)
  | newUInt32 v => .ok (newMember .uint32 v unset, heap)
  | newInt64 v => .ok (newMember .int64 v unset, heap)
  | newUInt64 v => .ok (newMember .uint64 v unset, heap)
  | newString s => .ok (withNewString (newEmptyObject .string unset) s heap)
  | newMax type =>
      let value := newEmptyObject type unset
      match type with
      | .bool | .uint8 =>
          value.assign heap (newMember .uint8 (BitVec.allOnes 8) unset)
      | .int8 => value.assign heap (newMember .int8 (BitVec.intMax 8) unset)
      | .uint32 =>
          value.assign heap (newMember .uint32 (BitVec.allOnes 32) unset)
      | .int32 => value.assign heap (newMember .int32 (BitVec.intMax 32) unset)
      | .uint64 =>
          value.assign heap (newMember .uint64 (BitVec.allOnes 64) unset)
      | .int64 => value.assign heap (newMember .int64 (BitVec.intMax 64) unset)
      | .string => .ok (withNewString value [] heap)
      | _ => .ok (value, heap)
  | newMin type =>
      let value := newEmptyObject type unset
      match type with
      | .bool | .uint8 => value.assign heap (newMember .uint8 0#8 unset)
      | .int8 => value.assign heap (newMember .int8 (BitVec.intMin 8) unset)
      | .uint32 => value.assign heap (newMember .uint32 0#32 unset)
      | .int32 => value.assign heap (newMember .int32 (BitVec.intMin 32) unset)
      | .uint64 => value.assign heap (newMember .uint64 0#64 unset)
      | .int64 => .ok ({ value with u := assignMember unset 0#64 }, heap)
      | .string => .ok (withNewString value [] heap)
      | _ => .ok (value, heap)

/-- The value it stands for; `NewEmpty` leaves a number as it finds it. -/
def result (unset : BitVec 64) : Construction → Option ExprValue
  | newNull type => (newEmptyObject type unset).value {}
  | newEmpty type => (newEmptyObject type unset).value {}
  | newBool v => some (.bool (if v then 1#8 else 0#8))
  | newInt8 v => some (.int8 v)
  | newUInt8 v => some (.uint8 v)
  | newInt32 v => some (.int32 v)
  | newUInt32 v => some (.uint32 v)
  | newInt64 v => some (.int64 v)
  | newUInt64 v => some (.uint64 v)
  | newString s => some (.string s)
  | newMax type => some (.newMax type)
  | newMin type => some (.newMin type)

/-- A String is made without a string. -/
def Bare (c : Construction) : Prop :=
  c = .newNull .string ∨ c = .newEmpty .string

end Construction

/-! ## Objects that were made properly -/

namespace ExprObject

/-- A pointer is there just when `alloc_type` says so, and only in a String. -/
structure Sound (o : ExprObject) : Prop where
  alloc : o.allocType = .string ↔ o.varPtr ≠ none
  type  : o.varPtr ≠ none → o.type = .string

/-- A String without a string, as `NewEmpty` and a move leave it. -/
def Bare (o : ExprObject) : Prop := o.type = .string ∧ o.varPtr = none

instance (o : ExprObject) : Decidable o.Bare :=
  inferInstanceAs (Decidable (_ ∧ _))

variable {o other : ExprObject} {heap heap' : StringHeap} {p : Nat} {s : Bytes}

theorem Sound.of_none (hptr : o.varPtr = none) (halloc : o.allocType ≠ .string) :
    o.Sound :=
  ⟨⟨fun h => absurd h halloc, fun h => absurd hptr h⟩, fun h => absurd hptr h⟩

theorem Sound.setVarPtr (htype : o.type = .string) (p : Nat) :
    (o.setVarPtr .string p).Sound :=
  ⟨⟨fun _ => Option.some_ne_none p, fun _ => rfl⟩, fun _ => htype⟩

/-- Taking over from an object without a string leaves the heap. -/
theorem takeString_none (hs : other.Sound) (hptr : other.varPtr = none) :
    o.takeString heap other = .ok (o, heap) := by
  have halloc : other.allocType ≠ .string := fun h => hs.alloc.mp h hptr
  rw [takeString]
  split
  · case _ h => exact absurd h halloc
  · rfl

/-- From one with a string it makes a copy. -/
theorem takeString_some (hs : other.Sound) (hptr : other.varPtr = some p)
    (hcell : heap.cell p = some s) :
    o.takeString heap other = .ok (withNewString o s heap) := by
  have hne : other.varPtr ≠ none := by
    rw [hptr]
    exact Option.some_ne_none p
  rw [takeString, hs.alloc.mpr hne]
  simp only [stringValue, hs.type hne, hptr, Option.bind_some, hcell, ne_eq,
    not_true_eq_false, if_false]
  rfl

/-- The value of a number is in its own members. -/
theorem value_of_number (h : o.type ≠ .string) :
    o.value heap' = o.value heap := by
  rw [value, value]
  cases htype : o.type <;> first | rfl | exact absurd htype h

theorem value_of_string (h : o.type = .string) :
    o.value heap = (o.varPtr.bind heap.cell).map .string := by
  rw [value, h]

/-- A new string is the object's value. -/
theorem value_withNewString (h : o.type = .string) (s : Bytes) :
    (withNewString o s heap).1.value (withNewString o s heap).2
      = some (.string s) := by
  have htype : (withNewString o s heap).1.type = .string := h
  rw [value_of_string htype]
  show ((some (heap.new s).1).bind (heap.new s).2.cell).map _ = _
  rw [Option.bind_some, Heap.cell_new_self]
  rfl

/-- Numbers with the same members. -/
theorem value_congr (htype : o.type = other.type) (hu : o.u = other.u)
    (h : other.type ≠ .string) : o.value heap = other.value heap := by
  rw [value, value, htype, hu]
  cases hother : other.type <;> first | rfl | exact absurd hother h

theorem value_of_fields (htype : o.type = other.type) (hu : o.u = other.u)
    (hptr : o.varPtr = other.varPtr) : o.value heap = other.value heap := by
  rw [value, value, htype, hu, hptr]

/-- A number object always has a value. -/
theorem exists_value_of_number (h : o.type ≠ .string) :
    ∃ v, o.value heap = some v := by
  rw [value]
  cases htype : o.type with
  | string => exact absurd htype h
  | _ => exact ⟨_, rfl⟩

/-- The value of an object has its type. -/
theorem type_of_value {v : ExprValue} (h : o.value heap = some v) :
    o.type = v.type := by
  by_cases htype : o.type = .string
  · rw [value_of_string htype, Option.map_eq_some_iff] at h
    obtain ⟨text, -, rfl⟩ := h
    exact htype
  · rw [value] at h
    cases hother : o.type with
    | string => exact absurd hother htype
    | _ =>
        rw [hother] at h
        rw [← Option.some.inj h]
        rfl

/-- A move hands over what there is; what is left has no string. -/
theorem move_spec (hs : other.Sound) :
    (other.move.1.Sound ∧ other.move.1.type = other.type
        ∧ other.move.1.u = other.u ∧ other.move.1.varPtr = other.varPtr)
      ∧ other.move.2.Sound ∧ other.move.2.varPtr = none := by
  by_cases halloc : other.allocType = .string
  · have hmove : other.move
        = (other, { other with varPtr := none, allocType := .invalid }) := by
      rw [move, halloc]
    rw [hmove]
    exact ⟨⟨hs, rfl, rfl, rfl⟩, .of_none rfl (by rintro ⟨⟩), rfl⟩
  · have hptr : other.varPtr = none := by
      by_contra hne
      exact halloc (hs.alloc.mpr hne)
    have hmove : other.move = ({ u := other.u, type := other.type }, other) := by
      rw [move]
      split
      · case _ h => exact absurd h halloc
      · rfl
    rw [hmove]
    exact ⟨⟨.of_none rfl (by rintro ⟨⟩), rfl, rfl, hptr.symm⟩, hs, hptr⟩

theorem destroy_none (hptr : o.varPtr = none) : o.destroy heap = .ok heap := by
  rw [destroy, hptr]

/-- An object with a string deletes it. -/
theorem destroy_some (hs : o.Sound) (hptr : o.varPtr = some p)
    (hcell : heap.cell p = some s) : o.destroy heap = .ok (heap.delete p) := by
  have halloc : o.allocType = .string := by
    refine hs.alloc.mpr ?_
    rw [hptr]
    exact Option.some_ne_none p
  rw [destroy, hptr]
  simp only [halloc, ne_eq, not_true_eq_false, if_false, hcell]

/-- What the functions `New*`, a copy and an assignment fill a variable with: a
    number, or a String with a new string. -/
inductive Filled (heap : StringHeap) : ExprObject → StringHeap → Prop
  | number {o : ExprObject} (hptr : o.varPtr = none)
      (halloc : o.allocType ≠ .string) (htype : o.type ≠ .string) :
      Filled heap o heap
  | string {o : ExprObject} (s : Bytes) (htype : o.type = .string) :
      Filled heap (withNewString o s heap).1 (withNewString o s heap).2

theorem Filled.sound (h : Filled heap o heap') : o.Sound := by
  cases h with
  | number hptr halloc _ => exact .of_none hptr halloc
  | string s htype => exact .setVarPtr htype _

/-- An object that was filled has its value. -/
theorem Filled.not_bare (h : Filled heap o heap') : ¬ o.Bare := by
  rintro ⟨htype, hptr⟩
  cases h with
  | number _ _ hnumber => exact hnumber htype
  | string s _ => cases hptr

/-- A copy of an object that is not bare, onto one without a string of its own
    unless the copy brings one. -/
theorem takeString_filled (hs : other.Sound) (hbare : ¬ other.Bare)
    (hlive : ∀ p, other.varPtr = some p → ∃ s, heap.cell p = some s)
    (htype : o.type = other.type) (hu : o.u = other.u)
    (ho : other.varPtr = none → o.varPtr = none ∧ o.allocType ≠ .string) :
    ∃ o' heap', o.takeString heap other = .ok (o', heap')
      ∧ Filled heap o' heap' ∧ o'.type = other.type
      ∧ o'.value heap' = other.value heap := by
  cases hptr : other.varPtr with
  | none =>
      have hnumber : other.type ≠ .string := fun h => hbare ⟨h, hptr⟩
      obtain ⟨hnone, halloc⟩ := ho hptr
      exact ⟨o, heap, takeString_none hs hptr,
        .number hnone halloc (by rw [htype]; exact hnumber), htype,
        value_congr htype hu hnumber⟩
  | some p =>
      obtain ⟨s, hcell⟩ := hlive p hptr
      have hstring : other.type = .string := by
        refine hs.type ?_
        rw [hptr]
        exact Option.some_ne_none p
      have ho' : o.type = .string := htype.trans hstring
      refine ⟨_, _, takeString_some hs hptr hcell, .string s ho', htype, ?_⟩
      refine (value_withNewString ho' s).trans ?_
      rw [value_of_string hstring, hptr, Option.bind_some, hcell]
      rfl

end ExprObject

namespace Construction

section Make

variable (unset : BitVec 64) (heap : StringHeap)

/-- What a function of the family `New*` makes. -/
def Makes (c : Construction) : Prop :=
  ∃ o heap', c.make unset heap = .ok (o, heap')
    ∧ ExprObject.Filled heap o heap' ∧ o.value heap' = c.result unset

/-- A constructor of a number makes what it says. -/
theorem makes_number {c : Construction} {u : BitVec 64} {type : ExprValueType}
    (hmake : c.make unset heap = .ok ({ u, type }, heap))
    (htype : type ≠ .string)
    (hvalue : ({ u, type } : ExprObject).value heap = c.result unset) :
    Makes unset heap c :=
  ⟨_, heap, hmake, .number rfl (by rintro ⟨⟩) htype, hvalue⟩

/-- A constructor that sets a new string makes its value. -/
theorem makes_string {c : Construction} {o : ExprObject} (s : Bytes)
    (hmake : c.make unset heap = .ok (withNewString o s heap))
    (htype : o.type = .string) (hresult : c.result unset = some (.string s)) :
    Makes unset heap c :=
  ⟨_, _, hmake, .string s htype,
    (ExprObject.value_withNewString htype s).trans hresult.symm⟩

/-- A member of the union reads as it was assigned. -/
theorem makes_member {c : Construction} {type : ExprValueType} {w : Nat}
    {v : BitVec w} {f : BitVec w → ExprValue}
    (hmake : c.make unset heap
      = .ok ({ u := assignMember unset v, type }, heap))
    (htype : type ≠ .string) (hw : w ≤ 64)
    (hread : ∀ u, ({ u, type } : ExprObject).value heap
      = some (f (u.setWidth w)))
    (hresult : c.result unset = some (f v)) : Makes unset heap c := by
  refine makes_number unset heap hmake htype ?_
  rw [hread, setWidth_assignMember hw, hresult]

/-- A function `New*` that makes no bare String makes the value it says. -/
theorem makes {c : Construction} (hc : ¬ c.Bare) : Makes unset heap c := by
  -- a number of 64 bits fills its member
  have hwide : ∀ (f : BitVec 64 → ExprValue) (u : BitVec 64),
      some (f u) = some (f (u.setWidth 64)) := by
    intro f u
    rw [BitVec.setWidth_eq]
  -- a constructor that sets the type alone
  have hempty : ∀ {type}, (type = .string → c.Bare) →
      c.make unset heap = .ok (newEmptyObject type unset, heap) →
      c.result unset = (newEmptyObject type unset).value {} →
      Makes unset heap c := by
    intro type hbare hmake hresult
    have htype : type ≠ .string := fun h => hc (hbare h)
    exact makes_number unset heap hmake htype
      ((ExprObject.value_of_number htype).trans hresult.symm)
  -- one case for each constructor of the class
  cases c with
  | newNull type =>
      exact hempty (fun h => Or.inl (by rw [h])) rfl rfl
  | newEmpty type =>
      exact hempty (fun h => Or.inr (by rw [h])) rfl rfl
  | newBool v =>
      exact makes_member unset heap rfl (by rintro ⟨⟩) (by decide) (fun _ => rfl)
        rfl
  | newInt8 v =>
      exact makes_member unset heap rfl (by rintro ⟨⟩) (by decide) (fun _ => rfl)
        rfl
  | newUInt8 v =>
      exact makes_member unset heap rfl (by rintro ⟨⟩) (by decide) (fun _ => rfl)
        rfl
  | newInt32 v =>
      exact makes_member unset heap rfl (by rintro ⟨⟩) (by decide) (fun _ => rfl)
        rfl
  | newUInt32 v =>
      exact makes_member unset heap rfl (by rintro ⟨⟩) (by decide) (fun _ => rfl)
        rfl
  | newInt64 v =>
      exact makes_member unset heap rfl (by rintro ⟨⟩) le_rfl (hwide .int64) rfl
  | newUInt64 v =>
      exact makes_member unset heap rfl (by rintro ⟨⟩) le_rfl (hwide .uint64) rfl
  | newString s => exact makes_string unset heap s rfl rfl rfl
  | newMax type =>
      cases type with
      | bool | uint8 | int8 | uint32 | int32 =>
          exact makes_member unset heap rfl (by rintro ⟨⟩) (by decide)
            (fun _ => rfl) rfl
      | int64 =>
          exact makes_member unset heap rfl (by rintro ⟨⟩) le_rfl (hwide .int64) rfl
      | uint64 =>
          exact makes_member unset heap rfl (by rintro ⟨⟩) le_rfl (hwide .uint64)
            rfl
      | string => exact makes_string unset heap [] rfl rfl rfl
      | null | minInf | maxInf | invalid =>
          exact makes_number unset heap rfl (by rintro ⟨⟩) rfl
  | newMin type =>
      cases type with
      | bool | uint8 | int8 | uint32 | int32 =>
          exact makes_member unset heap rfl (by rintro ⟨⟩) (by decide)
            (fun _ => rfl) rfl
      | int64 =>
          exact makes_member unset heap rfl (by rintro ⟨⟩) le_rfl (hwide .int64) rfl
      | uint64 =>
          exact makes_member unset heap rfl (by rintro ⟨⟩) le_rfl (hwide .uint64)
            rfl
      | string => exact makes_string unset heap [] rfl rfl rfl
      | null | minInf | maxInf | invalid =>
          exact makes_number unset heap rfl (by rintro ⟨⟩) rfl

end Make

end Construction

/-! ## Variables -/

/-- The variables of a program and the strings. -/
structure Vars (ν : Type) where
  object : ν → Option ExprObject := fun _ => none
  heap   : StringHeap := {}

/-- What a program does with its variables. -/
inductive VarOp (ν : Type) where
  | construct (x : ν) (c : Construction) (unset : BitVec 64)
  | copy (x y : ν)
  | assign (x y : ν)
  | move (x y : ν)
  | destroy (x : ν)
  deriving DecidableEq

namespace Vars

variable {ν : Type} [DecidableEq ν]

/-- The object becomes that of the variable. -/
def put (s : Vars ν) (x : ν) (r : ExprObject × StringHeap) : Vars ν :=
  { object := Function.update s.object x (some r.1), heap := r.2 }

/-- The variable is gone. -/
def drop (s : Vars ν) (x : ν) (heap : StringHeap) : Vars ν :=
  { object := Function.update s.object x none, heap }

/-- A variable is constructed once and used while it lives. -/
def step (s : Vars ν) : VarOp ν → Exec (Vars ν)
  | .construct x c unset =>
      match s.object x with
      | some _ => .error .undefined
      | none => do
          let r ← c.make unset s.heap
          return s.put x r
  | .copy x y =>
      match s.object x, s.object y with
      | none, some other => do
          let r ← ExprObject.copy s.heap other
          return s.put x r
      | _, _ => .error .undefined
  | .assign x y =>
      match s.object x, s.object y with
      | some this, some other =>
          if x = y then .ok s
          else do
            let r ← this.assign s.heap other
            return s.put x r
      | _, _ => .error .undefined
  | .move x y =>
      match s.object x, s.object y with
      | none, some other =>
          let (this, other) := other.move
          .ok { s with
            object := Function.update (Function.update s.object y (some other))
              x (some this) }
      | _, _ => .error .undefined
  | .destroy x =>
      match s.object x with
      | none => .error .undefined
      | some this => do
          let heap ← this.destroy s.heap
          return s.drop x heap

/-- A step that returned. -/
def Stepped (s : Vars ν) (op : VarOp ν) (s' : Vars ν) : Prop :=
  s.step op = .ok s'

/-- The program uses the variables as it may. -/
def Declared (s : Vars ν) : VarOp ν → Prop
  | .construct x _ _ => s.object x = none
  | .copy x y => s.object x = none ∧ s.object y ≠ none
  | .assign x y => s.object x ≠ none ∧ s.object y ≠ none
  | .move x y => s.object x = none ∧ s.object y ≠ none
  | .destroy x => s.object x ≠ none

/-- No String without a string is made or taken, and no number is assigned to a
    variable that has a string. -/
def Keeps (s : Vars ν) : VarOp ν → Prop
  | .construct _ c _ => ¬ c.Bare
  | .copy _ y => ∀ other ∈ s.object y, ¬ other.Bare
  | .assign x y => x ≠ y → ∀ this ∈ s.object x, ∀ other ∈ s.object y,
      ¬ other.Bare ∧ (this.varPtr ≠ none → other.type = .string)
  | .move _ y => ∀ other ∈ s.object y, ¬ other.Bare
  | .destroy _ => True

/-- Such a step returned. -/
def KeepingStep (s : Vars ν) (op : VarOp ν) (s' : Vars ν) : Prop :=
  s.Keeps op ∧ s.Stepped op s'

/-- The variable gets a value, its own apart. -/
def Writes (x : ν) : VarOp ν → Prop
  | .construct y _ _ => y = x
  | .copy y _ => y = x
  | .assign y z => y = x ∧ z ≠ x
  | .move y _ => y = x
  | .destroy _ => False

/-- The variable was moved from, and got no value since. -/
def MovedFrom (x : ν) : List (VarOp ν) → Prop :=
  Since (fun op => ∃ z, op = .move z x) (Writes x)

/-- `type_` and `alloc_type` agree, and a String has a string of its own. -/
structure Whole (s : Vars ν) (x : ν) (o : ExprObject) : Prop where
  alloc  : o.allocType = .string ↔ o.type = .string
  string : o.type = .string → ∃ p text, o.varPtr = some p
    ∧ s.heap.cell p = some text
    ∧ ∀ y other, s.object y = some other → other.varPtr = some p → y = x

/-- The type and the value of a variable. -/
def typeOf (s : Vars ν) (x : ν) : Option ExprValueType :=
  (s.object x).map ExprObject.type

def value (s : Vars ν) (x : ν) : Option ExprValue :=
  (s.object x).bind (fun o => o.value s.heap)

/-- The variables on their own: what a step does to their values.  Nothing is
    said of what a move leaves. -/
def ValueStep (values : ν → Option ExprValue) (op : VarOp ν)
    (values' : ν → Option ExprValue) : Prop :=
  match op with
  | .construct x c unset => values' = Function.update values x (c.result unset)
  | .copy x y => values' = Function.update values x (values y)
  | .assign x y => values' = Function.update values x (values y)
  | .move x y => values' x = values y
      ∧ ∀ z, z ≠ x → z ≠ y → values' z = values z
  | .destroy x => values' = Function.update values x none

/-- Whose string is whose. -/
def owner (s : Vars ν) (x : ν) : Option Nat :=
  (s.object x).bind ExprObject.varPtr

/-- The objects are sound and share no string. -/
structure Valid (s : Vars ν) : Prop where
  sound : ∀ x o, s.object x = some o → o.Sound
  owned : Owned s.owner s.heap

section Put

variable {s s' : Vars ν} {x y : ν} {o other : ExprObject} {heap : StringHeap}
  {v : ExprValue}

theorem object_put_self : (s.put x (o, heap)).object x = some o :=
  Function.update_self ..

theorem object_put_ne (hy : y ≠ x) :
    (s.put x (o, heap)).object y = s.object y :=
  Function.update_of_ne hy ..

theorem object_drop_self : (s.drop x heap).object x = none :=
  Function.update_self ..

theorem object_drop_ne (hy : y ≠ x) :
    (s.drop x heap).object y = s.object y :=
  Function.update_of_ne hy ..

theorem owner_drop_self : (s.drop x heap).owner x = none := by
  rw [owner, object_drop_self]
  rfl

theorem owner_drop_ne (hy : y ≠ x) : (s.drop x heap).owner y = s.owner y := by
  rw [owner, owner, object_drop_ne hy]

omit [DecidableEq ν] in
theorem owner_eq (h : s.object x = some o) : s.owner x = o.varPtr := by
  rw [owner, h]
  rfl

omit [DecidableEq ν] in
theorem value_eq (h : s.object x = some o) : s.value x = o.value s.heap := by
  rw [value, h]
  rfl

omit [DecidableEq ν] in
/-- A variable keeps its value with its members and its string. -/
theorem value_frame (hobject : s'.object y = s.object y)
    (hc : contents s'.owner s'.heap y = contents s.owner s.heap y) :
    s'.value y = s.value y := by
  cases ho : s.object y with
  | none =>
      rw [value, value, hobject, ho]
      rfl
  | some o =>
      have ho' := hobject.trans ho
      rw [value_eq ho, value_eq ho']
      by_cases htype : o.type = .string
      · rw [contents, contents, owner_eq ho, owner_eq ho'] at hc
        rw [ExprObject.value_of_string htype, ExprObject.value_of_string htype,
          hc]
      · exact ExprObject.value_of_number htype

/-- A variable that is filled. -/
theorem Valid.put (hv : s.Valid) (hf : ExprObject.Filled s.heap o heap) :
    (s.put x (o, heap)).Valid := by
  have hrest : ∀ y, y ≠ x → (s.put x (o, heap)).owner y = s.owner y := by
    intro y hy
    rw [owner, owner, object_put_ne hy]
  refine ⟨?_, ?_⟩
  · intro y other hy
    by_cases hyx : y = x
    · rw [hyx, object_put_self] at hy
      rw [← Option.some.inj hy]
      exact hf.sound
    · rw [object_put_ne hyx] at hy
      exact hv.sound y other hy
  · have hself := owner_eq (s := s.put x (o, heap)) (x := x) object_put_self
    cases hf with
    | number hptr _ _ => exact hv.owned.forget (hself.trans hptr) hrest
    | string text _ => exact hv.owned.fresh text hself hrest

/-- Putting a filled object changes the value of its variable only. -/
theorem Valid.value_put (hv : s.Valid) (hf : ExprObject.Filled s.heap o heap) :
    (s.put x (o, heap)).value
      = Function.update s.value x (o.value heap) := by
  funext y
  by_cases hyx : y = x
  · rw [hyx, Function.update_self, value_eq object_put_self]
    rfl
  · rw [Function.update_of_ne hyx]
    have hobject := @object_put_ne _ _ s _ _ o heap hyx
    refine value_frame hobject ?_
    have howner : (s.put x (o, heap)).owner y = s.owner y := by
      rw [owner, owner, hobject]
    cases hf with
    | number _ _ _ =>
        rw [contents, contents, howner]
        rfl
    | string text _ => exact hv.owned.contents_new text howner

end Put

/-! ## Steps -/

section Steps

variable {s s' : Vars ν} {x y z : ν} {o other : ExprObject} {op : VarOp ν}
  {h : List (VarOp ν)}

/-- What a step leaves: sound objects, values as the step says, and no bare
    String but one it moved from or one that was there. -/
structure Kept (s : Vars ν) (op : VarOp ν) (s' : Vars ν) : Prop where
  valid  : s'.Valid
  values : ValueStep s.value op s'.value
  bare   : ∀ z o, s'.object z = some o → o.Bare →
    (∃ x, op = .move x z) ∨ (s.object z = some o ∧ ¬ Writes z op)

omit [DecidableEq ν] in
theorem Valid.live (hv : s.Valid) (hy : s.object y = some other) :
    ∀ p, other.varPtr = some p → ∃ text, s.heap.cell p = some text := by
  intro p hp
  exact hv.owned.live y p ((owner_eq hy).trans hp)

/-- No bare String comes with a variable that is filled. -/
theorem bare_put {heap : StringHeap} (hf : ExprObject.Filled s.heap o heap)
    (hwrites : ∀ z, z ≠ x → ¬ Writes z op) :
    ∀ z other, (s.put x (o, heap)).object z = some other → other.Bare →
      (∃ x, op = .move x z) ∨ (s.object z = some other ∧ ¬ Writes z op) := by
  intro z other hz hbare
  by_cases hzx : z = x
  · rw [hzx, object_put_self] at hz
    obtain rfl := Option.some.inj hz
    exact absurd hbare hf.not_bare
  · rw [object_put_ne hzx] at hz
    exact Or.inr ⟨hz, hwrites z hzx⟩

/-- A constructor that is no bare string keeps the values. -/
theorem construct_kept {c : Construction} {unset : BitVec 64} (hv : s.Valid)
    (hk : ¬ c.Bare) (hx : s.object x = none) :
    ∃ s', s.step (.construct x c unset) = .ok s'
      ∧ Kept s (.construct x c unset) s' := by
  obtain ⟨o, heap, hmake, hf, hvalue⟩ := Construction.makes unset s.heap hk
  refine ⟨s.put x (o, heap), ?_, hv.put hf, ?_, bare_put hf ?_⟩
  · rw [step, hx]
    simp only [hmake]
    rfl
  · rw [ValueStep, hv.value_put hf, hvalue]
  · intro z hzx hw
    exact hzx (Eq.symm hw)

/-- A copy of an object with a value keeps them. -/
theorem copy_kept (hv : s.Valid) (hx : s.object x = none)
    (hy : s.object y = some other) (hbare : ¬ other.Bare) :
    ∃ s', s.step (.copy x y) = .ok s' ∧ Kept s (.copy x y) s' := by
  obtain ⟨o, heap, hcopy, hf, -, hvalue⟩ := @ExprObject.takeString_filled
    { u := other.u, type := other.type } other s.heap (hv.sound y other hy)
    hbare (hv.live hy) rfl rfl (fun _ => ⟨rfl, by rintro ⟨⟩⟩)
  refine ⟨s.put x (o, heap), ?_, hv.put hf, ?_, bare_put hf ?_⟩
  · rw [step, hx, hy]
    simp only [ExprObject.copy, hcopy]
    rfl
  · rw [ValueStep, hv.value_put hf, hvalue, value_eq hy]
  · intro z hzx hw
    exact hzx (Eq.symm hw)

/-- An assignment to itself does nothing. -/
theorem assign_self_kept (hv : s.Valid) (hx : s.object x ≠ none) :
    ∃ s', s.step (.assign x x) = .ok s' ∧ Kept s (.assign x x) s' := by
  obtain ⟨this, hx⟩ := Option.ne_none_iff_exists'.mp hx
  refine ⟨s, ?_, hv, ?_, ?_⟩
  · rw [step, hx]
    exact if_pos rfl
  · rw [ValueStep, Function.update_eq_self]
  · intro z o hz hbare
    refine Or.inr ⟨hz, ?_⟩
    rintro ⟨rfl, hne⟩
    exact hne rfl

/-- An assignment keeps them, but for a number in a string's place. -/
theorem assign_kept {this : ExprObject} (hv : s.Valid) (hxy : x ≠ y)
    (hx : s.object x = some this) (hy : s.object y = some other)
    (hbare : ¬ other.Bare)
    (hstring : this.varPtr ≠ none → other.type = .string) :
    ∃ s', s.step (.assign x y) = .ok s' ∧ Kept s (.assign x y) s' := by
  have hnumber : other.varPtr = none →
      this.varPtr = none ∧ this.allocType ≠ .string := by
    intro hnone
    have hptr : this.varPtr = none := by
      by_contra hsome
      exact hbare ⟨hstring hsome, hnone⟩
    exact ⟨hptr, fun h => (hv.sound x this hx).alloc.mp h hptr⟩
  obtain ⟨o, heap, hassign, hf, -, hvalue⟩ := @ExprObject.takeString_filled
    { this with type := other.type, u := other.u } other s.heap
    (hv.sound y other hy) hbare (hv.live hy) rfl rfl hnumber
  refine ⟨s.put x (o, heap), ?_, hv.put hf, ?_, bare_put hf ?_⟩
  · rw [step, hx, hy]
    simp only [if_neg hxy, ExprObject.assign, hassign]
    rfl
  · rw [ValueStep, hv.value_put hf, hvalue, value_eq hy]
  · intro z hzx hw
    exact hzx (Eq.symm hw.1)

/-- Moving keeps the value and leaves the other object without it. -/
theorem move_kept (hv : s.Valid) (hx : s.object x = none)
    (hy : s.object y = some other) (hbare : ¬ other.Bare) :
    ∃ s', s.step (.move x y) = .ok s' ∧ Kept s (.move x y) s' := by
  have hxy : x ≠ y := by
    rintro rfl
    rw [hx] at hy
    cases hy
  have hspec := ExprObject.move_spec (hv.sound y other hy)
  rcases hmove : other.move with ⟨this, left⟩
  rw [hmove] at hspec
  obtain ⟨⟨hsound, htype, hu, hptr⟩, hleft, hnone⟩ := hspec
  let s' : Vars ν := { s with
    object := Function.update (Function.update s.object y (some left)) x
      (some this) }
  have hx' : s'.object x = some this := Function.update_self ..
  have hy' : s'.object y = some left :=
    (Function.update_of_ne hxy.symm ..).trans (Function.update_self ..)
  -- the other variables have and own what they did
  have hz' : ∀ z, z ≠ x → z ≠ y → s'.object z = s.object z := by
    intro z hzx hzy
    exact (Function.update_of_ne hzx ..).trans (Function.update_of_ne hzy ..)
  have howner : ∀ z, z ≠ x → z ≠ y → s'.owner z = s.owner z := by
    intro z hzx hzy
    rw [owner, owner, hz' z hzx hzy]
  refine ⟨s', ?_, ⟨?_, ?_⟩, ⟨?_, ?_⟩, ?_⟩
  · rw [step, hx, hy]
    simp only [hmove]
    rfl
  · intro z o hz
    by_cases hzx : z = x
    · rw [hzx, hx'] at hz
      rw [← Option.some.inj hz]
      exact hsound
    · by_cases hzy : z = y
      · rw [hzy, hy'] at hz
        rw [← Option.some.inj hz]
        exact hleft
      · exact hv.sound z o ((hz' z hzx hzy).symm.trans hz)
  · -- the string changes hands
    refine hv.owned.give ?_ ((owner_eq hy').trans hnone) howner
    rw [owner_eq hx', owner_eq hy, hptr]
  · rw [value_eq hx', value_eq hy]
    exact ExprObject.value_of_fields htype hu hptr
  · intro z hzx hzy
    refine value_frame (hz' z hzx hzy) ?_
    rw [contents, contents, howner z hzx hzy]
  · intro z o hz hbareo
    by_cases hzx : z = x
    · -- the new variable is as the old one was
      rw [hzx, hx'] at hz
      obtain rfl := Option.some.inj hz
      exact absurd ⟨htype.symm.trans hbareo.1, hptr.symm.trans hbareo.2⟩ hbare
    · by_cases hzy : z = y
      · exact Or.inl ⟨x, by rw [hzy]⟩
      · exact Or.inr ⟨(hz' z hzx hzy).symm.trans hz, fun hw => hzx (Eq.symm hw)⟩

/-- A variable that is dropped, its string forgotten or freed. -/
theorem Valid.drop {heap : StringHeap} (hv : s.Valid)
    (howned : Owned (s.drop x heap).owner heap)
    (hcontents : ∀ z, z ≠ x → (s.drop x heap).owner z = s.owner z →
      contents (s.drop x heap).owner heap z = contents s.owner s.heap z) :
    Kept s (.destroy x) (s.drop x heap) := by
  have hbare : ∀ z o, (s.drop x heap).object z = some o →
      s.object z = some o := by
    intro z o hz
    by_cases hzx : z = x
    · rw [hzx, object_drop_self] at hz
      cases hz
    · rwa [object_drop_ne hzx] at hz
  refine ⟨⟨fun z o hz => hv.sound z o (hbare z o hz), howned⟩, ?_,
    fun z o hz _ => Or.inr ⟨hbare z o hz, id⟩⟩
  rw [ValueStep]
  funext z
  by_cases hzx : z = x
  · rw [hzx, Function.update_self, value, object_drop_self]
    rfl
  · rw [Function.update_of_ne hzx]
    exact value_frame (object_drop_ne hzx) (hcontents z hzx (owner_drop_ne hzx))

/-- The end of a variable's life keeps the other values. -/
theorem destroy_kept {this : ExprObject} (hv : s.Valid)
    (hx : s.object x = some this) :
    ∃ s', s.step (.destroy x) = .ok s' ∧ Kept s (.destroy x) s' := by
  have hstep : ∀ heap, this.destroy s.heap = .ok heap →
      s.step (.destroy x) = .ok (s.drop x heap) := by
    intro heap hdestroy
    rw [step, hx]
    simp only [hdestroy]
    rfl
  cases hptr : this.varPtr with
  | none =>
      refine ⟨_, hstep s.heap (ExprObject.destroy_none hptr), hv.drop ?_ ?_⟩
      · exact hv.owned.forget owner_drop_self (fun z hz => owner_drop_ne hz)
      · intro z _ howner
        rw [contents, contents, howner]
  | some p =>
      obtain ⟨text, hcell⟩ := hv.live hx p hptr
      have hown : s.owner x = some p := (owner_eq hx).trans hptr
      refine ⟨_, hstep _ (ExprObject.destroy_some (hv.sound x this hx) hptr
        hcell), hv.drop ?_ ?_⟩
      · exact hv.owned.free hown owner_drop_self (fun z hz => owner_drop_ne hz)
      · intro z hz howner
        exact hv.owned.contents_delete hown hz howner

/-! ## Programs -/

/-- A keeping step on variables that are in use returns. -/
theorem step_kept (hv : s.Valid) (hd : s.Declared op) (hk : s.Keeps op) :
    ∃ s', s.step op = .ok s' ∧ Kept s op s' := by
  cases op with
  | construct x c unset => exact construct_kept hv hk hd
  | copy x y =>
      obtain ⟨hx, hy⟩ := hd
      obtain ⟨other, hy⟩ := Option.ne_none_iff_exists'.mp hy
      exact copy_kept hv hx hy (hk other hy)
  | assign x y =>
      obtain ⟨hx, hy⟩ := hd
      by_cases hxy : x = y
      · subst hxy
        exact assign_self_kept hv hx
      · obtain ⟨this, hx⟩ := Option.ne_none_iff_exists'.mp hx
        obtain ⟨other, hy⟩ := Option.ne_none_iff_exists'.mp hy
        obtain ⟨hbare, hstring⟩ := hk hxy this hx other hy
        exact assign_kept hv hxy hx hy hbare hstring
  | move x y =>
      obtain ⟨hx, hy⟩ := hd
      obtain ⟨other, hy⟩ := Option.ne_none_iff_exists'.mp hy
      exact move_kept hv hx hy (hk other hy)
  | destroy x =>
      obtain ⟨this, hx⟩ := Option.ne_none_iff_exists'.mp hd
      exact destroy_kept hv hx

/-- Only steps on variables that are in use return. -/
theorem declared_of_step (h : s.step op = .ok s') : s.Declared op := by
  cases op with
  | construct x c unset =>
      cases hx : s.object x with
      | none => exact hx
      | some o => rw [step, hx] at h; cases h
  | copy x y =>
      cases hx : s.object x with
      | some o => rw [step, hx] at h; cases h
      | none =>
          cases hy : s.object y with
          | none => rw [step, hx, hy] at h; cases h
          | some o => exact ⟨hx, by rw [hy]; exact Option.some_ne_none o⟩
  | assign x y =>
      cases hx : s.object x with
      | none => rw [step, hx] at h; cases h
      | some o =>
          cases hy : s.object y with
          | none => rw [step, hx, hy] at h; cases h
          | some o' =>
              exact ⟨by rw [hx]; exact Option.some_ne_none o,
                by rw [hy]; exact Option.some_ne_none o'⟩
  | move x y =>
      cases hx : s.object x with
      | some o => rw [step, hx] at h; cases h
      | none =>
          cases hy : s.object y with
          | none => rw [step, hx, hy] at h; cases h
          | some o => exact ⟨hx, by rw [hy]; exact Option.some_ne_none o⟩
  | destroy x =>
      cases hx : s.object x with
      | none => rw [step, hx] at h; cases h
      | some o =>
          show s.object x ≠ none
          rw [hx]
          exact Option.some_ne_none o

/-- Every step of a keeping program keeps the values. -/
theorem KeepingStep.kept (hs : KeepingStep s op s') (hv : s.Valid) :
    Kept s op s' := by
  obtain ⟨hk, hok⟩ := hs
  obtain ⟨t, hok', hkept⟩ := step_kept hv (declared_of_step hok) hk
  rw [hok] at hok'
  rw [Except.ok.inj hok']
  exact hkept

omit [DecidableEq ν] in
/-- Without variables nothing is wrong. -/
theorem valid_empty : ({} : Vars ν).Valid where
  sound := by
    intro x o hx
    cases hx
  owned := Owned.empty

/-- After a program of keeping steps only what was moved from is bare. -/
theorem valid_of_run (hrun : Run KeepingStep ({} : Vars ν) h s) :
    s.Valid ∧ ∀ x o, s.object x = some o → o.Bare → MovedFrom x h := by
  refine hrun.invariant (I := fun h s => s.Valid
    ∧ ∀ x o, s.object x = some o → o.Bare → MovedFrom x h) ⟨valid_empty, ?_⟩ ?_
  · intro x o hx
    cases hx
  · intro h t op u ih hs
    obtain ⟨hv, hmoved⟩ := ih
    obtain ⟨hv', -, hbare⟩ := hs.kept hv
    refine ⟨hv', ?_⟩
    intro x o hx hb
    rcases hbare x o hx hb with hmove | ⟨hold, hwrites⟩
    · exact since_of_last hmove
    · exact since_snoc_of_not (hmoved x o hold hb) hwrites

omit [DecidableEq ν] in
/-- A sound variable that is not bare. -/
theorem Valid.whole (hv : s.Valid) (hx : s.object x = some o)
    (hbare : ¬ o.Bare) : Whole s x o := by
  have hs := hv.sound x o hx
  have hptr : o.type = .string → o.varPtr ≠ none :=
    fun htype hnone => hbare ⟨htype, hnone⟩
  refine ⟨⟨fun h => hs.type (hs.alloc.mp h), fun h => hs.alloc.mpr (hptr h)⟩, ?_⟩
  intro htype
  obtain ⟨p, hp⟩ := Option.ne_none_iff_exists'.mp (hptr htype)
  obtain ⟨text, hcell⟩ := hv.live hx p hp
  refine ⟨p, text, hp, hcell, ?_⟩
  intro y other hy hother
  exact hv.owned.sole y x p ((owner_eq hy).trans hother) ((owner_eq hx).trans hp)

omit [DecidableEq ν] in
/-- It has a value. -/
theorem Valid.exists_value (hv : s.Valid) (hx : s.object x = some o)
    (hbare : ¬ o.Bare) : ∃ v, s.value x = some v := by
  rw [value_eq hx]
  by_cases htype : o.type = .string
  · obtain ⟨p, text, hp, hcell, -⟩ := (hv.whole hx hbare).string htype
    refine ⟨.string text, ?_⟩
    rw [ExprObject.value_of_string htype, hp, Option.bind_some, hcell]
    rfl
  · exact ExprObject.exists_value_of_number htype

omit [DecidableEq ν] in
/-- A variable with a value has its type. -/
theorem typeOf_of_value {v : ExprValue} (h : s.value x = some v) :
    s.typeOf x = some v.type := by
  cases ho : s.object x with
  | none =>
      rw [value, ho] at h
      cases h
  | some o =>
      rw [value_eq ho] at h
      rw [typeOf, ho, Option.map_some, ExprObject.type_of_value h]

/-- The source of a copy or an assignment is in use. -/
theorem source_declared (hop : op = .copy x y ∨ op = .assign x y)
    (hok : s.step op = .ok s') : s.object y ≠ none := by
  rcases hop with rfl | rfl
  · exact (declared_of_step hok).2
  · exact (declared_of_step hok).2

/-- What a copy or an assignment leaves its source with. -/
theorem source_kept (hv : s.Valid) (hop : op = .copy x y ∨ op = .assign x y)
    (hs : KeepingStep s op s') :
    (x = y ∧ s' = s) ∨ ∃ v, s.value y = some v := by
  obtain ⟨hk, hok⟩ := hs
  obtain ⟨other, hy⟩ :=
    Option.ne_none_iff_exists'.mp (source_declared hop hok)
  rcases hop with rfl | rfl
  · exact Or.inr (hv.exists_value hy (hk other hy))
  · by_cases hxy : x = y
    · subst hxy
      have hok : s.step (.assign x x) = .ok s' := hok
      rw [step, hy] at hok
      exact Or.inl ⟨rfl, (Except.ok.inj ((if_pos rfl).symm.trans hok)).symm⟩
    · obtain ⟨this, hx⟩ := Option.ne_none_iff_exists'.mp
        (declared_of_step hok).1
      exact Or.inr (hv.exists_value hy (hk hxy this hx other hy).1)

/-- After any program of keeping steps: in every variable that was not moved
    from `type_` and `alloc_type` agree and a String has its own string; the next
    such step meets no assertion; a copy and an assignment give the variable the
    type and the value of its source, and no other variable changes. -/
theorem variables_are_values (hrun : Run KeepingStep ({} : Vars ν) h s) :
    (∀ x o, s.object x = some o → ¬ MovedFrom x h → Whole s x o)
      ∧ (∀ op, s.Declared op → s.Keeps op → ∃ s', s.step op = .ok s')
      ∧ ∀ x y op s', op = .copy x y ∨ op = .assign x y →
        KeepingStep s op s' → s'.typeOf x = s.typeOf y
          ∧ s'.value x = s.value y ∧ (¬ MovedFrom y h → s.value y ≠ none)
          ∧ ∀ z, z ≠ x → s'.value z = s.value z := by
  -- only a moved-from variable may be without its value
  obtain ⟨hv, hmoved⟩ := valid_of_run hrun
  refine ⟨?_, ?_, ?_⟩
  · intro x o hx hnot
    exact hv.whole hx (fun hb => hnot (hmoved x o hx hb))
  · intro op hd hk
    obtain ⟨s', hok, -⟩ := step_kept hv hd hk
    exact ⟨s', hok⟩
  · intro x y op s' hop hs
    have hvalues : s'.value = Function.update s.value x (s.value y) := by
      have hkept := (hs.kept hv).values
      rcases hop with rfl | rfl
      · exact hkept
      · exact hkept
    have hself : s'.value x = s.value y := by
      rw [hvalues, Function.update_self]
    refine ⟨?_, hself, ?_, ?_⟩
    · rcases source_kept hv hop hs with ⟨rfl, rfl⟩ | ⟨v, hy⟩
      · rfl
      · rw [typeOf_of_value hy, typeOf_of_value (hself.trans hy)]
    · intro hnot
      obtain ⟨other, hy⟩ :=
        Option.ne_none_iff_exists'.mp (source_declared hop hs.2)
      obtain ⟨v, hvalue⟩ :=
        hv.exists_value hy (fun hb => hnot (hmoved y other hy hb))
      rw [hvalue]
      exact Option.some_ne_none v
    · intro z hz
      rw [hvalues, Function.update_of_ne hz]

end Steps

/-! ## Two programs -/

instance (c : Construction) : Decidable c.Bare :=
  inferInstanceAs (Decidable (_ ∨ _))

instance (s : Vars ν) (op : VarOp ν) : Decidable (s.Keeps op) :=
  match op with
  | .construct _ c _ => inferInstanceAs (Decidable (¬ c.Bare))
  | .copy _ y => inferInstanceAs
      (Decidable (∀ other ∈ s.object y, ¬ other.Bare))
  | .assign x y => inferInstanceAs
      (Decidable (x ≠ y → ∀ this ∈ s.object x, ∀ other ∈ s.object y,
        ¬ other.Bare ∧ (this.varPtr ≠ none → other.type = .string)))
  | .move _ y => inferInstanceAs
      (Decidable (∀ other ∈ s.object y, ¬ other.Bare))
  | .destroy _ => isTrue trivial

/-- A step that is not taken unless it keeps. -/
def keepingStep (s : Vars ν) (op : VarOp ν) : Exec (Vars ν) :=
  if s.Keeps op then s.step op else .error .assertion

/-- Keeping steps that all return make a run. -/
theorem run_of_keepingStep {s t : Vars ν} {ops : List (VarOp ν)}
    (heq : ops.foldlM keepingStep s = .ok t) : Run KeepingStep s ops t := by
  refine run_of_foldlM ?_ heq
  intro s op t hok
  rw [keepingStep] at hok
  split_ifs at hok with hk
  exact ⟨hk, hok⟩

/-- A string is copied, moved and assigned to a number; its first owner is
    destroyed and its name used again. -/
def stringProgram : List (VarOp Nat) :=
  [.construct 0 (.newString [97]) 0, .construct 1 (.newInt8 5) 255, .copy 2 0,
    .assign 1 0, .move 3 0, .destroy 0, .construct 0 (.newMax .int32) 0,
    .assign 2 3]

/-- A program with a string that is copied, assigned and moved. -/
theorem variables_are_values_stringProgram :
    ∃ s, Run KeepingStep ({} : Vars Nat) stringProgram s
      ∧ s.value 1 = some (.string [97])
      ∧ (∀ x o, s.object x = some o → ¬ MovedFrom x stringProgram →
        Whole s x o)
      ∧ ∀ op, s.Declared op → s.Keeps op → ∃ s', s.step op = .ok s' := by
  obtain ⟨s, hexec, hvalue⟩ := @exists_of_computed _ _ _
    (stringProgram.foldlM keepingStep ({} : Vars Nat)) (fun s => s.value 1)
    (some (.string [97])) (by decide +kernel)
  have hrun := run_of_keepingStep hexec
  obtain ⟨hwhole, hreturns, -⟩ := variables_are_values hrun
  exact ⟨s, hrun, hvalue, hwhole, hreturns⟩

/-- A number is assigned to a variable that has a string: `alloc_type` stays, and
    a copy of the variable meets the assertion in `StringValue`. -/
theorem assigned_number_keeps_string :
    ∃ s o, Run Stepped ({} : Vars Nat)
        [.construct 0 (.newString [97]) 0, .construct 1 (.newInt64 5) 0,
          .assign 0 1] s
      ∧ s.object 0 = some o ∧ o.type = .int64 ∧ o.allocType = .string
      ∧ ¬ Whole s 0 o ∧ s.step (.copy 2 0) = .error .assertion := by
  obtain ⟨s, hexec, hview⟩ := @exists_of_computed _ _ _
    ([.construct 0 (.newString [97]) 0, .construct 1 (.newInt64 5) 0,
      .assign 0 1].foldlM step ({} : Vars Nat))
    (fun s => (s.object 0, s.object 2))
    (some { u := 5, type := .int64, varPtr := some 0, allocType := .string },
      none) (by decide +kernel)
  obtain ⟨hobject, hnew⟩ := Prod.mk.inj hview
  refine ⟨s, _, run_of_foldlM (fun hok => hok) hexec, hobject, rfl, rfl, ?_, ?_⟩
  · intro hwhole
    exact absurd (hwhole.alloc.mp rfl) (by decide)
  · rw [step, hnew, hobject]
    rfl

end Vars

end AmDb.Expr

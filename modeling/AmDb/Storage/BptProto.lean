import AmDb.Common.Status
import AmDb.Foundation.WireFormat

/-! # Messages of the tree

    `proto/bptree.proto` and what the tree relies on in the classes `protoc`
    makes of it.  Those classes are no part of the repository: `MessageCodec`
    is the contract of `SerializeAsString` and `ParseFromString`, and
    `Protobuf.wire` an instance of it, the proto3 wire format. -/

namespace AmDb.Storage

structure BptStatisticProto where
  minKey   : Bytes
  maxKey   : Bytes
  count    : Nat
  nodeSize : Nat
  deriving DecidableEq, Inhabited

inductive BptNodeType where
  | nonLeaf
  | leaf
  deriving DecidableEq, Inhabited

structure BptNodeRefProto where
  id   : Nat
  type : BptNodeType
  stat : BptStatisticProto
  deriving DecidableEq, Inhabited

structure BptLeafNodeRefProto where
  id     : Nat
  keys   : Bytes
  values : Bytes
  deriving DecidableEq, Inhabited

structure BptNodeProto where
  id       : Nat
  children : List BptNodeRefProto
  deriving DecidableEq, Inhabited

/-- A message class.  A message above `INT_MAX` bytes does not serialize:
    `SerializeAsString` then returns the empty string.  The empty string parses
    as the message whose fields are all unset. -/
structure MessageCodec (M : Type) [Inhabited M] where
  fits             : M → Prop
  serializeAsString : M → Bytes
  parseFromString   : Bytes → Option M
  parse_serialize  : ∀ m, fits m →
    parseFromString (serializeAsString m) = some m
  serialize_unfit  : ∀ m, ¬ fits m → serializeAsString m = []
  parse_nil        : parseFromString [] = some default

/-- The generated classes of `bptree.proto`. -/
structure Protobuf where
  leafNode   : MessageCodec BptLeafNodeRefProto
  node       : MessageCodec BptNodeProto
  leaf_bound : ∀ m, leafNode.fits m →
    m.keys.length < 2 ^ 31 ∧ m.values.length < 2 ^ 31

namespace MessageCodec

variable {M : Type} [Inhabited M]

/-- The message comes back from its bytes. -/
def Faithful (c : MessageCodec M) (m : M) : Prop :=
  c.parseFromString (c.serializeAsString m) = some m

/-- What serialization wrote always parses: to the message, or, when that did
    not fit, to the empty one. -/
theorem parse_serialize_or (c : MessageCodec M) (m : M) :
    c.parseFromString (c.serializeAsString m) = some m
      ∨ c.parseFromString (c.serializeAsString m) = some default := by
  by_cases h : c.fits m
  · exact Or.inl (c.parse_serialize m h)
  · rw [c.serialize_unfit m h]
    exact Or.inr c.parse_nil

end MessageCodec

/-! ## The wire format of the messages -/

open WireFormat

def statisticMessage : Message BptStatisticProto where
  fields m := bytesField 1 m.minKey ++ (bytesField 2 m.maxKey
    ++ (numField 3 m.count ++ numField 4 m.nodeSize))
  ofFields fs := some ⟨getBytes 1 fs, getBytes 2 fs, getNum 3 fs, getNum 4 fs⟩
  round_trip m := by simp [getBytes, getNum]

/-- `BptNodeType` by number; a number without a name keeps the default. -/
def BptNodeType.ofNum (n : Nat) : BptNodeType := if n = 1 then .leaf else .nonLeaf

def BptNodeType.num : BptNodeType → Nat
  | .nonLeaf => 0
  | .leaf => 1

/-- `stat` is a message field and always set. -/
def nodeRefMessage : Message BptNodeRefProto where
  fields m := numField 1 m.id ++ (numField 2 m.type.num
    ++ [⟨3, .bytes (statisticMessage.encode m.stat)⟩])
  ofFields fs := do
    let stat ← statisticMessage.decode (getBytes 3 fs)
    return ⟨getNum 1 fs, .ofNum (getNum 2 fs), stat⟩
  round_trip m := by
    have hs : ∀ s, strings 3 [⟨3, .bytes s⟩] = [s] := fun _ => rfl
    have hn : ∀ i s, numbers i [⟨3, .bytes s⟩] = [] := fun _ _ => rfl
    have ht : BptNodeType.ofNum m.type.num = m.type := by
      cases m.type <;> rfl
    simp [getBytes, getNum, hs, hn, Message.decode_encode, ht]

def leafNodeMessage : Message BptLeafNodeRefProto where
  fields m := numField 1 m.id ++ (bytesField 2 m.keys ++ bytesField 3 m.values)
  ofFields fs := some ⟨getNum 1 fs, getBytes 2 fs, getBytes 3 fs⟩
  round_trip m := by simp [getBytes, getNum]

def nodeMessage : Message BptNodeProto where
  fields m := numField 1 m.id
    ++ (m.children.map nodeRefMessage.encode).map (⟨2, .bytes ·⟩)
  ofFields fs := do
    let children ← (strings 2 fs).mapM nodeRefMessage.decode
    return ⟨getNum 1 fs, children⟩
  round_trip m := by
    simp only [strings_append, strings_numField, List.nil_append,
      strings_map_bytes_self, Message.mapM_decode_encode, getNum,
      numbers_append, numbers_map_bytes, List.append_nil,
      getLast_numbers_numField]
    rfl

/-- A message class from a record type. -/
def MessageCodec.ofMessage {M : Type} [Inhabited M] (msg : Message M)
    (h : msg.ofFields [] = some default) : MessageCodec M where
  fits m := (msg.encode m).length < 2 ^ 31
  serializeAsString m :=
    if (msg.encode m).length < 2 ^ 31 then msg.encode m else []
  parseFromString := msg.decode
  parse_serialize m hm := by rw [if_pos hm, msg.decode_encode]
  serialize_unfit m hm := if_neg hm
  parse_nil := h

/-- What a leaf message of the wire format can hold. -/
theorem leafNodeMessage_bound (m : BptLeafNodeRefProto)
    (h : (leafNodeMessage.encode m).length < 2 ^ 31) :
    m.keys.length < 2 ^ 31 ∧ m.values.length < 2 ^ 31 := by
  have hk := length_le_encodeFields_bytesField 2 m.keys
  have hv := length_le_encodeFields_bytesField 3 m.values
  simp only [Message.encode, leafNodeMessage, encodeFields_append,
    List.length_append] at h
  exact ⟨by omega, by omega⟩

/-- The wire format. -/
def Protobuf.wire : Protobuf where
  leafNode := .ofMessage leafNodeMessage rfl
  node := .ofMessage nodeMessage rfl
  leaf_bound := leafNodeMessage_bound

end AmDb.Storage

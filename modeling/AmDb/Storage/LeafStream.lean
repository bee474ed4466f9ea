import AmDb.Storage.BptNode

/-! # The two streams of a stored leaf

    `scanInside` is the `while` loop of `BptNode::Deserialize` with every read
    held to the bytes of its string, the terminator not among them, and with
    the offsets it ends at.  It comes to the end of both strings just when they
    are streams of as many items. -/

namespace AmDb.Storage

open PrefixCode Codec

/-- A string made of these items, each behind its length. -/
structure StreamOf (s : Bytes) (items : List Bytes) : Prop where
  bytes : s = items.flatMap lengthPrefixed
  fits  : ∀ x ∈ items, x.length < 2 ^ 32

/-- The first `n` bytes, of at least as many. -/
def readInside (s : Bytes) (n : Nat) : Exec Bytes :=
  if n ≤ s.length then .ok (s.take n) else .error .undefined

/-- `decodeItem` with such reads. -/
def itemInside (s : Bytes) (offset : Nat) : Exec (Nat × Bytes) := do
  let head ← readInside (s.drop offset) 4
  let (_, len) ← decodeUInt32 head
  let body ← readInside (s.drop offset) (4 + len)
  decodeBytes body []

/-- The loop: the pairs and the two offsets. -/
def scanInside : Nat → Bytes → Bytes → Nat → Nat →
    Exec (List (Bytes × Bytes) × Nat × Nat)
  | fuel, keys, values, kOffset, vOffset =>
      if kOffset < keys.length ∧ vOffset < values.length then
        match fuel with
        | 0 => .error .fuel
        | fuel + 1 => do
            let (k, key) ← itemInside keys kOffset
            let (v, value) ← itemInside values vOffset
            let (es, ends) ←
              scanInside fuel keys values (kOffset + k) (vOffset + v)
            return ((key, value) :: es, ends)
      else .ok ([], kOffset, vOffset)

/-- A read that stays inside the string is the code's. -/
theorem readData_of_inside {s x : Bytes} {n : Nat}
    (h : readInside s n = .ok x) : readData s n = .ok x := by
  rw [readInside] at h
  split_ifs at h with hn
  cases h
  rw [readData, if_pos (by omega), List.take_append_of_le_length hn]

/-- An item that stays inside the string is the code's. -/
theorem decodeItem_of_inside {s : Bytes} {offset : Nat} {r : Nat × Bytes}
    (h : itemInside s offset = .ok r) :
    BptNode.decodeItem s offset = .ok r := by
  obtain ⟨head, hhead, h⟩ := Exec.bind_eq_ok.mp h
  obtain ⟨⟨n, len⟩, hlen, h⟩ := Exec.bind_eq_ok.mp h
  obtain ⟨body, hbody, h⟩ := Exec.bind_eq_ok.mp h
  rw [BptNode.decodeItem, readData_of_inside hhead, Exec.bind_ok, hlen,
    Exec.bind_ok]
  simp only [readData_of_inside hbody, Exec.bind_ok]
  exact h

/-- Four bytes are the number they write. -/
theorem decodeUInt32_four {s : Bytes} (h : s.length = 4) :
    decodeUInt32 s = .ok (4, ofBigEndian s) := by
  have hr := readData_append s []
  rw [List.append_nil, h] at hr
  rw [decodeUInt32, hr]
  rfl

theorem length_lengthPrefixed (x : Bytes) :
    (lengthPrefixed x).length = x.length + 4 := by
  rw [lengthPrefixed, List.length_append, length_bigEndian, Nat.add_comm]

/-- Four bytes and as many more as they say are an item. -/
theorem exists_lengthPrefixed {d : Bytes} (hfour : 4 ≤ d.length)
    (hlen : 4 + ofBigEndian (d.take 4) ≤ d.length) :
    ∃ x : Bytes, x.length = ofBigEndian (d.take 4) ∧ x.length < 2 ^ 32
      ∧ d.take (4 + ofBigEndian (d.take 4)) = lengthPrefixed x := by
  have htake : (d.take 4).length = 4 := List.length_take_of_le hfour
  have hhead := bigEndian_ofBigEndian (d.take 4)
  have hlt := ofBigEndian_lt (d.take 4)
  rw [htake] at hhead hlt
  have hx : ((d.drop 4).take (ofBigEndian (d.take 4))).length
      = ofBigEndian (d.take 4) := by
    refine List.length_take_of_le ?_
    rw [List.length_drop]
    exact Nat.le_sub_of_add_le' hlen
  refine ⟨_, hx, lt_of_eq_of_lt hx (lt_of_lt_of_eq hlt (by norm_num)), ?_⟩
  rw [lengthPrefixed, hx, hhead]
  exact List.take_add

/-- What an item is read from. -/
theorem itemInside_eq_ok {s : Bytes} {offset n : Nat} {x : Bytes} :
    itemInside s offset = .ok (n, x)
      ↔ x.length < 2 ^ 32 ∧ n = x.length + 4
        ∧ ∃ r, s.drop offset = lengthPrefixed x ++ r := by
  constructor
  · intro h
    obtain ⟨head, hhead, h⟩ := Exec.bind_eq_ok.mp h
    obtain ⟨⟨m, len⟩, hnum, h⟩ := Exec.bind_eq_ok.mp h
    obtain ⟨body, hbody, h⟩ := Exec.bind_eq_ok.mp h
    rw [readInside] at hhead hbody
    split_ifs at hhead hbody with hfour hlen
    obtain rfl := Except.ok.inj hhead
    obtain rfl := Except.ok.inj hbody
    rw [decodeUInt32_four (List.length_take_of_le hfour)] at hnum
    obtain ⟨-, rfl⟩ := Prod.mk.inj (Except.ok.inj hnum)
    obtain ⟨y, -, hy, hitem⟩ := exists_lengthPrefixed hfour hlen
    rw [hitem, decodeBytes_lengthPrefixed hy] at h
    obtain ⟨rfl, rfl⟩ := Prod.mk.inj (Except.ok.inj h)
    refine ⟨hy, rfl, (s.drop offset).drop
      (4 + ofBigEndian ((s.drop offset).take 4)), ?_⟩
    rw [List.nil_append, ← hitem, List.take_append_drop]
  · rintro ⟨hx, rfl, r, hr⟩
    have hlen := length_lengthPrefixed x
    have hhead : readInside (s.drop offset) 4
        = .ok (bigEndian 4 x.length) := by
      rw [readInside, hr, if_pos (by rw [List.length_append]; omega),
        lengthPrefixed, List.append_assoc,
        List.take_left' (length_bigEndian 4 _)]
    have hbody : readInside (s.drop offset) (4 + x.length)
        = .ok (lengthPrefixed x) := by
      rw [Nat.add_comm, ← hlen, readInside, hr,
        if_pos (by rw [List.length_append]; omega), List.take_left]
    have hnum := decodeUInt32_bigEndian hx []
    rw [List.append_nil] at hnum
    rw [itemInside, hhead, Exec.bind_ok, hnum, Exec.bind_ok]
    show (readInside (s.drop offset) (4 + x.length)
      >>= fun body => decodeBytes body []) = _
    rw [hbody, Exec.bind_ok]
    exact decodeBytes_lengthPrefixed hx []

/-! ## The loop -/

section Scan

variable {keys values : Bytes} {fuel k v : Nat} {es : List (Bytes × Bytes)}
  {ends : Nat × Nat}

/-- Where the loop stays inside, it is the loop of `Deserialize`. -/
theorem decodeEntries_of_scan
    (h : scanInside fuel keys values k v = .ok (es, ends)) :
    BptNode.decodeEntries fuel keys values k v = .ok es := by
  induction fuel generalizing k v es ends with
  | zero =>
      rw [scanInside] at h
      rw [BptNode.decodeEntries]
      split_ifs at h ⊢ with hgo
      obtain ⟨rfl, -⟩ := Prod.mk.inj (Except.ok.inj h)
      rfl
  | succ fuel ih =>
      rw [scanInside] at h
      rw [BptNode.decodeEntries]
      split_ifs at h ⊢ with hgo
      · obtain ⟨⟨m, key⟩, hkey, h⟩ := Exec.bind_eq_ok.mp h
        obtain ⟨⟨n, value⟩, hvalue, h⟩ := Exec.bind_eq_ok.mp h
        obtain ⟨⟨es', ends'⟩, hrest, h⟩ := Exec.bind_eq_ok.mp h
        obtain ⟨rfl, -⟩ := Prod.mk.inj (Except.ok.inj h)
        simp only [decodeItem_of_inside hkey, decodeItem_of_inside hvalue,
          Exec.bind_ok, ih hrest, Exec.pure_eq]
      · obtain ⟨rfl, -⟩ := Prod.mk.inj (Except.ok.inj h)
        rfl

/-- Over two streams of as many items the loop comes to both ends. -/
theorem scan_streams (hk : StreamOf (keys.drop k) (es.map Prod.fst))
    (hv : StreamOf (values.drop v) (es.map Prod.snd)) (hkle : k ≤ keys.length)
    (hvle : v ≤ values.length) (hfuel : es.length ≤ fuel) :
    scanInside fuel keys values k v
      = .ok (es, keys.length, values.length) := by
  induction es generalizing fuel k v with
  | nil =>
      obtain rfl : k = keys.length := le_antisymm hkle
        (List.drop_eq_nil_iff.mp hk.bytes)
      obtain rfl : v = values.length := le_antisymm hvle
        (List.drop_eq_nil_iff.mp hv.bytes)
      cases fuel <;> rw [scanInside, if_neg (fun h => lt_irrefl _ h.1)]
  | cons e es ih =>
      obtain ⟨key, value⟩ := e
      obtain ⟨n, rfl⟩ : ∃ n, fuel = n + 1 :=
        Nat.exists_eq_succ_of_ne_zero (by rintro rfl; cases hfuel)
      obtain ⟨hkbytes, hkfits⟩ := hk
      obtain ⟨hvbytes, hvfits⟩ := hv
      rw [List.map_cons, List.flatMap_cons] at hkbytes hvbytes
      obtain ⟨hkey, hkfits⟩ := List.forall_mem_cons.mp hkfits
      obtain ⟨hvalue, hvfits⟩ := List.forall_mem_cons.mp hvfits
      have hklen := congrArg List.length hkbytes
      have hvlen := congrArg List.length hvbytes
      rw [List.length_drop, List.length_append, length_lengthPrefixed]
        at hklen hvlen
      dsimp only at hklen hvlen
      -- behind one item each the strings are the streams of the rest
      have hkrest : keys.drop (k + (key.length + 4))
          = (es.map Prod.fst).flatMap lengthPrefixed := by
        rw [← List.drop_drop, hkbytes, ← length_lengthPrefixed,
          List.drop_left]
      have hvrest : values.drop (v + (value.length + 4))
          = (es.map Prod.snd).flatMap lengthPrefixed := by
        rw [← List.drop_drop, hvbytes, ← length_lengthPrefixed,
          List.drop_left]
      have hrec := ih ⟨hkrest, hkfits⟩ ⟨hvrest, hvfits⟩ (by omega)
        (by omega) (Nat.le_of_succ_le_succ hfuel)
      rw [scanInside, if_pos ⟨by omega, by omega⟩]
      simp only [itemInside_eq_ok.mpr ⟨hkey, rfl, _, hkbytes⟩,
        itemInside_eq_ok.mpr ⟨hvalue, rfl, _, hvbytes⟩, Exec.bind_ok, hrec,
        Exec.pure_eq]

/-- A stream has no more items than bytes. -/
theorem StreamOf.length_le {s : Bytes} {items : List Bytes}
    (h : StreamOf s items) : items.length ≤ s.length := by
  obtain ⟨rfl, -⟩ := h
  induction items with
  | nil => exact Nat.zero_le _
  | cons x items ih =>
      rw [List.flatMap_cons, List.length_append, length_lengthPrefixed,
        List.length_cons]
      omega

end Scan

/-! ## Stored leaves -/

namespace BptNode

/-- Keys and values whose lengths can be written down. -/
def Encodable (n : BptNode) : Prop :=
  ∀ e ∈ n.kvs.entries, e.1.length < 2 ^ 32 ∧ e.2.length < 2 ^ 32

instance (n : BptNode) : Decidable n.Encodable :=
  inferInstanceAs (Decidable (∀ e ∈ n.kvs.entries, _))

/-- The two fields of a leaf's message are streams of its keys and of its
    values. -/
theorem leafProto_streams {n : BptNode} (h : n.Encodable) :
    StreamOf n.leafProto.keys (n.kvs.entries.map Prod.fst)
      ∧ StreamOf n.leafProto.values (n.kvs.entries.map Prod.snd) := by
  rw [leafProto_eq]
  refine ⟨⟨List.flatMap_map .. |>.symm, ?_⟩, ⟨List.flatMap_map .. |>.symm, ?_⟩⟩
  · intro x hx
    obtain ⟨e, he, rfl⟩ := List.mem_map.mp hx
    exact (h e he).1
  · intro x hx
    obtain ⟨e, he, rfl⟩ := List.mem_map.mp hx
    exact (h e he).2

/-- The loop of `Deserialize` over these fields comes to the end of both with
    the entries of the leaf. -/
theorem scan_leafProto {n : BptNode} (h : n.Encodable) :
    scanInside n.leafProto.keys.length n.leafProto.keys n.leafProto.values 0 0
      = .ok (n.kvs.entries, n.leafProto.keys.length,
          n.leafProto.values.length) := by
  obtain ⟨hkeys, hvalues⟩ := leafProto_streams h
  refine scan_streams hkeys hvalues (Nat.zero_le _) (Nat.zero_le _) ?_
  have hle := hkeys.length_le
  rwa [List.length_map] at hle

/-- A leaf that was stored comes back with its entries. -/
theorem storedEntries_of_faithful {pb : Protobuf} {n : BptNode}
    (h : n.Encodable) (hpb : pb.leafNode.Faithful n.leafProto) :
    storedEntries pb (serializeLeaf pb n) = .ok n.kvs.entries := by
  rw [storedEntries, serializeLeaf, hpb]
  exact decodeEntries_of_scan (scan_leafProto h)

/-- An item is not longer than the stream it is in. -/
theorem length_le_flatMap {es : List (Bytes × Bytes)} {e : Bytes × Bytes}
    (f : Bytes × Bytes → Bytes) (he : e ∈ es) :
    (f e).length + 4 ≤ (es.flatMap (fun e => lengthPrefixed (f e))).length := by
  have hsub : (lengthPrefixed (f e)).Sublist
      (es.flatMap (fun e => lengthPrefixed (f e))) :=
    List.sublist_flatten_of_mem (List.mem_map_of_mem he)
  rw [← length_lengthPrefixed]
  exact hsub.length_le

/-- A message that is carried fits the length fields. -/
theorem encodable_of_fits {pb : Protobuf} {n : BptNode}
    (h : pb.leafNode.fits n.leafProto) : n.Encodable := by
  obtain ⟨hkeys, hvalues⟩ := pb.leaf_bound _ h
  rw [leafProto_eq] at hkeys hvalues
  simp only at hkeys hvalues
  intro e he
  have hkey := length_le_flatMap Prod.fst he
  have hvalue := length_le_flatMap Prod.snd he
  omega

/-- A leaf that fits a message is read back. -/
theorem storedEntries_of_fits {pb : Protobuf} {n : BptNode}
    (h : pb.leafNode.fits n.leafProto) :
    storedEntries pb (serializeLeaf pb n) = .ok n.kvs.entries :=
  storedEntries_of_faithful (encodable_of_fits h)
    (pb.leafNode.parse_serialize _ h)

end BptNode

end AmDb.Storage

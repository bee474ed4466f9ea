import AmDb.Storage.LeafBytes

/-! # What is taken from `node_size`

    The functions that update `node_size` subtract from it without looking
    whether it holds as much.  `takesOf` lists the subtractions of a call:
    every function of the tree that makes one has its list here, and the two
    bottom-up loops have theirs round by round. -/

namespace AmDb.Storage

open Codec OrderedMap

/-- A subtraction: what `node_size` held and what was taken from it. -/
structure Take where
  held  : Nat
  taken : Nat
  deriving DecidableEq

/-- No more is taken than there is. -/
def Take.Fits (x : Take) : Prop := x.taken ≤ x.held

instance (x : Take) : Decidable x.Fits := inferInstanceAs (Decidable (_ ≤ _))

namespace BptNode

/-- In `UpdateStatByAddKV`. -/
def takesOfAddKV (n : BptNode) (key value : Bytes) : List Take :=
  let size := u64 (n.stat.nodeSize + value.length)
  if n.kvs.size = 1 then []
  else
    let above := isCmpGt (dataCmp key n.stat.maxKey)
    let size' := if above then
        u64 (sub64 size n.stat.maxKey.length + key.length)
      else size
    (if above then [⟨size, n.stat.maxKey.length⟩] else [])
      ++ if isCmpLt (dataCmp key n.stat.minKey) then
        [⟨size', n.stat.minKey.length⟩]
      else []

/-- In `UpdateStatByDelKV`. -/
def takesOfDelKV (n : BptNode) (key : Bytes) : List Take :=
  if isCmpEq (dataCmp key n.stat.maxKey) then
    [⟨n.stat.nodeSize, n.stat.maxKey.length⟩]
  else if isCmpEq (dataCmp key n.stat.minKey) then
    [⟨n.stat.nodeSize, n.stat.minKey.length⟩]
  else []

/-- In `UpdateStatByRangeChange`. -/
def takesOfRangeChange (n : BptNode) (minKey maxKey : Bytes) : List Take :=
  let front := isCmpNe (dataCmp minKey n.stat.minKey)
  let size := if front then
      u64 (sub64 n.stat.nodeSize n.stat.minKey.length + minKey.length)
    else n.stat.nodeSize
  (if front then [⟨n.stat.nodeSize, n.stat.minKey.length⟩] else [])
    ++ if isCmpNe (dataCmp maxKey n.stat.maxKey) then
      [⟨size, n.stat.maxKey.length⟩]
    else []

end BptNode

namespace Bptree

def takesOfRangeChange (t : Bptree) (a : Addr) : List Take :=
  let n := t.node a
  match n.children.head?, n.children.getLast? with
  | some f, some b =>
      n.takesOfRangeChange (t.node f).stat.minKey (t.node b).stat.maxKey
  | _, _ => []

/-- In `Split`: the right half's size, from that of the whole. -/
def takesOfSplit (t : Bptree) (a : Addr) : List Take :=
  let n := t.node a
  let (r, t) := t.newNode n.parent n.isLeaf
  if n.isLeaf then
    match moveRight (n.kvs.entries.drop (splitAt n)) n (t.node r) with
    | .ok (left, right) => [⟨left.stat.nodeSize, right.stat.nodeSize⟩]
    | .error _ => []
  else
    let t := t.moveChildren r (n.children.drop (splitAt n))
    [⟨(t.node a).stat.nodeSize, (t.node r).stat.nodeSize⟩]

/-- In one round of the bottom-up loop of `Insert`. -/
def takesOfInsertRound (env : Env) (key value : Bytes) (t : Bptree)
    (cursor : Addr) : List Take :=
  let n := t.node cursor
  let (takes, t) : List Take × Exec Bptree := if n.isLeaf then
      (n.takesOfAddKV key value,
        .ok (t.setNode cursor (n.updateStatByAddKV key value)))
    else (t.takesOfRangeChange cursor, t.updateStatByRangeChange cursor true)
  takes ++ match t with
    | .error _ => []
    | .ok t =>
        if (t.node cursor).needSplit env.bptreeMaxNodeSize then
          t.takesOfSplit cursor
        else []

/-- In the bottom-up loop of `Insert`; one round of it is the loop on one
    cursor. -/
def takesOfInsertUnwind (env : Env) (key value : Bytes) :
    List Addr → Bptree → List Take
  | [], _ => []
  | cursor :: path, t =>
      takesOfInsertRound env key value t cursor
        ++ match insertUnwind env key value [cursor] t with
          | .error _ => []
          | .ok t => takesOfInsertUnwind env key value path t

/-- In one round of the bottom-up loop of `Delete`. -/
def takesOfDeleteRound (key : Bytes) (t : Bptree) (cursor : Addr) : List Take :=
  let n := t.node cursor
  if !n.isRoot && n.isEmpty then []
  else if n.isLeaf then n.takesOfDelKV key
  else if n.isRoot && n.isEmpty then []
  else t.takesOfRangeChange cursor

/-- In the bottom-up loop of `Delete`. -/
def takesOfDeleteUnwind (key : Bytes) : List Addr → Bptree → List Take
  | [], _ => []
  | cursor :: path, t =>
      takesOfDeleteRound key t cursor
        ++ match deleteUnwind key [cursor] t with
          | .error _ => []
          | .ok t => takesOfDeleteUnwind key path t

/-- In a call. -/
def takesOf (env : Env) (s : TreeState) : TreeOp → List Take
  | .insert key value =>
      match descendInsert env key s.1.arena.next s.1 s.2 s.1.root
        [s.1.root] with
      | .ok (.leaf (top :: path), t, _) =>
          match (t.node top).insert key value with
          | .ok (.ok, n) =>
              takesOfInsertUnwind env key value (top :: path) (t.setNode top n)
          | _ => []
      | _ => []
  | .delete key =>
      match descendFind env key .ok s.1.arena.next s.1 s.2 s.1.root
        [s.1.root] with
      | .ok (.leaf (top :: path), t, _) =>
          match (t.node top).delete key with
          | .ok (.ok, n) =>
              takesOfDeleteUnwind key (top :: path) (t.setNode top n)
          | _ => []
      | _ => []
  | .getItem _ => []
  | .save => []

/-- A call together with what it took. -/
def callTaking (env : Env) (s : TreeState) (op : TreeOp) :
    Exec ((Reply × List Take) × TreeState) := do
  let (r, s') ← call env s op
  return ((r, takesOf env s op), s')

def CalledTaking (env : Env) (s : TreeState) (e : TreeOp × Reply × List Take)
    (s' : TreeState) : Prop :=
  callTaking env s e.1 = .ok (e.2, s')

/-- No subtraction of the run took more than there was. -/
def NeverWraps (h : List (TreeOp × Reply × List Take)) : Prop :=
  ∀ e ∈ h, ∀ x ∈ e.2.2, x.Fits

/-! ## When they fit -/

/-- The size of a leaf that counts `size` and takes an entry above its greatest
    key. -/
def sizeAbove (n : BptNode) (size : Nat) (key value : Bytes) : Nat :=
  if n.stat.maxKey < key then
    size + value.length - n.stat.maxKey.length + key.length
  else size + value.length

/-- The size of a leaf that counts `size` and takes an entry. -/
def sizeWith (n : BptNode) (size : Nat) (key value : Bytes) : Nat :=
  if key < n.stat.minKey then
    sizeAbove n size key value - n.stat.minKey.length + key.length
  else sizeAbove n size key value

/-- What has to be counted for a leaf that takes an entry. -/
structure AddCovered (env : Env) (n : BptNode) (size : Nat)
    (key value : Bytes) : Prop where
  word  : size + value.length + (key.length + key.length) < 2 ^ 64
  above : n.stat.maxKey < key → n.stat.maxKey.length ≤ size + value.length
  below : key < n.stat.minKey →
    n.stat.minKey.length ≤ sizeAbove n size key value
  split : 2 ≤ n.kvs.size →
    env.bptreeMaxNodeSize < sizeWith n size key value →
    entryBytes ((n.kvs.emplace key value).entries.drop
      (splitAt (added n key value))) ≤ sizeWith n size key value

/-- What has to be counted for a leaf that gives an entry away. -/
def DelCovered (n : BptNode) (size : Nat) (key : Bytes) : Prop :=
  (n.kvs.erase key).entries ≠ [] →
    key = n.stat.maxKey ∨ key = n.stat.minKey → key.length ≤ size

/-- The run has counted, for the leaf a call reaches, what the call takes; keys
    are no longer than a `std::string` can be, and sizes fit in their word. -/
def Covered (env : Env) (s : TreeState × Slack) : TreeOp → Prop
  | .insert key value => key.length < 2 ^ 63
      ∧ (s.1.1.insertTarget key = none →
        value.length + (key.length + key.length + 20) < 2 ^ 64)
      ∧ ∀ a, s.1.1.insertTarget key = some a → ∀ es,
        s.1.1.Reads env s.1.2 a es → key ∉ (s.1.1.merged a es).kvs →
        if (s.1.1.merged a es).kvs.entries = [] then
          counted (s.1.1, s.2) a + value.length
            + (key.length + key.length + 20) < 2 ^ 64
        else AddCovered env (s.1.1.merged a es) (counted (s.1.1, s.2) a)
          key value
  | .delete key => ∀ a, s.1.1.findChild s.1.1.root key = some a →
      ∀ es, s.1.1.Reads env s.1.2 a es → key ∈ (s.1.1.merged a es).kvs →
        DelCovered (s.1.1.merged a es) (counted (s.1.1, s.2) a) key
  | .getItem _ => True
  | .save => True

/-- A covered call returned, and was accounted for. -/
def CoveredCall (env : Env) (s : TreeState × Slack)
    (e : TreeOp × Reply × List Take) (s' : TreeState × Slack) : Prop :=
  Covered env s e.1 ∧ CalledTaking env s.1 e s'.1
    ∧ s'.2 = slackAfter env s.1 s.2 e.1

section Takes

variable {env : Env} {t t' T : Bptree} {kv kv' : KvStorage}
  {ls ls' : List Addr} {key value minKey maxKey : Bytes} {a : Addr}
  {m n n' : BptNode} {es : List (Bytes × Bytes)} {x : Take} {slack : Slack}
  {s s' : TreeState × Slack}

/-! ## The leaf -/

/-- The first two branches of `UpdateStatByAddKV` are what `sizeAbove` says. -/
theorem AddCovered.sizeAbove_eq (h : AddCovered env n n.stat.nodeSize key value) :
    (if n.stat.maxKey < key then
        u64 (sub64 (u64 (n.stat.nodeSize + value.length)) n.stat.maxKey.length
          + key.length)
      else u64 (n.stat.nodeSize + value.length)) = sizeAbove n n.stat.nodeSize key value
      ∧ sizeAbove n n.stat.nodeSize key value + key.length < 2 ^ 64 := by
  have hword := h.word
  rw [sizeAbove]
  split_ifs with hmax
  · have := h.above hmax
    simp only [u64, sub64]
    omega
  · simp only [u64]
    omega

/-- What `UpdateStatByAddKV` takes from a leaf that has entries. -/
theorem fits_takesOfAddKV (h : AddCovered env n n.stat.nodeSize key value)
    (hx : x ∈ (added n key value).takesOfAddKV key value) : x.Fits := by
  have hword := h.word
  have hstat : (added n key value).stat = n.stat := rfl
  simp only [BptNode.takesOfAddKV, hstat, isCmpGt_dataCmp, isCmpLt_dataCmp,
    h.sizeAbove_eq.1, List.mem_append, List.mem_ite_nil_left,
    List.mem_ite_nil_right, List.mem_singleton] at hx
  rcases hx with ⟨-, ⟨hmax, rfl⟩ | ⟨hmin, rfl⟩⟩
  · have := h.above hmax
    show n.stat.maxKey.length ≤ u64 (n.stat.nodeSize + value.length)
    rw [u64_of_lt (by omega)]
    exact this
  · exact h.below hmin

/-- A covered entry brings `node_size` to the size that was worked out
beforehand. -/
theorem nodeSize_of_covered (h : AddCovered env n n.stat.nodeSize key value)
    (hne : n.kvs.entries ≠ []) (hk : key ∉ n.kvs) :
    (withEntry n key value).stat.nodeSize = sizeWith n n.stat.nodeSize key value := by
  have hstat : (added n key value).stat = n.stat := rfl
  obtain ⟨habove, hlt⟩ := h.sizeAbove_eq
  rw [withEntry, BptNode.updateStatByAddKV, sizeWith]
  simp only [if_neg (size_added_ne_one value hk hne), isCmpGt_dataCmp,
    isCmpLt_dataCmp, hstat]
  split_ifs at habove ⊢ with hmax hmin hmin
  · have := h.below hmin
    simp only [habove]
    simp only [u64, sub64]
    omega
  · exact habove
  · have := h.below hmin
    simp only [habove]
    simp only [u64, sub64]
    omega
  · exact habove

/-- What is taken from a leaf for an entry is its cost. -/
theorem countsIn_of_covered (h : AddCovered env n n.stat.nodeSize key value)
    (hleaf : n.isLeaf = true) (hne : n.kvs.entries ≠ []) (hk : key ∉ n.kvs) :
    CountsIn env n key value := by
  have hsize := nodeSize_of_covered h hne hk
  refine ⟨?_, fun hs => ?_⟩
  · have habove := h.above
    have hbelow := h.below
    rw [hsize, keyCost, if_neg hne]
    simp only [sizeWith, sizeAbove] at hbelow ⊢
    split_ifs at hbelow ⊢ with hmin hmax hmax
    · have := habove hmax
      have := hbelow hmin
      omega
    · have := hbelow hmin
      omega
    · have := habove hmax
      omega
    · omega
  · have hleaf' : (withEntry n key value).isLeaf = true :=
      (isLeaf_withEntry n key value).trans hleaf
    have hthree := size_of_needSplit hleaf' hs
    have htwo := size_withEntry value hk
    rw [BptNode.needSplit, if_pos hleaf', if_neg (by omega), hsize] at hs
    have hfit := h.split (by omega) (of_decide_eq_true hs)
    rw [hsize, splitAt, kvs_withEntry]
    exact hfit

/-- What a leaf takes when it takes an entry, and when it then has to split. -/
theorem fits_of_covered (hleaf : n.isLeaf = true) (hk : key ∉ n.kvs)
    (hc : n.kvs.entries ≠ [] → AddCovered env n n.stat.nodeSize key value) :
    (∀ y ∈ (added n key value).takesOfAddKV key value, y.Fits)
      ∧ ((withEntry n key value).needSplit env.bptreeMaxNodeSize = true →
        u64 (entryBytes ((added n key value).kvs.entries.drop
          (splitAt (added n key value))))
          ≤ (withEntry n key value).stat.nodeSize) := by
  have hleaf' : (withEntry n key value).isLeaf = true :=
    (isLeaf_withEntry n key value).trans hleaf
  have hsize := size_withEntry value hk
  by_cases hne : n.kvs.entries = []
  · -- a first entry displaces nothing, and does not make the leaf split
    have hzero : n.kvs.size = 0 := by
      rw [OrderedMap.size, hne]
      rfl
    constructor
    · have hone : (added n key value).kvs.size = 1 := by
        rw [size_added value hk, hzero]
      intro y hy
      simp only [BptNode.takesOfAddKV, hone, if_true] at hy
      exact absurd hy List.not_mem_nil
    · intro hs
      have := size_of_needSplit hleaf' hs
      omega
  · have hcov := hc hne
    refine ⟨fun y hy => fits_takesOfAddKV hcov hy, fun hs => ?_⟩
    have hthree := size_of_needSplit hleaf' hs
    rw [BptNode.needSplit, if_pos hleaf', if_neg (by omega)] at hs
    have hlimit := of_decide_eq_true hs
    rw [nodeSize_of_covered hcov hne hk] at hlimit ⊢
    exact (Nat.mod_le _ _).trans (hcov.split (by omega) hlimit)

/-- The subtraction of `Split` at a leaf. -/
theorem takesOfSplit_leaf (hn : n.isLeaf = true) :
    (t.setNode a n).takesOfSplit a
      = [⟨n.stat.nodeSize,
          u64 (entryBytes (n.kvs.entries.drop (splitAt n)))⟩] := by
  have hfresh : (((t.setNode a n).newNode n.parent n.isLeaf).2).node
      ((t.setNode a n).newNode n.parent n.isLeaf).1
      = { id := t.treeCtx.id + 1, isLeaf := true, parent := n.parent } := by
    show Function.update _ t.arena.next _ t.arena.next = _
    rw [Function.update_self, hn]
    rfl
  have hempty : ∀ e ∈ n.kvs.entries.drop (splitAt n),
      e.1 ∉ (OrderedMap.empty : OrderedMap Bytes Bytes) := by
    rintro e - ⟨y, hy, -⟩
    exact List.not_mem_nil hy
  have hmove := moveRight_eq n
    { id := t.treeCtx.id + 1, isLeaf := true, parent := n.parent }
    (n.kvs.drop (splitAt n)).ascending rfl hempty hempty (Nat.two_pow_pos 64)
  rw [entries_drop] at hmove
  rw [takesOfSplit]
  simp only [node_setNode_self]
  rw [if_pos hn, hfresh, hmove]
  show [Take.mk n.stat.nodeSize (u64 (0 + _))] = _
  rw [Nat.zero_add]

/-- What `UpdateStatByDelKV` takes from a leaf that keeps entries. -/
theorem fits_takesOfDelKV (h : DelCovered n n.stat.nodeSize key)
    (hne : (removed n key).kvs.entries ≠ [])
    (hx : x ∈ (removed n key).takesOfDelKV key) : x.Fits := by
  have hstat : (removed n key).stat = n.stat := rfl
  simp only [BptNode.takesOfDelKV, hstat, isCmpEq_dataCmp] at hx
  split_ifs at hx with hmax hmin
  · rw [List.mem_singleton.mp hx]
    have := h hne (Or.inl hmax)
    rw [hmax] at this
    exact this
  · rw [List.mem_singleton.mp hx]
    have := h hne (Or.inr hmin)
    rw [hmin] at this
    exact this
  · exact absurd hx List.not_mem_nil

/-! ## Keys that fit in a string -/

/-- The keys of a leaf are no longer than a `std::string` can be. -/
structure ShortKeys (n : BptNode) : Prop where
  keys : ∀ k ∈ n.kvs, k.length < 2 ^ 63
  min  : n.stat.minKey.length < 2 ^ 63
  max  : n.stat.maxKey.length < 2 ^ 63

/-- A decoded string has a length of 32 bits. -/
theorem decodeBytes_lt {d y : Bytes} {i : Nat}
    (h : decodeBytes d [] = .ok (i, y)) : y.length < 2 ^ 32 := by
  obtain ⟨⟨ret, len⟩, hnum, h⟩ := Exec.bind_eq_ok.mp h
  obtain ⟨p, hp, hnum⟩ := Exec.bind_eq_ok.mp hnum
  obtain ⟨rfl, rfl⟩ := Prod.mk.inj (Except.ok.inj hnum)
  have hlen : p.length ≤ 4 := by
    rw [readData] at hp
    split_ifs at hp
    rw [← Except.ok.inj hp, List.length_take]
    exact Nat.min_le_left _ _
  have hlt : PrefixCode.ofBigEndian p < 2 ^ 32 :=
    lt_of_lt_of_le (PrefixCode.ofBigEndian_lt p)
      ((Nat.pow_le_pow_right (by decide) hlen).trans_eq (by decide))
  simp only at h
  split_ifs at h
  · obtain ⟨-, rfl⟩ := Prod.mk.inj (Except.ok.inj h)
    rw [List.nil_append, List.length_take]
    omega
  · obtain ⟨-, rfl⟩ := Prod.mk.inj (Except.ok.inj h)
    exact Nat.two_pow_pos 32

/-- The keys of a stored leaf have their lengths in four bytes. -/
theorem decodeEntries_lt {fuel k v : Nat} {ks vs : Bytes}
    (h : BptNode.decodeEntries fuel ks vs k v = .ok es) :
    ∀ e ∈ es, e.1.length < 2 ^ 32 := by
  induction fuel generalizing k v es with
  | zero =>
      rw [BptNode.decodeEntries] at h
      split_ifs at h
      cases h
      exact fun e he => absurd he List.not_mem_nil
  | succ fuel ih =>
      rw [BptNode.decodeEntries] at h
      split_ifs at h
      · obtain ⟨⟨i, y⟩, hkey, h⟩ := Exec.bind_eq_ok.mp h
        obtain ⟨⟨j, z⟩, -, h⟩ := Exec.bind_eq_ok.mp h
        obtain ⟨rest, hrest, h⟩ := Exec.bind_eq_ok.mp h
        cases h
        obtain ⟨_, _, hkey⟩ := Exec.bind_eq_ok.mp hkey
        obtain ⟨_, _, hkey⟩ := Exec.bind_eq_ok.mp hkey
        obtain ⟨_, _, hkey⟩ := Exec.bind_eq_ok.mp hkey
        intro e he
        rcases List.mem_cons.mp he with rfl | he
        · exact decodeBytes_lt hkey
        · exact ih hrest e he
      · cases h
        exact fun e he => absurd he List.not_mem_nil

/-- The keys of a stored copy have lengths of 32 bits. -/
theorem reread_lt (h : t.reread env kv a = .ok es) :
    ∀ e ∈ es, e.1.length < 2 ^ 32 := by
  rw [reread] at h
  split at h
  · cases h
    exact fun e he => absurd he List.not_mem_nil
  · rw [BptNode.storedEntries] at h
    split at h
    · cases h
    · exact decodeEntries_lt h

/-- The keys of a leaf stay short over a read. -/
theorem ShortKeys.merged (h : ShortKeys (t.node a))
    (hes : t.Reads env kv a es) : ShortKeys (t.merged a es) := by
  refine ⟨fun k hk => ?_, h.min, h.max⟩
  rcases mem_foldl_emplace.mp hk with hk | ⟨e, he, rfl⟩
  · exact h.keys k hk
  · exact (reread_lt hes.2 e he).trans (by decide)

/-- A half holds keys of the whole and ends in them. -/
theorem ShortKeys.landsIn (h : ShortKeys n) : LandsIn env ShortKeys n := by
  refine ⟨fun _ => h, fun l r _ hh _ => ?_⟩
  have hl : ∀ k ∈ l.kvs, k.length < 2 ^ 63 := by
    rw [hh.left_kvs]
    rintro k ⟨e, he, rfl⟩
    exact h.keys _ ⟨e, List.mem_of_mem_take he, rfl⟩
  have hr : ∀ k ∈ r.kvs, k.length < 2 ^ 63 := by
    rw [hh.right_kvs]
    rintro k ⟨e, he, rfl⟩
    exact h.keys _ ⟨e, List.mem_of_mem_drop he, rfl⟩
  exact ⟨⟨hl, hl _ hh.left_min.1, hl _ hh.left_max.1⟩,
    ⟨hr, hr _ hh.right_min.1, hr _ hh.right_max.1⟩⟩

/-- The keys of a leaf stay short over an insert. -/
theorem ShortKeys.withEntry (h : ShortKeys n) (hkey : key.length < 2 ^ 63)
    (value : Bytes) : ShortKeys (withEntry n key value) := by
  obtain ⟨stat, heq, hmax, hmin⟩ :=
    BptNode.updateStatByAddKV_eq (added n key value) key value
  have hstat : (added n key value).stat = n.stat := rfl
  rw [Bptree.withEntry, heq]
  rw [hstat] at hmax hmin
  refine ⟨fun k hk => ?_, ?_, ?_⟩
  · rcases mem_emplace.mp hk with rfl | hk
    · exact hkey
    · exact h.keys k hk
  · show stat.minKey.length < 2 ^ 63
    rw [hmin]
    split_ifs
    · exact hkey
    · exact hkey
    · exact h.min
  · show stat.maxKey.length < 2 ^ 63
    rw [hmax]
    split_ifs
    · exact hkey
    · exact hkey
    · exact h.max

/-- The keys of a leaf stay short over a delete. -/
theorem ShortKeys.deleteWrites {gone : List Nat}
    {collected : List (Nat × Addr)} (h : ShortKeys n)
    (hw : DeleteWrites key t ls a (removed n key) n' gone collected ls') :
    ShortKeys n' := by
  have hrem : ∀ k ∈ (removed n key).kvs, k.length < 2 ^ 63 := fun k hk =>
    h.keys k (mem_erase.mp hk).1
  cases hw with
  | shrunk _ hne hdel =>
      obtain ⟨stat, heq, hmax, hmin⟩ := BptNode.updateStatByDelKV_eq hne
      rw [heq] at hdel
      rw [← Except.ok.inj hdel]
      refine ⟨hrem, ?_, ?_⟩
      · show stat.minKey.length < 2 ^ 63
        rw [hmin]
        split_ifs
        · exact hrem _ ⟨_, List.head_mem hne, rfl⟩
        · exact h.min
      · show stat.maxKey.length < 2 ^ 63
        rw [hmax]
        split_ifs
        · exact hrem _ ⟨_, List.getLast_mem hne, rfl⟩
        · exact h.max
  | emptied _ _ => exact ⟨hrem, h.min, h.max⟩

/-! ## The root -/

/-- The size of the root is that of its end keys. -/
structure Rooted (m : BptNode) : Prop where
  size : m.stat.nodeSize = u64 (m.stat.minKey.length + m.stat.maxKey.length)
  min  : m.stat.minKey.length < 2 ^ 63
  max  : m.stat.maxKey.length < 2 ^ 63

/-- What `UpdateStatByRangeChange` takes from the root. -/
theorem fits_takesOfRangeChange (h : Rooted m) (hmin : minKey.length < 2 ^ 63)
    (hx : x ∈ m.takesOfRangeChange minKey maxKey) : x.Fits := by
  obtain ⟨hsize, h₁, h₂⟩ := h
  have hsize : m.stat.nodeSize = m.stat.minKey.length + m.stat.maxKey.length := by
    rw [hsize]
    exact u64_of_lt (by omega)
  simp only [BptNode.takesOfRangeChange, isCmpNe_dataCmp, List.mem_append,
    List.mem_ite_nil_right, List.mem_singleton] at hx
  rcases hx with ⟨-, rfl⟩ | ⟨-, rfl⟩
  · exact (Nat.le_add_right _ _).trans_eq hsize.symm
  · show m.stat.maxKey.length ≤ _
    simp only [u64, sub64]
    split_ifs <;> omega

/-- The ends of the leaves are short. -/
theorem short_ends (hall : ∀ x ∈ ls, ShortKeys (t.node x)) :
    (frontMin t.node ls).length < 2 ^ 63
      ∧ (backMax t.node ls).length < 2 ^ 63 := by
  constructor
  · cases hf : ls.head? with
    | none => simp [frontMin, hf]
    | some y =>
        simp only [frontMin, hf, Option.map_some, Option.getD_some]
        exact (hall y (List.mem_of_mem_head? hf)).min
  · cases hl : ls.getLast? with
    | none => simp [backMax, hl]
    | some y =>
        simp only [backMax, hl, Option.map_some, Option.getD_some]
        exact (hall y (List.mem_of_getLast? hl)).max

/-- What the root step takes when it takes up the end keys. -/
theorem fits_takesOfRange (h : Linked t ls)
    (hall : ∀ x ∈ ls, ShortKeys (t.node x)) (hroot : Rooted (t.node t.root))
    (hx : x ∈ t.takesOfRangeChange t.root) : x.Fits := by
  rw [takesOfRangeChange, h.children] at hx
  cases hf : ls.head? with
  | none => simp [hf] at hx
  | some f =>
      cases hl : ls.getLast? with
      | none => simp [hf, hl] at hx
      | some b =>
          simp only [hf, hl] at hx
          exact fits_takesOfRangeChange hroot
            (hall f (List.mem_of_mem_head? hf)).min hx

/-! ## The bottom-up loops -/

/-- With one node on the path an insert has one round. -/
theorem takesOfInsertUnwind_single (env : Env) (key value : Bytes)
    (t : Bptree) (a : Addr) :
    takesOfInsertUnwind env key value [a] t
      = takesOfInsertRound env key value t a := by
  rw [takesOfInsertUnwind]
  cases insertUnwind env key value [a] t <;> simp [takesOfInsertUnwind]

theorem takesOfDeleteUnwind_single (key : Bytes) (t : Bptree) (a : Addr) :
    takesOfDeleteUnwind key [a] t = takesOfDeleteRound key t a := by
  rw [takesOfDeleteUnwind]
  cases deleteUnwind key [a] t <;> simp [takesOfDeleteUnwind]

/-- The round of `Insert` at a root that does not split. -/
theorem takesOfInsertRound_root (h : Linked t ls) (hne : ls ≠ [])
    (hok : insertUnwind env key value [t.root] t = .ok t') :
    takesOfInsertRound env key value t t.root
      = t.takesOfRangeChange t.root := by
  have hstep := @insertUnwind_root env t ls key value h hne
  simp only at hstep
  rw [hstep] at hok
  split_ifs at hok with hs
  rw [takesOfInsertRound]
  simp only [h.root_inner, Bool.false_eq_true, if_false,
    updateStatByRangeChange_eq h.children hne, node_setNode_self, hs,
    List.append_nil]

/-- The round of `Delete` at the root. -/
theorem takesOfDeleteRound_root (h : Linked t ls)
    (hx : x ∈ takesOfDeleteRound key t t.root) :
    x ∈ t.takesOfRangeChange t.root := by
  rw [takesOfDeleteRound] at hx
  simp only [h.root_root, h.root_inner, Bool.not_true, Bool.false_and,
    Bool.true_and, Bool.false_eq_true, if_false, List.mem_ite_nil_left] at hx
  exact hx.2

/-- The loop of `Insert` from a leaf that holds `n`. -/
theorem fits_takesOfInsertUnwind (h : Linked t ls) (ha : a ∈ ls)
    (hn : LeafOf t.root n) (hall : ∀ y ∈ ls, ShortKeys (t.node y))
    (hshort : ShortKeys (n.updateStatByAddKV key value))
    (hroot : Rooted (t.node t.root))
    (hadd : ∀ y ∈ n.takesOfAddKV key value, y.Fits)
    (hsplit : (n.updateStatByAddKV key value).needSplit env.bptreeMaxNodeSize
        = true →
      u64 (entryBytes (n.kvs.entries.drop (splitAt n)))
        ≤ (n.updateStatByAddKV key value).stat.nodeSize)
    (hok : insertUnwind env key value [a, t.root] (t.setNode a n) = .ok t')
    (hx : x ∈ takesOfInsertUnwind env key value [a, t.root] (t.setNode a n)) :
    x.Fits := by
  obtain ⟨T, ls', hround, hT⟩ :=
    insertUnwind_leaf_climbed h ha hn env key value
  have hfirst : insertUnwind env key value [a] (t.setNode a n) = .ok T :=
    hround []
  rw [hround, ← hT.root] at hok
  rw [takesOfInsertUnwind, hfirst] at hx
  rcases List.mem_append.mp hx with hx | hx
  · -- the round at the leaf
    have hn₁ := leafOf_updateStatByAddKV key value hn
    have hkvs := BptNode.kvs_updateStatByAddKV n key value
    simp only [takesOfInsertRound, node_setNode_self, hn.isLeaf, if_true,
      setNode_setNode] at hx
    rcases List.mem_append.mp hx with hx | hx
    · exact hadd x hx
    · rw [List.mem_ite_nil_right] at hx
      obtain ⟨hs, hx⟩ := hx
      rw [takesOfSplit_leaf hn₁.isLeaf, splitAt, hkvs] at hx
      rw [List.mem_singleton.mp hx]
      exact hsplit hs
  · -- the round at the root, which does not split
    have hshortT : ∀ y ∈ ls', ShortKeys (T.node y) :=
      hT.each hall hshort.landsIn
    have hrootT : Rooted (T.node T.root) := by
      rw [hT.root, hT.rootNode]
      exact ⟨hroot.size, hroot.min, hroot.max⟩
    simp only at hx
    rw [takesOfInsertUnwind_single, ← hT.root,
      takesOfInsertRound_root hT.linked hT.ne hok] at hx
    exact fits_takesOfRange hT.linked hshortT hrootT hx

/-- The loop of `Delete` from a leaf that holds `n`. -/
theorem fits_takesOfDeleteUnwind (h : Linked t ls) (ha : a ∈ ls)
    (hn : LeafOf t.root (removed n key))
    (hall : ∀ y ∈ ls, ShortKeys (t.node y)) (hshort : ShortKeys n)
    (hroot : Rooted (t.node t.root)) (hdel : DelCovered n n.stat.nodeSize key)
    (hx : x ∈ takesOfDeleteUnwind key [a, t.root]
      (t.setNode a (removed n key))) :
    x.Fits := by
  obtain ⟨n', gone, collected, ls', T, hw, hround, hl, hT⟩ :=
    deleteUnwind_leaf_cases h ha hn key
  have hfirst : deleteUnwind key [a] (t.setNode a (removed n key)) = .ok T :=
    hround []
  rw [takesOfDeleteUnwind, hfirst] at hx
  rcases List.mem_append.mp hx with hx | hx
  · rw [takesOfDeleteRound] at hx
    simp only [node_setNode_self, hn.isRoot, hn.isLeaf, if_true,
      Bool.not_false, Bool.true_and, List.mem_ite_nil_left] at hx
    obtain ⟨hne, hx⟩ := hx
    refine fits_takesOfDelKV hdel (fun hnil => hne ?_) hx
    rw [BptNode.isEmpty, hn.children, hnil]
    rfl
  · -- the round at the root, over the leaves that are left
    have hnd : t.root ∉ ls' := by
      rw [← hT.root]
      exact (List.nodup_cons.mp hl.nodup).1
    have hshortT : ∀ y ∈ ls', ShortKeys (T.node y) := by
      intro y hy
      rw [hT.nodes y (by rintro rfl; exact hnd hy)]
      by_cases hya : y = a
      · rw [hya, overlay_cons_self t.node (a, n')]
        exact hshort.deleteWrites hw
      · rw [overlay_cons_ne t.node _ hya]
        exact hall y ((mem_of_deleteWrites hw).subset hy)
    have hrootT : Rooted (T.node T.root) := by
      rw [hT.root, hT.rootNode]
      exact ⟨hroot.size, hroot.min, hroot.max⟩
    simp only at hx
    rw [takesOfDeleteUnwind_single, ← hT.root] at hx
    exact fits_takesOfRange hl hshortT hrootT (takesOfDeleteRound_root hl hx)

/-! ## The calls -/

/-- A leaf that was loaded: the store failed, or the leaf was read again. -/
theorem load_reads {status : Status} (hleaf : (t.node a).isLeaf = true)
    (hok : t.loadNodeFromKVStorage env kv a = .ok (status, T, kv')) :
    status = .storageError
      ∨ ∃ es, t.Reads env kv a es ∧ T = t.setNode a (t.merged a es) := by
  cases hf : kv.tick.1 with
  | true =>
      rw [load_failed hf] at hok
      cases hok
      exact Or.inl rfl
  | false =>
      rw [load_answered hf] at hok
      cases hload : t.loadNodeFromKVStorage env kv.healed a with
      | error e => rw [hload] at hok; cases hok
      | ok r =>
          rw [hload] at hok
          cases hok
          refine Or.inr ?_
          rcases load_inversion (KvStorage.reliable_healed kv) hleaf hload with
            ⟨rfl, hs⟩ | ⟨bytes, es, hs, hes, rfl⟩
          · exact ⟨[], ⟨hf, reread_none hs⟩, (setNode_node t a).symm⟩
          · exact ⟨es, ⟨hf, (reread_some hs).trans hes⟩, rfl⟩

/-- Where the search of `Insert` ends in a tree with leaves. -/
theorem descendInsert_ends {d : Descent} (h : Linked t ls)
    (ha : t.insertTarget key = some a)
    (hok : descendInsert env key t.arena.next t kv t.root [t.root]
      = .ok (d, T, kv')) :
    (∃ status, d = .ret status)
      ∨ d = .leaf [a, t.root]
        ∧ ∃ es, t.Reads env kv a es ∧ T = t.setNode a (t.merged a es) := by
  rw [descendInsert_eq h ha, Exec.bind_eq_ok] at hok
  obtain ⟨⟨status, T', kv₁⟩, hload, hok⟩ := hok
  have hreads := load_reads (h.leaf a (insertTarget_mem h ha)).isLeaf hload
  simp only at hok
  split_ifs at hok with hs
  · cases hok
    refine Or.inr ⟨rfl, hreads.resolve_left ?_⟩
    rintro rfl
    rcases hs with hs | hs <;> cases hs
  · cases hok
    exact Or.inl ⟨status, rfl⟩

/-- Where the search of `Delete` ends if a child covers the key. -/
theorem descendFind_ends {d : Descent} {missing : Status} (h : Linked t ls)
    (ha : t.findChild t.root key = some a)
    (hok : descendFind env key missing t.arena.next t kv t.root [t.root]
      = .ok (d, T, kv')) :
    (∃ status, d = .ret status)
      ∨ d = .leaf [a, t.root]
        ∧ ∃ es, t.Reads env kv a es ∧ T = t.setNode a (t.merged a es) := by
  rw [descendFind_eq h ha, Exec.bind_eq_ok] at hok
  obtain ⟨⟨status, T', kv₁⟩, hload, hok⟩ := hok
  have hreads := load_reads (h.leaf a (findChild_mem h ha)).isLeaf hload
  simp only at hok
  split_ifs at hok with hs
  · cases hok
    refine Or.inr ⟨rfl, hreads.resolve_left ?_⟩
    rintro rfl
    cases hs
  · cases hok
    exact Or.inl ⟨status, rfl⟩

/-- The tree of a run of covered calls. -/
def SizeSound (t : Bptree) : Prop :=
  ∃ ls, Linked t ls ∧ (∀ a ∈ ls, ShortKeys (t.node a)) ∧ Rooted (t.node t.root)

/-- The root after its step. -/
theorem rooted_of_rootStat (hroot : Rooted (t.node t.root))
    (hall : ∀ y ∈ ls', ShortKeys (t'.node y)) (hst : RootStat t t' ls') :
    Rooted (t'.node t.root) := by
  have hends := short_ends hall
  cases hst with
  | same hn => rw [hn]; exact hroot
  | empty _ hn =>
      rw [hn]
      exact ⟨rfl, Nat.two_pow_pos 63, Nat.two_pow_pos 63⟩
  | ends _ isAdd hn =>
      obtain ⟨stat, heq, hmin, hmax, hsize⟩ :=
        BptNode.updateStatByRangeChange_eq
          { t.node t.root with children := ls' } (frontMin t'.node ls')
          (backMax t'.node ls') isAdd
      rw [hn, rootOver, heq]
      refine ⟨?_, ?_, ?_⟩
      · show stat.nodeSize = u64 (stat.minKey.length + stat.maxKey.length)
        rw [hsize hroot.size, hmin, hmax]
      · show stat.minKey.length < 2 ^ 63
        rw [hmin]
        exact hends.1
      · show stat.maxKey.length < 2 ^ 63
        rw [hmax]
        exact hends.2

/-- Sizes are sound again when the leaves are short. -/
theorem sizeSound_of (hroot : Rooted (t.node t.root))
    (h : ∃ ls', Linked t' ls' ∧ t'.root = t.root
      ∧ (∀ y ∈ ls', ShortKeys (t'.node y)) ∧ RootStat t t' ls') :
    SizeSound t' := by
  obtain ⟨ls', hl, hr, hall, hst⟩ := h
  refine ⟨ls', hl, hall, ?_⟩
  rw [hr]
  exact rooted_of_rootStat hroot hall hst

theorem shortKeys_firstLeaf (t : Bptree) : ShortKeys t.firstLeaf := by
  refine ⟨?_, Nat.two_pow_pos 63, Nat.two_pow_pos 63⟩
  rintro k ⟨e, he, -⟩
  exact absurd he List.not_mem_nil

/-- A key that a call inserts. -/
theorem Covered.key_lt (hc : Covered env s (.insert key value)) :
    key.length < 2 ^ 63 := hc.1

/-- What is counted for the leaf of a covered `Insert` is its size. -/
theorem Covered.add (hc : Covered env ((t, kv), slack) (.insert key value))
    (hl : Linked t ls) (hacc : Accounted t slack)
    (ha : t.insertTarget key = some a) (hes : t.Reads env kv a es)
    (hk : key ∉ (t.merged a es).kvs) :
    if (t.merged a es).kvs.entries = [] then
      (t.merged a es).stat.nodeSize + value.length
        + (key.length + key.length + 20) < 2 ^ 64
    else AddCovered env (t.merged a es) (t.merged a es).stat.nodeSize key
      value := by
  have h := hc.2.2 a ha es hes hk
  have hcount : counted (t, slack) a = (t.merged a es).stat.nodeSize :=
    hacc.counted hl (insertTarget_mem hl ha)
  simp only [hcount] at h
  exact h

/-- What is counted for the leaf of a covered `Delete` is its size. -/
theorem Covered.del (hc : Covered env ((t, kv), slack) (.delete key))
    (hl : Linked t ls) (hacc : Accounted t slack)
    (ha : t.findChild t.root key = some a) (hes : t.Reads env kv a es)
    (hk : key ∈ (t.merged a es).kvs) :
    DelCovered (t.merged a es) (t.merged a es).stat.nodeSize key := by
  have h := hc a ha es hes hk
  have hcount : counted (t, slack) a = (t.merged a es).stat.nodeSize :=
    hacc.counted hl (findChild_mem hl ha)
  rw [hcount] at h
  exact h

/-- A covered call keeps the account. -/
theorem Covered.accounted {op : TreeOp} {r : Reply}
    (hc : Covered env ((t, kv), slack) op) (hl : Linked t ls)
    (hacc : Accounted t slack)
    (hok : Bptree.call env (t, kv) op = .ok (r, t', kv')) :
    Accounted t' (slackAfter env (t, kv) slack op) := by
  cases op with
  | insert key value =>
      refine hacc.insert hl (fun ha => countsIn_empty rfl rfl ?_)
        (fun a es ha hes hk => ?_) hok
      · show 0 + value.length + (key.length + key.length + 20) < 2 ^ 64
        rw [Nat.zero_add]
        exact hc.2.1 ha
      · have hleaf := (leafOf_merged hl (insertTarget_mem hl ha) es).isLeaf
        have h := hc.add hl hacc ha hes hk
        by_cases hne : (t.merged a es).kvs.entries = []
        · rw [if_pos hne] at h
          exact countsIn_empty hleaf hne h
        · rw [if_neg hne] at h
          exact countsIn_of_covered h hleaf hne hk
  | delete key =>
      exact hacc.delete hl
        (fun a es ha hes hk => hc.del hl hacc ha hes hk) hok
  | getItem key => exact hacc.getItem hl hok
  | save => exact hacc.save hok

/-- Every call on short keys keeps the tree sound. -/
theorem SizeSound.call {op : TreeOp} {r : Reply} (h : SizeSound t)
    (hc : Covered env ((t, kv), slack) op)
    (hok : Bptree.call env (t, kv) op = .ok (r, t', kv')) : SizeSound t' := by
  obtain ⟨ls, hl, hall, hroot⟩ := h
  have hread : ∀ a es, a ∈ ls → t.Reads env kv a es →
      ShortKeys (t.merged a es) := fun a es ha hes => (hall a ha).merged hes
  cases op with
  | insert key value =>
      refine sizeSound_of hroot ((insert_effect hl hok).keeps hl hall ?_ ?_ ?_)
      · exact fun a es ha hes => hread a es (insertTarget_mem hl ha) hes
      · exact fun _ => (shortKeys_firstLeaf t).withEntry hc.1 value
      · exact fun a es ha hes _ => ((hread a es (insertTarget_mem hl ha)
          hes).withEntry hc.1 value).landsIn
  | delete key =>
      refine sizeSound_of hroot ((delete_effect hl hok).keeps hl hall ?_ ?_)
      · exact fun a es ha hes => hread a es (findChild_mem hl ha) hes
      · exact fun a es n' gone collected ls' ha hes _ hw =>
          (hread a es (findChild_mem hl ha) hes).deleteWrites hw
  | getItem key =>
      refine sizeSound_of hroot ((getItem_effect hl hok).keeps hl hall ?_)
      exact fun a es ha hes => hread a es (findChild_mem hl ha) hes
  | save =>
      have hpull : t.pullUnsavedTreeNode env kv = (t', kv') :=
        (Prod.mk.inj (Except.ok.inj hok)).2
      obtain ⟨hr, harena⟩ := pull_nodes env t kv
      rw [hpull] at hr harena
      have hnode : t'.node = t.node := by
        funext y
        rw [Bptree.node, harena]
        rfl
      refine ⟨ls, hl.of_arena hr harena, ?_, ?_⟩
      · rw [hnode]; exact hall
      · rw [hnode, hr]; exact hroot

theorem added_leafOf (h : LeafOf t.root n) (key value : Bytes) :
    LeafOf t.root (added n key value) :=
  ⟨h.isLeaf, h.isRoot, h.parent, h.children⟩

/-- The subtractions of an `Insert`. -/
theorem SizeSound.fits_insert {r : Reply} (h : SizeSound t)
    (hacc : Accounted t slack)
    (hc : Covered env ((t, kv), slack) (.insert key value))
    (hok : Bptree.call env (t, kv) (.insert key value) = .ok (r, t', kv'))
    (hx : x ∈ takesOf env (t, kv) (.insert key value)) : x.Fits := by
  obtain ⟨ls, hl, hall, hroot⟩ := h
  have hkey := hc.key_lt
  cases ha : t.insertTarget key with
  | none =>
      -- no leaf yet: the first one is made, and it is empty
      obtain rfl := (insertTarget_eq_none hl).mp ha
      have hi := installed_newMutableLeafChild hl
      have hl₁ := linked_newMutableLeafChild hl
      have hnode : (t.newMutableLeafChild t.root).2.node t.arena.next
          = t.firstLeaf := by
        rw [hi.nodes _ (Nat.ne_of_gt hl.root_lt)]
        exact overlay_cons_self t.node (t.arena.next, t.firstLeaf) []
      have hk : key ∉ t.firstLeaf.kvs := by
        rintro ⟨e, he, -⟩
        exact List.not_mem_nil he
      have hins : t.firstLeaf.insert key value
          = .ok (.ok, added t.firstLeaf key value) := by
        have hleaf : t.firstLeaf.isLeaf = true := rfl
        have hw : key ∉ t.firstLeaf.writeKvs := hk
        rw [BptNode.insert, if_pos hleaf, if_neg hk, if_neg hw]
        rfl
      have hnext : (t.newMutableLeafChild t.root).1 = t.arena.next := rfl
      simp only [takesOf, descendInsert_nil hl, hnext, hnode, hins] at hx
      rw [Bptree.call, insert_nil hl] at hok
      obtain ⟨_, hok, -⟩ := Exec.bind_eq_ok.mp hok
      obtain ⟨t'', hun, -⟩ := Exec.bind_eq_ok.mp hok
      have hcov : t.firstLeaf.kvs.entries ≠ [] →
          AddCovered env t.firstLeaf t.firstLeaf.stat.nodeSize key value :=
        fun hne => absurd rfl hne
      obtain ⟨hadd, hsplit⟩ := fits_of_covered rfl hk hcov
      refine fits_takesOfInsertUnwind hl₁ List.mem_cons_self
        ⟨rfl, rfl, rfl, rfl⟩ ?_ ((shortKeys_firstLeaf t).withEntry hkey value)
        ?_ hadd hsplit hun hx
      · intro y hy
        rw [List.mem_singleton.mp hy, hnode]
        exact shortKeys_firstLeaf t
      · have hroot₁ : (t.newMutableLeafChild t.root).2.node
            (t.newMutableLeafChild t.root).2.root
            = { t.node t.root with children := [t.arena.next] } := hi.rootNode
        rw [hroot₁]
        exact ⟨hroot.size, hroot.min, hroot.max⟩
  | some a =>
      -- the call goes on if the descent comes to the leaf and has read it
      have hmem := insertTarget_mem hl ha
      cases hd : descendInsert env key t.arena.next t kv t.root [t.root] with
      | error e =>
          simp only [takesOf, hd] at hx
          exact absurd hx List.not_mem_nil
      | ok p =>
          obtain ⟨d, T, kv₁⟩ := p
          rcases descendInsert_ends hl ha hd with
            ⟨status, rfl⟩ | ⟨rfl, es, hes, rfl⟩
          · simp only [takesOf, hd] at hx
            exact absurd hx List.not_mem_nil
          · -- the condition is about the leaf as it was read
            have hleaf := leafOf_merged hl hmem es
            have hshort := (hall a hmem).merged hes
            simp only [takesOf, hd, node_setNode_self, BptNode.insert,
              if_pos hleaf.isLeaf] at hx
            simp only [Bptree.call, insert, hd, Exec.bind_ok, node_setNode_self,
              BptNode.insert, if_pos hleaf.isLeaf] at hok
            split_ifs at hx hok with hk hw
            · exact absurd hx List.not_mem_nil
            · exact absurd hx List.not_mem_nil
            · simp only [Exec.bind_ok, if_true, setNode_setNode] at hx hok
              obtain ⟨_, hok, -⟩ := Exec.bind_eq_ok.mp hok
              obtain ⟨t'', hun, -⟩ := Exec.bind_eq_ok.mp hok
              obtain ⟨hadd, hsplit⟩ := fits_of_covered hleaf.isLeaf hk
                (fun hne => (if_neg hne).mp (hc.add hl hacc ha hes hk))
              exact fits_takesOfInsertUnwind hl hmem
                (added_leafOf hleaf key value) hall
                (hshort.withEntry hkey value) hroot hadd hsplit hun hx

/-- The subtractions of a `Delete`. -/
theorem SizeSound.fits_delete (h : SizeSound t) (hacc : Accounted t slack)
    (hc : Covered env ((t, kv), slack) (.delete key))
    (hx : x ∈ takesOf env (t, kv) (.delete key)) : x.Fits := by
  obtain ⟨ls, hl, hall, hroot⟩ := h
  cases ha : t.findChild t.root key with
  | none =>
      simp only [takesOf, descendFind_none hl ha] at hx
      exact absurd hx List.not_mem_nil
  | some a =>
      -- the call subtracts only when it has read the leaf and found the key
      have hmem := findChild_mem hl ha
      cases hd : descendFind env key .ok t.arena.next t kv t.root [t.root] with
      | error e =>
          simp only [takesOf, hd] at hx
          exact absurd hx List.not_mem_nil
      | ok p =>
          obtain ⟨d, T, kv₁⟩ := p
          rcases descendFind_ends hl ha hd with
            ⟨status, rfl⟩ | ⟨rfl, es, hes, rfl⟩
          · simp only [takesOf, hd] at hx
            exact absurd hx List.not_mem_nil
          · have hleaf := leafOf_merged hl hmem es
            simp only [takesOf, hd, node_setNode_self, BptNode.delete,
              if_pos hleaf.isLeaf] at hx
            split_ifs at hx with hk
            · simp only [setNode_setNode] at hx
              have hx : x ∈ takesOfDeleteUnwind key [a, t.root]
                  (t.setNode a (removed (t.merged a es) key)) := hx
              have hleaf' : LeafOf t.root (removed (t.merged a es) key) :=
                ⟨hleaf.isLeaf, hleaf.isRoot, hleaf.parent, hleaf.children⟩
              exact fits_takesOfDeleteUnwind (n := t.merged a es) hl hmem hleaf'
                hall ((hall a hmem).merged hes) hroot
                (hc.del hl hacc ha hes hk) hx
            · exact absurd hx List.not_mem_nil

/-- Each subtraction of a covered call fits, and it leaves the tree covered. -/
theorem CoveredCall.fits {e : TreeOp × Reply × List Take}
    (hc : CoveredCall env s e s') (h : SizeSound s.1.1)
    (hacc : Accounted s.1.1 s.2) :
    (∀ y ∈ e.2.2, y.Fits) ∧ SizeSound s'.1.1 ∧ Accounted s'.1.1 s'.2 := by
  obtain ⟨⟨t, kv⟩, slack⟩ := s
  obtain ⟨⟨t', kv'⟩, slack'⟩ := s'
  obtain ⟨op, r, takes⟩ := e
  obtain ⟨hcov, hcall, hslack⟩ := hc
  have hcov : Covered env ((t, kv), slack) op := hcov
  have hcall : callTaking env (t, kv) op = .ok ((r, takes), t', kv') := hcall
  obtain rfl : slack' = slackAfter env (t, kv) slack op := hslack
  obtain ⟨⟨r₁, s₁⟩, hok, hr⟩ := Exec.bind_eq_ok.mp hcall
  have hr : ((r₁, takesOf env (t, kv) op), s₁) = ((r, takes), t', kv') :=
    Except.ok.inj hr
  cases hr
  have hl := h.choose_spec.1
  refine ⟨fun y hy => ?_, h.call hcov hok, hcov.accounted hl hacc hok⟩
  cases op with
  | insert key value => exact h.fits_insert hacc hcov hok hy
  | delete key => exact h.fits_delete hacc hcov hy
  | getItem key => exact absurd hy List.not_mem_nil
  | save => exact absurd hy List.not_mem_nil

/-- In every run of covered calls from an empty root, over any store, no
    subtraction takes more than there is. -/
theorem node_size_never_wraps (treeCtx : TreeCtx) (id : Nat)
    {h : List (TreeOp × Reply × List Take)}
    (hr : Run (CoveredCall env)
      ((ofProto treeCtx { id, children := [] }, kv), 0) h s) :
    NeverWraps h := by
  have h₀ : SizeSound (ofProto treeCtx { id, children := [] }) :=
    ⟨[], Linked.ofProto_empty treeCtx id,
      fun _ ha => absurd ha List.not_mem_nil,
      ⟨rfl, Nat.two_pow_pos 63, Nat.two_pow_pos 63⟩⟩
  -- the account is right as long as nothing wrapped, and says what is left
  refine (hr.invariant (I := fun h s =>
      NeverWraps h ∧ SizeSound s.1.1 ∧ Accounted s.1.1 s.2)
    ⟨fun _ he => absurd he List.not_mem_nil, h₀,
      Accounted.ofProto treeCtx id 0⟩ ?_).1
  rintro h s e s' ⟨hfit, hsound, hacc⟩ hc
  obtain ⟨hnew, hkept⟩ := hc.fits hsound hacc
  refine ⟨fun e' he => ?_, hkept⟩
  rcases List.mem_append.mp he with he | he
  · exact hfit e' he
  · rw [List.mem_singleton.mp he]
    exact hnew

instance (env : Env) (n : BptNode) (size : Nat) (key value : Bytes) :
    Decidable (AddCovered env n size key value) :=
  decidable_of_iff (_ ∧ _ ∧ _ ∧ _)
    ⟨fun h => ⟨h.1, h.2.1, h.2.2.1, h.2.2.2⟩,
      fun h => ⟨h.word, h.above, h.below, h.split⟩⟩

instance (n : BptNode) (size : Nat) (key : Bytes) :
    Decidable (DelCovered n size key) :=
  inferInstanceAs (Decidable (_ → _ → _))

instance (env : Env) (s : TreeState × Slack) (op : TreeOp) :
    Decidable (Covered env s op) :=
  match op with
  | .insert key value =>
      have : DecidablePred fun a => ∀ es, s.1.1.Reads env s.1.2 a es →
          key ∉ (s.1.1.merged a es).kvs →
          if (s.1.1.merged a es).kvs.entries = [] then
            counted (s.1.1, s.2) a + value.length
              + (key.length + key.length + 20) < 2 ^ 64
          else AddCovered env (s.1.1.merged a es) (counted (s.1.1, s.2) a)
            key value := fun a => decidableReads env s.1.1 s.1.2 a
      inferInstanceAs (Decidable (_ ∧ _ ∧
        ∀ a, s.1.1.insertTarget key = some a → _))
  | .delete key =>
      have : DecidablePred fun a => ∀ es, s.1.1.Reads env s.1.2 a es →
          key ∈ (s.1.1.merged a es).kvs →
          DelCovered (s.1.1.merged a es) (counted (s.1.1, s.2) a) key :=
        fun a => decidableReads env s.1.1 s.1.2 a
      inferInstanceAs (Decidable (∀ a, s.1.1.findChild s.1.1.root key = some a
        → _))
  | .getItem _ => isTrue trivial
  | .save => isTrue trivial

/-- A run of the executable steps. -/
theorem run_of_callTaking {s s' : TreeState}
    {h : List (TreeOp × Reply × List Take)} {ops : List TreeOp}
    (hexec : execAll (callTaking env) s ops = .ok (h, s')) :
    Run (CalledTaking env) s h s' :=
  run_of_execAll (fun hok => hok) hexec

/-- A leaf that splits, and then gives its greatest key away. -/
theorem node_size_never_wraps_split :
    ∃ h s, Run (CoveredCall (.wire 10)) (newTree, 0) h s
      ∧ h.map (fun e => e.2.2.length) = [2, 2, 3, 0, 1] ∧ NeverWraps h := by
  obtain ⟨h, s, hexec, hview⟩ := @exists_of_execAll _ _ _ _ _
    (guarded (Covered (.wire 10)) .assertion
      (accounting (.wire 10) (callTaking (.wire 10)))) (newTree, 0)
    [.insert [1] [], .insert [2] [7], .insert [3] [], .save, .delete [2]]
    (fun r => r.1.map (fun e => e.2.2.length)) [2, 2, 3, 0, 1]
    (by decide +kernel)
  have hrun : Run (CoveredCall (.wire 10)) (newTree, 0) h s :=
    run_of_guarded (fun hc hok =>
      ⟨hc, (called_of_accounting hok).1, (called_of_accounting hok).2⟩) hexec
  exact ⟨h, s, hrun, hview, node_size_never_wraps { id := 1 } 1 hrun⟩

/-- A key of forty-one bytes between `[1]` and `[3]`. -/
def longKey : Bytes := 2 :: List.replicate 40 0

/-- `node_size` did not count the key in the middle, and `Split` takes it with
    the right half. -/
theorem split_takes_too_much :
    ∃ h s, Run (CalledTaking (.wire 22)) newTree h s
      ∧ h.getLast?.map (fun e => e.2.2) = some [⟨23, 42⟩] ∧ ¬ NeverWraps h := by
  obtain ⟨h, s, hexec, hview⟩ := @exists_of_execAll _ _ _ _ _
    (callTaking (.wire 22)) newTree
    [.insert [1] [], .insert [3] [], .insert longKey [], .insert [2] [7]]
    (fun r => r.1.getLast?.map (fun e => e.2.2))
    (some [⟨23, 42⟩]) (by decide +kernel)
  refine ⟨h, s, run_of_callTaking hexec, hview, ?_⟩
  intro hall
  obtain ⟨e, he, htakes⟩ := Option.map_eq_some_iff.mp hview
  have hlast : (⟨23, 42⟩ : Take) ∈ e.2.2 := by
    rw [htakes]
    exact List.mem_singleton_self _
  exact absurd (hall e (List.mem_of_getLast? he) _ hlast) (by decide)

end Takes

end Bptree

end AmDb.Storage

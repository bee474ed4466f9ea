import AmDb.Storage.TreeStat

/-! # What a leaf counts and does not hold

    An account of a run over its keys and values: for every leaf the bytes that
    its `node_size` counts beyond those it holds.  The first key of a leaf is
    counted twice, with 20 bytes more.  A later one is counted in exchange for
    an end key, or not at all.  Bytes that come in by reading the leaf again
    are not counted, and of what a `Delete` takes out only an end key is.  The
    right half of a leaf counts what it holds.

    As long as no sum or difference leaves the range of a `uint64_t`, the
    account is right. -/

namespace AmDb.Storage

open Codec OrderedMap

namespace Bptree

/-- What a leaf counts beyond what it holds, by its address. -/
abbrev Slack := Addr → Int

/-- The leaf as it is once it was read again, if the store answers. -/
def readAgain (env : Env) (s : TreeState) (a : Addr) : Option BptNode :=
  if s.2.tick.1 then none
  else (s.1.reread env s.2 a).toOption.map (s.1.merged a)

/-- The slack of the leaf then. -/
def Slack.afterRead (slack : Slack) (t : Bptree) (a : Addr)
    (n : BptNode) : Int :=
  slack a - (entryBytes n.kvs.entries - entryBytes (t.node a).kvs.entries : Int)

/-- The bytes of a new key less those that are counted for it. -/
def keyCost (n : BptNode) (key : Bytes) : Int :=
  if n.kvs.entries = [] then -(key.length + 20)
  else key.length
    - (if n.stat.maxKey < key then
        (key.length - n.stat.maxKey.length : Int) else 0)
    - (if key < n.stat.minKey then
        (key.length - n.stat.minKey.length : Int) else 0)

/-- The bytes of an entry less those that are taken from the size for it. -/
def entryReturn (n : BptNode) (key : Bytes) : Int :=
  entryBytes n.kvs.entries - entryBytes (n.kvs.erase key).entries
    - (if (n.kvs.erase key).entries ≠ []
        ∧ (key = n.stat.maxKey ∨ key = n.stat.minKey) then
      (key.length : Int) else 0)

/-- The account after a call that returned. -/
def slackAfter (env : Env) (s : TreeState) (slack : Slack) : TreeOp → Slack
  | .insert key _ =>
      match s.1.insertTarget key with
      | none => Function.update slack s.1.arena.next (key.length + 20)
      | some a =>
          match readAgain env s a with
          | none => slack
          | some n =>
              let left := slack.afterRead s.1 a n
              if key ∈ n.kvs ∨ key ∈ n.writeKvs then
                Function.update slack a left
              else
                -- a right half would be at the next address
                Function.update (Function.update slack a
                  (left - keyCost n key)) s.1.arena.next 0
  | .delete key =>
      match s.1.findChild s.1.root key with
      | none => slack
      | some a =>
          if s.1.stored s.2 a = none then slack
          else match readAgain env s a with
            | none => slack
            | some n =>
                let left := slack.afterRead s.1 a n
                Function.update slack a
                  (if key ∈ n.kvs then left + entryReturn n key else left)
  | .getItem key =>
      match s.1.findChild s.1.root key with
      | none => slack
      | some a =>
          if s.1.stored s.2 a = none then slack
          else match readAgain env s a with
            | none => slack
            | some n => Function.update slack a (slack.afterRead s.1 a n)
  | .save => slack

/-- Calls with the account beside them. -/
def accounting {ρ : Type} (env : Env)
    (f : TreeState → TreeOp → Exec (ρ × TreeState)) (s : TreeState × Slack)
    (op : TreeOp) : Exec (ρ × TreeState × Slack) := do
  let (r, s') ← f s.1 op
  return (r, s', slackAfter env s.1 s.2 op)

/-- Keeping the account changes no call. -/
theorem called_of_accounting {ρ : Type} {env : Env}
    {f : TreeState → TreeOp → Exec (ρ × TreeState)} {s s' : TreeState × Slack}
    {op : TreeOp} {r : ρ} (h : accounting env f s op = .ok (r, s')) :
    f s.1 op = .ok (r, s'.1) ∧ s'.2 = slackAfter env s.1 s.2 op := by
  obtain ⟨⟨r₁, s₁⟩, hok, hr⟩ := Exec.bind_eq_ok.mp h
  cases hr
  exact ⟨hok, rfl⟩

/-- What the run has counted for a leaf. -/
def counted (s : Bptree × Slack) (a : Addr) : Nat :=
  (entryBytes (s.1.node a).kvs.entries + s.2 a).toNat

/-- A leaf that counts `x` bytes beyond those it holds. -/
structure AccountedAs (n : BptNode) (x : Int) : Prop where
  word : n.stat.nodeSize < 2 ^ 64
  size : (n.stat.nodeSize : Int) = entryBytes n.kvs.entries + x

/-- The account is right for every leaf. -/
def Accounted (t : Bptree) (slack : Slack) : Prop :=
  ∀ a ∈ (t.node t.root).children, AccountedAs (t.node a) (slack a)

/-- A new entry is counted without leaving the range, and so are the halves if
    the leaf then splits. -/
structure CountsIn (env : Env) (n : BptNode) (key value : Bytes) : Prop where
  size  : ((withEntry n key value).stat.nodeSize : Int)
    = n.stat.nodeSize + (key.length + value.length) - keyCost n key
  split : (withEntry n key value).needSplit env.bptreeMaxNodeSize = true →
    entryBytes ((withEntry n key value).kvs.entries.drop
        (splitAt (withEntry n key value)))
      ≤ (withEntry n key value).stat.nodeSize

section Account

variable {env : Env} {t t' : Bptree} {kv kv' : KvStorage} {ls : List Addr}
  {key value : Bytes} {a : Addr} {n n' l r : BptNode} {x : Int}
  {es : List (Bytes × Bytes)} {slack : Slack} {reply : Reply}

/-- A new entry adds its bytes. -/
theorem entryBytes_insertNew {k : Bytes} (v : Bytes) (hk : k ∉ keys es) :
    entryBytes (insertNew k v es) = entryBytes es + (k.length + v.length) := by
  induction es with
  | nil => simp [insertNew]
  | cons e es ih =>
      have hne : e.1 ≠ k := fun he => hk ⟨e, List.mem_cons_self, he⟩
      have hes : k ∉ keys es := by
        rintro ⟨x, hx, he⟩
        exact hk ⟨x, List.mem_cons_of_mem _ hx, he⟩
      rw [insertNew]
      split_ifs with h₁ h₂
      · simp only [entryBytes_cons]
        omega
      · simp only [entryBytes_cons, ih hes]
        omega
      · exact absurd (le_antisymm (not_lt.mp h₁) (not_lt.mp h₂)) hne

/-! ## One leaf -/

/-- `node_size` is a number of 64 bits. -/
theorem nodeSize_withEntry_lt (n : BptNode) (key value : Bytes) :
    (withEntry n key value).stat.nodeSize < 2 ^ 64 := by
  rw [withEntry, BptNode.updateStatByAddKV]
  simp only
  split_ifs <;> exact Nat.mod_lt _ (Nat.two_pow_pos 64)

/-- An entry that counts fully takes its cost off the account. -/
theorem AccountedAs.withEntry (h : AccountedAs n x) (hk : key ∉ n.kvs)
    (hc : CountsIn env n key value) :
    AccountedAs (withEntry n key value) (x - keyCost n key) := by
  refine ⟨nodeSize_withEntry_lt n key value, ?_⟩
  rw [hc.size, h.size, kvs_withEntry, entries_emplace,
    entryBytes_insertNew value hk]
  push_cast
  omega

/-- The left half keeps the account, the right half begins with none. -/
theorem AccountedAs.halves (h : AccountedAs n x) (hh : Halves n l r)
    (ht : Tallied n l r) (hfit : entryBytes (n.kvs.entries.drop (splitAt n))
      ≤ n.stat.nodeSize) : AccountedAs l x ∧ AccountedAs r 0 := by
  have hcut : entryBytes l.kvs.entries + entryBytes r.kvs.entries
      = entryBytes n.kvs.entries := by
    rw [hh.left_kvs, hh.right_kvs, entries_take, entries_drop,
      ← entryBytes_append, List.take_append_drop]
  rw [← entries_drop, ← hh.right_kvs] at hfit
  have hright : r.stat.nodeSize = entryBytes r.kvs.entries := by
    rw [ht.right_size, u64_of_lt (hfit.trans_lt h.word)]
  have hleft : l.stat.nodeSize = n.stat.nodeSize - entryBytes r.kvs.entries := by
    rw [ht.left_size, hright, sub64_of_le hfit h.word]
  have hword := h.word
  have hsize := h.size
  refine ⟨⟨by omega, by omega⟩, ⟨by omega, by omega⟩⟩

/-- Reading the leaf again leaves its size as it is. -/
theorem AccountedAs.merged (h : AccountedAs (t.node a) (slack a))
    (es : List (Bytes × Bytes)) :
    AccountedAs (t.merged a es) (slack.afterRead t a (t.merged a es)) := by
  refine ⟨h.word, ?_⟩
  have hstat : (t.merged a es).stat = (t.node a).stat := rfl
  rw [hstat, h.size, Slack.afterRead]
  omega

/-- Taking an entry out, when the size holds the key that is taken from it. -/
theorem AccountedAs.deleteWrites {gone : List Nat}
    {collected : List (Nat × Addr)} {ls' : List Addr} (h : AccountedAs n x)
    (hfit : (n.kvs.erase key).entries ≠ [] →
      key = n.stat.maxKey ∨ key = n.stat.minKey → key.length ≤ n.stat.nodeSize)
    (hw : DeleteWrites key t ls a (removed n key) n' gone collected ls') :
    AccountedAs n' (x + entryReturn n key) := by
  have hsize := h.size
  cases hw with
  | shrunk _ hne hdel =>
      have hne : (n.kvs.erase key).entries ≠ [] := hne
      have hkvs : n'.kvs = n.kvs.erase key := by
        obtain ⟨stat, heq, -⟩ := @BptNode.updateStatByDelKV_eq (removed n key) key hne
        rw [heq] at hdel
        rw [← Except.ok.inj hdel]
        rfl
      -- `node_size` goes down by the key alone, and for an end key only
      have hnode : n'.stat.nodeSize
          = if key = n.stat.maxKey ∨ key = n.stat.minKey then
              n.stat.nodeSize - key.length
            else n.stat.nodeSize := by
        rw [BptNode.nodeSize_updateStatByDelKV hdel]
        have hstat : (removed n key).stat = n.stat := rfl
        rw [hstat]
        split_ifs with hend
        · exact sub64_of_le (hfit hne hend) h.word
        · rfl
      have hword := h.word
      rw [entryReturn]
      refine ⟨?_, ?_⟩
      · rw [hnode]
        split_ifs <;> omega
      · rw [hnode, hkvs]
        by_cases hend : key = n.stat.maxKey ∨ key = n.stat.minKey
        · have := hfit hne hend
          rw [if_pos hend, if_pos ⟨hne, hend⟩]
          omega
        · rw [if_neg hend, if_neg (fun h => hend h.2)]
          omega
  | emptied _ hnil _ =>
      -- `UpdateStatByDelKV` is not called for an empty leaf
      have hnil : (n.kvs.erase key).entries = [] := hnil
      refine ⟨h.word, ?_⟩
      rw [entryReturn, if_neg (fun h => h.1 hnil)]
      show (n.stat.nodeSize : Int)
        = entryBytes (n.kvs.erase key).entries + _
      omega

/-! ## The tree -/

theorem readAgain_of_reads (hes : t.Reads env kv a es) :
    readAgain env (t, kv) a = some (t.merged a es) := by
  rw [readAgain, if_neg (by rw [hes.1]; exact Bool.false_ne_true), hes.2]
  rfl

/-- A call that finds no leaf changes nothing. -/
theorem slackAfter_of_notFound (hno : t.NotFound kv key) :
    slackAfter env (t, kv) slack (.delete key) = slack
      ∧ slackAfter env (t, kv) slack (.getItem key) = slack := by
  simp only [slackAfter]
  cases ha : t.findChild t.root key with
  | none => exact ⟨rfl, rfl⟩
  | some a =>
      rcases hno a ha with hf | hs
      · have hread : readAgain env (t, kv) a = none := if_pos hf
        simp only [hread, ite_self, and_self]
      · simp only [hs, if_true, and_self]

theorem Accounted.of_mem (h : Accounted t slack) (hl : Linked t ls)
    (ha : a ∈ ls) : AccountedAs (t.node a) (slack a) :=
  h a (by rwa [hl.children])

/-- What is counted for a leaf is its size. -/
theorem Accounted.counted (h : Accounted t slack) (hl : Linked t ls)
    (ha : a ∈ ls) : Bptree.counted (t, slack) a = (t.node a).stat.nodeSize := by
  rw [Bptree.counted, ← (h.of_mem hl ha).size, Int.toNat_natCast]

/-- One leaf was written. -/
theorem Accounted.setNode (h : Accounted t slack) (hl : Linked t ls)
    (ha : a ∈ ls) (hn : AccountedAs n x) :
    Accounted (t.setNode a n) (Function.update slack a x) := by
  intro y hy
  rw [root_setNode, node_setNode_ne _ _ (hl.ne_root ha).symm] at hy
  by_cases hya : y = a
  · rw [hya, node_setNode_self, Function.update_self]
    exact hn
  · rw [node_setNode_ne _ _ hya, Function.update_of_ne hya]
    exact h y hy

/-- One leaf took an entry, and may have come in two. -/
theorem Accounted.climbed {ls' : List Addr} {m : BptNode}
    (h : Accounted t slack) (hl : Linked t ls) (ha : a ∈ ls)
    (hc : Climbed env t ls a n t' ls' m) (hn : AccountedAs n x)
    (hfit : n.needSplit env.bptreeMaxNodeSize = true →
      entryBytes (n.kvs.entries.drop (splitAt n)) ≤ n.stat.nodeSize) :
    Accounted t' (Function.update (Function.update slack a x)
      t.arena.next 0) := by
  have hane : a ≠ t.arena.next := Nat.ne_of_lt (hl.leaf_lt a ha)
  have hself : Function.update (Function.update slack a x) t.arena.next 0 a
      = x := by
    rw [Function.update_of_ne hane, Function.update_self]
  intro y hy
  rw [hc.linked.children] at hy
  rcases hc.leaves y hy with rfl | ⟨rfl, hs⟩ | ⟨hyls, hsame⟩
  · rw [hself]
    cases hc.lands with
    | whole _ hn' => rw [hn']; exact hn
    | halves hs hh ht => exact (hn.halves hh ht (hfit hs)).1
  · rw [Function.update_self]
    cases hc.lands with
    | whole hs' _ => rw [hs] at hs'; cases hs'
    | halves _ hh ht => exact (hn.halves hh ht (hfit hs)).2
  · have hynext : y ≠ t.arena.next := Nat.ne_of_lt (hl.leaf_lt y hyls)
    rw [Function.update_of_ne hynext]
    by_cases hya : y = a
    · -- the leaf itself, which then is as it was
      subst hya
      rw [Function.update_self]
      cases hc.lands with
      | whole _ hn' => rw [hn']; exact hn
      | halves hs hh ht => exact (hn.halves hh ht (hfit hs)).1
    · rw [Function.update_of_ne hya, hsame]
      exact h.of_mem hl hyls

/-- An `Insert` that counts in what it adds keeps the account. -/
theorem Accounted.insert (h : Accounted t slack) (hl : Linked t ls)
    (hfirst : t.insertTarget key = none → CountsIn env t.firstLeaf key value)
    (hadd : ∀ a es, t.insertTarget key = some a → t.Reads env kv a es →
      key ∉ (t.merged a es).kvs → CountsIn env (t.merged a es) key value)
    (hok : call env (t, kv) (.insert key value) = .ok (reply, t', kv')) :
    Accounted t' (slackAfter env (t, kv) slack (.insert key value)) := by
  cases insert_effect hl hok with
  | nothing ha hf heq =>
      simp only [slackAfter, ha, readAgain, hf, if_true]
      rw [heq]
      exact h
  | read ha hes hk heq =>
      simp only [slackAfter, ha, readAgain_of_reads hes, if_pos hk]
      rw [heq]
      have hmem := insertTarget_mem hl ha
      exact h.setNode hl hmem ((h.of_mem hl hmem).merged _)
  | first hnil hl' hroot hn _ =>
      have ha : t.insertTarget key = none := (insertTarget_eq_none hl).mpr hnil
      simp only [slackAfter, ha]
      intro y hy
      rw [hl'.children] at hy
      rw [List.mem_singleton.mp hy, hn, Function.update_self]
      -- the first entry counts its key twice, and the constant
      have hempty : AccountedAs t.firstLeaf 0 := ⟨Nat.two_pow_pos 64, rfl⟩
      have hk : key ∉ t.firstLeaf.kvs := fun ⟨e, he, _⟩ => List.not_mem_nil he
      have hnew := hempty.withEntry hk (hfirst ha)
      have hcost : (0 : Int) - keyCost t.firstLeaf key = key.length + 20 := by
        have hnone : t.firstLeaf.kvs.entries = [] := rfl
        rw [keyCost, if_pos hnone]
        omega
      rwa [hcost] at hnew
  | entered ha hes hk hw hc =>
      simp only [slackAfter, ha, readAgain_of_reads hes,
        if_neg (not_or.mpr ⟨hk, hw⟩)]
      have hmem := insertTarget_mem hl ha
      -- an entry counts fully where the size does not wrap
      have hin := hadd _ _ ha hes hk
      exact h.climbed hl hmem hc
        (((h.of_mem hl hmem).merged _).withEntry hk hin) hin.split

/-- A `Delete` that takes no more than there is keeps the account. -/
theorem Accounted.delete (h : Accounted t slack) (hl : Linked t ls)
    (hfit : ∀ a es, t.findChild t.root key = some a → t.Reads env kv a es →
      key ∈ (t.merged a es).kvs →
      ((t.merged a es).kvs.erase key).entries ≠ [] →
      key = (t.merged a es).stat.maxKey ∨ key = (t.merged a es).stat.minKey →
      key.length ≤ (t.merged a es).stat.nodeSize)
    (hok : call env (t, kv) (.delete key) = .ok (reply, t', kv')) :
    Accounted t' (slackAfter env (t, kv) slack (.delete key)) := by
  cases delete_effect hl hok with
  | nothing hno heq =>
      rw [heq, (slackAfter_of_notFound hno).1]
      exact h
  | read ha hs hes hk heq =>
      simp only [slackAfter, ha, if_neg hs, readAgain_of_reads hes, if_neg hk]
      rw [heq]
      have hmem := findChild_mem hl ha
      exact h.setNode hl hmem ((h.of_mem hl hmem).merged _)
  | @left a es n' _ _ ls' ha hs hes hk hw hl' hroot _ hnodes =>
      simp only [slackAfter, ha, if_neg hs, readAgain_of_reads hes, if_pos hk]
      have hmem := findChild_mem hl ha
      have hn := ((h.of_mem hl hmem).merged es).deleteWrites
        (hfit a es ha hes hk) hw
      intro y hy
      rw [hl'.children] at hy
      rw [hnodes y hy]
      by_cases hya : y = a
      · rw [hya, overlay_cons_self t.node (a, n'), Function.update_self]
        exact hn
      · rw [overlay_cons_ne t.node _ hya, Function.update_of_ne hya]
        exact h.of_mem hl ((mem_of_deleteWrites hw).subset hy)

theorem Accounted.getItem (h : Accounted t slack) (hl : Linked t ls)
    (hok : call env (t, kv) (.getItem key) = .ok (reply, t', kv')) :
    Accounted t' (slackAfter env (t, kv) slack (.getItem key)) := by
  cases getItem_effect hl hok with
  | nothing hno heq =>
      rw [heq, (slackAfter_of_notFound hno).2]
      exact h
  | read ha hs hes heq =>
      simp only [slackAfter, ha, if_neg hs, readAgain_of_reads hes]
      rw [heq]
      have hmem := findChild_mem hl ha
      exact h.setNode hl hmem ((h.of_mem hl hmem).merged _)

theorem Accounted.save (h : Accounted t slack)
    (hok : call env (t, kv) .save = .ok (reply, t', kv')) :
    Accounted t' (slackAfter env (t, kv) slack .save) := by
  have hpull : t.pullUnsavedTreeNode env kv = (t', kv') :=
    (Prod.mk.inj (Except.ok.inj hok)).2
  obtain ⟨hroot, harena⟩ := pull_nodes env t kv
  rw [hpull] at hroot harena
  have hnode : t'.node = t.node := by
    funext y
    rw [Bptree.node, harena]
    rfl
  intro y hy
  rw [hnode, hroot] at hy
  rw [hnode]
  exact h y hy

/-- A tree without leaves has nothing to account for. -/
theorem Accounted.ofProto (treeCtx : TreeCtx) (id : Nat) (slack : Slack) :
    Accounted (Bptree.ofProto treeCtx { id, children := [] }) slack := by
  intro a ha
  exact absurd ha List.not_mem_nil

end Account

end Bptree

end AmDb.Storage

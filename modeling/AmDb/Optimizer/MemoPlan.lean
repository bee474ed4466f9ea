import AmDb.Optimizer.Cascades

/-! # Plans in the memo

    Where `InitMemo` puts a plan: a node whose subtree has `n` nodes gets the
    ids `c + 2 n - 1` and `c + 2 n`, for its expression and its group, when the
    counter was at `c` before the subtree. -/

namespace AmDb.Optimizer

open Plan

/-- The operations the rules are there for. -/
def IsQueryOp : RelOp → Prop
  | .tableScan _ | .filter _ | .resultSet => True
  | _ => False

/-- A tree of the logical nodes of queries. -/
inductive LogicalPlan : RelOptNode → Prop
  | node {op : RelOp} {inputs : List RelOptNode} (hop : IsQueryOp op)
      (h : ∀ input ∈ inputs, LogicalPlan input) : LogicalPlan (.logical op inputs)

mutual

/-- Each logical node replaced by its physical counterpart. -/
def counterpart : RelOptNode → RelOptNode
  | .logical op inputs => .physical op (counterparts inputs)
  | .physical op inputs => .physical op inputs
  | .placeHolder node groupId inputs => .placeHolder node groupId inputs

def counterparts : List RelOptNode → List RelOptNode
  | [] => []
  | input :: inputs => counterpart input :: counterparts inputs

end

mutual

/-- The number of nodes of a logical plan. -/
def size : RelOptNode → Nat
  | .logical _ inputs => sizes inputs + 1
  | .physical _ _ => 0
  | .placeHolder _ _ _ => 0

def sizes : List RelOptNode → Nat
  | [] => 0
  | input :: inputs => size input + sizes inputs

end

/-- The groups of plans that are entered one after the other. -/
def groupIds (c : Nat) : List RelOptNode → List GroupId
  | [] => []
  | input :: inputs =>
      (c + 2 * size input) :: groupIds (c + 2 * size input) inputs

mutual

/-- All groups of a plan. -/
def allGroups (c : Nat) : RelOptNode → List GroupId
  | .logical _ inputs => allGroupsOf c inputs ++ [c + 2 * sizes inputs + 2]
  | .physical _ _ => []
  | .placeHolder _ _ _ => []

def allGroupsOf (c : Nat) : List RelOptNode → List GroupId
  | [] => []
  | input :: inputs =>
      allGroups c input ++ allGroupsOf (c + 2 * size input) inputs

end

variable {κ : Type}

/-- A group with one expression and no winner, with the next two ids. -/
structure Rooted (memo : Memo κ) (d : Nat) (node : RelMemoNode) : Prop where
  exprNode  : memo.exprIdToExprNode (d + 1) = some node
  exprGroup : memo.exprIdToGroupId (d + 1) = some (d + 2)
  group     : memo.groups (d + 2) = some ⟨[d + 1], ⟨none⟩⟩

mutual

/-- A plan as `InitMemo` entered it, the counter at `c`. -/
def Planted (memo : Memo κ) (c : Nat) : RelOptNode → Prop
  | .logical op inputs => PlantedAll memo c inputs
      ∧ Rooted memo (c + 2 * sizes inputs)
        ⟨.logical op inputs, groupIds c inputs⟩
  | .physical _ _ => False
  | .placeHolder _ _ _ => False

def PlantedAll (memo : Memo κ) (c : Nat) : List RelOptNode → Prop
  | [] => True
  | input :: inputs =>
      Planted memo c input ∧ PlantedAll memo (c + 2 * size input) inputs

end

/-- The winner of a group is an expression of it for this physical node. -/
def Won (memo : Memo κ) (g : GroupId) (op : RelOp) (children : List GroupId) :
    Prop :=
  ∃ group winner inputs, memo.groups g = some group
    ∧ group.info.winner = some winner ∧ winner.impossible = false
    ∧ winner.exprId ∈ group.groupExprs
    ∧ winner.exprId ≤ memo.groupExprCounter
    ∧ memo.exprIdToExprNode winner.exprId
      = some ⟨.physical op inputs, children⟩

mutual

/-- Every group of the plan has its winner. -/
def Best (memo : Memo κ) (c : Nat) : RelOptNode → Prop
  | .logical op inputs => BestAll memo c inputs
      ∧ Won memo (c + 2 * sizes inputs + 2) op (groupIds c inputs)
  | .physical _ _ => False
  | .placeHolder _ _ _ => False

def BestAll (memo : Memo κ) (c : Nat) : List RelOptNode → Prop
  | [] => True
  | input :: inputs =>
      Best memo c input ∧ BestAll memo (c + 2 * size input) inputs

end

/-! ## What these depend on -/

/-- Two memos agree on the ids after `lo` up to `hi`. -/
def Agree (memo memo' : Memo κ) (lo hi : Nat) : Prop :=
  ∀ x, lo < x → x ≤ hi → memo'.groups x = memo.groups x
    ∧ memo'.exprIdToExprNode x = memo.exprIdToExprNode x
    ∧ memo'.exprIdToGroupId x = memo.exprIdToGroupId x

theorem Agree.mono {memo memo' : Memo κ} {lo hi lo' hi' : Nat}
    (h : Agree memo memo' lo hi) (hlo : lo ≤ lo') (hhi : hi' ≤ hi) :
    Agree memo memo' lo' hi' :=
  fun x hx hx' => h x (Nat.lt_of_le_of_lt hlo hx) (Nat.le_trans hx' hhi)

/-- Inputs are planted in every memo that agrees on their groups. -/
theorem plantedAll_congr {memo memo' : Memo κ} {inputs : List RelOptNode}
    (ih : ∀ t ∈ inputs, ∀ c, Planted memo c t →
      Agree memo memo' c (c + 2 * size t) → Planted memo' c t) :
    ∀ {c : Nat}, PlantedAll memo c inputs →
      Agree memo memo' c (c + 2 * sizes inputs) → PlantedAll memo' c inputs := by
  induction inputs with
  | nil => exact fun _ _ => trivial
  | cons t ts ihs =>
      rintro c ⟨ht, hts⟩ hagree
      rw [sizes] at hagree
      exact ⟨ih t List.mem_cons_self c ht (hagree.mono (le_refl _) (by omega)),
        ihs (fun u hu => ih u (List.mem_cons_of_mem _ hu)) hts
          (hagree.mono (by omega) (by omega))⟩

/-- A tree is planted in every memo that agrees on its groups. -/
theorem planted_congr {memo memo' : Memo κ} {t : RelOptNode}
    (ht : LogicalPlan t) : ∀ c, Planted memo c t →
      Agree memo memo' c (c + 2 * size t) → Planted memo' c t := by
  induction ht with
  | @node op inputs _ _ ih =>
      rintro c ⟨hall, hroot⟩ hagree
      rw [size] at hagree
      refine ⟨plantedAll_congr ih hall (hagree.mono (le_refl _) (by omega)), ?_⟩
      obtain ⟨-, hnode, hgroup⟩ :=
        hagree (c + 2 * sizes inputs + 1) (by omega) (by omega)
      obtain ⟨hg, -, -⟩ :=
        hagree (c + 2 * sizes inputs + 2) (by omega) (by omega)
      exact ⟨hnode.trans hroot.exprNode, hgroup.trans hroot.exprGroup,
        hg.trans hroot.group⟩

/-- A group is won in a memo that has it as it is. -/
theorem won_congr {memo memo' : Memo κ} {g : GroupId} {op : RelOp}
    {children : List GroupId} (h : Won memo g op children)
    (hgroup : memo'.groups g = memo.groups g)
    (hcounter : memo.groupExprCounter ≤ memo'.groupExprCounter)
    (hnode : ∀ e ≤ memo.groupExprCounter,
      memo'.exprIdToExprNode e = memo.exprIdToExprNode e) :
    Won memo' g op children := by
  obtain ⟨group, winner, inputs, hg, hw, himp, hmem, hle, he⟩ := h
  exact ⟨group, winner, inputs, hgroup.trans hg, hw, himp, hmem,
    hle.trans hcounter, (hnode _ hle).trans he⟩

/-- Inputs are optimized in every memo that agrees on their groups. -/
theorem bestAll_congr {memo memo' : Memo κ} {inputs : List RelOptNode}
    (ih : ∀ t ∈ inputs, ∀ c, Best memo c t →
      (∀ g, c < g → g ≤ c + 2 * size t → memo'.groups g = memo.groups g) →
      Best memo' c t) :
    ∀ {c : Nat}, BestAll memo c inputs →
      (∀ g, c < g → g ≤ c + 2 * sizes inputs →
        memo'.groups g = memo.groups g) → BestAll memo' c inputs := by
  induction inputs with
  | nil => exact fun _ _ => trivial
  | cons t ts ihs =>
      rintro c ⟨ht, hts⟩ hagree
      rw [sizes] at hagree
      exact ⟨ih t List.mem_cons_self c ht
          (fun g hlo hhi => hagree g hlo (by omega)),
        ihs (fun u hu => ih u (List.mem_cons_of_mem _ hu)) hts
          (fun g hlo hhi => hagree g (by omega) (by omega))⟩

/-- A tree is optimized in every memo that agrees on its groups. -/
theorem best_congr {memo memo' : Memo κ} {t : RelOptNode} (ht : LogicalPlan t)
    (hcounter : memo.groupExprCounter ≤ memo'.groupExprCounter)
    (hnode : ∀ e ≤ memo.groupExprCounter,
      memo'.exprIdToExprNode e = memo.exprIdToExprNode e) :
    ∀ c, Best memo c t →
      (∀ g, c < g → g ≤ c + 2 * size t → memo'.groups g = memo.groups g) →
      Best memo' c t := by
  induction ht with
  | @node op inputs _ _ ih =>
      rintro c ⟨hall, hwon⟩ hagree
      rw [size] at hagree
      exact ⟨bestAll_congr ih hall
          (fun g hlo hhi => hagree g hlo (by omega)),
        won_congr hwon (hagree _ (by omega) (by omega)) hcounter hnode⟩

/-! ## InitMemo -/

/-- Ids beyond the counter are not in use, and no group has been merged. -/
structure Memo.Fresh (memo : Memo κ) : Prop where
  groups    : ∀ x, memo.groupExprCounter < x → memo.groups x = none
  exprNode  : ∀ x, memo.groupExprCounter < x → memo.exprIdToExprNode x = none
  exprGroup : ∀ x, memo.groupExprCounter < x → memo.exprIdToGroupId x = none
  merged    : memo.mergedGroups = fun _ => none

theorem fresh_empty : ({} : Memo κ).Fresh :=
  ⟨fun _ _ => rfl, fun _ _ => rfl, fun _ _ => rfl, rfl⟩

/-- The next `n` ids have been handed out, and these are the new groups. -/
structure Entered (memo memo' : Memo κ) (n : Nat) (new : List GroupId) :
    Prop where
  counter : memo'.groupExprCounter = memo.groupExprCounter + n
  fresh   : memo'.Fresh
  kept    : Agree memo memo' 0 memo.groupExprCounter
  created : ∀ g, memo'.groups g ≠ none → memo.groups g ≠ none ∨ g ∈ new

/-- One entry after another. -/
theorem Entered.trans {m₁ m₂ m₃ : Memo κ} {n₁ n₂ : Nat}
    {new₁ new₂ : List GroupId} (h : Entered m₁ m₂ n₁ new₁)
    (h' : Entered m₂ m₃ n₂ new₂) :
    Entered m₁ m₃ (n₁ + n₂) (new₁ ++ new₂) := by
  refine ⟨by rw [h'.counter, h.counter, Nat.add_assoc], h'.fresh, ?_, ?_⟩
  · intro x hx hle
    obtain ⟨hg, hn, he⟩ := h.kept x hx hle
    obtain ⟨hg', hn', he'⟩ :=
      h'.kept x hx (hle.trans (by rw [h.counter]; omega))
    exact ⟨hg'.trans hg, hn'.trans hn, he'.trans he⟩
  · intro g hg
    rcases h'.created g hg with hg | hg
    · exact (h.created g hg).imp_right (List.mem_append_left _)
    · exact Or.inr (List.mem_append_right _ hg)

theorem emplace_of_none {α : Type} {map : Nat → Option α} {key : Nat}
    (h : map key = none) (value : α) :
    Memo.emplace map key value = Function.update map key (some value) := by
  rw [Memo.emplace, h]

/-- A new group with one new expression. -/
theorem initNode_snd {memo : Memo κ} (h : memo.Fresh) (node : RelOptNode)
    (children : List GroupId) :
    (memo.initNode node children).2 = { memo with
      groupExprCounter := memo.groupExprCounter + 2
      exprIdToExprNode := Function.update memo.exprIdToExprNode
        (memo.groupExprCounter + 1) (some ⟨node, children⟩)
      exprIdToGroupId := Function.update memo.exprIdToGroupId
        (memo.groupExprCounter + 1) (some (memo.groupExprCounter + 2))
      groups := Function.update memo.groups (memo.groupExprCounter + 2)
        (some ⟨[memo.groupExprCounter + 1], ⟨none⟩⟩) } := by
  have hnode := h.exprNode (memo.groupExprCounter + 1) (Nat.lt_succ_self _)
  have hgroup := h.exprGroup (memo.groupExprCounter + 1) (Nat.lt_succ_self _)
  have hgroups := h.groups (memo.groupExprCounter + 2) (by omega)
  simp only [Memo.initNode, Memo.nextId, Memo.record, Memo.addExprToGroup,
    emplace_of_none hnode, emplace_of_none hgroup, hgroups]

/-- `InitNode` takes two ids. -/
theorem initNode_entered {memo : Memo κ} (h : memo.Fresh) (node : RelOptNode)
    (children : List GroupId) :
    Entered memo (memo.initNode node children).2 2
      [memo.groupExprCounter + 2] := by
  rw [initNode_snd h]
  refine ⟨rfl, ⟨?_, ?_, ?_, h.merged⟩, ?_, ?_⟩
  · intro x (hx : memo.groupExprCounter + 2 < x)
    have hne : x ≠ memo.groupExprCounter + 2 := by omega
    exact (Function.update_of_ne hne _ _).trans (h.groups x (by omega))
  · intro x (hx : memo.groupExprCounter + 2 < x)
    have hne : x ≠ memo.groupExprCounter + 1 := by omega
    exact (Function.update_of_ne hne _ _).trans (h.exprNode x (by omega))
  · intro x (hx : memo.groupExprCounter + 2 < x)
    have hne : x ≠ memo.groupExprCounter + 1 := by omega
    exact (Function.update_of_ne hne _ _).trans (h.exprGroup x (by omega))
  · intro x _ hle
    have hne : x ≠ memo.groupExprCounter + 1 := by omega
    have hne' : x ≠ memo.groupExprCounter + 2 := by omega
    exact ⟨Function.update_of_ne hne' _ _, Function.update_of_ne hne _ _,
      Function.update_of_ne hne _ _⟩
  · intro g hg
    by_cases heq : g = memo.groupExprCounter + 2
    · exact Or.inr (List.mem_singleton.mpr heq)
    · exact Or.inl fun hnone =>
        hg ((Function.update_of_ne heq _ _).trans hnone)

/-- `InitNode` roots its node in the ids it takes. -/
theorem initNode_rooted {memo : Memo κ} (h : memo.Fresh) (node : RelOptNode)
    (children : List GroupId) :
    Rooted (memo.initNode node children).2 memo.groupExprCounter
      ⟨node, children⟩ := by
  rw [initNode_snd h]
  exact ⟨Function.update_self .., Function.update_self ..,
    Function.update_self ..⟩

/-- What entering a list of plans does, given what entering each does. -/
theorem initInputs_spec {inputs : List RelOptNode}
    (hlog : ∀ t ∈ inputs, LogicalPlan t)
    (ih : ∀ t ∈ inputs, ∀ memo : Memo κ, memo.Fresh →
      (memo.initMemo t).1.1 = memo.groupExprCounter + 2 * size t
        ∧ Entered memo (memo.initMemo t).2 (2 * size t)
          (allGroups memo.groupExprCounter t)
        ∧ Planted (memo.initMemo t).2 memo.groupExprCounter t) :
    ∀ memo : Memo κ, memo.Fresh →
      (memo.initInputs inputs).1 = groupIds memo.groupExprCounter inputs
        ∧ Entered memo (memo.initInputs inputs).2 (2 * sizes inputs)
          (allGroupsOf memo.groupExprCounter inputs)
        ∧ PlantedAll (memo.initInputs inputs).2 memo.groupExprCounter
          inputs := by
  induction inputs with
  | nil =>
      exact fun memo h => ⟨rfl, ⟨rfl, h, fun x _ _ => ⟨rfl, rfl, rfl⟩,
        fun g hg => Or.inl hg⟩, trivial⟩
  | cons t ts ihs =>
      intro memo h
      obtain ⟨hid, hent, hplant⟩ := ih t List.mem_cons_self memo h
      obtain ⟨hids, hents, hplants⟩ := ihs
        (fun u hu => hlog u (List.mem_cons_of_mem _ hu))
        (fun u hu => ih u (List.mem_cons_of_mem _ hu)) _ hent.fresh
      rw [hent.counter] at hids hents hplants
      rw [Memo.initInputs]
      refine ⟨?_, ?_, ?_, hplants⟩
      · rw [groupIds, ← hids, ← hid]
      · rw [sizes, Nat.mul_add]
        exact hent.trans hents
      · refine planted_congr (hlog t List.mem_cons_self) _ hplant ?_
        exact hents.kept.mono (Nat.zero_le _) (by rw [hent.counter])

/-- `InitMemo` enters the inputs, then the node. -/
theorem initMemo_logical (memo : Memo κ) (op : RelOp)
    (inputs : List RelOptNode) :
    memo.initMemo (.logical op inputs)
      = (memo.initInputs inputs).2.initNode (.logical op inputs)
        (memo.initInputs inputs).1 := by
  rw [Memo.initMemo]

/-- It plants the tree, two ids a node. -/
theorem initMemo_spec {t : RelOptNode} (ht : LogicalPlan t) :
    ∀ memo : Memo κ, memo.Fresh →
      (memo.initMemo t).1.1 = memo.groupExprCounter + 2 * size t
        ∧ Entered memo (memo.initMemo t).2 (2 * size t)
          (allGroups memo.groupExprCounter t)
        ∧ Planted (memo.initMemo t).2 memo.groupExprCounter t := by
  induction ht with
  | @node op inputs hop hlog ih =>
      intro memo h
      obtain ⟨hids, hents, hplants⟩ := initInputs_spec hlog ih memo h
      have hnew := initNode_entered hents.fresh (.logical op inputs)
        (memo.initInputs inputs).1
      have hroot := initNode_rooted hents.fresh (.logical op inputs)
        (memo.initInputs inputs).1
      rw [hids, hents.counter] at hnew hroot
      rw [initMemo_logical, hids]
      refine ⟨?_, ?_, ?_, hroot⟩
      · show (memo.initInputs inputs).2.groupExprCounter + 2 = _
        rw [hents.counter, size]
        omega
      · rw [size, allGroups, Nat.mul_add]
        exact hents.trans hnew
      · refine plantedAll_congr (fun u hu => planted_congr (hlog u hu))
          hplants ?_
        exact hnew.kept.mono (Nat.zero_le _) (by rw [hents.counter])

end AmDb.Optimizer

import AmDb.Scheduler.Wiring

/-! # The run of a chain

    Every executor of a chain has its `Prepare` and its `Work` called once, from
    the table scan up, until one of them fails; the rows the scan generates are
    the rows the result set consumes. -/

namespace AmDb.Scheduler

open Chunk Plan

/-- The two calls on an executor, with what its `Work` made of them. -/
structure Turn where
  exec   : Nat
  status : Status
  rows   : List Row

def Turn.events (t : Turn) : List Event :=
  [.prepare t.exec, .work t.exec t.status t.rows]

/-- The executors that had their turn, in this order: all of them, or those up
    to the first whose `Work` fails. -/
def Outcome (order : List Nat) (status : Status) (ran : List Turn) : Prop :=
  (status = .ok ∧ ran.map Turn.exec = order ∧ ∀ t ∈ ran, t.status = .ok)
    ∨ (status ≠ .ok ∧ ran.map Turn.exec <+: order ∧ ∃ done t,
      ran = done ++ [t] ∧ (∀ u ∈ done, u.status = .ok) ∧ t.status = status)

theorem outcome_single (t : Turn) : Outcome [t.exec] t.status [t] := by
  by_cases h : t.status = .ok
  · exact Or.inl ⟨h, rfl, by simpa using h⟩
  · exact Or.inr ⟨h, List.prefix_refl _, [], t, rfl, by simp, rfl⟩

/-- The next executor has its turn. -/
theorem Outcome.snoc {order : List Nat} {ran : List Turn}
    (h : Outcome order .ok ran) (t : Turn) :
    Outcome (order ++ [t.exec]) t.status (ran ++ [t]) := by
  rcases h with ⟨-, hmap, hok⟩ | ⟨hne, -⟩
  · have hmap' : (ran ++ [t]).map Turn.exec = order ++ [t.exec] := by
      rw [List.map_append, hmap, List.map_singleton]
    by_cases ht : t.status = .ok
    · refine Or.inl ⟨ht, hmap', ?_⟩
      intro u hu
      rcases List.mem_append.mp hu with hu | hu
      · exact hok u hu
      · rwa [List.mem_singleton.mp hu]
    · exact Or.inr ⟨ht, hmap' ▸ List.prefix_refl _, ran, t, rfl, hok, rfl⟩
  · exact absurd rfl hne

/-- After a failure no other executor has one. -/
theorem Outcome.stopped {order : List Nat} {status : Status} {ran : List Turn}
    (h : Outcome order status ran) (hne : status ≠ .ok) (e : Nat) :
    Outcome (order ++ [e]) status ran := by
  rcases h with ⟨hok, -⟩ | ⟨-, hprefix, hrest⟩
  · exact absurd hok hne
  · exact Or.inr ⟨hne, hprefix.trans (List.prefix_append _ _), hrest⟩

/-- `Prepare` replaces the chunk an executor reads. -/
def IExecutor.withInput (x : IExecutor) (c : Nat) : IExecutor :=
  match x.kind with
  | .source _      => x
  | .transform _ o => { x with kind := .transform c o }
  | .sink _        => { x with kind := .sink c }
  | .create        => x

/-- An executor has an input chunk. -/
theorem IExecutor.exists_withInput (x : IExecutor) : ∃ c, x = x.withInput c := by
  obtain ⟨node, kind, inputs, outputs⟩ := x
  cases kind with
  | source c => exact ⟨0, rfl⟩
  | transform i o => exact ⟨i, rfl⟩
  | sink c => exact ⟨c, rfl⟩
  | create => exact ⟨0, rfl⟩

theorem IExecutor.withInput_withInput (x : IExecutor) (c d : Nat) :
    (x.withInput c).withInput d = x.withInput d := by
  obtain ⟨node, kind, inputs, outputs⟩ := x
  cases kind <;> rfl

@[simp] theorem IExecutor.outputChunk_withInput (x : IExecutor) (c : Nat) :
    (x.withInput c).outputChunk = x.outputChunk := by
  obtain ⟨node, kind, inputs, outputs⟩ := x
  cases kind <;> rfl

variable {σ : Type}

/-- The same executors and connections. -/
def Kept (w w' : World σ) : Prop :=
  ∀ x, ∃ c, w'.exec x = (w.exec x).withInput c

theorem Kept.of_eq {w w' : World σ} (h : w'.exec = w.exec) : Kept w w' := by
  intro x
  rw [h]
  exact (w.exec x).exists_withInput

/-- One step after another. -/
theorem Kept.trans {w₁ w₂ w₃ : World σ} (h : Kept w₁ w₂) (h' : Kept w₂ w₃) :
    Kept w₁ w₃ := by
  intro x
  obtain ⟨c, hc⟩ := h x
  obtain ⟨d, hd⟩ := h' x
  exact ⟨d, by rw [hd, hc, IExecutor.withInput_withInput]⟩

/-- An input that is set changes no wiring. -/
theorem kept_setExec {w : World σ} {e c : Nat} {x : IExecutor}
    (hx : x = (w.exec e).withInput c) : Kept w (w.setExec e x) := by
  intro y
  by_cases hy : y = e
  · subst hy
    exact ⟨c, by rw [World.setExec, hx]; exact Function.update_self ..⟩
  · obtain ⟨d, hd⟩ := (w.exec y).exists_withInput
    exact ⟨d, by rw [World.setExec, ← hd]; exact Function.update_of_ne hy ..⟩

/-- What is wired stays wired. -/
theorem Wired.kept {w w' : World σ} {n : RelOptNode} {out : List Port}
    {es : List Nat} (h : Wired w n out es) (hk : Kept w w') :
    Wired w' n out es := by
  induction h with
  | @source _ _ e _ he =>
      obtain ⟨c, hc⟩ := hk e
      exact .source (hc.trans (by rw [he]; rfl))
  | @transform _ _ _ e e' _ _ _ _ he hne _ ih =>
      obtain ⟨c, hc⟩ := hk e
      obtain ⟨d, hd⟩ := hk e'
      refine .transform (hc.trans (by rw [he]; rfl)) ?_ ih
      rwa [hd, IExecutor.outputChunk_withInput]
  | @sink _ e _ _ _ _ he _ ih =>
      obtain ⟨c, hc⟩ := hk e
      exact .sink (hc.trans (by rw [he]; rfl)) ih

/-! ## One turn -/

section Turns

variable {v : Overrides σ} {w w₁ : World σ} {node : Node}

/-- The tasks run in order, as long as they succeed. -/
theorem executeTasks_append (as bs : List Node) :
    executeTasks v (as ++ bs) w = (do
      let (status, w) ← executeTasks v as w
      if status ≠ .ok then return (status, w)
      else executeTasks v bs w) := by
  induction as generalizing w with
  | nil => rfl
  | cons a as ih =>
      rw [List.cons_append, executeTasks, executeTasks]
      cases hprep : w.prepare a.exec with
      | error f => rfl
      | ok w₁ =>
          simp only [Exec.bind_ok]
          split_ifs with hst
          · simp only [Exec.pure_eq, Exec.bind_ok, hst, not_false_eq_true,
              if_true, ne_eq]
          · exact ih

/-- `Work` leaves the executors, the caches and the events as they are. -/
theorem World.work_frame (e : Nat) :
    (w.work v e).2.2.exec = w.exec ∧ (w.work v e).2.2.cache = w.cache
      ∧ (w.work v e).2.2.trace = w.trace := by
  rw [World.work]
  cases (w.exec e).kind <;> exact ⟨rfl, rfl, rfl⟩

/-- A turn and the world after it. -/
structure TurnOf (v : Overrides σ) (node : Node) (w : World σ) (t : Turn)
    (w' : World σ) : Prop where
  run   : executeTasks v [node] w = .ok (t.status, w')
  exec  : t.exec = node.exec
  kept  : Kept w w'
  trace : w'.trace = w.trace ++ t.events

/-- The world between the two calls. -/
def prepared (w : World σ) (e : Nat) : World σ :=
  { w with trace := w.trace ++ [.prepare e] }

def turn (v : Overrides σ) (w : World σ) (e : Nat) : Turn :=
  ⟨e, ((prepared w e).work v e).1, ((prepared w e).work v e).2.1⟩

def worked (v : Overrides σ) (w : World σ) (e : Nat) : World σ :=
  let w' := ((prepared w e).work v e).2.2
  { w' with trace := w'.trace ++ [.work e (turn v w e).status (turn v w e).rows] }

/-- The turn of an executor whose `Prepare` returns. -/
theorem turnOf_prepared (hprep : w.prepare node.exec = .ok w₁)
    (hk : Kept w w₁) (ht : w₁.trace = w.trace) :
    TurnOf v node w (turn v w₁ node.exec) (worked v w₁ node.exec) := by
  obtain ⟨hexec, -, htrace⟩ :=
    @World.work_frame σ v (prepared w₁ node.exec) node.exec
  refine ⟨?_, rfl, hk.trans (Kept.of_eq hexec), ?_⟩
  · rw [executeTasks, hprep, Exec.bind_ok]
    show (if (turn v w₁ node.exec).status ≠ .ok then
        Except.ok ((turn v w₁ node.exec).status, worked v w₁ node.exec)
      else (.ok (.ok, worked v w₁ node.exec) : Exec (Status × World σ))) = _
    split_ifs with hst
    · rfl
    · rw [not_not.mp hst]
  · show ((prepared w₁ node.exec).work v node.exec).2.2.trace ++ _ = _
    rw [htrace, ← ht]
    exact List.append_assoc _ _ _

theorem cache_worked (e : Nat) : (worked v w e).cache = w.cache :=
  (@World.work_frame σ v (prepared w e) e).2.1

/-! ## The three classes -/

variable {m : RelOptNode} {p q c d i o k k' : Nat}

/-- The turn of a source: it generates and hands its chunk on. -/
theorem source_turn (hx : w.exec node.exec
      = ⟨m, .source c, [], [portTo node.exec p k]⟩) :
    let g := v.generate node.exec m (w.chunk c) w.env
    ∃ w', TurnOf v node w ⟨node.exec, g.1, g.2.1.select⟩ w'
      ∧ w'.cache k = some c ∧ w'.chunk c = g.2.1 := by
  intro g
  let w₁ : World σ := { w with cache := Function.update w.cache k (some c) }
  have hprep : w.prepare node.exec = .ok w₁ := by
    simp only [World.prepare, hx]
    rfl
  have hx₁ : (prepared w₁ node.exec).exec node.exec
      = ⟨m, .source c, [], [portTo node.exec p k]⟩ := hx
  have hwork : (prepared w₁ node.exec).work v node.exec = (g.1, g.2.1.select,
      { (prepared w₁ node.exec).setChunk c g.2.1 with env := g.2.2 }) := by
    simp only [World.work, hx₁]
    rfl
  refine ⟨worked v w₁ node.exec, ?_, ?_, ?_⟩
  · have ht := turnOf_prepared (v := v) hprep (Kept.of_eq rfl) rfl
    rwa [turn, hwork] at ht
  · rw [cache_worked]
    exact Function.update_self ..
  · rw [worked, hwork]
    exact Function.update_self ..

/-- The turn of a transform: it takes a chunk, works and hands one on. -/
theorem transform_turn (hx : w.exec node.exec
      = ⟨m, .transform i o, [portTo node.exec q k'], [portTo node.exec p k]⟩)
    (hc : w.cache k' = some c) :
    let r := v.transform node.exec m (w.chunk c) (w.chunk o) w.env
    ∃ w', TurnOf v node w ⟨node.exec, r.1, r.2.2.1.select⟩ w'
      ∧ w'.cache k = some o ∧ w'.chunk o = r.2.2.1 := by
  intro r
  let x : IExecutor :=
    ⟨m, .transform c o, [portTo node.exec q k'], [portTo node.exec p k]⟩
  let w₁ : World σ := { w.setExec node.exec x with
    cache := Function.update w.cache k (some o) }
  -- `Prepare` takes the input from the cache and leaves the output there
  have hprep : w.prepare node.exec = .ok w₁ := by
    simp only [World.prepare, hx, World.portAt, List.getElem?_cons_zero,
      Exec.bind_ok, World.pullData, portTo, hc]
    rfl
  have hk : Kept w (w.setExec node.exec x) := kept_setExec (by rw [hx]; rfl)
  have hx₁ : (prepared w₁ node.exec).exec node.exec = x :=
    Function.update_self ..
  -- `Work` calls the override on both chunks
  have hwork : (prepared w₁ node.exec).work v node.exec
      = (r.1, r.2.2.1.select,
        { ((prepared w₁ node.exec).setChunk c r.2.1).setChunk o r.2.2.1 with
          env := r.2.2.2 }) := by
    simp only [World.work, hx₁, x]
    rfl
  refine ⟨worked v w₁ node.exec, ?_, ?_, ?_⟩
  · have ht := turnOf_prepared (v := v) hprep (hk.trans (Kept.of_eq rfl)) rfl
    rwa [turn, hwork] at ht
  · rw [cache_worked]
    exact Function.update_self ..
  · rw [worked, hwork]
    exact Function.update_self ..

/-- A filter leaves the rows it is given. -/
theorem select_filterTransform (e : Nat) (input output : Chunk) (env : σ) :
    (filterTransform e m input output env).1 = .ok
      ∧ (filterTransform e m input output env).2.2.1.select = input.select :=
  ⟨rfl, rfl⟩

/-- The turn of a sink: it takes a chunk and consumes it. -/
theorem sink_turn (hx : w.exec node.exec
      = ⟨m, .sink d, [portTo node.exec q k'], []⟩)
    (hc : w.cache k' = some c) :
    let r := v.consume node.exec m (w.chunk c) w.env
    ∃ w', TurnOf v node w ⟨node.exec, r.1, (w.chunk c).select⟩ w' := by
  intro r
  let x : IExecutor := ⟨m, .sink c, [portTo node.exec q k'], []⟩
  let w₁ : World σ := w.setExec node.exec x
  have hprep : w.prepare node.exec = .ok w₁ := by
    simp only [World.prepare, hx, Exec.bind_ok, World.pullData, portTo, hc]
    rfl
  have hk : Kept w w₁ := kept_setExec (by rw [hx]; rfl)
  have hx₁ : (prepared w₁ node.exec).exec node.exec = x :=
    Function.update_self ..
  have hwork : (prepared w₁ node.exec).work v node.exec
      = (r.1, (w.chunk c).select,
        { (prepared w₁ node.exec).setChunk c r.2.1 with env := r.2.2 }) := by
    simp only [World.work, hx₁, x]
    rfl
  refine ⟨worked v w₁ node.exec, ?_⟩
  have ht := turnOf_prepared (v := v) hprep hk rfl
  rwa [turn, hwork] at ht

end Turns

/-! ## The whole chain -/

/-- Some executors have had their turns, in this order. -/
structure Ran (v : Overrides σ) (nodes : List Node) (w : World σ)
    (status : Status) (w' : World σ) (ran : List Turn) : Prop where
  run     : executeTasks v nodes w = .ok (status, w')
  kept    : Kept w w'
  trace   : w'.trace = w.trace ++ ran.flatMap Turn.events
  outcome : Outcome (nodes.map Node.exec) status ran

variable {v : Overrides σ} {n : RelOptNode}

/-- A turn is a run of one task. -/
theorem TurnOf.ran {node : Node} {w w' : World σ} {t : Turn}
    (h : TurnOf v node w t w') : Ran v [node] w t.status w' [t] := by
  refine ⟨h.run, h.kept, ?_, ?_⟩
  · rw [h.trace, List.flatMap_singleton]
  · rw [List.map_singleton, ← h.exec]
    exact outcome_single t

/-- One task more, if the others succeeded. -/
theorem executeTasks_snoc {nodes : List Node} {w w₁ : World σ} {status : Status}
    (h : executeTasks v nodes w = .ok (status, w₁)) (node : Node) :
    executeTasks v (nodes ++ [node]) w = (if status ≠ .ok then
      .ok (status, w₁) else executeTasks v [node] w₁) := by
  rw [executeTasks_append, h]
  rfl

/-- The others have succeeded: one more executor has its turn. -/
theorem Ran.next {nodes : List Node} {w w₁ w' : World σ} {ran : List Turn}
    (h : Ran v nodes w .ok w₁ ran) {node : Node} {t : Turn}
    (ht : TurnOf v node w₁ t w') :
    Ran v (nodes ++ [node]) w t.status w' (ran ++ [t]) := by
  refine ⟨?_, h.kept.trans ht.kept, ?_, ?_⟩
  · rw [executeTasks_snoc h.run, if_neg (not_not.mpr rfl), ht.run]
  · rw [ht.trace, h.trace, List.flatMap_append, List.flatMap_singleton,
      List.append_assoc]
  · rw [List.map_append, List.map_singleton, ← ht.exec]
    exact h.outcome.snoc t

/-- One of the others has failed. -/
theorem Ran.stop {nodes : List Node} {w w₁ : World σ} {status : Status}
    {ran : List Turn} (h : Ran v nodes w status w₁ ran) (hst : status ≠ .ok)
    (node : Node) : Ran v (nodes ++ [node]) w status w₁ ran := by
  refine ⟨?_, h.kept, h.trace, ?_⟩
  · rw [executeTasks_snoc h.run, if_pos hst]
  · rw [List.map_append]
    exact h.outcome.stopped hst _

/-- One more executor: it has its turn if the others have succeeded. -/
theorem Ran.snoc {nodes : List Node} {w w₁ : World σ} {status : Status}
    {ran : List Turn} (h : Ran v nodes w status w₁ ran) (node : Node)
    {P : Turn → World σ → Prop}
    (hturn : status = .ok → ∃ t w', TurnOf v node w₁ t w' ∧ P t w') :
    ∃ status' w' ran', Ran v (nodes ++ [node]) w status' w' ran'
      ∧ (status' = .ok → status = .ok ∧ ∃ t, ran' = ran ++ [t] ∧ P t w') := by
  by_cases hst : status = .ok
  · obtain ⟨t, w', ht, hP⟩ := hturn hst
    exact ⟨t.status, w', ran ++ [t], (hst ▸ h).next ht,
      fun _ => ⟨hst, t, rfl, hP⟩⟩
  · exact ⟨status, w₁, ran, h.stop hst node, fun hok => absurd hok hst⟩

/-- The turns of the executors below the result set.  If all succeed, the cache
    above them has the chunk of the top one, with the rows of the scan. -/
theorem Wired.ran (hn : FilterChain n) : ∀ {w : World σ} {e p k : Nat}
      {es : List Nat} {nodes : List Node},
      Wired w n [portTo e p k] (e :: es) →
      nodes.map Node.exec = (e :: es).reverse →
      ∃ status w' ran, Ran v nodes w status w' ran
        ∧ (status = .ok → ∃ c, (w.exec e).outputChunk = some c
          ∧ w'.cache k = some c
          ∧ (v.transform = filterTransform →
            ∃ t, ran.head? = some t ∧ (w'.chunk c).select = t.rows)) := by
  induction hn with
  | tableScan scan =>
      intro w e p k es nodes h hnodes
      cases h with
      | source he =>
          obtain ⟨node, rfl, rfl⟩ := List.map_eq_singleton_iff.mp hnodes
          obtain ⟨w', ht, hcache, hchunk⟩ :=
            @source_turn σ v w node _ _ _ _ he
          exact ⟨_, w', _, ht.ran, fun _ => ⟨_, by rw [he]; rfl, hcache,
            fun _ => ⟨_, rfl, congrArg Chunk.select hchunk⟩⟩⟩
  | @filter conditions n hn ih =>
      intro w e p k es nodes h hnodes
      cases h with
      | @transform _ _ _ _ e' i o k' es he hne h =>
          rw [List.reverse_cons] at hnodes
          -- the filter's node is the last of the order
          obtain ⟨below, top, rfl, hbelow, htop⟩ :=
            List.map_eq_append_iff.mp hnodes
          obtain ⟨node, rfl, rfl⟩ := List.map_eq_singleton_iff.mp htop
          obtain ⟨status, w₁, ran, hran, hok⟩ := ih h hbelow
          obtain ⟨status', w', ran', hran', hok'⟩ := hran.snoc node
            (P := fun _ w' => ∃ c, (w.exec e').outputChunk = some c
              ∧ w'.cache k = some o ∧ (v.transform = filterTransform →
                ∃ t, ran.head? = some t ∧ (w'.chunk o).select = t.rows)) (by
              intro hst
              obtain ⟨c, hc, hcache, hrows⟩ := hok hst
              -- the executors below left the filter as it was
              obtain ⟨d, hd⟩ := hran.kept node.exec
              rw [he] at hd
              obtain ⟨w', ht, hcache', hchunk⟩ :=
                @transform_turn σ v _ _ _ _ _ _ _ _ _ _ hd hcache
              refine ⟨_, w', ht, c, hc, hcache', ?_⟩
              intro hv
              obtain ⟨s, hs, hsel⟩ := hrows hv
              refine ⟨s, hs, ?_⟩
              rw [hchunk, hv, (select_filterTransform _ _ _ _).2, hsel])
          refine ⟨status', w', ran', hran', ?_⟩
          intro hst
          obtain ⟨-, t, rfl, c, -, hcache, hrows⟩ := hok' hst
          refine ⟨o, by rw [he]; rfl, hcache, ?_⟩
          intro hv
          obtain ⟨s, hs, hsel⟩ := hrows hv
          exact ⟨s, by rw [List.head?_append, hs]; rfl, hsel⟩

/-- A loop over what always succeeds. -/
theorem forNodes_ok {f : IExecutor → Status} (hf : ∀ x, f x = .ok)
    (w : World σ) (nodes : List Node) : forNodes f w nodes = .ok := by
  induction nodes with
  | nil => rfl
  | cons node nodes ih =>
      rw [forNodes, hf]
      exact ih

theorem openAll_ok (w : World σ) (nodes : List Node) :
    openAll w nodes = .ok :=
  forNodes_ok (fun _ => rfl) w _

theorem closeAll_ok (w : World σ) (nodes : List Node) :
    closeAll w nodes = .ok :=
  forNodes_ok (fun _ => rfl) w _

/-- The pending tasks run once, in their order. -/
theorem runTasks_eq (v : Overrides σ) (nodes : List Node) (w : World σ) :
    runTasks v nodes [] w = executeTasks v nodes w := by
  rw [runTasks]
  simp only [executeTasks, Exec.bind_ok, ne_eq, not_true_eq_false, if_false]
  split_ifs with hnil
  · rw [hnil]
    rfl
  · rw [runTasks]
    rcases executeTasks v nodes w with f | ⟨status, w'⟩
    · rfl
    · simp only [Exec.bind_ok, if_true]
      split_ifs with hst
      · rfl
      · rw [not_not.mp hst]
        rfl

/-- `Run` once the turns of the nodes are known. -/
theorem Ran.run_eq {plan : RelOptNode} {env : σ} {nodes : List Node}
    {w w' : World σ} {status : Status} {ran : List Turn}
    (h : Ran v nodes w status w' ran)
    (hinit : init plan (World.empty env) = .ok (nodes, w)) :
    Scheduler.run v plan env = .ok (status, w') := by
  simp only [Scheduler.run, hinit, Exec.bind_ok, openAll_ok, ne_eq,
    not_true_eq_false, if_false, runTasks_eq, h.run, closeAll_ok,
    Exec.pure_eq]
  split_ifs with hst
  · rw [hst]
  · rfl

/-- A scan of one row, counting the calls. -/
def oneRow : Overrides Nat where
  generate := fun _ _ c s =>
    (.ok, { c with select := [Row.ofValues [.null] (by decide)] }, s + 1)
  transform := filterTransform
  consume := fun _ _ c s => (.ok, c, s + 1)
  doWork := fun _ _ s => (.ok, s)

end AmDb.Scheduler

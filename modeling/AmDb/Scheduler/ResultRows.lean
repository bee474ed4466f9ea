import AmDb.Scheduler.ChainRun

/-! # The rows a result set is given

    Where the filters only pass on their chunk and the result set does not fail,
    a run ends with the status of `Generate`, which is called once, on an empty
    chunk.  The result set is given what it leaves there, or nothing. -/

namespace AmDb.Scheduler

open Chunk Plan

variable {σ : Type}

/-- `Consume` is what `Work` of this executor calls. -/
def IExecutor.isSink (x : IExecutor) : Bool :=
  match x.kind with
  | .sink _ => true
  | _ => false

/-- The rows an event gives to `Consume`. -/
def Event.consumed (exec : Nat → IExecutor) : Event → List Row
  | .prepare _ => []
  | .work e _ rows => if (exec e).isSink then rows else []

/-- The rows that reached `Consume` in a run. -/
def World.consumed (w : World σ) : List Row :=
  w.trace.flatMap (Event.consumed w.exec)

/-! ## New chunks are empty -/

/-- No chunk was filled yet. -/
def World.Blank (w : World σ) : Prop := ∀ c, w.chunk c = {}

namespace World

variable {w w' : World σ}

theorem Blank.of_chunk (h : w.Blank) (hc : w'.chunk = w.chunk) : w'.Blank := by
  intro c
  rw [hc]
  exact h c

/-- A new chunk is blank. -/
theorem Blank.newChunk (h : w.Blank) : w.newChunk.2.Blank := by
  intro c
  by_cases hc : c = w.chunks
  · rw [hc]
    exact Function.update_self ..
  · exact (Function.update_of_ne hc ..).trans (h c)

/-- Making an executor makes blank chunks. -/
theorem Blank.toExecutor {node : RelOptNode} {e : Nat} (h : w.Blank)
    (hx : w.toExecutor node = .ok (e, w')) : w'.Blank := by
  rw [World.toExecutor] at hx
  split at hx <;> cases hx
  · exact h.newChunk.of_chunk rfl
  · exact h.newChunk.of_chunk rfl
  · exact h.newChunk.newChunk.of_chunk rfl
  · exact h.of_chunk rfl
  · exact h.of_chunk rfl
  · exact h.newChunk.of_chunk rfl

/-- An input port does not touch the chunks. -/
theorem chunk_createInputPort {e : Nat} {port : PortRef}
    (h : w.createInputPort e = .ok (port, w')) : w'.chunk = w.chunk := by
  rw [createInputPort] at h
  split_ifs at h
  cases h
  rfl

/-- An output port does not touch the chunks. -/
theorem chunk_createOutputPort {e : Nat} {port : PortRef}
    (h : w.createOutputPort e = .ok (port, w')) : w'.chunk = w.chunk := by
  rw [createOutputPort] at h
  split_ifs at h
  cases h
  rfl

end World

mutual

/-- A tree of executors has blank chunks. -/
theorem blank_toExecutors : ∀ (n : RelOptNode) {executors executors' : List Nat}
    {e : Nat} {w w' : World σ}, w.Blank →
    toExecutors n executors w = .ok (e, executors', w') → w'.Blank
  | .physical op inputs, _, _, _, w, w', hw, h => by
      rw [toExecutors] at h
      obtain ⟨⟨p, w₁⟩, hx, h⟩ := Exec.bind_eq_ok.mp h
      obtain ⟨⟨es, w₂⟩, hc, h⟩ := Exec.bind_eq_ok.mp h
      cases h
      exact blank_connectInputs inputs (hw.toExecutor hx) hc
  | .logical _ _, _, _, _, _, _, _, h => by
      rw [toExecutors] at h
      cases h
  | .placeHolder _ _ _, _, _, _, _, _, _, h => by
      rw [toExecutors] at h
      cases h

/-- Connecting the inputs keeps the chunks blank. -/
theorem blank_connectInputs : ∀ (ns : List RelOptNode) {parent : Nat}
    {executors executors' : List Nat} {w w' : World σ}, w.Blank →
    connectInputs parent ns executors w = .ok (executors', w') → w'.Blank
  | [], _, _, _, _, _, hw, h => by
      rw [connectInputs] at h
      cases h
      exact hw
  | n :: ns, parent, _, _, w, w', hw, h => by
      rw [connectInputs] at h
      obtain ⟨⟨child, es, w₁⟩, hx, h⟩ := Exec.bind_eq_ok.mp h
      obtain ⟨⟨input, w₂⟩, hi, h⟩ := Exec.bind_eq_ok.mp h
      obtain ⟨⟨output, w₃⟩, ho, h⟩ := Exec.bind_eq_ok.mp h
      have h₁ := blank_toExecutors n hw hx
      have h₃ := (h₁.of_chunk (World.chunk_createInputPort hi)).of_chunk
        (World.chunk_createOutputPort ho)
      have h : connectInputs parent ns es (w₃.connect input output)
        = .ok (_, w') := h
      have h₄ : (w₃.connect input output).Blank := h₃.of_chunk rfl
      exact blank_connectInputs ns h₄ h

end

/-- An initialized graph has blank chunks. -/
theorem blank_init {plan : RelOptNode} {w w' : World σ} {nodes : List Node}
    (hw : w.Blank) (h : init plan w = .ok (nodes, w')) : w'.Blank := by
  obtain ⟨⟨e, executors, w₁⟩, hx, h⟩ := Exec.bind_eq_ok.mp h
  obtain ⟨nodes', -, h⟩ := Exec.bind_eq_ok.mp h
  cases h
  exact blank_toExecutors plan hw hx

/-! ## Turns that consume nothing -/

/-- A sink stays a sink. -/
theorem Kept.isSink_eq {w w' : World σ} (h : Kept w w') (e : Nat) :
    (w'.exec e).isSink = (w.exec e).isSink := by
  obtain ⟨c, hc⟩ := h e
  rw [hc, IExecutor.withInput, IExecutor.isSink, IExecutor.isSink]
  cases hk : (w.exec e).kind <;> simp only [hk]

/-- The rows a turn gives to `Consume`. -/
def Turn.consumed (exec : Nat → IExecutor) (t : Turn) : List Row :=
  if (exec t.exec).isSink then t.rows else []

/-- What the events consumed is what the turns did. -/
theorem consumed_events (exec : Nat → IExecutor) (ran : List Turn) :
    (ran.flatMap Turn.events).flatMap (Event.consumed exec)
      = ran.flatMap (Turn.consumed exec) := by
  rw [List.flatMap_assoc]
  refine List.flatMap_congr ?_
  intro t _
  simp only [Turn.events, List.flatMap_cons, Event.consumed, Turn.consumed,
    List.flatMap_nil, List.nil_append, List.append_nil]

/-- What the turns of a run gave to `Consume`. -/
theorem Ran.consumed {v : Overrides σ} {nodes : List Node} {w w' : World σ}
    {status : Status} {ran : List Turn} (h : Ran v nodes w status w' ran)
    (ht : w.trace = []) :
    w'.consumed = ran.flatMap (Turn.consumed w.exec) := by
  rw [World.consumed, h.trace, ht, List.nil_append, consumed_events]
  refine List.flatMap_congr ?_
  intro t _
  rw [Turn.consumed, Turn.consumed, h.kept.isSink_eq]

/-! ## A chain that only passes on -/

section Passing

variable {v : Overrides σ} {n plan : RelOptNode}

/-- What the scan of a chain generates. -/
def generated (v : Overrides σ) (e : Nat) (scan : TableScan) (env : σ) :
    Status × Chunk × σ :=
  v.generate e (.physical (.tableScan scan) []) {} env

/-- The executors below the result set pass on what the scan generates, and
    give nothing to `Consume`. -/
theorem Wired.passes (hn : FilterChain n) (hv : v.transform = filterTransform) :
    ∀ {w : World σ} {e p k : Nat} {es : List Nat} {nodes : List Node},
      Wired w n [portTo e p k] (e :: es) → w.Blank →
      nodes.map Node.exec = (e :: es).reverse →
      ∃ x scan w' ran, Ran v nodes w (generated v x scan w.env).1 w' ran
        ∧ (∀ t ∈ ran, (w.exec t.exec).isSink = false)
        ∧ ((generated v x scan w.env).1 = .ok → ∃ c, w'.cache k = some c
          ∧ (w'.chunk c).select = (generated v x scan w.env).2.1.select) := by
  induction hn with
  | tableScan scan =>
      intro w e p k es nodes h hw hnodes
      cases h with
      | @source _ _ _ c he =>
          obtain ⟨node, rfl, rfl⟩ := List.map_eq_singleton_iff.mp hnodes
          obtain ⟨w', ht, hcache, hchunk⟩ :=
            @source_turn σ v w node _ _ _ _ he
          rw [hw c] at ht hchunk
          refine ⟨node.exec, scan, w', _, ht.ran, ?_, ?_⟩
          · intro t hin
            rw [List.mem_singleton.mp hin]
            show (w.exec node.exec).isSink = false
            rw [he]
            rfl
          · exact fun _ => ⟨c, hcache, congrArg Chunk.select hchunk⟩
  | @filter conditions n hn ih =>
      intro w e p k es nodes h hw hnodes
      cases h with
      | @transform _ _ _ _ e' i o k' es he _ h =>
          rw [List.reverse_cons] at hnodes
          obtain ⟨below, top, rfl, hbelow, htop⟩ :=
            List.map_eq_append_iff.mp hnodes
          obtain ⟨node, rfl, rfl⟩ := List.map_eq_singleton_iff.mp htop
          obtain ⟨x, scan, w₁, ran, hran, hsink, hok⟩ := ih h hw hbelow
          by_cases hst : (generated v x scan w.env).1 = .ok
          swap
          · exact ⟨x, scan, w₁, ran, hran.stop hst node, hsink,
              fun hok => absurd hok hst⟩
          obtain ⟨c, hcache, hsel⟩ := hok hst
          obtain ⟨d, hd⟩ := hran.kept node.exec
          rw [he] at hd
          obtain ⟨w', ht, hcache', hchunk⟩ :=
            @transform_turn σ v _ _ _ _ _ _ _ _ _ _ hd hcache
          rw [hv] at ht hchunk
          obtain ⟨t, ht, htop, hpass⟩ : ∃ t, TurnOf v node w₁ t w'
              ∧ t.exec = node.exec ∧ t.status = .ok := ⟨_, ht, rfl, rfl⟩
          have hran' := (hst ▸ hran).next ht
          rw [hpass, ← hst] at hran'
          refine ⟨x, scan, w', _, hran', ?_, fun _ => ⟨o, hcache', ?_⟩⟩
          · intro u hin
            rcases List.mem_append.mp hin with hin | hin
            · exact hsink u hin
            · rw [List.mem_singleton.mp hin, htop, he]
              rfl
          · rw [hchunk, (select_filterTransform _ _ _ _).2, hsel]

/-- A run of a chain whose result set does not fail ends with the status of the
    scan, and gives the result set what the scan generated unless that
    failed. -/
theorem run_consumed (hplan : SelectPlan plan)
    (hv : v.transform = filterTransform)
    (hc : ∀ e node chunk env, (v.consume e node chunk env).1 = .ok) (env : σ) :
    ∃ x scan w, run v plan env = .ok ((generated v x scan env).1, w)
      ∧ w.consumed = if (generated v x scan env).1 = .ok then
          (generated v x scan env).2.1.select else [] := by
  obtain ⟨e, es, w₀, nodes, hinit, hb, hnodes⟩ :=
    init_selectPlan hplan (World.empty env)
  have hblank : w₀.Blank := blank_init (fun _ => rfl) hinit
  have henv : w₀.env = env := hb.env_eq
  cases hplan with
  | @resultSet n hn =>
      cases hb.wired with
      | @sink _ _ e' c k es he h =>
          obtain ⟨below, top, rfl, hbelow, htop⟩ :=
            List.map_eq_append_iff.mp (List.reverse_cons ▸ hnodes)
          obtain ⟨node, rfl, rfl⟩ := List.map_eq_singleton_iff.mp htop
          obtain ⟨x, scan, w₁, ran, hran, hsink, hok⟩ :=
            h.passes hn hv hblank hbelow
          rw [henv] at hran hok
          -- nothing below the sink consumes
          have hnone : ran.flatMap (Turn.consumed w₀.exec) = [] := by
            rw [List.flatMap_eq_nil_iff]
            intro t hin
            rw [Turn.consumed, hsink t hin]
            rfl
          by_cases hst : (generated v x scan env).1 = .ok
          · -- the sink gets the chunk of the source, as the filters left it
            obtain ⟨c', hcache, hsel⟩ := hok hst
            obtain ⟨d, hd⟩ := hran.kept node.exec
            rw [he] at hd
            obtain ⟨w', ht⟩ := @sink_turn σ v _ _ _ _ _ _ _ hd hcache
            rw [hc] at ht
            rw [hst] at hran
            have hran' := hran.next ht
            refine ⟨x, scan, w', hst ▸ hran'.run_eq hinit, ?_⟩
            rw [if_pos hst, hran'.consumed hb.trace_eq, List.flatMap_append,
              hnone, List.flatMap_singleton, ← hsel]
            show (if (w₀.exec node.exec).isSink then _ else _) = _
            rw [he]
            rfl
          · refine ⟨x, scan, w₁, (hran.stop hst node).run_eq hinit, ?_⟩
            rw [if_neg hst, hran.consumed hb.trace_eq, hnone]

end Passing

end AmDb.Scheduler

import PMTest.Barrier

/-!
# The order in which traces are checked

The traces a worker was given form a line: those whose results it has stored, the
one in its hands, and those in its queue. A worker only moves them along its line
and a client only adds to the end of one, so every worker checks its traces in the
order in which they were pushed. This holds for any number of clients, as long as
none of them changes the shared index under another: then every push is made under
the mutex of its own queue, which is what makes it one step.

A single client deals its traces to the workers in turn. Then the line of a worker
is known from the calls, and so is the whole output of `getVeri`, whatever the
interleaving.
-/

namespace PMTest

open Transitions Function Gather

variable {ι τ : Type*}

namespace ClientPc

/-- The client has pushed its trace and not stored the next index yet. -/
def pushed : ClientPc τ → Bool
  | execUnlock _ _ | execTarget _ | execNotify _ _ | execNext | execStore _ => true
  | _ => false

/-- The index the client is about to use is the stored one. -/
def Indexed (index : Nat) : ClientPc τ → Prop
  | execPush _ _ queue => queue = index
  | execStore read => read = index
  | _ => True

end ClientPc

namespace Pool

/-- All traces a worker was given, in order. -/
def line (s : Pool ι τ) (i : Nat) : List (Job τ) :=
  s.resultVector i ++ (s.worker i).storing ++ (s.worker i).checking ++ s.veriQueue i

section Lines

variable {s next : Pool ι τ}

/-- A worker moves its traces along its line and leaves the other lines alone. -/
theorem WorkerMoves.line_eq {id : Nat} (move : s.WorkerMoves id next) (i : Nat) :
    next.line i = s.line i := by
  by_cases mover : i = id
  · subst mover
    cases move with
    | test before tested => simp [line, before, tested.hands]
    | acquire before free =>
      rcases before with before | before <;>
        simp [line, before, WorkerPc.storing, WorkerPc.checking]
    | take job rest before found =>
      simp [line, before, found, WorkerPc.storing, WorkerPc.checking]
    | wait before | exit before | report before | pass before | verify job before
    | store job before => simp [line, before, WorkerPc.storing, WorkerPc.checking]
  · obtain ⟨worker, queue, _, results, _⟩ := move.others mover
    rw [line, line, worker, queue, results]

variable [DecidableEq ι] {N : Nat}

/-- A client leaves the lines alone or adds its trace, with the next number, to the
end of one. -/
theorem ClientMoves.line_cases {k : ι} (outside : (s.client k).inInit = false)
    (move : s.ClientMoves N k next) :
    (next.line = s.line ∧ next.submitted = s.submitted) ∨
      ∃ input locked queue, s.client k = .execPush input locked queue ∧
        next.client k = .execUnlock locked queue ∧ next.assignTo = s.assignTo ∧
        next.line = update s.line queue (s.line queue ++ [⟨s.submitted.length, input⟩]) ∧
        next.submitted = s.submitted ++ [⟨s.submitted.length, input⟩] := by
  cases move with
  | spawn before =>
    rw [before] at outside
    cases outside
  | @push input locked queue before =>
    refine Or.inr ⟨input, locked, queue, before, by simp, rfl, ?_, rfl⟩
    funext i
    by_cases mover : i = queue
    · simp [line, mover]
    · simp [line, mover]
  | _ => exact Or.inl ⟨rfl, rfl⟩

end Lines

section AnyClients

variable [DecidableEq ι] {N : Nat} {s next : Pool ι τ} {a : PoolAction ι τ}

/-- The lines hold all traces, and each line keeps the order of the pushes. -/
structure Lined (N : Nat) (s : Pool ι τ) : Prop where
  numbered : s.submitted.map Job.number = List.range s.submitted.length
  ordered : ∀ i < N, (s.line i).Sublist s.submitted
  complete : (gather N s.line : Multiset (Job τ)) = s.submitted

/-- Every move keeps the lines in order. A worker passes a trace on within its line, so
all lines stay as they are. A push adds the newest trace to the end of one line, and
this line stays a sublist of the pushed traces because the trace is added to their end
as well. -/
theorem Lined.moves (lined : s.Lined N) (bounded : s.Bounded N)
    (outside : ∀ j, (s.client j).inInit = false) (move : s.Moves N a next) : next.Lined N := by
  obtain ⟨numbered, ordered, complete⟩ := lined
  have unchanged (lines : next.line = s.line) (same : next.submitted = s.submitted) :
      next.Lined N := by
    refine ⟨?_, ?_, ?_⟩
    · rw [same]
      exact numbered
    · rw [lines, same]
      exact ordered
    · rw [lines, same]
      exact complete
  cases move with
  | worker inside move => exact unchanged (funext move.line_eq) move.frame.2.2.1
  | @client k next move =>
    rcases move.line_cases (outside k) with ⟨lines, same⟩ |
      ⟨input, locked, queue, before, _, _, lines, pushed⟩
    · exact unchanged lines same
    · refine ⟨?_, fun i below => ?_, ?_⟩
      · rw [pushed, List.map_append, numbered, List.length_append, List.length_singleton,
          List.range_succ]
        rfl
      · rw [lines, pushed]
        by_cases mover : i = queue
        · rw [mover, update_self]
          exact (ordered queue (mover ▸ below)).append (List.Sublist.refl _)
        · rw [update_of_ne mover]
          exact (ordered i below).trans (List.sublist_append_left _ _)
      · rw [lines, pushed, gather_push s.line _ (bounded.queue k input locked queue before),
          complete, ← Multiset.coe_add]
        rfl
  | _ => exact unchanged rfl rfl

omit [DecidableEq ι] in
/-- No line holds a trace when the constructor has returned. -/
theorem Returned.line_eq_nil (returned : s.Returned N) {i : Nat} (below : i < N) :
    s.line i = [] := by
  obtain ⟨checking, storing⟩ := WorkerPc.hands_of_unladen (returned.unladen i below)
  rw [line, returned.resultVector i below, returned.veriQueue i below, checking, storing]
  rfl

omit [DecidableEq ι] in
/-- When the constructor has returned, the lines are in order: they are empty. -/
theorem Returned.lined (returned : s.Returned N) : s.Lined N := by
  refine ⟨by simp [returned.submitted], fun i below => ?_, ?_⟩
  · rw [returned.line_eq_nil below]
    exact List.nil_sublist _
  · rw [gather_eq_nil_iff.mpr fun i below => returned.line_eq_nil below, returned.submitted]

omit [DecidableEq ι] in
/-- When the constructor has returned, the index is in bounds, if there is a worker at
all. -/
theorem Returned.bounded (positive : 0 < N) (returned : s.Returned N) : s.Bounded N := by
  refine ⟨?_, fun k input locked queue pushing => ?_⟩
  · rw [returned.assignTo]
    exact positive
  · rw [returned.client k] at pushing
    cases pushing

/-- Let several clients use the pool, none of which changes the index between two
reads of another one. Then every push is made under the mutex of its own queue. The
traces of a worker's line are pushed traces in the order of their pushes, and each
pushed trace stands in one line once: a worker neither skips a trace nor lets one
overtake another, and no trace goes to two workers. -/
theorem workers_keep_push_order (positive : 0 < N) {s₀ : Pool ι τ}
    {actions : List (PoolAction ι τ)} (returned : s₀.Returned N)
    (ran : run (step N) s₀ actions = some s)
    (kept : Along (step N) (KeepsIndex N) s₀ actions) :
    (∀ k input locked queue, s.client k = .execPush input locked queue →
      s.veriQueueMutex queue = some (.client k)) ∧
    (∀ i < N, (s.line i).Sublist s.submitted ∧ ((s.line i).map Job.number).Pairwise (· < ·)) ∧
      (gather N s.line).Perm s.submitted ∧ (gather N s.line).Nodup := by
  have invariant := run_invariant (fun s : Pool ι τ => s.Lined N ∧ s.Bounded N ∧
    ∀ j, (s.client j).inInit = false) ?_ ?_ ran
  · obtain ⟨⟨numbered, ordered, complete⟩, _⟩ := invariant
    obtain ⟨owned, aligned⟩ := aligned_of_run returned ran kept
    have perm := Multiset.coe_eq_coe.mp complete
    refine ⟨fun k input locked queue => owned.push (aligned k), fun i below =>
      ⟨ordered i below, ?_⟩, perm, perm.nodup_iff.mpr ?_⟩
    · apply List.Pairwise.sublist ((ordered i below).map Job.number)
      rw [numbered]
      exact List.pairwise_lt_range
    · apply List.Nodup.of_map Job.number
      rw [numbered]
      exact List.nodup_range
  · exact ⟨returned.lined, returned.bounded positive, returned.inInit⟩
  · rintro s a next ⟨lined, bounded, outside⟩ taken
    have move := step_moves taken
    exact ⟨lined.moves bounded outside move, bounded.moves move,
      fun j => move.inInit (outside j)⟩

/-- Two clients push one trace each to the only worker, and each stores the next
index, the first one while the other holds the mutex. The worker checks the first
trace, and a client is about to push again. -/
def twoSubmitters : List (PoolAction Bool Unit) :=
  List.flatten [[.execVeri true (), .execVeri false ()], List.replicate 8 (.client true),
    List.replicate 4 (.client false), [.client true], List.replicate 5 (.client false),
    List.replicate 11 (.worker 0), [.execVeri true ()], List.replicate 3 (.client true)]

/-- The hypotheses can be met while the two clients overlap: the traces go to the line
of the worker in the order in which the clients got the mutex. -/
theorem workers_keep_push_order_two_submitters :
    ∃ s, run (step 1) started twoSubmitters = some s ∧ s.client true = .execPush () 0 0 ∧
      s.veriQueueMutex 0 = some (.client true) ∧ s.resultVector 0 = [⟨0, ()⟩] ∧
      s.line 0 = [⟨0, ()⟩, ⟨1, ()⟩] ∧ (s.line 0).Sublist s.submitted ∧
      (gather 1 s.line).Perm s.submitted := by
  have kept : Along (step 1) (KeepsIndex 1) started twoSubmitters := by decide +kernel
  have result := workers_keep_push_order Nat.zero_lt_one (started_constructed 1).toReturned
    (show run (step 1) started twoSubmitters = some _ from rfl) kept
  exact ⟨_, rfl, rfl, result.1 true () 0 0 rfl, rfl, rfl, (result.2.1 0 Nat.zero_lt_one).1,
    result.2.2.1⟩

end AnyClients

section SingleClient

variable {N : Nat} {s next : Pool Unit τ} {a : PoolAction Unit τ}

/-- The traces whose turn it is to go to a worker. -/
def dealt (N : Nat) (jobs : List (Job τ)) (i : Nat) : List (Job τ) :=
  jobs.filter fun job => job.number % N = i

/-- The stored index is the turn of the next trace, or of the last one while its
call has not returned, and every line holds what was dealt to it. -/
structure Dealt (N : Nat) (s : Pool Unit τ) : Prop where
  turn : (s.assignTo + (s.client ()).pushed.toNat) % N = s.submitted.length % N
  indexed : (s.client ()).Indexed s.assignTo
  lines : ∀ i < N, s.line i = dealt N s.submitted i

/-- A step of control neither pushes a trace nor stores an index. -/
theorem Control.pushed {pc later : ClientPc τ} (control : s.Control N pc later) :
    later.pushed = pc.pushed := by
  cases control <;> rfl

/-- The positions that remember the index are entered with the stored one. -/
theorem Control.indexed {pc later : ClientPc τ} (control : s.Control N pc later) :
    later.Indexed s.assignTo := by
  cases control <;> trivial

/-- A step that pushes nothing and stores no index keeps the deal. -/
theorem Dealt.of_unchanged (dealt : s.Dealt N) (index : next.assignTo = s.assignTo)
    (lines : next.line = s.line) (same : next.submitted = s.submitted)
    (pushed : (next.client ()).pushed = (s.client ()).pushed)
    (indexed : (next.client ()).Indexed s.assignTo) : next.Dealt N := by
  refine ⟨?_, ?_, ?_⟩
  · rw [index, pushed, same]
    exact dealt.turn
  · rw [index]
    exact indexed
  · rw [lines, same]
    exact dealt.lines

/-- The trace that is pushed goes to the line whose turn it is. -/
theorem Dealt.push (dealt : s.Dealt N) (bounded : s.Bounded N) {input : τ} {locked queue : Nat}
    (before : s.client () = .execPush input locked queue)
    (after : next.client () = .execUnlock locked queue) (index : next.assignTo = s.assignTo)
    (lines : next.line = update s.line queue (s.line queue ++ [⟨s.submitted.length, input⟩]))
    (pushed : next.submitted = s.submitted ++ [⟨s.submitted.length, input⟩]) : next.Dealt N := by
  obtain ⟨turn, indexed, held⟩ := dealt
  have below := bounded.queue () input locked queue before
  rw [before] at turn indexed
  obtain rfl : queue = s.assignTo := indexed
  have mine : s.submitted.length % N = s.assignTo := turn.symm.trans (Nat.mod_eq_of_lt below)
  refine ⟨?_, ?_, fun i bound => ?_⟩
  · rw [after, index, pushed, List.length_append, List.length_singleton]
    exact (Nat.add_mod _ 1 N).trans ((congrArg (fun r => (r + 1 % N) % N) turn).trans
      (Nat.add_mod _ 1 N).symm)
  · rw [after]
    trivial
  · rw [lines, pushed, Pool.dealt, List.filter_append, ← Pool.dealt]
    by_cases mover : i = s.assignTo
    · rw [mover, update_self, held _ below]
      simp [mine]
    · rw [update_of_ne mover, held i bound]
      simp [mine, Ne.symm mover]

/-- Every move keeps the deal.

The cases follow the lines. If no line changes, the index does not change either, except
by the store that ends a call: there the index becomes the turn of the next trace, and
the pushed trace counts no longer as one ahead. If a line changes, it is by a push, to
the line whose turn it is. -/
theorem Dealt.moves (dealt : s.Dealt N) (bounded : s.Bounded N)
    (outside : (s.client ()).inInit = false) (move : s.Moves N a next) : next.Dealt N := by
  cases move with
  | worker inside move =>
    obtain ⟨client, index, same, _⟩ := move.frame
    exact dealt.of_unchanged index (funext move.line_eq) same (by rw [client])
      (by rw [client]; exact dealt.indexed)
  | client move =>
    rcases move.line_cases outside with ⟨lines, same⟩ |
      ⟨input, locked, queue, before, after, index, lines, pushed⟩
    · cases move with
      | go before control =>
        exact dealt.of_unchanged rfl lines same (by simp [before, control.pushed])
          (by simpa using control.indexed)
      | spawn before | initTerm before | initGet before | initCompleted before | assign before =>
        rw [before] at outside
        cases outside
      | @store read before =>
        obtain ⟨turn, indexed, held⟩ := dealt
        rw [before] at turn indexed
        obtain rfl : read = s.assignTo := indexed
        refine ⟨?_, by simp [ClientPc.Indexed], by rw [lines, same]; exact held⟩
        rw [same, ← turn]
        simp [ClientPc.pushed]
      | push before => simp at same
      | lock before | unlock before | signal before | clearGet before | clearCompleted before
      | terminate before =>
        exact dealt.of_unchanged rfl lines same (by simp [before, ClientPc.pushed])
          (by simp [ClientPc.Indexed])
    · exact dealt.push bounded before after index lines pushed
  | execVeri before | getVeri before | termVeri before =>
    exact dealt.of_unchanged rfl rfl rfl (by simp [before, ClientPc.pushed])
      (by simp [ClientPc.Indexed])

/-- Nothing has been dealt at the start, and it is the turn of the first worker. -/
theorem Constructed.dealt (constructed : s.Constructed N) : s.Dealt N := by
  refine ⟨?_, ?_, fun i below => ?_⟩
  · rw [constructed.client, constructed.assignTo, constructed.submitted]
    rfl
  · rw [constructed.client]
    trivial
  · rw [constructed.line_eq_nil below, constructed.submitted]
    rfl

/-- The traces are dealt in turn along every run of one client and the workers. -/
theorem dealt_of_run (positive : 0 < N) {s₀ : Pool Unit τ} {actions : List (PoolAction Unit τ)}
    (constructed : s₀.Constructed N) (ran : run (step N) s₀ actions = some s) : s.Dealt N := by
  have invariant := run_invariant (fun s : Pool Unit τ => s.Dealt N ∧ s.Bounded N ∧
    ∀ j, (s.client j).inInit = false) ?_ ?_ ran
  · exact invariant.1
  · exact ⟨constructed.dealt, constructed.bounded positive, constructed.inInit⟩
  · rintro s a next ⟨dealt, bounded, outside⟩ taken
    have move := step_moves taken
    exact ⟨dealt.moves bounded (outside ()) move, bounded.moves move,
      fun j => move.inInit (outside j)⟩

/-- Jobs in the order of their numbers are their inputs with positions. -/
theorem mapIdx_of_numbered (jobs : List (Job τ))
    (numbered : jobs.map Job.number = List.range jobs.length) :
    (jobs.map Job.input).mapIdx Job.mk = jobs := by
  apply List.ext_getElem (by simp)
  intro i below bound
  have number : jobs[i].number = i := by
    have found := congrArg (·[i]?) numbered
    simpa [bound] using found
  rw [List.getElem_mapIdx, List.getElem_map]
  generalize jobs[i] = job at number
  subst number
  rfl

/-- The output of `getVeri` is known from the calls alone: worker by worker, the traces
whose positions among all submitted ones leave the remainder of the worker, in the order
of submission.

When the call returns, the workers are quiet, so the line of a worker is its result
vector. The line is also what was dealt to the worker, and what was submitted are the
inputs of the calls, numbered by their positions. -/
theorem results_in_turn (positive : 0 < N) {s₀ : Pool Unit τ}
    {actions : List (PoolAction Unit τ)} (constructed : s₀.Constructed N)
    (ran : run (step N) s₀ actions = some s) {given merged : List (Job τ)}
    (returned : s.client () = .getReturn given merged) :
    merged = gather N (dealt N ((passedInputs actions).mapIdx Job.mk)) := by
  obtain ⟨accounted, _, inputs⟩ := accounted_of_run positive constructed ran
  have barrier := barrier_of_run constructed ran
  have output := barrier.merged
  have quiet := barrier.settled (by rw [returned]; rfl)
  rw [returned] at output inputs
  have all : (passedInputs actions).mapIdx Job.mk = s.submitted := by
    rw [← inputs, show (ClientPc.getReturn given merged).toPush = [] from rfl, List.append_nil,
      mapIdx_of_numbered _ accounted.numbered]
  rw [all, show merged = gather N s.resultVector from output]
  refine gather_congr fun i below => ?_
  -- nothing is left in the hands and the queue of the worker
  rw [← (dealt_of_run positive constructed ran).lines i below, line, (quiet i below).storing,
    (quiet i below).checking, (quiet i below).queue]
  simp

/-- The traces of three calls are dealt to two workers, and collected. -/
def submitThree : List (PoolAction Unit Char) :=
  ['a', 'b', 'c'].flatMap
      (fun input => .execVeri () input :: List.replicate 9 (PoolAction.client ())) ++
    .getVeri () [] :: List.replicate 3 (PoolAction.client ()) ++
    List.replicate 19 (PoolAction.worker 1) ++ List.replicate 29 (PoolAction.worker 0) ++
    List.replicate 15 (PoolAction.client ())

/-- With two workers the third trace stands behind the first one in the output. -/
theorem results_in_turn_submit_three :
    ∃ s merged, run (step 2) started submitThree = some s ∧
      s.client () = .getReturn [] merged ∧ merged.map Job.input = ['a', 'c', 'b'] ∧
      merged = gather 2 (dealt 2 ((passedInputs submitThree).mapIdx Job.mk)) := by
  have result := results_in_turn (Nat.zero_lt_succ 1) (started_constructed 2)
    (show run (step 2) started submitThree = some _ from rfl) rfl
  exact ⟨_, _, rfl, rfl, rfl, result⟩

end SingleClient

end Pool

end PMTest

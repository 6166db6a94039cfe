import Mathlib.Data.Fintype.Basic
import PMTest.WorkerPool

/-!
# Several clients of one pool

Clients share the index `assignTo` without a lock, and every caller of `getVeri`
resets the flags of all workers when it leaves. Both go wrong when calls overlap.

`execVeri` reads the index four times. It pushes to the queue whose mutex it holds
and notifies its worker as long as no other client changes the index between its
first and its third read. A caller of `getVeri` finds every worker signalled that
has not reported, as long as no other caller withdraws a signal it relies on.
-/

namespace PMTest

open Transitions Function

variable {ι τ : Type*}

namespace ClientPc

/-- The client is between its first and its third read of `assignTo`. -/
def submitting : ClientPc τ → Bool
  | execLock _ _ | execQueue _ _ | execPush _ _ _ | execUnlock _ _ | execTarget _ => true
  | _ => false

/-- The client has set the signal of the worker in this call of `getVeri`, and has
not left the wait loop yet. -/
def relies : ClientPc τ → Nat → Bool
  | get .signal j _ _, i => i < j
  | get (.poll _) _ _ _, _ | get .wake _ _ _, _ => true
  | _, _ => false

/-- The values the client has read so far are the current one. -/
def Aligned (index : Nat) : ClientPc τ → Prop
  | execLock _ locked | execQueue _ locked => locked = index
  | execPush _ locked queue | execUnlock locked queue => locked = index ∧ queue = index
  | execTarget queue => queue = index
  | execNotify queue target => target = queue
  | _ => True

/-- Outside the window the position does not depend on the index. -/
theorem Aligned.reindex {pc : ClientPc τ} {index other : Nat} (aligned : pc.Aligned index)
    (away : pc.submitting = false) : pc.Aligned other := by
  cases pc <;> first | exact aligned | cases away

/-- The client is in the wait loop of `getVeri`. -/
def inWaitLoop : ClientPc τ → Bool
  | get (.poll _) _ _ _ | get .wake _ _ _ => true
  | _ => false

end ClientPc

namespace Pool

variable [DecidableEq ι] {N : Nat} {s next : Pool ι τ} {a : PoolAction ι τ} {k : ι}

section Signals

/-- No client withdraws the signal of a worker that another client relies on. The only
withdrawals are the stores at the end of `getVeri`. -/
def KeepsSignals (N : Nat) (s : Pool ι τ) : PoolAction ι τ → Prop
  | .client k =>
      match s.client k with
      | .get .clearGet i _ _ => i < N → ∀ j, (s.client j).relies i = false
      | _ => True
  | _ => True

omit [DecidableEq ι] in
/-- Going on, a client relies on no signal it has not set. -/
theorem Control.relies {pc next : ClientPc τ} (control : s.Control N pc next) {i : Nat}
    (inside : i < N) (relied : next.relies i = true) : pc.relies i = true := by
  cases control with
  | signalled ended => simp [ClientPc.relies]; omega
  | _ => first | rfl | cases relied

/-- The signals that clients rely on are set. -/
def Signalled (N : Nat) (s : Pool ι τ) : Prop :=
  ∀ k, ∀ i < N, (s.client k).relies i = true → s.getResultSignal i = true

/-- Only withdrawing a signal unsets one.

A step of a worker changes neither signals nor clients. A client that goes on relies on
no more signals, except by the store that sets one. A client that withdraws a signal is
the case that the condition on the run excludes for all others, and the client itself no
longer relies on it. -/
theorem Signalled.moves (signalled : s.Signalled N) (constructed : ∀ j, (s.client j).inInit = false)
    (kept : s.KeepsSignals N a) (move : s.Moves N a next) : next.Signalled N := by
  intro j i inside relied
  have unchanged (same : next.client j = s.client j)
      (flag : next.getResultSignal i = s.getResultSignal i) : next.getResultSignal i = true := by
    rw [same] at relied
    rw [flag]
    exact signalled j i inside relied
  cases move with
  | worker bound move => exact unchanged (congrFun move.frame.1 j) (congrFun move.frame.2.2.2.2 i)
  | @client k next move =>
    by_cases mover : j = k
    · subst mover
      cases move with
      | go before control =>
        have earlier : (s.client j).relies i = true := by
          rw [before]
          exact control.relies inside (by simpa using relied)
        exact signalled j i inside earlier
      | @signal i₀ given merged before bound =>
        by_cases here : i = i₀
        · simp [here]
        · have earlier : (s.client j).relies i = true := by
            simp [ClientPc.relies] at relied
            simp [before, ClientPc.relies]
            omega
          simpa [here] using signalled j i inside earlier
      | initGet before =>
        have outside := constructed j
        rw [before] at outside
        cases outside
      | _ => simp [ClientPc.relies] at relied
    · have same := move.others mover
      cases move with
      | @signal i₀ given merged before bound =>
        by_cases here : i = i₀
        · simp [here]
        · exact unchanged same (by simp [here])
      | @clearGet i₀ given merged before bound =>
        have others : ∀ j, (s.client j).relies i₀ = false := by
          simp only [KeepsSignals, before] at kept
          exact kept bound
        by_cases here : i = i₀
        · rw [same, here, others j] at relied
          cases relied
        · exact unchanged same (by simp [here])
      | initGet before =>
        have outside := constructed k
        rw [before] at outside
        cases outside
      | _ => exact unchanged same rfl
  | @execVeri k input before | @getVeri k output before | @termVeri k before =>
    by_cases mover : j = k
    · simp [mover, ClientPc.relies] at relied
    · exact unchanged (by simp [mover]) rfl

/-- In a run in which no client withdraws a signal that another one relies on, a client
in the wait loop of `getVeri` finds every worker signalled that has not reported. Behind
its first loop the client relies on all signals, and the relied-on signals are set in
all states of the run. -/
theorem waiting_client_finds_signals {s₀ : Pool ι τ} {actions : List (PoolAction ι τ)}
    (returned : s₀.Returned N) (ran : run (step N) s₀ actions = some s)
    (kept : Along (step N) (KeepsSignals N) s₀ actions) (k : ι)
    (waiting : (s.client k).inWaitLoop = true) (i : Nat) (inside : i < N)
    (_unreported : s.completedStateMap i = false) : s.getResultSignal i = true := by
  have invariant : s.Signalled N ∧ ∀ j, (s.client j).inInit = false := by
    apply run_guarded (fun _ (s : Pool ι τ) => s.Signalled N ∧ ∀ j, (s.client j).inInit = false)
      ?_ ?_ ran kept
    · refine ⟨fun j i _ relied => ?_, returned.inInit⟩
      simp [returned.client j, ClientPc.relies] at relied
    · rintro past s a next ⟨signalled, outside⟩ kept taken
      have move := step_moves taken
      exact ⟨signalled.moves outside kept move, fun j => move.inInit (outside j)⟩
  apply invariant.1 k i inside
  revert waiting
  cases s.client k with
  | get phase j given merged => cases phase <;> simp [ClientPc.inWaitLoop, ClientPc.relies]
  | _ => simp [ClientPc.inWaitLoop]

instance [Fintype ι] (s : Pool ι τ) : ∀ a, Decidable (s.KeepsSignals N a)
  | .client k => by
    unfold KeepsSignals
    dsimp only
    split <;> infer_instance
  | .worker _ | .execVeri .. | .getVeri .. | .termVeri _ => inferInstanceAs (Decidable True)

/-- Two clients call `getVeri` at the same time, but the second one signals the only
worker after the first one has returned. The worker reports to each of them, both
calls return, and the first client calls again and polls. -/
def callersInTurn : List (PoolAction Bool Unit) :=
  List.flatten [[.getVeri true [], .getVeri false [], .client false, .client false],
    List.replicate 9 (.worker 0), List.replicate 11 (.client false),
    List.replicate 2 (.client true), List.replicate 8 (.worker 0),
    List.replicate 11 (.client true), [.getVeri false [], .client false, .client false]]

/-- Two overlapping calls can meet the condition, and one of the clients then waits. -/
theorem waiting_client_finds_signals_callers_in_turn :
    ∃ s, run (step 1) started callersInTurn = some s ∧ s.client true = .outside ∧
      (s.client false).inWaitLoop = true ∧ s.completedStateMap 0 = false ∧
      s.getResultSignal 0 = true := by
  have kept : Along (step 1) (KeepsSignals 1) started callersInTurn := by decide +kernel
  exact ⟨_, rfl, rfl, rfl, rfl, waiting_client_finds_signals (started_constructed 1).toReturned rfl
    kept false rfl 0 Nat.zero_lt_one rfl⟩

/-- Two clients signal the only worker. It reports, and the first client sees the
report and resets the flags before the second one polls. -/
def strandingRun : List (PoolAction Bool Unit) :=
  [.getVeri false [], .client false, .client false, .getVeri true [], .client true, .client true] ++
    List.replicate 9 (PoolAction.worker 0) ++ List.replicate 9 (PoolAction.client false)

/-- Without the condition a client may wait for a report that nobody asks for any more. -/
theorem stranded_caller :
    ∃ s, run (step 1) started strandingRun = some s ∧ (s.client true).inWaitLoop = true ∧
      s.completedStateMap 0 = false ∧ s.getResultSignal 0 = false :=
  ⟨_, rfl, rfl, rfl, rfl⟩

end Signals

section Mutexes

omit [DecidableEq ι] in
/-- A test leads to a position in the same section. -/
theorem Tests.holdsMutex {id : Nat} {pc next : WorkerPc τ} (tested : s.Tests id pc next) :
    next.holdsMutex = pc.holdsMutex := by
  cases tested <;> rfl

omit [DecidableEq ι] in
/-- A step of control of a client neither takes nor releases a mutex. -/
theorem Control.holdsMutex {pc next : ClientPc τ} (control : s.Control N pc next) :
    next.holdsMutex = pc.holdsMutex := by
  cases control <;> rfl

/-- A thread that is in a section of a queue is the holder of its mutex. -/
structure Owned (N : Nat) (s : Pool ι τ) : Prop where
  worker : ∀ id < N, (s.worker id).holdsMutex = true → s.veriQueueMutex id = some (.worker id)
  client : ∀ k i, (s.client k).holdsMutex = some i → s.veriQueueMutex i = some (.client k)

omit [DecidableEq ι] in
/-- A worker takes a free mutex and releases its own. A client that holds the mutex
keeps the worker out of its sections, so no release concerns the mutex of a client. -/
theorem Owned.worker_moves (owned : s.Owned N) {id : Nat} (inside : id < N)
    (move : s.WorkerMoves id next) : next.Owned N := by
  have clients := move.frame.1
  -- a client that holds the mutex of this worker keeps the worker out of its sections
  have apart (k : ι) (held : (s.client k).holdsMutex = some id) :
      (s.worker id).holdsMutex = false ∧ s.veriQueueMutex id ≠ none := by
    have holder := owned.client k id held
    refine ⟨eq_false_of_ne_true fun holds => ?_, by simp [holder]⟩
    have other := owned.worker id inside holds
    rw [holder] at other
    cases other
  refine ⟨fun i bound holds => ?_, fun k i held => ?_⟩
  · by_cases mover : i = id
    · subst mover
      have mine := owned.worker i bound
      cases move with
      | test before tested =>
        have earlier : (s.worker i).holdsMutex = true := by
          rw [before, ← tested.holdsMutex]
          simpa using holds
        exact mine earlier
      | acquire before free => simp
      | _ => simp [WorkerPc.holdsMutex] at holds
    · obtain ⟨same, _, mutex, _⟩ := move.others mover
      rw [same] at holds
      rw [mutex]
      exact owned.worker i bound holds
  · rw [clients] at held
    by_cases mover : i = id
    · subst mover
      obtain ⟨away, taken⟩ := apart k held
      have holder := owned.client k i held
      cases move with
      | test => exact holder
      | acquire before free => exact absurd free taken
      | wait before | exit before | report before | pass before | take _ _ before =>
        rw [before] at away
        cases away
      | verify | store => exact holder
    · rw [(move.others mover).2.2.1]
      exact owned.client k i held

omit [DecidableEq ι] in
/-- A step that changes no mutex and brings no thread into a section keeps the holders. -/
theorem Owned.of_unchanged (owned : s.Owned N)
    (worker : ∀ id, (next.worker id).holdsMutex = true → (s.worker id).holdsMutex = true)
    (client : ∀ j, (next.client j).holdsMutex = (s.client j).holdsMutex)
    (mutex : next.veriQueueMutex = s.veriQueueMutex) : next.Owned N := by
  refine ⟨fun id inside holds => ?_, fun j i held => ?_⟩
  · rw [mutex]
    exact owned.worker id inside (worker id holds)
  · rw [mutex]
    rw [client] at held
    exact owned.client j i held

/-- A client that goes on inside or outside its section changes nobody's mutex. -/
theorem holdsMutex_clientAt {pc : ClientPc τ} (same : pc.holdsMutex = (s.client k).holdsMutex)
    (j : ι) : ((s.clientAt k pc).client j).holdsMutex = (s.client j).holdsMutex := by
  by_cases mover : j = k
  · simp [mover, same]
  · simp [mover]

/-- A client takes a free mutex and releases its own. A lock is only passed when nobody
holds the mutex, so nobody loses it. -/
theorem Owned.client_moves (owned : s.Owned N) (move : s.ClientMoves N k next) :
    next.Owned N := by
  cases move with
  | go before control =>
    exact owned.of_unchanged (fun _ => id)
      (holdsMutex_clientAt (by rw [before, control.holdsMutex])) rfl
  | lock before free =>
    obtain ⟨workers, clients⟩ := owned
    refine ⟨fun id inside holds => ?_, fun j i held => ?_⟩
    · have holder := workers id inside holds
      have other : id ≠ _ := fun same => by rw [same, free] at holder; cases holder
      simpa [other] using holder
    · by_cases mover : j = k
      · simp [mover, ClientPc.holdsMutex] at held
        simp [mover, held]
      · have holder := clients j i (by simpa [mover] using held)
        have other : i ≠ _ := fun same => by rw [same, free] at holder; cases holder
        simpa [other] using holder
  | @unlock locked queue before =>
    obtain ⟨workers, clients⟩ := owned
    have mine := clients k locked (by rw [before]; rfl)
    refine ⟨fun id inside holds => ?_, fun j i held => ?_⟩
    · have holder := workers id inside holds
      have other : id ≠ locked := fun same => by rw [same, mine] at holder; cases holder
      simpa [other] using holder
    · by_cases mover : j = k
      · simp [mover, ClientPc.holdsMutex] at held
      · have holder := clients j i (by simpa [mover] using held)
        have other : i ≠ locked := by
          rintro rfl
          rw [mine] at holder
          cases holder
          exact mover rfl
        simpa [other] using holder
  | @spawn i before inside =>
    refine owned.of_unchanged (fun id holds => ?_) (fun j => ?_) rfl
    · by_cases created : id = i
      · simp [created, WorkerPc.holdsMutex] at holds
      · simpa [created] using holds
    · by_cases mover : j = k
      · simp [mover, before, ClientPc.holdsMutex]
      · simp [mover]
  | push before | initTerm before | initGet before | initCompleted before | assign before
  | store before | signal before | clearGet before | clearCompleted before | terminate before =>
    exact owned.of_unchanged (fun _ => id) (holdsMutex_clientAt (by rw [before]; rfl)) rfl

/-- Every step keeps the mutexes with their holders. -/
theorem Owned.moves (owned : s.Owned N) (move : s.Moves N a next) : next.Owned N := by
  cases move with
  | worker inside move => exact owned.worker_moves inside move
  | client move => exact owned.client_moves move
  | execVeri before | getVeri before | termVeri before =>
    exact owned.of_unchanged (fun _ => id) (holdsMutex_clientAt (by rw [before]; rfl)) rfl

omit [DecidableEq ι] in
/-- At the start the mutexes belong to the workers that are in their sections, and no
client holds one. -/
theorem Returned.owned (returned : s.Returned N) : s.Owned N := by
  refine ⟨fun id inside holds => ?_, fun k i held => ?_⟩
  · rw [returned.veriQueueMutex id inside, if_pos holds]
  · rw [returned.client k] at held
    cases held

end Mutexes

section Submission

/-- No client stores another value in `assignTo` while somebody is between the first and
the third read. A store of the value that is already there does no harm. -/
def KeepsIndex (N : Nat) (s : Pool ι τ) : PoolAction ι τ → Prop
  | .client k =>
      match s.client k with
      | .execStore read =>
          (read + 1) % N = s.assignTo ∨ ∀ j, (s.client j).submitting = false
      | _ => True
  | _ => True

omit [DecidableEq ι] in
/-- The reads of a client get the current index. -/
theorem Control.aligned {pc next : ClientPc τ} (control : s.Control N pc next)
    (aligned : pc.Aligned s.assignTo) : next.Aligned s.assignTo := by
  cases control with
  | queue => exact ⟨aligned, rfl⟩
  | target => exact aligned.symm
  | _ => trivial

/-- Only a store that changes the index under somebody else makes the values they have
read differ from it.

A client that moves itself reads the current index or keeps what it has read. When
another client moves, only its store of the index matters, and then this client is
outside of the window or the value is the same. -/
theorem aligned_moves (aligned : ∀ j, (s.client j).Aligned s.assignTo)
    (constructed : ∀ j, (s.client j).inInit = false) (kept : s.KeepsIndex N a)
    (move : s.Moves N a next) (j : ι) : (next.client j).Aligned next.assignTo := by
  have before := aligned j
  cases move with
  | worker bound move =>
    rw [congrFun move.frame.1 j, move.frame.2.1]
    exact before
  | @client k next move =>
    by_cases mover : j = k
    · subst mover
      cases move with
      | go position control =>
        rw [position] at before
        simpa using control.aligned before
      | lock position | push position =>
        rw [position] at before
        simpa [ClientPc.Aligned] using before
      | unlock position =>
        rw [position] at before
        simpa [ClientPc.Aligned] using before.2
      | _ => simp [ClientPc.Aligned]
    · have same := move.others mover
      rw [same]
      cases move with
      | @store read position =>
        simp only [KeepsIndex, position] at kept
        rcases kept with unchanged | away
        · simpa [unchanged] using before
        · exact before.reindex (away j)
      | assign position =>
        have outside := constructed k
        rw [position] at outside
        cases outside
      | _ => exact before
  | @execVeri k input _ | @getVeri k output _ | @termVeri k _ =>
    by_cases mover : j = k
    · simp [mover, ClientPc.Aligned]
    · simpa [mover] using before

/-- In a run in which no client changes the index between two reads of another one,
every client has read the current index so far, and the mutexes are with the threads
inside their sections. -/
theorem aligned_of_run {s₀ : Pool ι τ} {actions : List (PoolAction ι τ)}
    (returned : s₀.Returned N) (ran : run (step N) s₀ actions = some s)
    (kept : Along (step N) (KeepsIndex N) s₀ actions) :
    s.Owned N ∧ ∀ j, (s.client j).Aligned s.assignTo := by
  obtain ⟨owned, _, aligned⟩ : s.Owned N ∧ (∀ j, (s.client j).inInit = false) ∧
      ∀ j, (s.client j).Aligned s.assignTo := by
    apply run_guarded (fun _ (s : Pool ι τ) => s.Owned N ∧ (∀ j, (s.client j).inInit = false) ∧
      ∀ j, (s.client j).Aligned s.assignTo) ?_ ?_ ran kept
    · refine ⟨returned.owned, returned.inInit, fun j => ?_⟩
      rw [returned.client j]
      trivial
    · rintro past s a next ⟨owned, outside, aligned⟩ kept taken
      have move := step_moves taken
      exact ⟨owned.moves move, fun j => move.inInit (outside j),
        aligned_moves aligned outside kept move⟩
  exact ⟨owned, aligned⟩

omit [DecidableEq ι] in
/-- A client that has read one index throughout holds the mutex of the queue it is
about to push to. -/
theorem Owned.push (owned : s.Owned N) {input : τ} {locked queue : Nat}
    (aligned : (s.client k).Aligned s.assignTo)
    (pushing : s.client k = .execPush input locked queue) :
    s.veriQueueMutex queue = some (.client k) := by
  rw [pushing] at aligned
  rw [aligned.2, ← aligned.1]
  exact owned.client k locked (by rw [pushing]; rfl)

/-- In a run in which no client changes the index between two reads of another one, a
client holds the mutex of the queue it pushes to, and notifies its worker. The three
reads of the call have then given one value. -/
theorem push_holds_mutex {s₀ : Pool ι τ} {actions : List (PoolAction ι τ)}
    (returned : s₀.Returned N) (ran : run (step N) s₀ actions = some s)
    (kept : Along (step N) (KeepsIndex N) s₀ actions) (k : ι) :
    (∀ input locked queue, s.client k = .execPush input locked queue →
      s.veriQueueMutex queue = some (.client k)) ∧
    ∀ queue target, s.client k = .execNotify queue target → target = queue := by
  obtain ⟨owned, aligned⟩ := aligned_of_run returned ran kept
  refine ⟨fun input locked queue pushing => owned.push (aligned k) pushing,
    fun queue target notifying => ?_⟩
  have here := aligned k
  rw [notifying] at here
  exact here

instance [Fintype ι] (s : Pool ι τ) : ∀ a, Decidable (s.KeepsIndex N a)
  | .client k => by
    unfold KeepsIndex
    dsimp only
    split <;> infer_instance
  | .worker _ | .execVeri .. | .getVeri .. | .termVeri _ => inferInstanceAs (Decidable True)

/-- Two clients call `execVeri` at the same time on a pool of two workers, but the
second one reads the index after the first one has stored the next value. Both calls
return, the second client calls again, and it is about to push when the first one
has called again too. -/
def submittersInTurn : List (PoolAction Bool Unit) :=
  List.flatten [[.execVeri false (), .execVeri true ()], List.replicate 9 (.client false),
    List.replicate 9 (.client true), [.execVeri true (), .execVeri false ()],
    List.replicate 3 (.client true)]

/-- Two overlapping calls can meet the condition, and one of the clients is about to
push. -/
theorem push_holds_mutex_submitters_in_turn :
    ∃ s, run (step 2) started submittersInTurn = some s ∧
      s.submitted = [⟨0, ()⟩, ⟨1, ()⟩] ∧ s.client false = .execSelect () ∧
      s.client true = .execPush () 0 0 ∧ s.veriQueueMutex 0 = some (.client true) := by
  have kept : Along (step 2) (KeepsIndex 2) started submittersInTurn := by decide +kernel
  exact ⟨_, rfl, rfl, rfl, rfl,
    (push_holds_mutex (started_constructed 2).toReturned rfl kept true).1 () 0 0 rfl⟩

/-- One client is about to store the next index. Another one selects the mutex of
the old index, and after the store the queue of the new one. -/
def racingSubmitters : List (PoolAction Bool Unit) :=
  [.execVeri true ()] ++ List.replicate 8 (PoolAction.client true) ++
    [.execVeri false (), .client false, .client false, .client true, .client false]

/-- Without the condition a client may push to a queue whose mutex nobody holds. -/
theorem push_without_mutex :
    ∃ s, run (step 2) started racingSubmitters = some s ∧ s.client false = .execPush () 0 1 ∧
      s.veriQueueMutex 1 = none :=
  ⟨_, rfl, rfl, rfl⟩

end Submission

end Pool

end PMTest

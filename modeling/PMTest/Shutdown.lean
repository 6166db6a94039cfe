import PMTest.Accounting

/-!
# Shutting the pool down

`termVeri` sets the termination flag of every worker, wakes them and joins them. A
worker tests the flag before it looks into its queue and leaves its loop without
looking. What its queue holds at that time is never checked.

A worker takes at most one more trace after its flag has been set, and only if it
had passed the test before. So a client that submits traces and then destroys the
instance has all of them checked exactly if every queue is empty when the flag of
its worker is set, up to one trace that the worker is about to take.
-/

namespace PMTest

open Transitions Function Gather

variable {ι τ : Type*}

/-- The worker has found its termination flag clear and will look into its queue. -/
def WorkerPc.committed : WorkerPc τ → Bool
  | checkCompleted | checkGet | checkQueue => true
  | _ => false

namespace ClientPc

/-- The termination flags that are set when the client is here. -/
def terminates : ClientPc τ → Nat → Bool
  | term .signal j, i => i < j
  | term _ _, _ | destroyed, _ => true
  | _, _ => false

/-- The workers that have been joined when the client is here. -/
def joined : ClientPc τ → Nat → Bool
  | term .join j, i => i < j
  | destroyed, _ => true
  | _, _ => false

/-- The client is in `getVeri`. -/
def collecting : ClientPc τ → Bool
  | get _ _ _ _ | getReturn _ _ => true
  | _ => false

/-- The worker whose termination flag the client is about to set. -/
def terminating : ClientPc τ → Option Nat
  | term .signal i => some i
  | _ => none

end ClientPc

namespace Pool

/-- The queue holds no more than the worker will take before it tests its
termination flag. -/
def Settled (s : Pool ι τ) (i : Nat) : Prop :=
  (s.veriQueue i).length ≤ (s.worker i).committed.toNat

/-- A client sets the termination flag of a worker only when its queue is settled. -/
def TerminatesSettled (N : Nat) (s : Pool ι τ) : PoolAction ι τ → Prop
  | .client k => ∀ i < N, (s.client k).terminating = some i → s.Settled i
  | _ => True

section Settled

variable {s next : Pool ι τ} {id : Nat}

/-- A worker whose termination flag is set takes what it will take, and nothing else. On
its way to the test of the flag it takes one trace if it has already found the flag
clear, and behind the test it takes none. -/
theorem settled_worker_moves (move : s.WorkerMoves id next) {i : Nat}
    (set : s.termSignal i = true) (unasked : s.worker i ≠ .checkEmpty)
    (unsignalled : s.getResultSignal i = false) : next.Settled i ↔ s.Settled i := by
  by_cases mover : i = id
  · subst mover
    cases move with
    | test before tested =>
      rw [before] at unasked
      cases tested with
      | stay clear =>
        rw [set] at clear
        cases clear
      | asked signal =>
        rw [unsignalled] at signal
        cases signal
      | drained | undrained => exact absurd rfl unasked
      | _ => simp [Settled, before, WorkerPc.committed]
    | acquire before free =>
      rcases before with before | before <;> simp [Settled, before, WorkerPc.committed]
    | take job rest before found => simp [Settled, before, found, WorkerPc.committed]
    | wait before empty | pass before empty =>
      simp [Settled, before, empty, WorkerPc.committed]
    | exit before | report before | verify job before | store job before =>
      simp [Settled, before, WorkerPc.committed]
  · obtain ⟨worker, queue, _⟩ := move.others mover
    rw [Settled, Settled, worker, queue]

end Settled

section Submitting

variable {N id : Nat} {s next : Pool Unit τ} {a : PoolAction Unit τ}

/-- One client submits traces and shuts the pool down, without asking for results. -/
structure Submitting (N : Nat) (s : Pool Unit τ) : Prop where
  outside : (s.client ()).inInit = false
  uncollected : (s.client ()).collecting = false
  unsignalled : ∀ i < N, s.getResultSignal i = false
  unasked : ∀ i < N, s.worker i ≠ .checkEmpty
  terminated : ∀ i < N, s.termSignal i = (s.client ()).terminates i
  joined : ∀ i < N, (s.client ()).joined i = true → s.worker i = .finished

/-- A worker that has left its loop does not move. -/
theorem WorkerMoves.running (move : s.WorkerMoves id next) : s.worker id ≠ .finished := by
  cases move with
  | test before tested => cases tested <;> simp [before]
  | acquire before => rcases before with before | before <;> simp [before]
  | wait before | exit before | report before | pass before | take _ _ before | verify _ before
  | store _ before => simp [before]

/-- The workers do not change that: they set no signals, and without a signal no worker
gets to the second test of its queue. -/
theorem Submitting.worker_moves (submitting : s.Submitting N) (inside : id < N)
    (move : s.WorkerMoves id next) : next.Submitting N := by
  obtain ⟨client, _, _, term, flags⟩ := move.frame
  constructor
  case outside =>
    rw [client]
    exact submitting.outside
  case uncollected =>
    rw [client]
    exact submitting.uncollected
  case unsignalled =>
    rw [flags]
    exact submitting.unsignalled
  case unasked =>
    intro i bound here
    by_cases mover : i = id
    · subst mover
      obtain ⟨_, set⟩ := move.enters.2.1 here
      rw [submitting.unsignalled i bound] at set
      cases set
    · rw [(move.others mover).1] at here
      exact submitting.unasked i bound here
  case terminated =>
    rw [term, client]
    exact submitting.terminated
  case joined =>
    intro i bound done
    rw [client] at done
    have finished := submitting.joined i bound done
    have other : i ≠ id := by
      rintro rfl
      exact move.running finished
    rw [(move.others other).1]
    exact finished

/-- A step that changes nothing but the position neither sets a flag nor enters
`getVeri`. -/
theorem Control.uncollected {pc later : ClientPc τ} (control : s.Control N pc later)
    (before : pc.collecting = false) : later.collecting = false := by
  cases control <;> first | rfl | cases before

/-- A step of control neither sets a termination flag nor forgets one that was set. -/
theorem Control.terminates {pc later : ClientPc τ} (control : s.Control N pc later) {i : Nat}
    (bound : i < N) : later.terminates i = pc.terminates i := by
  cases control with
  | terminated ended => simp [ClientPc.terminates, Nat.lt_of_lt_of_le bound (Nat.not_lt.mp ended)]
  | _ => rfl

/-- The client passes a worker in the last loop when the worker has finished. -/
theorem Control.has_joined {pc later : ClientPc τ} (control : s.Control N pc later) {i : Nat}
    (bound : i < N) (done : later.joined i = true) :
    pc.joined i = true ∨ s.worker i = .finished := by
  cases control with
  | @join j inside finished =>
    cases Nat.lt_succ_iff_lt_or_eq.mp (of_decide_eq_true done) with
    | inl earlier => exact Or.inl (decide_eq_true earlier)
    | inr here => exact Or.inr (here ▸ finished)
  | joined ended => exact Or.inl (decide_eq_true (Nat.lt_of_lt_of_le bound (Nat.not_lt.mp ended)))
  | termWoken => simp [ClientPc.joined] at done
  | _ => cases done

/-- A client step that leaves the workers and the signals alone, and that is neither in
the constructor nor in `getVeri`, keeps this if it keeps the facts about the termination
flags and the joined workers. -/
theorem Submitting.of_client (submitting : s.Submitting N)
    (worker : next.worker = s.worker) (flags : next.getResultSignal = s.getResultSignal)
    (outside : (next.client ()).inInit = false) (uncollected : (next.client ()).collecting = false)
    (terminated : ∀ i < N, s.termSignal i = (s.client ()).terminates i →
      next.termSignal i = (next.client ()).terminates i)
    (joined : ∀ i < N, (next.client ()).joined i = true →
      (s.client ()).joined i = true ∨ s.worker i = .finished) : next.Submitting N := by
  constructor
  case outside => exact outside
  case uncollected => exact uncollected
  case unsignalled =>
    rw [flags]
    exact submitting.unsignalled
  case unasked =>
    rw [worker]
    exact submitting.unasked
  case terminated => exact fun i bound => terminated i bound (submitting.terminated i bound)
  case joined =>
    intro i bound done
    rw [worker]
    cases joined i bound done with
    | inl before => exact submitting.joined i bound before
    | inr finished => exact finished

/-- The steps of the client keep it. Setting a termination flag moves the bound below
which they are set, and the positions inside `getVeri` do not occur. -/
theorem Submitting.client_moves (submitting : s.Submitting N) (move : s.ClientMoves N () next) :
    next.Submitting N := by
  have outside := submitting.outside
  have uncollected := submitting.uncollected
  cases move with
  | go before control =>
    rw [before] at outside uncollected
    refine submitting.of_client rfl rfl ?_ ?_ (fun i bound => ?_) (fun i bound => ?_) <;>
      simp only [clientAt_client, clientAt_termSignal, update_self, before]
    · exact control.inInit outside
    · exact control.uncollected uncollected
    · rw [control.terminates bound]
      exact id
    · exact control.has_joined bound
  | spawn before | initTerm before | initGet before | initCompleted before | assign before =>
    rw [before] at outside
    cases outside
  | lock before | push before | unlock before | store before =>
    refine submitting.of_client rfl rfl ?_ ?_ (fun i bound => ?_) (fun i bound => ?_) <;>
      simp [before, ClientPc.inInit, ClientPc.collecting, ClientPc.terminates, ClientPc.joined]
  | signal before | clearGet before | clearCompleted before =>
    rw [before] at uncollected
    cases uncollected
  | @terminate j before inside =>
    refine submitting.of_client rfl rfl ?_ ?_ (fun i bound same => ?_) (fun i bound => ?_)
    · simp [ClientPc.inInit]
    · simp [ClientPc.collecting]
    · rw [before] at same
      by_cases here : i = j
      · simp [here, ClientPc.terminates]
      · simp [here, same, ClientPc.terminates]
        omega
    · simp [ClientPc.joined]

/-- Nothing but a call of `getVeri` changes that. -/
theorem Submitting.moves (submitting : s.Submitting N) (uncalled : ∀ output, a ≠ .getVeri () output)
    (move : s.Moves N a next) : next.Submitting N := by
  cases move with
  | worker inside move => exact submitting.worker_moves inside move
  | client move => exact submitting.client_moves move
  | execVeri before | termVeri before =>
    refine submitting.of_client rfl rfl ?_ ?_ (fun i bound => ?_) (fun i bound => ?_) <;>
      simp [before, ClientPc.inInit, ClientPc.collecting, ClientPc.terminates, ClientPc.joined]
  | getVeri before => exact absurd rfl (uncalled _)

/-- On a constructed instance no flag is set and no worker is about to report, so all of
this holds at the start. -/
theorem Constructed.submitting (constructed : s.Constructed N) : s.Submitting N := by
  have outside := constructed.client ()
  constructor
  case outside => exact constructed.inInit ()
  case uncollected =>
    rw [outside]
    rfl
  case unsignalled => exact constructed.getResultSignal
  case unasked =>
    intro i bound here
    have idle := constructed.worker i bound
    rw [here] at idle
    cases idle
  case terminated =>
    rw [outside]
    exact constructed.termSignal
  case joined =>
    intro i _ done
    rw [outside] at done
    cases done

end Submitting

section Shutdown

variable {N : Nat} {s next : Pool Unit τ} {a : PoolAction Unit τ}

/-- The workers whose termination flag is set leave nothing in their queues. -/
def AllSettled (N : Nat) (s : Pool Unit τ) : Prop :=
  ∀ i < N, s.termSignal i = true → s.Settled i

/-- A step of control is not the one that sets a flag. -/
theorem Control.not_terminating {pc later : ClientPc τ} (control : s.Control N pc later) {i : Nat}
    (bound : i < N) : pc.terminating ≠ some i := by
  cases control with
  | terminated ended =>
    rintro ⟨⟩
    exact ended bound
  | _ => simp [ClientPc.terminating]

/-- Exactly a flag that is set over a queue that is not settled leaves something. All
other steps of the client leave the flags alone, or push to a queue while no flag is
set. -/
theorem allSettled_client_moves (submitting : s.Submitting N) (move : s.ClientMoves N () next) :
    next.AllSettled N ↔ s.AllSettled N ∧ s.TerminatesSettled N (.client ()) := by
  have outside := submitting.outside
  have uncollected := submitting.uncollected
  -- all moves but one leave the flags, or no flag is set
  have otherwise (same : next.AllSettled N ↔ s.AllSettled N)
      (none : ∀ i < N, (s.client ()).terminating ≠ some i) :
      next.AllSettled N ↔ s.AllSettled N ∧ s.TerminatesSettled N (.client ()) :=
    same.trans (and_iff_left fun i bound here => absurd here (none i bound)).symm
  cases move with
  | go before control =>
    refine otherwise Iff.rfl fun i bound => ?_
    rw [before]
    exact control.not_terminating bound
  | spawn before | initTerm before | initGet before | initCompleted before | assign before =>
    rw [before] at outside
    cases outside
  | lock before | unlock before | store before =>
    exact otherwise Iff.rfl fun i _ => by simp [before, ClientPc.terminating]
  | push before =>
    have clear : ∀ i < N, s.termSignal i ≠ true := by
      intro i bound
      rw [submitting.terminated i bound, before]
      simp [ClientPc.terminates]
    refine otherwise (iff_of_true ?_ ?_) fun i _ => by simp [before, ClientPc.terminating]
    · exact fun i bound set => absurd set (clear i bound)
    · exact fun i bound set => absurd set (clear i bound)
  | signal before | clearGet before | clearCompleted before =>
    rw [before] at uncollected
    cases uncollected
  | @terminate j before inside =>
    constructor
    · intro settled
      refine ⟨fun i bound set => ?_, fun i bound here => ?_⟩
      · refine settled i bound ?_
        by_cases here : i = j <;> simp [here, set]
      · rw [before] at here
        obtain rfl : j = i := Option.some.inj here
        exact settled j bound (by simp)
    · rintro ⟨settled, here⟩ i bound set
      by_cases mover : i = j
      · exact here i bound (by rw [before, mover]; rfl)
      · exact settled i bound (by simpa [mover] using set)

/-- A step leaves something behind exactly if the client sets a flag too early. -/
theorem allSettled_moves (submitting : s.Submitting N) (move : s.Moves N a next) :
    next.AllSettled N ↔ s.AllSettled N ∧ s.TerminatesSettled N a := by
  cases move with
  | worker inside move =>
    refine Iff.trans ?_ (and_iff_left trivial).symm
    rw [AllSettled, move.frame.2.2.2.1]
    refine forall₃_congr fun i bound set => ?_
    exact settled_worker_moves move set (submitting.unasked i bound)
      (submitting.unsignalled i bound)
  | client move => exact allSettled_client_moves submitting move
  | execVeri before | termVeri before | getVeri before => exact (and_iff_left trivial).symm

/-- Without a call of `getVeri`, nothing is left in the queues of the workers whose
flag is set, exactly if every flag was set over a settled queue. -/
theorem allSettled_of_run {s₀ : Pool Unit τ} {actions : List (PoolAction Unit τ)}
    (constructed : s₀.Constructed N) (ran : run (step N) s₀ actions = some s)
    (uncalled : ∀ output, .getVeri () output ∉ actions) :
    s.Submitting N ∧ (s.AllSettled N ↔ Along (step N) (TerminatesSettled N) s₀ actions) := by
  have met : Along (step N) (fun _ a => ∀ output, a ≠ .getVeri () output) s₀ actions := by
    apply along_of_forall
    rintro _ a member output rfl
    exact uncalled output member
  have clear : s₀.AllSettled N := by
    intro i bound set
    rw [constructed.termSignal i bound] at set
    cases set
  constructor
  · apply run_guarded (fun _ s => s.Submitting N) constructed.submitting ?_ ran met
    exact fun _ _ _ _ submitting uncalled taken => submitting.moves uncalled (step_moves taken)
  · apply run_exact_guarded (fun _ s => s.Submitting N) (fun _ s => s.AllSettled N)
      constructed.submitting clear ?_ ?_ ran met
    · exact fun _ _ _ _ submitting uncalled taken => submitting.moves uncalled (step_moves taken)
    · exact fun _ _ _ _ submitting _ taken => allSettled_moves submitting (step_moves taken)

/-- When all workers have finished, the traces that were not checked are those left
in the queues. -/
theorem Accounted.verified_iff (accounted : s.Accounted N)
    (finished : ∀ i < N, s.worker i = .finished) :
    (s.verified.map Prod.snd).Perm s.submitted ↔ ∀ i < N, s.veriQueue i = [] := by
  have checking : gather N (WorkerPc.checking ∘ s.worker) = [] := by
    apply gather_eq_nil_iff.mpr
    intro i bound
    rw [comp_apply, finished i bound]
    rfl
  rw [← Multiset.coe_eq_coe, accounted.submitted, checking, Multiset.coe_nil, add_zero,
    right_eq_add, Multiset.coe_eq_zero, gather_eq_nil_iff]

/-- A client submits traces and destroys the instance. All traces are checked exactly if
no termination flag is set over a queue that holds more than its worker takes before it
tests the flag.

When the instance is destroyed, all workers have finished, so the traces that were not
checked are those in the queues. The queues are empty if they were settled when the
flags were set, since a finished worker has nothing left to take. -/
theorem shutdown_checks_all_iff (positive : 0 < N) {s₀ : Pool Unit τ}
    {actions : List (PoolAction Unit τ)} (constructed : s₀.Constructed N)
    (ran : run (step N) s₀ actions = some s) (uncalled : ∀ output, .getVeri () output ∉ actions)
    (destroyed : s.client () = .destroyed) :
    s.submitted.map Job.input = passedInputs actions ∧
      ((s.verified.map Prod.snd).Perm s.submitted ↔
        Along (step N) (TerminatesSettled N) s₀ actions) := by
  obtain ⟨accounted, _, inputs⟩ := accounted_of_run positive constructed ran
  obtain ⟨submitting, settled⟩ := allSettled_of_run constructed ran uncalled
  have finished : ∀ i < N, s.worker i = .finished := by
    intro i bound
    exact submitting.joined i bound (by rw [destroyed]; rfl)
  constructor
  · rw [destroyed] at inputs
    simpa [ClientPc.toPush] using inputs
  · rw [accounted.verified_iff finished, ← settled]
    apply forall₂_congr
    intro i bound
    have set : s.termSignal i = true := by
      rw [submitting.terminated i bound, destroyed]
      rfl
    simp [set, Settled, finished i bound, WorkerPc.committed]

/-- The only worker has found its flag clear when it is told to terminate, and takes
the submitted trace. -/
def takenInTime : List (PoolAction Unit Unit) :=
  .execVeri () () :: List.replicate 9 (PoolAction.client ()) ++
    List.replicate 6 (PoolAction.worker 0) ++ .termVeri () ::
    List.replicate 2 (PoolAction.client ()) ++ List.replicate 8 (PoolAction.worker 0) ++
    List.replicate 4 (PoolAction.client ())

/-- The worker that has found its flag clear still takes the one trace of its queue. -/
theorem shutdown_checks_taken_in_time :
    ∃ s, run (step 1) started takenInTime = some s ∧ s.client () = .destroyed ∧
      s.submitted.map Job.input = [()] ∧
      Along (step 1) (TerminatesSettled 1) started takenInTime := by
  have result := shutdown_checks_all_iff Nat.zero_lt_one (started_constructed 1)
    (show run (step 1) started takenInTime = some _ from rfl)
    (by simp [takenInTime, List.replicate]) rfl
  exact ⟨_, rfl, rfl, result.1, result.2.mp (List.Perm.refl _)⟩

/-- The only worker is told to terminate before it has looked into its queue. -/
def terminatedEarly : List (PoolAction Unit Unit) :=
  .worker 0 :: .execVeri () () :: List.replicate 9 (PoolAction.client ()) ++
    .termVeri () :: List.replicate 2 (PoolAction.client ()) ++
    List.replicate 3 (PoolAction.worker 0) ++ List.replicate 4 (PoolAction.client ())

/-- A worker that is told to terminate before it has looked into its queue drops the
trace. -/
theorem submitted_trace_dropped :
    ∃ s, run (step 1) started terminatedEarly = some s ∧ s.client () = .destroyed ∧
      s.submitted.map Job.input = [()] ∧ s.verified = [] :=
  ⟨_, rfl, rfl, rfl, rfl⟩

end Shutdown

end Pool

end PMTest

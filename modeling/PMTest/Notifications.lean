import PMTest.Coherence

/-!
# Notifications

A worker that has nothing to do waits on its condition variable. The pool lets it go
on at any time, because a wait may end without a notification, and its safety must not
depend on who wakes the worker. Whether a call returns may depend on it: a worker that
nobody notifies could wait forever.

`notifyingStep` is the pool in which the notifications count. The step of a client that
notifies a condition variable brings the worker that waits on it back to the
acquisition of its mutex. A wait may still end by itself, and `promptedStep` leaves just
these steps out.

No wake-up is lost. `getVeri` and `termVeri` set their flags without a mutex, so a
worker may have tested a flag too early and be about to wait. But they notify it while
they hold its mutex, when it is in no section, and it finds the flag in all tests after
that. `Attended` states this: a worker that the running call has notified neither waits
nor is about to.
-/

namespace PMTest

open Transitions Function

variable {τ : Type*}

namespace WorkerPc

/-- The worker waits on its condition variable. -/
def asleep : WorkerPc τ → Bool
  | waiting => true
  | _ => false

/-- The position of a worker behind a notification of its condition variable. A wait
ends with the acquisition of the mutex, and anywhere else the notification has no
effect. -/
def notified : WorkerPc τ → WorkerPc τ
  | waiting => lock
  | pc => pc

/-- The worker sleeps at one position only. -/
theorem asleep_eq_false_iff {pc : WorkerPc τ} : pc.asleep = false ↔ pc ≠ .waiting := by
  cases pc <;> simp [asleep]

/-- A notification moves workers from the wait to the acquisition, so all other
positions have the same workers in front of it and behind it. -/
theorem notified_eq_iff {pc later : WorkerPc τ} (locking : later ≠ .lock)
    (sleeping : later ≠ .waiting) : pc.notified = later ↔ pc = later := by
  cases pc with
  | waiting => simp [notified, locking.symm, sleeping.symm]
  | _ => rfl

/-- A worker that waits has as little in its hands as one that acquires its mutex. -/
theorem notified_hands (pc : WorkerPc τ) :
    pc.notified.holdsMutex = pc.holdsMutex ∧ pc.notified.checking = pc.checking ∧
      pc.notified.storing = pc.storing := by
  cases pc <;> exact ⟨rfl, rfl, rfl⟩

end WorkerPc

namespace ClientPc

/-- The condition variable that the next step of the client notifies. `execVeri` has
read its index before, and the loops of `getVeri` and `termVeri` go through all of
them. -/
def notifies (n : Nat) : ClientPc τ → Option Nat
  | execNotify _ target => some target
  | get .wake i _ _ | get .notify i _ _ | term .wake i => if i < n then some i else none
  | _ => none

/-- The workers that the running call has notified since it set its flags, in the
current round of the wait loop of `getVeri` or in the loop of `termVeri`. -/
def called : ClientPc τ → Nat → Bool
  | get .wake j _ _, i | term .wake j, i => i < j
  | term .join _, _ | destroyed, _ => true
  | _, _ => false

/-- A call notifies workers when it has set their flags. -/
theorem flagged_of_called {pc : ClientPc τ} {i : Nat} (called : pc.called i = true) :
    pc.signals i = true ∨ pc.terminates i = true := by
  cases pc with
  | get phase =>
    cases phase with
    | wake => exact Or.inl rfl
    | _ => cases called
  | term phase =>
    cases phase with
    | signal => cases called
    | _ => exact Or.inr rfl
  | destroyed => exact Or.inr rfl
  | _ => cases called

end ClientPc

namespace Pool

section Notify

variable {ι : Type*}

/-- A notification of a condition variable, if there is one. At most one thread waits
on it, its worker, so `notify_one` and `notify_all` do the same. -/
def notify (s : Pool ι τ) : Option Nat → Pool ι τ
  | none => s
  | some i => s.workerAt i (s.worker i).notified

variable (s : Pool ι τ) (o : Option Nat)

@[simp] theorem notify_client : (s.notify o).client = s.client := by cases o <;> rfl

@[simp] theorem notify_termSignal : (s.notify o).termSignal = s.termSignal := by cases o <;> rfl

@[simp] theorem notify_completedStateMap :
    (s.notify o).completedStateMap = s.completedStateMap := by
  cases o <;> rfl

@[simp] theorem notify_veriQueue : (s.notify o).veriQueue = s.veriQueue := by cases o <;> rfl

@[simp] theorem notify_veriQueueMutex : (s.notify o).veriQueueMutex = s.veriQueueMutex := by
  cases o <;> rfl

/-- A notification reaches the worker of its condition variable. -/
theorem notify_worker (i : Nat) :
    (s.notify o).worker i = if o = some i then (s.worker i).notified else s.worker i := by
  cases o with
  | none => rfl
  | some j =>
    by_cases here : i = j
    · simp [notify, here]
    · simp [notify, here, Ne.symm here]

variable {s o} {i : Nat}

/-- Positions apart from the wait and the acquisition keep their workers. -/
theorem notify_worker_iff {pc : WorkerPc τ} (locking : pc ≠ .lock) (sleeping : pc ≠ .waiting) :
    (s.notify o).worker i = pc ↔ s.worker i = pc := by
  rw [notify_worker]
  split_ifs
  · exact WorkerPc.notified_eq_iff locking sleeping
  · rfl

/-- A worker that is not waiting does not notice a notification. -/
theorem notify_worker_of_awake (awake : s.worker i ≠ .waiting) :
    (s.notify o).worker i = s.worker i := by
  rw [notify_worker]
  split_ifs
  · cases pc : s.worker i with
    | waiting => exact absurd pc awake
    | _ => rfl
  · rfl

/-- A notification changes nothing that a worker has in its hands. -/
theorem notify_hands :
    ((s.notify o).worker i).holdsMutex = (s.worker i).holdsMutex ∧
      ((s.notify o).worker i).checking = (s.worker i).checking ∧
      ((s.notify o).worker i).storing = (s.worker i).storing := by
  rw [notify_worker]
  split_ifs
  · exact (s.worker i).notified_hands
  · exact ⟨rfl, rfl, rfl⟩

end Notify

section Machine

variable {ι : Type*} [DecidableEq ι] {N i : Nat} {s next : Pool ι τ}

/-- The condition variable that an action notifies. -/
def target (N : Nat) (s : Pool ι τ) : PoolAction ι τ → Option Nat
  | .client k => (s.client k).notifies N
  | _ => none

/-- One step of the system, with the effect of its notification. -/
def notifyingStep (N : Nat) (s : Pool ι τ) (a : PoolAction ι τ) : Option (Pool ι τ) :=
  (s.step N a).map fun next => next.notify (s.target N a)

/-- The action is not the spurious end of a wait. A worker that a notification has
woken does not wait any more. -/
def Prompted (s : Pool ι τ) : PoolAction ι τ → Prop
  | .worker id => (s.worker id).asleep = false
  | _ => True

instance (s : Pool ι τ) : DecidablePred s.Prompted
  | .worker id => inferInstanceAs (Decidable ((s.worker id).asleep = false))
  | .client _ | .execVeri _ _ | .getVeri _ _ | .termVeri _ => inferInstanceAs (Decidable True)

/-- One step of the system without spurious wake-ups. -/
abbrev promptedStep (N : Nat) : Pool ι τ → PoolAction ι τ → Option (Pool ι τ) :=
  restrict (notifyingStep N) Prompted

/-- A step with its notification is a move of the pool, followed by the notification
of the condition variable that the action names. -/
theorem notifyingStep_moves {a : PoolAction ι τ} (taken : s.notifyingStep N a = some next) :
    ∃ middle, s.Moves N a middle ∧ next = middle.notify (s.target N a) := by
  obtain ⟨middle, taken, same⟩ := Option.map_eq_some_iff.mp taken
  exact ⟨middle, step_moves taken, same.symm⟩

/-- A worker notifies nobody, so outside of a wait its steps are those of the pool. -/
theorem promptedStep_worker (awake : (s.worker i).asleep = false)
    (taken : s.step N (.worker i) = some next) : promptedStep N s (.worker i) = some next := by
  simp [restrict, Prompted, awake, notifyingStep, target, notify, taken]

/-- A client never waits on a condition variable. -/
theorem promptedStep_client {k : ι} (taken : s.step N (.client k) = some next) :
    promptedStep N s (.client k) = some (next.notify ((s.client k).notifies N)) := by
  simp [restrict, Prompted, notifyingStep, target, taken]

end Machine

section Attended

variable {N : Nat} {s next : Pool Unit τ} {a : PoolAction Unit τ}

/-- A worker with nothing to do has nothing to do when it is notified either. -/
theorem Quiet.notify {i : Nat} (quiet : s.Quiet i) (o : Option Nat) : (s.notify o).Quiet i where
  queue := by
    rw [notify_veriQueue]
    exact quiet.queue
  checking := notify_hands.2.1.trans quiet.checking
  storing := notify_hands.2.2.trans quiet.storing

/-- A notification changes no flag and no queue, and it moves no worker to or from the
positions between the test of `getResultSignal` and the report. So the flags mean the
same behind it. -/
theorem Barrier.notify (barrier : s.Barrier N) (o : Option Nat) : (s.notify o).Barrier N := by
  cases o with
  | none => exact barrier
  | some j =>
    constructor
    case signal => exact barrier.signal
    case cleared => exact barrier.cleared
    case seen => exact barrier.seen
    case counted => exact barrier.counted
    case reported => exact fun i bound set => (barrier.reported i bound set).notify _
    case settled => exact fun settled i bound => (barrier.settled settled i bound).notify _
    case reading =>
      intro i bound here
      exact barrier.reading i bound ((notify_worker_iff (by simp) (by simp)).mp here)
    case asked =>
      intro i bound here
      rw [notify_worker_iff (by simp) (by simp), notify_worker_iff (by simp) (by simp)] at here
      exact barrier.asked i bound here
    case drained =>
      intro i bound here
      exact barrier.drained i bound ((notify_worker_iff (by simp) (by simp)).mp here)
    case merged => exact barrier.merged

/-- A notification moves no worker into a section or out of one, so the owners of the
mutexes stay. -/
theorem Owned.notify (owned : s.Owned N) (o : Option Nat) : (s.notify o).Owned N where
  worker i bound held := by
    rw [notify_hands.1] at held
    rw [notify_veriQueueMutex]
    exact owned.worker i bound held
  client := by
    rw [notify_client, notify_veriQueueMutex]
    exact owned.client

/-- The positions say the same about the flags and the mutexes behind a notification:
the worker that it wakes stands in no section, nor did it before. -/
theorem Coherent.notify (coherent : s.Coherent N) (o : Option Nat) : (s.notify o).Coherent N := by
  cases o with
  | none => exact coherent
  | some j =>
    constructor
    case outside => exact coherent.outside
    case barrier => exact coherent.barrier.notify _
    case owned => exact coherent.owned.notify _
    case index => exact coherent.index
    case locks => exact coherent.locks
    case released =>
      intro i bound away
      rw [notify_hands.1] at away
      exact coherent.released i bound away
    case terminated => exact coherent.terminated
    case born =>
      intro i bound here
      exact coherent.born i bound ((notify_worker_iff (by simp) (by simp)).mp here)
    case finished =>
      intro i bound done
      exact coherent.finished i bound ((notify_worker_iff (by simp) (by simp)).mp done)
    case joined =>
      intro i bound done
      exact (notify_worker_iff (by simp) (by simp)).mpr (coherent.joined i bound done)

/-- The worker neither waits nor is about to. It may be in front of a test of the flag
that the call has set, but not between this test and the wait. -/
structure Heard (s : Pool Unit τ) (i : Nat) : Prop where
  awake : s.worker i ≠ .waiting
  alert : s.worker i ≠ .testQueue
  leaving : (s.client ()).terminates i = true → s.worker i ≠ .testGet

/-- No wake-up is lost: the workers that the running call has notified hear of it. -/
structure Attended (N : Nat) (s : Pool Unit τ) : Prop where
  coherent : s.Coherent N
  heard : ∀ i < N, (s.client ()).called i = true → s.Heard i

/-- What a worker has heard is about its own position, and about the flag that the client
has set for it. -/
theorem Heard.congr {t : Pool Unit τ} {i : Nat} (heard : s.Heard i)
    (worker : t.worker i = s.worker i)
    (asks : (t.client ()).terminates i = true → (s.client ()).terminates i = true) :
    t.Heard i := by
  obtain ⟨awake, alert, leaving⟩ := heard
  constructor
  · rwa [worker]
  · rwa [worker]
  · rw [worker]
    exact fun asked => leaving (asks asked)

/-- A worker outside of its sections that a notification has reached hears of the call,
wherever it was. -/
theorem heard_of_away {i : Nat} (away : (s.worker i).holdsMutex = false) :
    (s.notify (some i)).Heard i := by
  have same := notify_hands (s := s) (o := some i) (i := i)
  have elsewhere {pc : WorkerPc τ} (inSection : pc.holdsMutex = true) :
      (s.notify (some i)).worker i ≠ pc := by
    intro here
    rw [here, inSection, away] at same
    cases same.1
  refine ⟨?_, elsewhere rfl, fun _ => elsewhere rfl⟩
  rw [notify_worker, if_pos rfl]
  cases s.worker i <;> simp [WorkerPc.notified]

/-- A worker does not forget what it has heard while the flag of the call is set, since
it leaves its wait loop at the test of this flag. -/
theorem Heard.worker_moves {i id : Nat} (coherent : s.Coherent N) (bound : i < N)
    (flagged : (s.client ()).signals i = true ∨ (s.client ()).terminates i = true)
    (heard : s.Heard i) (move : s.WorkerMoves id next) : next.Heard i := by
  have client := move.frame.1
  by_cases mover : i = id
  · subst mover
    have term := coherent.terminated i bound
    have asked := coherent.barrier.signal i bound
    obtain ⟨awake, alert, leaving⟩ := heard
    cases move with
    | test before tested =>
      rw [before] at awake alert leaving
      refine ⟨?_, ?_, ?_⟩ <;> cases tested <;> simp_all
    | wait before => exact absurd before alert
    | _ => constructor <;> simp
  · exact heard.congr (move.others mover).1 fun asked => client ▸ asked

/-- Behind the constructor a client leaves the workers alone. -/
theorem ClientMoves.worker_eq (move : s.ClientMoves N () next)
    (outside : (s.client ()).inInit = false) : next.worker = s.worker := by
  cases move with
  | spawn before =>
    rw [before] at outside
    cases outside
  | _ => rfl

/-- A client notifies the workers of a round one after the other, each while it could
take the mutex of the worker. -/
theorem ClientMoves.calls {i : Nat} (move : s.ClientMoves N () next) (bound : i < N)
    (called : (next.client ()).called i = true) :
    ((s.client ()).called i = true ∧
        ((next.client ()).terminates i = true → (s.client ()).terminates i = true)) ∨
      (s.client ()).notifies N = some i ∧ s.veriQueueMutex i = none := by
  cases move with
  | go before control =>
    rw [before]
    simp only [clientAt_client, update_self] at called ⊢
    rw [control.terminates bound]
    cases control with
    | @wake j _ _ inside free | @termWake j inside free =>
      rcases Nat.lt_succ_iff_lt_or_eq.mp (of_decide_eq_true called) with earlier | rfl
      · exact Or.inl ⟨decide_eq_true earlier, id⟩
      · exact Or.inr ⟨if_pos inside, free⟩
    | @termWoken j ended =>
      exact Or.inl ⟨decide_eq_true (Nat.lt_of_lt_of_le bound (Nat.not_lt.mp ended)), id⟩
    | join | joined => exact Or.inl ⟨rfl, id⟩
    | _ => cases called
  | _ => simp [ClientPc.called] at called

/-- A worker keeps what it has heard, and the others what they have. -/
theorem Attended.worker_moves {id : Nat} (attended : s.Attended N) (inside : id < N)
    (move : s.WorkerMoves id next) : next.Attended N := by
  refine ⟨attended.coherent.worker_moves inside move, fun i bound called => ?_⟩
  rw [move.frame.1] at called
  exact (attended.heard i bound called).worker_moves attended.coherent bound
    (ClientPc.flagged_of_called called) move

/-- A client that goes on notifies one more worker, and the flag of this worker is
already set. -/
theorem Attended.client_moves (attended : s.Attended N) (move : s.ClientMoves N () next) :
    (next.notify ((s.client ()).notifies N)).Attended N := by
  have worker : next.worker = s.worker := move.worker_eq attended.coherent.outside
  refine ⟨(attended.coherent.client_moves move).notify _, fun i bound called => ?_⟩
  rw [notify_client] at called
  rcases move.calls bound called with ⟨before, terminates⟩ | ⟨reached, free⟩
  · have heard := attended.heard i bound before
    -- the worker was awake, so it has not noticed the notification
    refine heard.congr ?_ (by rw [notify_client]; exact terminates)
    rw [notify_worker_of_awake (by rw [worker]; exact heard.awake), worker]
  · rw [reached]
    apply heard_of_away
    rw [worker]
    apply eq_false_of_ne_true
    intro held
    rw [attended.coherent.owned.worker i bound held] at free
    cases free

/-- A step with its notification keeps the workers attended. -/
theorem Attended.of_step (attended : s.Attended N) (taken : s.notifyingStep N a = some next) :
    next.Attended N := by
  obtain ⟨middle, move, rfl⟩ := notifyingStep_moves taken
  have coherent := attended.coherent.moves move
  cases move with
  | worker inside move => exact attended.worker_moves inside move
  | client move => exact attended.client_moves move
  | execVeri before | getVeri before | termVeri before =>
    refine ⟨coherent, fun i bound called => ?_⟩
    simp [target, notify, ClientPc.called] at called

/-- An instance whose constructor has returned is attended, and it stays so along every
run with notifications and spurious wake-ups. -/
theorem attended_of_run (positive : 0 < N) {s₀ : Pool Unit τ}
    {actions : List (PoolAction Unit τ)} (constructed : s₀.Constructed N)
    (ran : run (notifyingStep N) s₀ actions = some s) : s.Attended N := by
  have start : s₀.Attended N := by
    refine ⟨constructed.coherent positive, fun i bound called => ?_⟩
    rw [constructed.client ()] at called
    cases called
  exact run_invariant (fun s : Pool Unit τ => s.Attended N) start
    (fun _ _ _ attended taken => attended.of_step taken) ran

end Attended

end Pool

end PMTest

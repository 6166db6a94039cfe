import Mathlib.Logic.Function.Basic
import Mathlib.Tactic.Simps.Basic
import PMTest.Transitions

/-!
# The pool of checking threads

A client hands traces to a pool of `MAX_THREAD_POOL_SIZE` worker threads. Every
worker has a queue with a mutex and a condition variable, a vector of results, and
three flags: one asks it to terminate, one asks it to report when its queue is
empty, and one is its report.

Every section that a mutex protects, every access of a flag and every access of the
shared index `assignTo` is one step, and the threads are interleaved freely. A
waiting thread may wake up at any time, so a notification changes no state; whom a
client notifies is part of its position. Worker and loop indices are natural
numbers, compared with the number of workers as in the source.

The pool is generic in the traces: what checking one of them does is not its
business. A result is identified by the job it belongs to.
-/

namespace PMTest

open Transitions

/-- A trace in a queue, numbered in the order in which traces were pushed. -/
structure Job (τ : Type*) where
  number : Nat
  input : τ
  deriving DecidableEq, Repr

/-- Where a worker is in `VeriWorker`. -/
inductive WorkerPc (τ : Type*)
  /-- The thread has not been created. -/
  | unborn
  /-- In front of the loop that waits for `termSignal` to be false. -/
  | start
  /-- In front of the lock of the queue. -/
  | lock
  /-- The three tests of the wait loop. -/
  | testTerm | testGet | testQueue
  /-- In the wait, without the mutex. -/
  | waiting
  /-- In front of the test that leaves the loop. -/
  | checkTerm
  /-- The three tests in front of the report. -/
  | checkCompleted | checkGet | checkEmpty
  /-- About to report. -/
  | setCompleted
  /-- In front of the test that takes a trace. -/
  | checkQueue
  /-- In `VeriProc`. -/
  | verify (job : Job τ)
  /-- In front of the section that stores the result. -/
  | pushResult (job : Job τ)
  | finished
  deriving DecidableEq, Repr

namespace WorkerPc

variable {τ : Type*}

/-- The worker holds the mutex of its queue. -/
def holdsMutex : WorkerPc τ → Bool
  | testTerm | testGet | testQueue | checkTerm | checkCompleted | checkGet | checkEmpty
  | setCompleted | checkQueue => true
  | _ => false

/-- The worker has found its signal set, in front of the test of its queue or behind
it, and is about to report. -/
def reporting : WorkerPc τ → Bool
  | checkEmpty | setCompleted => true
  | _ => false

/-- The worker runs and has no trace in hand. -/
def unladen : WorkerPc τ → Bool
  | start | lock | testTerm | testGet | testQueue | waiting | checkTerm | checkCompleted
  | checkGet | checkEmpty | setCompleted | checkQueue => true
  | _ => false

/-- The worker runs, has no trace in hand and is not about to report. -/
def idle : WorkerPc τ → Bool
  | start | lock | testTerm | testGet | testQueue | waiting | checkTerm | checkCompleted
  | checkGet | checkQueue => true
  | _ => false

/-- A worker is idle when it has no trace in hand and is not about to report. -/
theorem idle_iff {pc : WorkerPc τ} :
    pc.idle = true ↔ pc.unladen = true ∧ pc.reporting = false := by
  cases pc <;> simp [idle, unladen, reporting]

end WorkerPc

/-- The loops of `initVeri`. -/
inductive InitPhase
  | spawn | clearTerm | clearGet | clearCompleted
  deriving DecidableEq, Repr

/-- The loops of `getVeri`; polling counts the reports it has seen. -/
inductive GetPhase
  | signal | poll (tmp : Nat) | wake | merge | clearGet | notify | clearCompleted
  deriving DecidableEq, Repr

/-- The loops of `termVeri`. -/
inductive TermPhase
  | signal | wake | join
  deriving DecidableEq, Repr

/-- Where a client thread is, with the values its call has read. -/
inductive ClientPc (τ : Type*)
  | outside
  /-- A loop of `initVeri` at some index. -/
  | init (phase : InitPhase) (i : Nat)
  /-- In front of `assignTo = 0`. -/
  | initAssign
  /-- In front of the first read of `assignTo`, which selects the mutex. -/
  | execSelect (input : τ)
  | execLock (input : τ) (locked : Nat)
  /-- In front of the second read, which selects the queue. -/
  | execQueue (input : τ) (locked : Nat)
  | execPush (input : τ) (locked queue : Nat)
  | execUnlock (locked queue : Nat)
  /-- In front of the third read, which selects the worker to notify. -/
  | execTarget (queue : Nat)
  | execNotify (queue target : Nat)
  /-- In front of the fourth read, for the next value. -/
  | execNext
  | execStore (read : Nat)
  /-- A loop of `getVeri` at some index, with what `output` held at the call and
  what has been appended. -/
  | get (phase : GetPhase) (i : Nat) (given merged : List (Job τ))
  | getReturn (given merged : List (Job τ))
  /-- A loop of `termVeri` at some index. -/
  | term (phase : TermPhase) (i : Nat)
  /-- `termVeri` has returned. -/
  | destroyed
  deriving DecidableEq, Repr

namespace ClientPc

variable {τ : Type*}

/-- The queue whose mutex the client holds. -/
def holdsMutex : ClientPc τ → Option Nat
  | execQueue _ locked | execPush _ locked _ | execUnlock locked _ => some locked
  | _ => none

/-- The client is in the constructor. -/
def inInit : ClientPc τ → Bool
  | init _ _ | initAssign => true
  | _ => false

end ClientPc

/-- The holder of a mutex. -/
inductive Thread (ι : Type*)
  | worker (id : Nat)
  | client (k : ι)
  deriving DecidableEq, Repr

/-- The state of an instance and of the threads that use it. The last three fields
are the history: the jobs in the order of their pushes, and the jobs that a worker
has taken and finished. -/
structure Pool (ι τ : Type*) where
  termSignal : Nat → Bool
  getResultSignal : Nat → Bool
  completedStateMap : Nat → Bool
  assignTo : Nat
  veriQueue : Nat → List (Job τ)
  veriQueueMutex : Nat → Option (Thread ι)
  resultVector : Nat → List (Job τ)
  worker : Nat → WorkerPc τ
  client : ι → ClientPc τ
  submitted : List (Job τ)
  taken : List (Nat × Job τ)
  verified : List (Nat × Job τ)

/-- What may happen next: a thread goes on, or a client outside makes a call. -/
inductive PoolAction (ι τ : Type*)
  | worker (id : Nat)
  | client (k : ι)
  | execVeri (k : ι) (input : τ)
  | getVeri (k : ι) (output : List (Job τ))
  | termVeri (k : ι)
  deriving DecidableEq, Repr

namespace Pool

open Function

variable {ι τ : Type*}

/-- A worker goes to its next position. -/
@[simps]
def workerAt (s : Pool ι τ) (id : Nat) (pc : WorkerPc τ) : Pool ι τ :=
  { s with worker := update s.worker id pc }

/-- The mutex of a queue is released. -/
@[simps]
def unlock (s : Pool ι τ) (i : Nat) : Pool ι τ :=
  { s with veriQueueMutex := update s.veriQueueMutex i none }

/-- The mutex of a queue is taken. -/
@[simps]
def lockBy (s : Pool ι τ) (i : Nat) (thread : Thread ι) : Pool ι τ :=
  { s with veriQueueMutex := update s.veriQueueMutex i (some thread) }

/-- The next step of a worker in `VeriWorker`. Leaving the scope of the lock
releases the mutex. -/
def veriWorker (s : Pool ι τ) (id : Nat) : Option (Pool ι τ) :=
  match s.worker id with
  | .unborn | .finished => none
  | .start => some (s.workerAt id (if s.termSignal id then .start else .lock))
  | .lock | .waiting =>
      match s.veriQueueMutex id with
      | none => some ((s.lockBy id (.worker id)).workerAt id .testTerm)
      | some _ => none
  | .testTerm => some (s.workerAt id (if s.termSignal id then .checkTerm else .testGet))
  | .testGet => some (s.workerAt id (if s.getResultSignal id then .checkTerm else .testQueue))
  | .testQueue =>
      match s.veriQueue id with
      | [] => some ((s.unlock id).workerAt id .waiting)
      | _ :: _ => some (s.workerAt id .checkTerm)
  | .checkTerm =>
      if s.termSignal id then some ((s.unlock id).workerAt id .finished)
      else some (s.workerAt id .checkCompleted)
  | .checkCompleted =>
      some (s.workerAt id (if s.completedStateMap id then .checkQueue else .checkGet))
  | .checkGet =>
      some (s.workerAt id (if s.getResultSignal id then .checkEmpty else .checkQueue))
  | .checkEmpty =>
      match s.veriQueue id with
      | [] => some (s.workerAt id .setCompleted)
      | _ :: _ => some (s.workerAt id .checkQueue)
  | .setCompleted =>
      some { (s.unlock id).workerAt id .lock with
        completedStateMap := update s.completedStateMap id true }
  | .checkQueue =>
      match s.veriQueue id with
      | [] => some ((s.unlock id).workerAt id .lock)
      | job :: rest =>
          some { (s.unlock id).workerAt id (.verify job) with
            veriQueue := update s.veriQueue id rest
            taken := s.taken ++ [(id, job)] }
  | .verify job =>
      some { s.workerAt id (.pushResult job) with verified := s.verified ++ [(id, job)] }
  | .pushResult job =>
      some { s.workerAt id .lock with
        resultVector := update s.resultVector id (s.resultVector id ++ [job]) }

variable [DecidableEq ι]

/-- A client goes to its next position. -/
@[simps]
def clientAt (s : Pool ι τ) (k : ι) (pc : ClientPc τ) : Pool ι τ :=
  { s with client := update s.client k pc }

/-- A section that locks the mutex of a queue, notifies and unlocks it. -/
def notifyAll (s : Pool ι τ) (i : Nat) : Option (Pool ι τ) :=
  match s.veriQueueMutex i with
  | none => some s
  | some _ => none

variable (N : Nat)

/-- The next step in a loop of `initVeri`. -/
def initVeri (s : Pool ι τ) (k : ι) (i : Nat) : InitPhase → Pool ι τ
  | .spawn =>
      if i < N then (s.workerAt i .start).clientAt k (.init .spawn (i + 1))
      else s.clientAt k (.init .clearTerm 0)
  | .clearTerm =>
      if i < N then
        { s.clientAt k (.init .clearTerm (i + 1)) with termSignal := update s.termSignal i false }
      else s.clientAt k (.init .clearGet 0)
  | .clearGet =>
      if i < N then
        { s.clientAt k (.init .clearGet (i + 1)) with
          getResultSignal := update s.getResultSignal i false }
      else s.clientAt k (.init .clearCompleted 0)
  | .clearCompleted =>
      if i < N then
        { s.clientAt k (.init .clearCompleted (i + 1)) with
          completedStateMap := update s.completedStateMap i false }
      else s.clientAt k .initAssign

/-- The next step in a loop of `getVeri`. -/
def getVeri (s : Pool ι τ) (k : ι) (i : Nat) (given merged : List (Job τ)) :
    GetPhase → Option (Pool ι τ)
  | .signal =>
      if i < N then
        some { s.clientAt k (.get .signal (i + 1) given merged) with
          getResultSignal := update s.getResultSignal i true }
      else some (s.clientAt k (.get (.poll 0) 0 given merged))
  | .poll tmp =>
      if i < N then
        some (s.clientAt k
          (.get (.poll (tmp + (s.completedStateMap i).toNat)) (i + 1) given merged))
      else if tmp = N then some (s.clientAt k (.get .merge 0 given merged))
      else some (s.clientAt k (.get .wake 0 given merged))
  | .wake =>
      if i < N then
        (s.notifyAll i).map fun s => s.clientAt k (.get .wake (i + 1) given merged)
      else some (s.clientAt k (.get (.poll 0) 0 given merged))
  | .merge =>
      if i < N then some (s.clientAt k (.get .merge (i + 1) given (merged ++ s.resultVector i)))
      else some (s.clientAt k (.get .clearGet 0 given merged))
  | .clearGet =>
      if i < N then
        some { s.clientAt k (.get .clearGet (i + 1) given merged) with
          getResultSignal := update s.getResultSignal i false }
      else some (s.clientAt k (.get .notify 0 given merged))
  | .notify =>
      if i < N then
        (s.notifyAll i).map fun s => s.clientAt k (.get .notify (i + 1) given merged)
      else some (s.clientAt k (.get .clearCompleted 0 given merged))
  | .clearCompleted =>
      if i < N then
        some { s.clientAt k (.get .clearCompleted (i + 1) given merged) with
          completedStateMap := update s.completedStateMap i false }
      else some (s.clientAt k (.getReturn given merged))

/-- The next step in a loop of `termVeri`. -/
def termVeri (s : Pool ι τ) (k : ι) (i : Nat) : TermPhase → Option (Pool ι τ)
  | .signal =>
      if i < N then
        some { s.clientAt k (.term .signal (i + 1)) with termSignal := update s.termSignal i true }
      else some (s.clientAt k (.term .wake 0))
  | .wake =>
      if i < N then (s.notifyAll i).map fun s => s.clientAt k (.term .wake (i + 1))
      else some (s.clientAt k (.term .join 0))
  | .join =>
      if i < N then
        match s.worker i with
        | .finished => some (s.clientAt k (.term .join (i + 1)))
        | _ => none
      else some (s.clientAt k .destroyed)

/-- The next step of a client inside a call. -/
def clientStep (s : Pool ι τ) (k : ι) : Option (Pool ι τ) :=
  match s.client k with
  | .outside | .destroyed => none
  | .init phase i => some (s.initVeri N k i phase)
  | .initAssign => some { s.clientAt k .outside with assignTo := 0 }
  | .execSelect input => some (s.clientAt k (.execLock input s.assignTo))
  | .execLock input locked =>
      match s.veriQueueMutex locked with
      | none => some ((s.lockBy locked (.client k)).clientAt k (.execQueue input locked))
      | some _ => none
  | .execQueue input locked => some (s.clientAt k (.execPush input locked s.assignTo))
  | .execPush input locked queue =>
      some { s.clientAt k (.execUnlock locked queue) with
        veriQueue := update s.veriQueue queue
          (s.veriQueue queue ++ [⟨s.submitted.length, input⟩])
        submitted := s.submitted ++ [⟨s.submitted.length, input⟩] }
  | .execUnlock locked queue => some ((s.unlock locked).clientAt k (.execTarget queue))
  | .execTarget queue => some (s.clientAt k (.execNotify queue s.assignTo))
  | .execNotify _ _ => some (s.clientAt k .execNext)
  | .execNext => some (s.clientAt k (.execStore s.assignTo))
  | .execStore read => some { s.clientAt k .outside with assignTo := (read + 1) % N }
  | .get phase i given merged => s.getVeri N k i given merged phase
  | .getReturn _ _ => some (s.clientAt k .outside)
  | .term phase i => s.termVeri N k i phase

/-- One step of the system. -/
def step (s : Pool ι τ) : PoolAction ι τ → Option (Pool ι τ)
  | .worker id => if id < N then s.veriWorker id else none
  | .client k => s.clientStep N k
  | .execVeri k input =>
      match s.client k with
      | .outside => some (s.clientAt k (.execSelect input))
      | _ => none
  | .getVeri k output =>
      match s.client k with
      | .outside => some (s.clientAt k (.get .signal 0 output []))
      | _ => none
  | .termVeri k =>
      match s.client k with
      | .outside => some (s.clientAt k (.term .signal 0))
      | _ => none

/-- An instance whose constructor has returned and left all flags false, before any
call. Its workers may be anywhere in their loops, also in front of a report: a worker
that found `getResultSignal` set in uninitialised storage goes on with what it found
when the constructor has cleared the signal. -/
structure Returned (s : Pool ι τ) : Prop where
  termSignal : ∀ i < N, s.termSignal i = false
  getResultSignal : ∀ i < N, s.getResultSignal i = false
  completedStateMap : ∀ i < N, s.completedStateMap i = false
  assignTo : s.assignTo = 0
  veriQueue : ∀ i < N, s.veriQueue i = []
  veriQueueMutex : ∀ i < N,
    s.veriQueueMutex i = if (s.worker i).holdsMutex then some (.worker i) else none
  resultVector : ∀ i < N, s.resultVector i = []
  unladen : ∀ i < N, (s.worker i).unladen = true
  client : ∀ k, s.client k = .outside
  submitted : s.submitted = []
  taken : s.taken = []
  verified : s.verified = []

/-- The constructor has returned with all flags false, and no worker is about to
report on a signal that the storage held before. -/
structure Constructed (s : Pool ι τ) : Prop extends Returned N s where
  silent : ∀ i < N, (s.worker i).reporting = false

omit [DecidableEq ι] in
/-- The workers of a constructed instance are idle. -/
theorem Constructed.worker {s : Pool ι τ} {N : Nat} (constructed : s.Constructed N) (i : Nat)
    (inside : i < N) : (s.worker i).idle = true :=
  WorkerPc.idle_iff.mpr ⟨constructed.unladen i inside, constructed.silent i inside⟩

/-- The instance whose workers have just been started. -/
def started : Pool ι τ where
  termSignal := fun _ => false
  getResultSignal := fun _ => false
  completedStateMap := fun _ => false
  assignTo := 0
  veriQueue := fun _ => []
  veriQueueMutex := fun _ => none
  resultVector := fun _ => []
  worker := fun _ => .start
  client := fun _ => .outside
  submitted := []
  taken := []
  verified := []

omit [DecidableEq ι] in
/-- Workers that have not entered their loops are not about to report. -/
theorem started_constructed : (started : Pool ι τ).Constructed N where
  toReturned := by constructor <;> simp [started, WorkerPc.holdsMutex, WorkerPc.unladen]
  silent := by simp [started, WorkerPc.reporting]

section Moves

/-- The tests of a worker, which change nothing but its position. -/
inductive Tests (s : Pool ι τ) (id : Nat) : WorkerPc τ → WorkerPc τ → Prop
  | spin (set : s.termSignal id = true) : Tests s id .start .start
  | begin (clear : s.termSignal id = false) : Tests s id .start .lock
  | termSet (set : s.termSignal id = true) : Tests s id .testTerm .checkTerm
  | termClear (clear : s.termSignal id = false) : Tests s id .testTerm .testGet
  | getSet (set : s.getResultSignal id = true) : Tests s id .testGet .checkTerm
  | getClear (clear : s.getResultSignal id = false) : Tests s id .testGet .testQueue
  | queued (found : s.veriQueue id ≠ []) : Tests s id .testQueue .checkTerm
  | stay (clear : s.termSignal id = false) : Tests s id .checkTerm .checkCompleted
  | reported (set : s.completedStateMap id = true) : Tests s id .checkCompleted .checkQueue
  | unreported (clear : s.completedStateMap id = false) : Tests s id .checkCompleted .checkGet
  | asked (set : s.getResultSignal id = true) : Tests s id .checkGet .checkEmpty
  | unasked (clear : s.getResultSignal id = false) : Tests s id .checkGet .checkQueue
  | drained (empty : s.veriQueue id = []) : Tests s id .checkEmpty .setCompleted
  | undrained (found : s.veriQueue id ≠ []) : Tests s id .checkEmpty .checkQueue

/-- The moves of a worker. -/
inductive WorkerMoves (s : Pool ι τ) (id : Nat) : Pool ι τ → Prop
  | test {pc next : WorkerPc τ} (before : s.worker id = pc) (tested : s.Tests id pc next) :
      WorkerMoves s id (s.workerAt id next)
  | acquire (before : s.worker id = .lock ∨ s.worker id = .waiting)
      (free : s.veriQueueMutex id = none) :
      WorkerMoves s id ((s.lockBy id (.worker id)).workerAt id .testTerm)
  | wait (before : s.worker id = .testQueue) (empty : s.veriQueue id = []) :
      WorkerMoves s id ((s.unlock id).workerAt id .waiting)
  | exit (before : s.worker id = .checkTerm) (set : s.termSignal id = true) :
      WorkerMoves s id ((s.unlock id).workerAt id .finished)
  | report (before : s.worker id = .setCompleted) :
      WorkerMoves s id { (s.unlock id).workerAt id .lock with
        completedStateMap := update s.completedStateMap id true }
  | pass (before : s.worker id = .checkQueue) (empty : s.veriQueue id = []) :
      WorkerMoves s id ((s.unlock id).workerAt id .lock)
  | take (job : Job τ) (rest : List (Job τ)) (before : s.worker id = .checkQueue)
      (found : s.veriQueue id = job :: rest) :
      WorkerMoves s id { (s.unlock id).workerAt id (.verify job) with
        veriQueue := update s.veriQueue id rest
        taken := s.taken ++ [(id, job)] }
  | verify (job : Job τ) (before : s.worker id = .verify job) :
      WorkerMoves s id { s.workerAt id (.pushResult job) with
        verified := s.verified ++ [(id, job)] }
  | store (job : Job τ) (before : s.worker id = .pushResult job) :
      WorkerMoves s id { s.workerAt id .lock with
        resultVector := update s.resultVector id (s.resultVector id ++ [job]) }

/-- The steps of a client that change nothing but its position: the ends of its
loops, its reads and its notifications. -/
inductive Control (s : Pool ι τ) : ClientPc τ → ClientPc τ → Prop
  | spawned {i : Nat} (ended : ¬ i < N) : Control s (.init .spawn i) (.init .clearTerm 0)
  | initTermOver {i : Nat} (ended : ¬ i < N) : Control s (.init .clearTerm i) (.init .clearGet 0)
  | initGetOver {i : Nat} (ended : ¬ i < N) :
      Control s (.init .clearGet i) (.init .clearCompleted 0)
  | initCompletedOver {i : Nat} (ended : ¬ i < N) : Control s (.init .clearCompleted i) .initAssign
  | select {input : τ} : Control s (.execSelect input) (.execLock input s.assignTo)
  | queue {input : τ} {locked : Nat} :
      Control s (.execQueue input locked) (.execPush input locked s.assignTo)
  | target {queue : Nat} : Control s (.execTarget queue) (.execNotify queue s.assignTo)
  | notifyOne {queue target : Nat} : Control s (.execNotify queue target) .execNext
  | next : Control s .execNext (.execStore s.assignTo)
  | signalled {i : Nat} {given merged : List (Job τ)} (ended : ¬ i < N) :
      Control s (.get .signal i given merged) (.get (.poll 0) 0 given merged)
  | count {tmp i : Nat} {given merged : List (Job τ)} (inside : i < N) :
      Control s (.get (.poll tmp) i given merged)
        (.get (.poll (tmp + (s.completedStateMap i).toNat)) (i + 1) given merged)
  | complete {tmp i : Nat} {given merged : List (Job τ)} (ended : ¬ i < N) (all : tmp = N) :
      Control s (.get (.poll tmp) i given merged) (.get .merge 0 given merged)
  | incomplete {tmp i : Nat} {given merged : List (Job τ)} (ended : ¬ i < N) (some : tmp ≠ N) :
      Control s (.get (.poll tmp) i given merged) (.get .wake 0 given merged)
  | wake {i : Nat} {given merged : List (Job τ)} (inside : i < N)
      (free : s.veriQueueMutex i = none) :
      Control s (.get .wake i given merged) (.get .wake (i + 1) given merged)
  | woken {i : Nat} {given merged : List (Job τ)} (ended : ¬ i < N) :
      Control s (.get .wake i given merged) (.get (.poll 0) 0 given merged)
  | merge {i : Nat} {given merged : List (Job τ)} (inside : i < N) :
      Control s (.get .merge i given merged)
        (.get .merge (i + 1) given (merged ++ s.resultVector i))
  | mergeOver {i : Nat} {given merged : List (Job τ)} (ended : ¬ i < N) :
      Control s (.get .merge i given merged) (.get .clearGet 0 given merged)
  | clearGetOver {i : Nat} {given merged : List (Job τ)} (ended : ¬ i < N) :
      Control s (.get .clearGet i given merged) (.get .notify 0 given merged)
  | notify {i : Nat} {given merged : List (Job τ)} (inside : i < N)
      (free : s.veriQueueMutex i = none) :
      Control s (.get .notify i given merged) (.get .notify (i + 1) given merged)
  | notified {i : Nat} {given merged : List (Job τ)} (ended : ¬ i < N) :
      Control s (.get .notify i given merged) (.get .clearCompleted 0 given merged)
  | clearCompletedOver {i : Nat} {given merged : List (Job τ)} (ended : ¬ i < N) :
      Control s (.get .clearCompleted i given merged) (.getReturn given merged)
  | return {given merged : List (Job τ)} : Control s (.getReturn given merged) .outside
  | terminated {i : Nat} (ended : ¬ i < N) : Control s (.term .signal i) (.term .wake 0)
  | termWake {i : Nat} (inside : i < N) (free : s.veriQueueMutex i = none) :
      Control s (.term .wake i) (.term .wake (i + 1))
  | termWoken {i : Nat} (ended : ¬ i < N) : Control s (.term .wake i) (.term .join 0)
  | join {i : Nat} (inside : i < N) (finished : s.worker i = .finished) :
      Control s (.term .join i) (.term .join (i + 1))
  | joined {i : Nat} (ended : ¬ i < N) : Control s (.term .join i) .destroyed

/-- The moves of a client inside a call. -/
inductive ClientMoves (s : Pool ι τ) (k : ι) : Pool ι τ → Prop
  | go {pc next : ClientPc τ} (before : s.client k = pc) (control : s.Control N pc next) :
      ClientMoves s k (s.clientAt k next)
  | spawn {i : Nat} (before : s.client k = .init .spawn i) (inside : i < N) :
      ClientMoves s k ((s.workerAt i .start).clientAt k (.init .spawn (i + 1)))
  | initTerm {i : Nat} (before : s.client k = .init .clearTerm i) (inside : i < N) :
      ClientMoves s k { s.clientAt k (.init .clearTerm (i + 1)) with
        termSignal := update s.termSignal i false }
  | initGet {i : Nat} (before : s.client k = .init .clearGet i) (inside : i < N) :
      ClientMoves s k { s.clientAt k (.init .clearGet (i + 1)) with
        getResultSignal := update s.getResultSignal i false }
  | initCompleted {i : Nat} (before : s.client k = .init .clearCompleted i) (inside : i < N) :
      ClientMoves s k { s.clientAt k (.init .clearCompleted (i + 1)) with
        completedStateMap := update s.completedStateMap i false }
  | assign (before : s.client k = .initAssign) :
      ClientMoves s k { s.clientAt k .outside with assignTo := 0 }
  | lock {input : τ} {locked : Nat} (before : s.client k = .execLock input locked)
      (free : s.veriQueueMutex locked = none) :
      ClientMoves s k ((s.lockBy locked (.client k)).clientAt k (.execQueue input locked))
  | push {input : τ} {locked queue : Nat} (before : s.client k = .execPush input locked queue) :
      ClientMoves s k { s.clientAt k (.execUnlock locked queue) with
        veriQueue := update s.veriQueue queue
          (s.veriQueue queue ++ [⟨s.submitted.length, input⟩])
        submitted := s.submitted ++ [⟨s.submitted.length, input⟩] }
  | unlock {locked queue : Nat} (before : s.client k = .execUnlock locked queue) :
      ClientMoves s k ((s.unlock locked).clientAt k (.execTarget queue))
  | store {read : Nat} (before : s.client k = .execStore read) :
      ClientMoves s k { s.clientAt k .outside with assignTo := (read + 1) % N }
  | signal {i : Nat} {given merged : List (Job τ)}
      (before : s.client k = .get .signal i given merged) (inside : i < N) :
      ClientMoves s k { s.clientAt k (.get .signal (i + 1) given merged) with
        getResultSignal := update s.getResultSignal i true }
  | clearGet {i : Nat} {given merged : List (Job τ)}
      (before : s.client k = .get .clearGet i given merged) (inside : i < N) :
      ClientMoves s k { s.clientAt k (.get .clearGet (i + 1) given merged) with
        getResultSignal := update s.getResultSignal i false }
  | clearCompleted {i : Nat} {given merged : List (Job τ)}
      (before : s.client k = .get .clearCompleted i given merged) (inside : i < N) :
      ClientMoves s k { s.clientAt k (.get .clearCompleted (i + 1) given merged) with
        completedStateMap := update s.completedStateMap i false }
  | terminate {i : Nat} (before : s.client k = .term .signal i) (inside : i < N) :
      ClientMoves s k { s.clientAt k (.term .signal (i + 1)) with
        termSignal := update s.termSignal i true }

/-- The moves of the system. -/
inductive Moves (s : Pool ι τ) : PoolAction ι τ → Pool ι τ → Prop
  | worker {id : Nat} {next : Pool ι τ} (inside : id < N) (move : s.WorkerMoves id next) :
      Moves s (.worker id) next
  | client {k : ι} {next : Pool ι τ} (move : s.ClientMoves N k next) : Moves s (.client k) next
  | execVeri {k : ι} {input : τ} (before : s.client k = .outside) :
      Moves s (.execVeri k input) (s.clientAt k (.execSelect input))
  | getVeri {k : ι} {output : List (Job τ)} (before : s.client k = .outside) :
      Moves s (.getVeri k output) (s.clientAt k (.get .signal 0 output []))
  | termVeri {k : ι} (before : s.client k = .outside) :
      Moves s (.termVeri k) (s.clientAt k (.term .signal 0))

variable {N}
variable {s next : Pool ι τ}

omit [DecidableEq ι] in
/-- Every step of a worker is one of its moves. The position of the worker decides which
one, and for a test the value that it reads. -/
theorem veriWorker_moves {id : Nat} (taken : s.veriWorker id = some next) :
    s.WorkerMoves id next := by
  unfold veriWorker at taken
  split at taken
  case h_1 => cases taken
  case h_2 => cases taken
  case h_3 before =>
    cases taken
    split
    · exact .test before (.spin ‹_›)
    · exact .test before (.begin (eq_false_of_ne_true ‹_›))
  case h_4 before =>
    split at taken
    · cases taken
      exact .acquire (Or.inl before) ‹_›
    · cases taken
  case h_5 before =>
    split at taken
    · cases taken
      exact .acquire (Or.inr before) ‹_›
    · cases taken
  case h_6 before =>
    cases taken
    split
    · exact .test before (.termSet ‹_›)
    · exact .test before (.termClear (eq_false_of_ne_true ‹_›))
  case h_7 before =>
    cases taken
    split
    · exact .test before (.getSet ‹_›)
    · exact .test before (.getClear (eq_false_of_ne_true ‹_›))
  case h_8 before =>
    split at taken
    · cases taken
      exact .wait before ‹_›
    · rename_i found
      cases taken
      exact .test before (.queued (by simp [found]))
  case h_9 before =>
    split at taken
    · cases taken
      exact .exit before ‹_›
    · cases taken
      exact .test before (.stay (eq_false_of_ne_true ‹_›))
  case h_10 before =>
    cases taken
    split
    · exact .test before (.reported ‹_›)
    · exact .test before (.unreported (eq_false_of_ne_true ‹_›))
  case h_11 before =>
    cases taken
    split
    · exact .test before (.asked ‹_›)
    · exact .test before (.unasked (eq_false_of_ne_true ‹_›))
  case h_12 before =>
    split at taken
    · cases taken
      exact .test before (.drained ‹_›)
    · rename_i found
      cases taken
      exact .test before (.undrained (by simp [found]))
  case h_13 before =>
    cases taken
    exact .report before
  case h_14 before =>
    split at taken
    · cases taken
      exact .pass before ‹_›
    · rename_i job rest found
      cases taken
      exact .take job rest before found
  case h_15 job before =>
    cases taken
    exact .verify job before
  case h_16 job before =>
    cases taken
    exact .store job before

omit [DecidableEq ι] in
/-- A section that notifies under the mutex of a queue needs the mutex. -/
theorem notifyAll_map {i : Nat} {f : Pool ι τ → Pool ι τ}
    (taken : (s.notifyAll i).map f = some next) : s.veriQueueMutex i = none ∧ f s = next := by
  unfold notifyAll at taken
  split at taken
  · exact ⟨‹_›, Option.some.inj taken⟩
  · cases taken

/-- Every step of the constructor is one of the moves of its client. -/
theorem initVeri_moves {k : ι} {i : Nat} {phase : InitPhase}
    (before : s.client k = .init phase i) : s.ClientMoves N k (s.initVeri N k i phase) := by
  cases phase with
  | spawn =>
    simp only [initVeri]
    split
    · exact .spawn before ‹_›
    · exact .go before (.spawned ‹_›)
  | clearTerm =>
    simp only [initVeri]
    split
    · exact .initTerm before ‹_›
    · exact .go before (.initTermOver ‹_›)
  | clearGet =>
    simp only [initVeri]
    split
    · exact .initGet before ‹_›
    · exact .go before (.initGetOver ‹_›)
  | clearCompleted =>
    simp only [initVeri]
    split
    · exact .initCompleted before ‹_›
    · exact .go before (.initCompletedOver ‹_›)

/-- Every step of `getVeri` is one of the moves of its client. -/
theorem getVeri_moves {k : ι} {i : Nat} {given merged : List (Job τ)} {phase : GetPhase}
    (before : s.client k = .get phase i given merged)
    (taken : s.getVeri N k i given merged phase = some next) : s.ClientMoves N k next := by
  cases phase with
  | signal =>
    simp only [getVeri] at taken
    split at taken <;> cases taken
    · exact .signal before ‹_›
    · exact .go before (.signalled ‹_›)
  | poll tmp =>
    simp only [getVeri] at taken
    split at taken
    · cases taken
      exact .go before (.count ‹_›)
    · split at taken <;> cases taken
      · exact .go before (.complete ‹_› ‹_›)
      · exact .go before (.incomplete ‹_› ‹_›)
  | wake =>
    simp only [getVeri] at taken
    split at taken
    · obtain ⟨free, rfl⟩ := notifyAll_map taken
      exact .go before (.wake ‹_› free)
    · cases taken
      exact .go before (.woken ‹_›)
  | merge =>
    simp only [getVeri] at taken
    split at taken <;> cases taken
    · exact .go before (.merge ‹_›)
    · exact .go before (.mergeOver ‹_›)
  | clearGet =>
    simp only [getVeri] at taken
    split at taken <;> cases taken
    · exact .clearGet before ‹_›
    · exact .go before (.clearGetOver ‹_›)
  | notify =>
    simp only [getVeri] at taken
    split at taken
    · obtain ⟨free, rfl⟩ := notifyAll_map taken
      exact .go before (.notify ‹_› free)
    · cases taken
      exact .go before (.notified ‹_›)
  | clearCompleted =>
    simp only [getVeri] at taken
    split at taken <;> cases taken
    · exact .clearCompleted before ‹_›
    · exact .go before (.clearCompletedOver ‹_›)

/-- Every step of `termVeri` is one of the moves of its client. -/
theorem termVeri_moves {k : ι} {i : Nat} {phase : TermPhase}
    (before : s.client k = .term phase i) (taken : s.termVeri N k i phase = some next) :
    s.ClientMoves N k next := by
  cases phase with
  | signal =>
    simp only [termVeri] at taken
    split at taken <;> cases taken
    · exact .terminate before ‹_›
    · exact .go before (.terminated ‹_›)
  | wake =>
    simp only [termVeri] at taken
    split at taken
    · obtain ⟨free, rfl⟩ := notifyAll_map taken
      exact .go before (.termWake ‹_› free)
    · cases taken
      exact .go before (.termWoken ‹_›)
  | join =>
    simp only [termVeri] at taken
    split at taken
    · split at taken <;> cases taken
      exact .go before (.join ‹_› ‹_›)
    · cases taken
      exact .go before (.joined ‹_›)

/-- Every step of a client is one of its moves. The loops have their own lemmas; the
steps of `execVeri` follow each other without branches. -/
theorem clientStep_moves {k : ι} (taken : s.clientStep N k = some next) :
    s.ClientMoves N k next := by
  unfold clientStep at taken
  split at taken
  case h_1 => cases taken
  case h_2 => cases taken
  case h_3 before =>
    cases taken
    exact initVeri_moves before
  case h_4 before =>
    cases taken
    exact .assign before
  case h_5 before =>
    cases taken
    exact .go before .select
  case h_6 before =>
    split at taken <;> cases taken
    exact .lock before ‹_›
  case h_7 before =>
    cases taken
    exact .go before .queue
  case h_8 before =>
    cases taken
    exact .push before
  case h_9 before =>
    cases taken
    exact .unlock before
  case h_10 before =>
    cases taken
    exact .go before .target
  case h_11 before =>
    cases taken
    exact .go before .notifyOne
  case h_12 before =>
    cases taken
    exact .go before .next
  case h_13 before =>
    cases taken
    exact .store before
  case h_14 before => exact getVeri_moves before taken
  case h_15 before =>
    cases taken
    exact .go before .return
  case h_16 before => exact termVeri_moves before taken

/-- Every step of the system is one of its moves. -/
theorem step_moves {a : PoolAction ι τ} (taken : s.step N a = some next) : s.Moves N a next := by
  cases a with
  | worker id =>
    simp only [step] at taken
    split at taken
    · exact .worker ‹_› (veriWorker_moves taken)
    · cases taken
  | client k => exact .client (clientStep_moves taken)
  | execVeri k input =>
    simp only [step] at taken
    split at taken <;> cases taken
    exact .execVeri ‹_›
  | getVeri k output =>
    simp only [step] at taken
    split at taken <;> cases taken
    exact .getVeri ‹_›
  | termVeri k =>
    simp only [step] at taken
    split at taken <;> cases taken
    exact .termVeri ‹_›

end Moves

section Frames

variable {N}
variable {s next : Pool ι τ} {a : PoolAction ι τ} {id : Nat} {k : ι}

omit [DecidableEq ι] in
/-- A worker leaves alone what belongs to the clients and what they tell it. -/
theorem WorkerMoves.frame (move : s.WorkerMoves id next) :
    next.client = s.client ∧ next.assignTo = s.assignTo ∧ next.submitted = s.submitted ∧
      next.termSignal = s.termSignal ∧ next.getResultSignal = s.getResultSignal := by
  cases move <;> exact ⟨rfl, rfl, rfl, rfl, rfl⟩

omit [DecidableEq ι] in
/-- A worker leaves the other workers alone. -/
theorem WorkerMoves.others (move : s.WorkerMoves id next) {i : Nat} (other : i ≠ id) :
    next.worker i = s.worker i ∧ next.veriQueue i = s.veriQueue i ∧
      next.veriQueueMutex i = s.veriQueueMutex i ∧ next.resultVector i = s.resultVector i ∧
      next.completedStateMap i = s.completedStateMap i := by
  cases move <;> simp [other]

omit [DecidableEq ι] in
/-- A worker changes its own report at most, from the position where it reports. -/
theorem WorkerMoves.completed (move : s.WorkerMoves id next) (i : Nat) :
    next.completedStateMap i = s.completedStateMap i ∨
      i = id ∧ s.worker id = .setCompleted ∧ next.completedStateMap id = true ∧
        next.veriQueue id = s.veriQueue id ∧ next.worker id = .lock := by
  by_cases mover : i = id
  · subst mover
    cases move with
    | report before => exact Or.inr ⟨rfl, before, by simp, rfl, by simp⟩
    | _ => exact Or.inl rfl
  · exact Or.inl (move.others mover).2.2.2.2

omit [DecidableEq ι] in
/-- How a worker comes to the three tests in front of its report. -/
theorem WorkerMoves.enters (move : s.WorkerMoves id next) :
    (next.worker id = .checkGet → s.completedStateMap id = false) ∧
    (next.worker id = .checkEmpty → s.worker id = .checkGet ∧ s.getResultSignal id = true) ∧
    (next.worker id = .setCompleted → s.worker id = .checkEmpty ∧ s.veriQueue id = []) ∧
    (next.worker id = .checkGet ∨ next.worker id = .checkEmpty ∨ next.worker id = .setCompleted →
      next.completedStateMap = s.completedStateMap ∧ next.veriQueue = s.veriQueue) := by
  cases move with
  | test before tested => cases tested <;> simp_all [workerAt]
  | _ => simp

/-- A client leaves the other clients alone. -/
theorem ClientMoves.others (move : s.ClientMoves N k next) {j : ι} (other : j ≠ k) :
    next.client j = s.client j := by
  cases move <;> simp [other]

omit [DecidableEq ι] in
/-- No step leads into the constructor. -/
theorem Control.inInit {pc next : ClientPc τ} (control : s.Control N pc next)
    (after : pc.inInit = false) : next.inInit = false := by
  cases control <;> first | rfl | cases after

omit [DecidableEq ι] in
/-- Once the constructor has returned, no client is in it. -/
theorem Returned.inInit (returned : s.Returned N) (j : ι) :
    (s.client j).inInit = false := by
  rw [returned.client j]
  rfl

/-- A step moves one client at most: by a move of its call, or by the call itself. -/
theorem Moves.client_cases (move : s.Moves N a next) (j : ι) :
    next.client j = s.client j ∨
      (∃ k, a = .client k ∧ j = k ∧ s.ClientMoves N k next) ∨
      s.client j = .outside ∧
        ((∃ input, next.client j = .execSelect input) ∨
          (∃ output, next.client j = .get .signal 0 output []) ∨
          next.client j = .term .signal 0) := by
  cases move with
  | worker inside move => exact Or.inl (congrFun move.frame.1 j)
  | @client k next move =>
    by_cases mover : j = k
    · exact Or.inr (Or.inl ⟨k, rfl, mover, move⟩)
    · exact Or.inl (move.others mover)
  | @execVeri k input before =>
    by_cases mover : j = k
    · subst mover
      exact Or.inr (Or.inr ⟨before, Or.inl ⟨input, by simp⟩⟩)
    · exact Or.inl (by simp [mover])
  | @getVeri k output before =>
    by_cases mover : j = k
    · subst mover
      exact Or.inr (Or.inr ⟨before, Or.inr (Or.inl ⟨output, by simp⟩)⟩)
    · exact Or.inl (by simp [mover])
  | @termVeri k before =>
    by_cases mover : j = k
    · subst mover
      exact Or.inr (Or.inr ⟨before, Or.inr (Or.inr (by simp))⟩)
    · exact Or.inl (by simp [mover])

/-- Nobody enters the constructor of an instance again. -/
theorem Moves.inInit (move : s.Moves N a next) {j : ι} (after : (s.client j).inInit = false) :
    (next.client j).inInit = false := by
  rcases move.client_cases j with same | ⟨k, _, rfl, moved⟩ | ⟨_, called⟩
  · rw [same]
    exact after
  · cases moved with
    | go before control =>
      rw [before] at after
      simpa using control.inInit after
    | spawn before | initTerm before | initGet before | initCompleted before | assign before =>
      rw [before] at after
      cases after
    | _ => simp [ClientPc.inInit]
  · rcases called with ⟨input, pc⟩ | ⟨output, pc⟩ | pc <;> rw [pc] <;> rfl

end Frames

end Pool

end PMTest

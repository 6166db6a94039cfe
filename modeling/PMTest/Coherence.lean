import PMTest.ConcurrentClients
import PMTest.Shutdown
import PMTest.Barrier

/-!
# What the positions of the threads say

The flags and the mutexes of an instance are never out of step with the positions of
its threads, as long as one client uses it: a mutex is taken exactly while a thread is
in a section of it, a termination flag is set exactly from the moment the destructor
has set it, and a worker has finished only if it was asked to. `Coherent` states this
together with the barrier and the owners of the mutexes.

This is what a proof needs that lets a thread run on alone: `exists_worker_move` says
that a running worker has a step unless somebody else holds its mutex.
-/

namespace PMTest

open Transitions Function

variable {τ : Type*}

namespace Pool

section Coherent

variable {N id : Nat} {s next : Pool Unit τ} {a : PoolAction Unit τ}

/-- What the positions of the threads say about the mutexes and the flags. The barrier
and the owners of the mutexes are part of it, because the steps that change a flag are
decided by them. -/
structure Coherent (N : Nat) (s : Pool Unit τ) : Prop where
  outside : (s.client ()).inInit = false
  barrier : s.Barrier N
  owned : s.Owned N
  index : s.assignTo < N
  locks : ∀ input locked, s.client () = .execLock input locked → locked < N
  released : ∀ i < N, (s.worker i).holdsMutex = false → (s.client ()).holdsMutex ≠ some i →
    s.veriQueueMutex i = none
  terminated : ∀ i < N, s.termSignal i = (s.client ()).terminates i
  born : ∀ i < N, s.worker i ≠ .unborn
  finished : ∀ i < N, s.worker i = .finished → (s.client ()).terminates i = true
  joined : ∀ i < N, (s.client ()).joined i = true → s.worker i = .finished

/-- A worker that moves runs, and it goes back to no earlier loop. It finishes only
where it has found its termination flag set. -/
theorem WorkerMoves.runs (move : s.WorkerMoves id next) :
    next.worker id ≠ .unborn ∧ (next.worker id = .start → s.worker id = .start) ∧
      (next.worker id = .finished → s.termSignal id = true) := by
  cases move with
  | test before tested => cases tested <;> simp_all
  | exit before set => simp [set]
  | _ => simp

/-- A worker that is in none of its sections has left the mutex free, or alone. -/
theorem WorkerMoves.releases (move : s.WorkerMoves id next)
    (away : (next.worker id).holdsMutex = false) :
    next.veriQueueMutex id = none ∨
      ((s.worker id).holdsMutex = false ∧ next.veriQueueMutex id = s.veriQueueMutex id) := by
  cases move with
  | test before tested =>
    refine Or.inr ⟨?_, rfl⟩
    rw [before, ← tested.holdsMutex]
    simpa using away
  | acquire => simp [WorkerPc.holdsMutex] at away
  | verify job before => exact Or.inr ⟨by rw [before]; rfl, rfl⟩
  | store job before => exact Or.inr ⟨by rw [before]; rfl, rfl⟩
  | _ => simp

/-- A step of a worker keeps the threads coherent. It changes no flag of a call and no
position of the client, so the facts about these are those of the state before. What is
new concerns its own mutex: it is free when the worker has left its section. -/
theorem Coherent.worker_moves (coherent : s.Coherent N) (inside : id < N)
    (move : s.WorkerMoves id next) : next.Coherent N := by
  obtain ⟨client, index, _, term, _⟩ := move.frame
  obtain ⟨born, _, finished⟩ := move.runs
  constructor
  case outside =>
    rw [client]
    exact coherent.outside
  case barrier => exact coherent.barrier.worker_moves inside move
  case owned => exact coherent.owned.worker_moves inside move
  case index =>
    rw [index]
    exact coherent.index
  case locks =>
    rw [client]
    exact coherent.locks
  case released =>
    intro i bound away unheld
    rw [client] at unheld
    by_cases mover : i = id
    · subst mover
      rcases move.releases away with free | ⟨before, same⟩
      · exact free
      · rw [same]
        exact coherent.released i bound before unheld
    · obtain ⟨worker, _, mutex, _⟩ := move.others mover
      rw [worker] at away
      rw [mutex]
      exact coherent.released i bound away unheld
  case terminated =>
    rw [term, client]
    exact coherent.terminated
  case born =>
    intro i bound
    by_cases mover : i = id
    · rw [mover]
      exact born
    · rw [(move.others mover).1]
      exact coherent.born i bound
  case finished =>
    intro i bound done
    rw [client, ← coherent.terminated i bound]
    by_cases mover : i = id
    · subst mover
      exact finished done
    · rw [(move.others mover).1] at done
      rw [coherent.terminated i bound]
      exact coherent.finished i bound done
  case joined =>
    intro i bound done
    rw [client] at done
    have ended := coherent.joined i bound done
    have other : i ≠ id := by
      rintro rfl
      exact move.running ended
    rw [(move.others other).1]
    exact ended

/-- A client step that leaves the workers alone keeps the threads coherent, if it keeps
the facts about the mutexes, the termination flags and the joined workers one by one.
The proof for each call of the client has these to show and no others. -/
theorem Coherent.of_client (coherent : s.Coherent N) (barrier : next.Barrier N)
    (owned : next.Owned N) (worker : next.worker = s.worker)
    (outside : (next.client ()).inInit = false) (index : next.assignTo < N)
    (locks : ∀ input locked, next.client () = .execLock input locked → locked < N)
    (released : ∀ i < N, ((s.client ()).holdsMutex ≠ some i → s.veriQueueMutex i = none) →
      (next.client ()).holdsMutex ≠ some i → next.veriQueueMutex i = none)
    (terminated : ∀ i < N, s.termSignal i = (s.client ()).terminates i →
      next.termSignal i = (next.client ()).terminates i)
    (keeps : ∀ i < N, (s.client ()).terminates i = true → (next.client ()).terminates i = true)
    (joined : ∀ i < N, (next.client ()).joined i = true →
      (s.client ()).joined i = true ∨ s.worker i = .finished) : next.Coherent N := by
  constructor
  case outside => exact outside
  case barrier => exact barrier
  case owned => exact owned
  case index => exact index
  case locks => exact locks
  case released =>
    intro i bound away
    rw [worker] at away
    exact released i bound (coherent.released i bound away)
  case terminated => exact fun i bound => terminated i bound (coherent.terminated i bound)
  case born =>
    rw [worker]
    exact coherent.born
  case finished =>
    rw [worker]
    exact fun i bound done => keeps i bound (coherent.finished i bound done)
  case joined =>
    intro i bound done
    rw [worker]
    exact (joined i bound done).elim (coherent.joined i bound) id

/-- The position in front of a lock is only reached by the read of the index that
chooses the mutex. -/
theorem Control.locks {pc later : ClientPc τ} (control : s.Control N pc later) {input : τ}
    {locked : Nat} (here : later = .execLock input locked) : locked = s.assignTo := by
  cases control <;> cases here
  rfl

/-- A step of the client keeps the threads coherent.

The cases follow the moves. A move of control changes no mutex and no flag, so the facts
travel along its two positions. A lock and an unlock change one mutex, which the client
holds in exactly one of the two positions. Setting a termination flag moves the bound
below which the flags are set. -/
theorem Coherent.client_moves (coherent : s.Coherent N) (move : s.ClientMoves N () next) :
    next.Coherent N := by
  have outside := coherent.outside
  have barrier := coherent.barrier.client_moves outside move
  have owned := coherent.owned.client_moves move
  have positive : 0 < N := Nat.zero_lt_of_lt coherent.index
  cases move with
  | go before control =>
    rw [before] at outside
    refine coherent.of_client barrier owned rfl ?_ coherent.index (fun input locked here => ?_)
      (fun i bound => ?_) (fun i bound => ?_) (fun i bound => ?_) (fun i bound => ?_)
    · simpa using control.inInit outside
    · rw [clientAt_client, update_self] at here
      rw [control.locks here]
      exact coherent.index
    · simp [before, control.holdsMutex]
    · simp [before, control.terminates bound]
    · simp [before, control.terminates bound]
    · simpa [before] using control.has_joined bound
  | spawn before | initTerm before | initGet before | initCompleted before | assign before =>
    rw [before] at outside
    cases outside
  | @lock input locked before free =>
    refine coherent.of_client barrier owned rfl ?_ coherent.index ?_ (fun i bound kept => ?_)
      ?_ ?_ ?_
    · simp [ClientPc.inInit]
    · simp
    · intro unheld
      have other : i ≠ locked := by
        rintro rfl
        simp [ClientPc.holdsMutex] at unheld
      simpa [other] using kept (by simp [before, ClientPc.holdsMutex])
    · simp [before, ClientPc.terminates]
    · simp [before, ClientPc.terminates]
    · simp [ClientPc.joined]
  | @unlock locked queue before =>
    refine coherent.of_client barrier owned rfl ?_ coherent.index ?_ (fun i bound kept => ?_)
      ?_ ?_ ?_
    · simp [ClientPc.inInit]
    · simp
    · intro _
      by_cases mine : i = locked
      · simp [mine]
      · simpa [mine] using kept (by simp [before, ClientPc.holdsMutex, Ne.symm mine])
    · simp [before, ClientPc.terminates]
    · simp [before, ClientPc.terminates]
    · simp [ClientPc.joined]
  | push before =>
    refine coherent.of_client barrier owned rfl ?_ coherent.index ?_ (fun i bound => ?_)
      ?_ ?_ ?_ <;>
      simp [before, ClientPc.inInit, ClientPc.holdsMutex, ClientPc.terminates, ClientPc.joined]
  | store before =>
    refine coherent.of_client barrier owned rfl ?_ (Nat.mod_lt _ positive) ?_ (fun i bound => ?_)
      ?_ ?_ ?_ <;>
      simp [before, ClientPc.inInit, ClientPc.holdsMutex, ClientPc.terminates, ClientPc.joined]
  | signal before | clearGet before | clearCompleted before =>
    refine coherent.of_client barrier owned rfl ?_ coherent.index ?_ (fun i bound => ?_)
      ?_ ?_ ?_ <;>
      simp [before, ClientPc.inInit, ClientPc.holdsMutex, ClientPc.terminates, ClientPc.joined]
  | @terminate j before inside =>
    refine coherent.of_client barrier owned rfl ?_ coherent.index ?_ (fun i bound => ?_)
      (fun i bound same => ?_) (fun i bound => ?_) ?_
    · simp [ClientPc.inInit]
    · simp
    · simp [before, ClientPc.holdsMutex]
    · rw [before] at same
      by_cases here : i = j
      · simp [here, ClientPc.terminates]
      · simp [here, same, ClientPc.terminates]
        omega
    · simp only [before, ClientPc.terminates, clientAt_client, update_self, decide_eq_true_eq]
      omega
    · simp [ClientPc.joined]

/-- Every move of the system keeps the threads coherent: a worker, a client inside a
call, or the begin of a call, which changes the position of the client alone. -/
theorem Coherent.moves (coherent : s.Coherent N) (move : s.Moves N a next) :
    next.Coherent N := by
  have barrier := coherent.barrier.moves coherent.outside move
  have owned := coherent.owned.moves move
  cases move with
  | worker inside move => exact coherent.worker_moves inside move
  | client move => exact coherent.client_moves move
  | execVeri before | getVeri before | termVeri before =>
    refine coherent.of_client barrier owned rfl ?_ coherent.index ?_ (fun i bound => ?_)
      ?_ ?_ ?_ <;>
      simp [before, ClientPc.inInit, ClientPc.holdsMutex, ClientPc.terminates, ClientPc.joined]

/-- An instance whose constructor has returned is coherent: no flag is set, no worker
has finished, and the mutexes belong to the workers that are in their sections. -/
theorem Constructed.coherent (positive : 0 < N) (constructed : s.Constructed N) :
    s.Coherent N := by
  have outside := constructed.client ()
  have idle : ∀ i < N, s.worker i ≠ .unborn ∧ s.worker i ≠ .finished := by
    intro i bound
    have idle := constructed.worker i bound
    constructor <;> intro here <;> rw [here] at idle <;> cases idle
  constructor
  case outside => exact constructed.inInit ()
  case barrier => exact constructed.barrier
  case owned => exact constructed.owned
  case index =>
    rw [constructed.assignTo]
    exact positive
  case locks => simp [outside]
  case released =>
    intro i bound away _
    rw [constructed.veriQueueMutex i bound, away]
    rfl
  case terminated =>
    rw [outside]
    exact constructed.termSignal
  case born => exact fun i bound => (idle i bound).1
  case finished => exact fun i bound done => absurd done (idle i bound).2
  case joined => simp [outside, ClientPc.joined]

/-- The threads of one client and the workers are coherent along every run on a
constructed instance. -/
theorem coherent_of_run (positive : 0 < N) {s₀ : Pool Unit τ} {actions : List (PoolAction Unit τ)}
    (constructed : s₀.Constructed N) (ran : run (step N) s₀ actions = some s) : s.Coherent N :=
  run_invariant (fun s : Pool Unit τ => s.Coherent N) (constructed.coherent positive)
    (fun _ _ _ coherent taken => coherent.moves (step_moves taken)) ran

/-- A running worker has a step unless it waits for its mutex. All its other tests have
a branch for both outcomes, and a finished worker is the only one without a next
instruction. -/
theorem exists_worker_move (inside : id < N) (born : s.worker id ≠ .unborn)
    (running : s.worker id ≠ .finished)
    (free : (s.worker id).holdsMutex = false → s.veriQueueMutex id = none) :
    ∃ next, s.step N (.worker id) = some next ∧ s.WorkerMoves id next := by
  have enabled : (s.veriWorker id).isSome = true := by
    cases pc : s.worker id with
    | unborn => exact absurd pc born
    | finished => exact absurd pc running
    | lock | waiting => simp [veriWorker, pc, free (by rw [pc]; rfl)]
    | testQueue | checkEmpty | checkQueue =>
      cases queue : s.veriQueue id <;> simp [veriWorker, pc, queue]
    | checkTerm => cases set : s.termSignal id <;> simp [veriWorker, pc, set]
    | _ => simp [veriWorker, pc]
  obtain ⟨next, taken⟩ := Option.isSome_iff_exists.mp enabled
  exact ⟨next, by rw [step, if_pos inside, taken], veriWorker_moves taken⟩

end Coherent

end Pool

end PMTest

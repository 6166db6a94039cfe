import Mathlib.Algebra.Order.Group.Multiset
import Mathlib.Tactic.Abel
import PMTest.WorkerPool

/-!
# Where the submitted traces are

Every trace that was pushed is in a queue, in the hands of a worker that checks it,
or checked; what was taken from a queue is being checked or checked; and every
check is followed by one result. This holds in every run, for any number of
clients, and whatever the flags say. No trace is duplicated or lost while the
workers run; it can only stay in its queue.

With one client the pushed traces are those of the calls it made, in order.

The first part is about items held by the members of a family, here the traces of the
workers. The members below a bound are asked for all they hold, and when one of them
gains or gives away an item, so does the collection. Collections are compared as
multisets, as the items move between members in any order.
-/

namespace PMTest.Gather

open Function

variable {α : Type*}

/-- All items of the members below a bound, member by member. -/
def gather (n : Nat) (held : Nat → List α) : List α := (List.range n).flatMap held

/-- One member more adds its items at the end. -/
theorem gather_succ (n : Nat) (held : Nat → List α) :
    gather (n + 1) held = gather n held ++ held n := by
  simp [gather, List.range_succ, List.flatMap_append]

/-- Only the members below the bound count. -/
theorem gather_congr {n : Nat} {held other : Nat → List α} (same : ∀ i < n, held i = other i) :
    gather n held = gather n other := by
  apply List.flatMap_congr
  intro i member
  exact same i (List.mem_range.mp member)

/-- A member above the bound does not count. -/
theorem gather_update_of_le {n i : Nat} (held : Nat → List α) (items : List α) (above : n ≤ i) :
    gather n (update held i items) = gather n held := by
  apply gather_congr
  intro j below
  exact update_of_ne (by omega) _ _

/-- Nothing is gathered exactly from members that hold nothing. -/
theorem gather_eq_nil_iff {n : Nat} {held : Nat → List α} :
    gather n held = [] ↔ ∀ i < n, held i = [] := by
  simp [gather, List.flatMap_eq_nil_iff]

/-- Exchanging the items of one member exchanges them in the collection. -/
theorem gather_update {n i : Nat} (held : Nat → List α) (items : List α) (inside : i < n) :
    (gather n (update held i items) : Multiset α) + (held i : Multiset α) =
      (gather n held : Multiset α) + (items : Multiset α) := by
  induction n with
  | zero => exact absurd inside (Nat.not_lt_zero i)
  | succ n ih =>
    rw [gather_succ, gather_succ, ← Multiset.coe_add, ← Multiset.coe_add]
    rcases Nat.lt_succ_iff_lt_or_eq.mp inside with below | rfl
    · rw [update_of_ne (by omega), add_right_comm, ih below, add_right_comm]
    · rw [gather_update_of_le held items le_rfl, update_self, add_right_comm]

/-- A member gains an item. -/
theorem gather_push {n i : Nat} (held : Nat → List α) (item : α) (inside : i < n) :
    (gather n (update held i (held i ++ [item])) : Multiset α) =
      (gather n held : Multiset α) + {item} := by
  have exchanged := gather_update held (held i ++ [item]) inside
  rw [← Multiset.coe_add, ← add_assoc, add_right_comm] at exchanged
  exact add_right_cancel exchanged

/-- A member gives away its first item. -/
theorem gather_pop {n i : Nat} (held : Nat → List α) {item : α} {rest : List α}
    (inside : i < n) (found : held i = item :: rest) :
    (gather n (update held i rest) : Multiset α) + {item} = (gather n held : Multiset α) := by
  have exchanged := gather_update held rest inside
  rw [found, ← List.singleton_append, ← Multiset.coe_add, ← add_assoc] at exchanged
  exact add_right_cancel exchanged

end PMTest.Gather

namespace PMTest

open Transitions Function Gather

variable {ι τ : Type*}

namespace WorkerPc

/-- The trace the worker is checking. -/
def checking : WorkerPc τ → List (Job τ)
  | verify job => [job]
  | _ => []

/-- The checked trace whose result is not stored yet. -/
def storing : WorkerPc τ → List (Job τ)
  | pushResult job => [job]
  | _ => []

/-- A worker that runs without a trace neither checks one nor holds the result of one. -/
theorem hands_of_unladen {pc : WorkerPc τ} (unladen : pc.unladen = true) :
    pc.checking = [] ∧ pc.storing = [] := by
  cases pc <;> first | exact ⟨rfl, rfl⟩ | cases unladen

end WorkerPc

/-- The trace a client has been called with and has not pushed yet. -/
def ClientPc.toPush : ClientPc τ → List τ
  | execSelect input | execLock input _ | execQueue input _ | execPush input _ _ => [input]
  | _ => []

namespace Pool

/-- The four places a job passes through add up. -/
structure Accounted (N : Nat) (s : Pool ι τ) : Prop where
  numbered : s.submitted.map Job.number = List.range s.submitted.length
  submitted : (s.submitted : Multiset (Job τ)) = gather N s.veriQueue +
    gather N (WorkerPc.checking ∘ s.worker) + s.verified.map Prod.snd
  taken : (s.taken.map Prod.snd : Multiset (Job τ)) =
    gather N (WorkerPc.checking ∘ s.worker) + s.verified.map Prod.snd
  verified : (s.verified.map Prod.snd : Multiset (Job τ)) =
    gather N (WorkerPc.storing ∘ s.worker) + gather N s.resultVector

section Workers

variable {N id : Nat} {s next : Pool ι τ}

/-- A worker that has the same in hand as before changes no collection. -/
theorem gather_worker_same (held : WorkerPc τ → List (Job τ)) {pc : WorkerPc τ}
    (same : held pc = held (s.worker id)) :
    gather N (held ∘ update s.worker id pc) = gather N (held ∘ s.worker) := by
  rw [comp_update, same]
  exact congrArg (gather N) (update_eq_self id (held ∘ s.worker))

/-- A worker that has taken something in hand adds it. -/
theorem gather_worker_fill (held : WorkerPc τ → List (Job τ)) {pc : WorkerPc τ} {job : Job τ}
    (inside : id < N) (before : held (s.worker id) = []) (after : held pc = [job]) :
    (gather N (held ∘ update s.worker id pc) : Multiset (Job τ)) =
      gather N (held ∘ s.worker) + {job} := by
  have pushed := gather_push (held ∘ s.worker) job inside
  rwa [comp_apply, before, List.nil_append, ← after, ← comp_update] at pushed

/-- A worker that has put something out of its hand takes it away. -/
theorem gather_worker_empty (held : WorkerPc τ → List (Job τ)) {pc : WorkerPc τ} {job : Job τ}
    (inside : id < N) (before : held (s.worker id) = [job]) (after : held pc = []) :
    (gather N (held ∘ update s.worker id pc) : Multiset (Job τ)) + {job} =
      gather N (held ∘ s.worker) := by
  have popped := gather_pop (held ∘ s.worker) inside before
  rwa [← after, ← comp_update] at popped

/-- One more entry of a log is one more job. -/
theorem map_snd_concat (log : List (Nat × Job τ)) (job : Job τ) :
    ((log ++ [(id, job)]).map Prod.snd : Multiset (Job τ)) = log.map Prod.snd + {job} := by
  rw [List.map_append, ← Multiset.coe_add]
  rfl

/-- A test changes nothing that the worker has in hand. -/
theorem Tests.hands {pc next : WorkerPc τ} (tested : s.Tests id pc next) :
    next.checking = pc.checking ∧ next.storing = pc.storing := by
  cases tested <;> exact ⟨rfl, rfl⟩

/-- A worker that has nothing in hand before and after a step changes no account. -/
theorem Accounted.of_hands (accounted : s.Accounted N) {pc : WorkerPc τ}
    (checking : pc.checking = (s.worker id).checking)
    (storing : pc.storing = (s.worker id).storing)
    (worker : next.worker = update s.worker id pc) (queue : next.veriQueue = s.veriQueue)
    (results : next.resultVector = s.resultVector) (pushed : next.submitted = s.submitted)
    (took : next.taken = s.taken) (checked : next.verified = s.verified) : next.Accounted N := by
  obtain ⟨numbered, submitted, taken, verified⟩ := accounted
  constructor
  · rw [pushed]
    exact numbered
  · rw [pushed, queue, checked, worker, gather_worker_same _ checking]
    exact submitted
  · rw [took, checked, worker, gather_worker_same _ checking]
    exact taken
  · rw [checked, results, worker, gather_worker_same _ storing]
    exact verified

/-- A worker moves a job from its queue to its hand and on to its results.

The cases are the moves. In most of them the worker has the same in hand before and
after. When it takes, checks or stores a job, the job leaves one place and enters the
next one, and the two sums change alike. -/
theorem Accounted.worker_moves (accounted : s.Accounted N) (inside : id < N)
    (move : s.WorkerMoves id next) : next.Accounted N := by
  cases move with
  | test before tested =>
    exact accounted.of_hands (by rw [before, tested.hands.1]) (by rw [before, tested.hands.2])
      rfl rfl rfl rfl rfl rfl
  | acquire before free =>
    rcases before with before | before <;>
      exact accounted.of_hands (by rw [before]; rfl) (by rw [before]; rfl) rfl rfl rfl rfl rfl rfl
  | wait before | exit before | report before | pass before =>
    exact accounted.of_hands (by rw [before]; rfl) (by rw [before]; rfl) rfl rfl rfl rfl rfl rfl
  | take job rest before found =>
    obtain ⟨numbered, submitted, taken, verified⟩ := accounted
    have hand : (s.worker id).checking = [] := by rw [before]; rfl
    have stored : (WorkerPc.verify job).storing = (s.worker id).storing := by rw [before]; rfl
    have popped := gather_pop s.veriQueue inside found
    have filled := gather_worker_fill _ inside hand
      (show (WorkerPc.verify job).checking = [job] from rfl)
    refine ⟨numbered, ?_, ?_, ?_⟩
    · change (s.submitted : Multiset (Job τ)) = gather N (update s.veriQueue id rest) +
        gather N (WorkerPc.checking ∘ update s.worker id (.verify job)) + s.verified.map Prod.snd
      rw [filled, submitted, ← popped]
      abel
    · change ((s.taken ++ [(id, job)]).map Prod.snd : Multiset (Job τ)) =
        gather N (WorkerPc.checking ∘ update s.worker id (.verify job)) + s.verified.map Prod.snd
      rw [map_snd_concat, filled, taken]
      abel
    · change (s.verified.map Prod.snd : Multiset (Job τ)) =
        gather N (WorkerPc.storing ∘ update s.worker id (.verify job)) + gather N s.resultVector
      rw [gather_worker_same _ stored]
      exact verified
  | verify job before =>
    obtain ⟨numbered, submitted, taken, verified⟩ := accounted
    have hand : (s.worker id).checking = [job] := by rw [before]; rfl
    have none : (s.worker id).storing = [] := by rw [before]; rfl
    have emptied := gather_worker_empty _ inside hand
      (show (WorkerPc.pushResult job).checking = [] from rfl)
    have filled := gather_worker_fill _ inside none
      (show (WorkerPc.pushResult job).storing = [job] from rfl)
    refine ⟨numbered, ?_, ?_, ?_⟩
    · change (s.submitted : Multiset (Job τ)) = gather N s.veriQueue +
        gather N (WorkerPc.checking ∘ update s.worker id (.pushResult job)) +
          (s.verified ++ [(id, job)]).map Prod.snd
      rw [map_snd_concat, submitted, ← emptied]
      abel
    · change (s.taken.map Prod.snd : Multiset (Job τ)) =
        gather N (WorkerPc.checking ∘ update s.worker id (.pushResult job)) +
          (s.verified ++ [(id, job)]).map Prod.snd
      rw [map_snd_concat, taken, ← emptied]
      abel
    · change ((s.verified ++ [(id, job)]).map Prod.snd : Multiset (Job τ)) =
        gather N (WorkerPc.storing ∘ update s.worker id (.pushResult job)) +
          gather N s.resultVector
      rw [map_snd_concat, filled, verified]
      abel
  | store job before =>
    obtain ⟨numbered, submitted, taken, verified⟩ := accounted
    have hand : (s.worker id).storing = [job] := by rw [before]; rfl
    have checked : (WorkerPc.lock : WorkerPc τ).checking = (s.worker id).checking := by
      rw [before]
      rfl
    have emptied := gather_worker_empty _ inside hand
      (show (WorkerPc.lock : WorkerPc τ).storing = [] from rfl)
    have pushed := gather_push s.resultVector job inside
    refine ⟨numbered, ?_, ?_, ?_⟩
    · change (s.submitted : Multiset (Job τ)) = gather N s.veriQueue +
        gather N (WorkerPc.checking ∘ update s.worker id .lock) + s.verified.map Prod.snd
      rw [gather_worker_same _ checked]
      exact submitted
    · change (s.taken.map Prod.snd : Multiset (Job τ)) =
        gather N (WorkerPc.checking ∘ update s.worker id .lock) + s.verified.map Prod.snd
      rw [gather_worker_same _ checked]
      exact taken
    · change (s.verified.map Prod.snd : Multiset (Job τ)) =
        gather N (WorkerPc.storing ∘ update s.worker id .lock) +
          gather N (update s.resultVector id (s.resultVector id ++ [job]))
      rw [verified, pushed, ← emptied]
      abel

end Workers

section Clients

variable [DecidableEq ι] {N : Nat} {s next : Pool ι τ} {a : PoolAction ι τ} {k : ι}

/-- Clients push to queues of the pool only. -/
structure Bounded (N : Nat) (s : Pool ι τ) : Prop where
  index : s.assignTo < N
  queue : ∀ k input locked queue, s.client k = .execPush input locked queue → queue < N

/-- The queue a client pushes to was read from the index, and the index is always taken
modulo the number of workers. -/
theorem Bounded.moves (bounded : s.Bounded N) (move : s.Moves N a next) : next.Bounded N := by
  have positive : 0 < N := Nat.zero_lt_of_lt bounded.index
  constructor
  · cases move with
    | worker inside move =>
      rw [move.frame.2.1]
      exact bounded.index
    | client move =>
      cases move with
      | assign before => exact positive
      | store before => exact Nat.mod_lt _ positive
      | _ => exact bounded.index
    | _ => exact bounded.index
  · intro j input locked queue pushing
    rcases move.client_cases j with same | ⟨k, _, rfl, moved⟩ | ⟨_, called⟩
    · rw [same] at pushing
      exact bounded.queue j input locked queue pushing
    · cases moved with
      | go before control =>
        cases control <;> simp at pushing
        obtain ⟨_, _, rfl⟩ := pushing
        exact bounded.index
      | _ => simp at pushing
    · rcases called with ⟨_, pc⟩ | ⟨_, pc⟩ | pc <;> rw [pc] at pushing <;> cases pushing

/-- A client adds a job to a queue and to the list of all jobs. Its number is the length
of that list, and no other step of a client touches the jobs. -/
theorem Accounted.client_moves (accounted : s.Accounted N) (bounded : s.Bounded N)
    (outside : (s.client k).inInit = false) (move : s.ClientMoves N k next) :
    next.Accounted N := by
  obtain ⟨numbered, submitted, taken, verified⟩ := accounted
  cases move with
  | spawn before =>
    rw [before] at outside
    cases outside
  | @push input locked queue before =>
    have inside := bounded.queue k input locked queue before
    refine ⟨?_, ?_, taken, verified⟩
    · change (s.submitted ++ [_]).map Job.number = List.range (s.submitted ++ [_]).length
      rw [List.map_append, numbered, List.length_append, List.length_singleton, List.range_succ]
      rfl
    · change ((s.submitted ++ [⟨s.submitted.length, input⟩] : List (Job τ)) : Multiset (Job τ)) =
        gather N (update s.veriQueue queue (s.veriQueue queue ++ [⟨s.submitted.length, input⟩])) +
          gather N (WorkerPc.checking ∘ s.worker) + s.verified.map Prod.snd
      rw [gather_push s.veriQueue _ inside, ← Multiset.coe_add, submitted, Multiset.coe_singleton]
      abel
  | _ => exact ⟨numbered, submitted, taken, verified⟩

/-- Every step keeps the accounts. -/
theorem Accounted.moves (accounted : s.Accounted N) (bounded : s.Bounded N)
    (outside : ∀ j, (s.client j).inInit = false) (move : s.Moves N a next) :
    next.Accounted N := by
  cases move with
  | worker inside move => exact accounted.worker_moves inside move
  | @client k next move => exact accounted.client_moves bounded (outside k) move
  | _ => exact ⟨accounted.numbered, accounted.submitted, accounted.taken, accounted.verified⟩

omit [DecidableEq ι] in
/-- On a constructed instance there is nothing to account for. -/
theorem Constructed.accounted (constructed : s.Constructed N) : s.Accounted N := by
  have queues : gather N s.veriQueue = [] := gather_eq_nil_iff.mpr constructed.veriQueue
  have results : gather N s.resultVector = [] := gather_eq_nil_iff.mpr constructed.resultVector
  have hands : gather N (WorkerPc.checking ∘ s.worker) = [] ∧
      gather N (WorkerPc.storing ∘ s.worker) = [] := by
    have rests (i : Nat) (bound : i < N) := WorkerPc.hands_of_unladen (constructed.unladen i bound)
    constructor
    · exact gather_eq_nil_iff.mpr fun i bound => (rests i bound).1
    · exact gather_eq_nil_iff.mpr fun i bound => (rests i bound).2
  constructor <;>
    simp [queues, results, hands, constructed.submitted, constructed.taken, constructed.verified]

end Clients

section SingleClient

variable {N : Nat} {s next : Pool Unit τ} {a : PoolAction Unit τ}

/-- The traces passed to `execVeri`. -/
def passedInputs (actions : List (PoolAction Unit τ)) : List τ :=
  actions.filterMap fun
    | .execVeri _ input => some input
    | _ => none

/-- A step that changes nothing but the position keeps the trace of the call. -/
theorem Control.toPush {pc next : ClientPc τ} (control : s.Control N pc next) :
    next.toPush = pc.toPush := by
  cases control <;> rfl

/-- Of the traces passed to `execVeri`, all but the last are pushed before the next
call. A call brings its trace, a push moves it to the pushed ones, and between the two
it stays with the client. -/
theorem inputs_moves (past : List (PoolAction Unit τ))
    (inputs : s.submitted.map Job.input ++ (s.client ()).toPush = passedInputs past)
    (outside : (s.client ()).inInit = false) (move : s.Moves N a next) :
    next.submitted.map Job.input ++ (next.client ()).toPush = passedInputs (past ++ [a]) := by
  have grown : passedInputs (past ++ [a]) = passedInputs past ++ passedInputs [a] :=
    List.filterMap_append ..
  rw [grown, ← inputs]
  cases move with
  | worker inside move =>
    rw [move.frame.1, move.frame.2.2.1]
    exact (List.append_nil _).symm
  | client move =>
    rw [show passedInputs [PoolAction.client ()] = ([] : List τ) from rfl, List.append_nil]
    cases move with
    | go before control => simp [before, control.toPush]
    | spawn before | initTerm before | initGet before | initCompleted before | assign before =>
      rw [before] at outside
      cases outside
    | push before => simp [before, ClientPc.toPush]
    | lock before | unlock before | store before | signal before | clearGet before
    | clearCompleted before | terminate before => simp [before, ClientPc.toPush]
  | execVeri before => simp [before, ClientPc.toPush, passedInputs]
  | getVeri before | termVeri before => simp [before, ClientPc.toPush, passedInputs]

/-- What holds in every run of one client on a constructed instance: the accounts
add up, and the pushed traces are those of the calls. -/
theorem accounted_of_run {s₀ : Pool Unit τ} {actions : List (PoolAction Unit τ)}
    (positive : 0 < N) (constructed : s₀.Constructed N)
    (ran : run (step N) s₀ actions = some s) :
    s.Accounted N ∧ (s.client ()).inInit = false ∧
      s.submitted.map Job.input ++ (s.client ()).toPush = passedInputs actions := by
  have invariant := run_history (fun past (s : Pool Unit τ) => s.Accounted N ∧ s.Bounded N ∧
    (∀ j, (s.client j).inInit = false) ∧
      s.submitted.map Job.input ++ (s.client ()).toPush = passedInputs past) ?_ ?_ ran
  · exact ⟨invariant.1, invariant.2.2.1 (), invariant.2.2.2⟩
  · refine ⟨constructed.accounted, ⟨?_, fun k _ _ _ pushing => ?_⟩, constructed.inInit, ?_⟩
    · rw [constructed.assignTo]
      exact positive
    · rw [constructed.client k] at pushing
      cases pushing
    · rw [constructed.submitted, constructed.client]
      rfl
  · rintro past s a next ⟨accounted, bounded, outside, inputs⟩ taken
    have move := step_moves taken
    exact ⟨accounted.moves bounded outside move, bounded.moves move,
      fun j => move.inInit (outside j), inputs_moves past inputs (outside ()) move⟩

end SingleClient

end Pool

end PMTest

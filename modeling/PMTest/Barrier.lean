import PMTest.Accounting
import PMTest.Construction

/-!
# The results barrier

`getVeri` signals all workers, waits until each has reported an empty queue, merges
their results, and withdraws first the signals and then the reports. The flags are
not protected by any lock, so what they mean is tied to where the client is: its
position says which signals are set, which reports have been withdrawn, and which
it has seen in this round.

A worker reports only between its signal and the withdrawal of the signal, and by
then nothing is left in its queue or its hands. Between the poll that has seen all
reports and the next call nothing is submitted, so the workers have nothing to do
and the merged results are all results.

All of this rests on where the workers are when the constructor returns. A worker
that found its signal set in uninitialised storage may then be about to report, with
all flags false, and its report ends the first `getVeri` before the traces are
checked.
-/

namespace PMTest

open Transitions Function Gather

variable {τ : Type*}

namespace ClientPc

/-- The signals that are set when the client is here. -/
def signals : ClientPc τ → Nat → Bool
  | get .signal j _ _, i => i < j
  | get (.poll _) _ _ _, _ | get .wake _ _ _, _ | get .merge _ _ _, _ => true
  | get .clearGet j _ _, i => j ≤ i
  | _, _ => false

/-- The reports of this round have been withdrawn, or none was possible yet. -/
def cleared : ClientPc τ → Nat → Bool
  | get .clearCompleted j _ _, i => i < j
  | get _ _ _ _, _ => false
  | _, _ => true

/-- The client has seen the report in this round: all it has counted so far. -/
def Seen : ClientPc τ → Nat → Prop
  | get (.poll tmp) j _ _, i => tmp = j ∧ i < j
  | get .merge _ _ _, _ | get .clearGet _ _ _, _ | get .notify _ _ _, _ => True
  | _, _ => False

/-- A poll counts every worker once. -/
def Counted (n : Nat) : ClientPc τ → Prop
  | get (.poll tmp) j _ _ => tmp ≤ j ∧ j ≤ n
  | _ => True

/-- The client has seen all reports and made no other call since. -/
def settled : ClientPc τ → Bool
  | get .merge _ _ _ | get .clearGet _ _ _ | get .notify _ _ _ | get .clearCompleted _ _ _
  | getReturn _ _ => true
  | _ => false

/-- What has been appended to the output. -/
def Merged (n : Nat) (results : Nat → List (Job τ)) : ClientPc τ → Prop
  | get .signal _ _ merged | get (.poll _) _ _ merged | get .wake _ _ merged => merged = []
  | get .merge j _ merged => j ≤ n ∧ merged = gather j results
  | get .clearGet _ _ merged | get .notify _ _ merged | get .clearCompleted _ _ merged
  | getReturn _ merged => merged = gather n results
  | _ => True

/-- The loop sets the signal of the next worker. -/
theorem signals_signal {j : Nat} {given merged : List (Job τ)} :
    (get .signal (j + 1) given merged).signals =
      Function.update (get .signal j given merged).signals j true := by
  funext i
  by_cases mover : i = j
  · simp [mover, signals]
  · simp only [signals, Function.update_of_ne mover]
    congr 1
    apply propext
    omega

/-- The loop withdraws the signal of the next worker. -/
theorem signals_clearGet {j : Nat} {given merged : List (Job τ)} :
    (get .clearGet (j + 1) given merged).signals =
      Function.update (get .clearGet j given merged).signals j false := by
  funext i
  by_cases mover : i = j
  · simp [mover, signals]
  · simp only [signals, Function.update_of_ne mover]
    congr 1
    apply propext
    omega

/-- A report is not withdrawn while its signal is set. -/
theorem cleared_of_signals {pc : ClientPc τ} {i : Nat} (set : pc.signals i = true) :
    pc.cleared i = false := by
  cases pc with
  | get phase j given merged => cases phase <;> first | rfl | cases set
  | _ => cases set

/-- Before the merge the output does not depend on the results. -/
theorem Merged.of_unsettled {pc : ClientPc τ} {n : Nat} {results others : Nat → List (Job τ)}
    (merged : pc.Merged n results) (unsettled : pc.settled = false) : pc.Merged n others := by
  cases pc with
  | get phase j given merged => cases phase <;> first | exact merged | cases unsettled
  | getReturn => cases unsettled
  | _ => trivial

end ClientPc

namespace Pool

/-- Nothing is left for the worker to do. -/
structure Quiet {ι : Type*} (s : Pool ι τ) (i : Nat) : Prop where
  queue : s.veriQueue i = []
  checking : (s.worker i).checking = []
  storing : (s.worker i).storing = []

/-- What the flags mean. -/
structure Barrier (N : Nat) (s : Pool Unit τ) : Prop where
  signal : ∀ i < N, s.getResultSignal i = (s.client ()).signals i
  cleared : ∀ i < N, (s.client ()).cleared i = true → s.completedStateMap i = false
  seen : ∀ i < N, (s.client ()).Seen i → s.completedStateMap i = true
  counted : (s.client ()).Counted N
  reported : ∀ i < N, s.completedStateMap i = true → s.Quiet i
  settled : (s.client ()).settled = true → ∀ i < N, s.Quiet i
  reading : ∀ i < N, s.worker i = .checkGet → s.completedStateMap i = false
  asked : ∀ i < N, s.worker i = .checkEmpty ∨ s.worker i = .setCompleted →
    s.completedStateMap i = false ∧ s.getResultSignal i = true
  drained : ∀ i < N, s.worker i = .setCompleted → s.veriQueue i = []
  merged : (s.client ()).Merged N s.resultVector

section Workers

variable {ι : Type*} {s next : Pool ι τ} {id : Nat}

/-- A worker with nothing to do finds nothing to do: its queue is empty and its hands
are, so none of the moves that need a job is possible. -/
theorem Quiet.moves {i : Nat} (quiet : s.Quiet i) (move : s.WorkerMoves id next) :
    next.Quiet i := by
  by_cases mover : i = id
  · subst mover
    obtain ⟨queue, checking, storing⟩ := quiet
    cases move with
    | test before tested =>
      rw [before] at checking storing
      exact ⟨queue, by simp [tested.hands.1, checking], by simp [tested.hands.2, storing]⟩
    | take job rest before found =>
      rw [queue] at found
      cases found
    | verify job before =>
      rw [before] at checking
      cases checking
    | store job before =>
      rw [before] at storing
      cases storing
    | _ => exact ⟨queue, by simp [WorkerPc.checking], by simp [WorkerPc.storing]⟩
  · obtain ⟨worker, queue, _⟩ := move.others mover
    exact ⟨by rw [queue]; exact quiet.queue, by rw [worker]; exact quiet.checking,
      by rw [worker]; exact quiet.storing⟩

/-- Only a worker with a result in hand adds a result. -/
theorem WorkerMoves.results (move : s.WorkerMoves id next) :
    next.resultVector = s.resultVector ∨ (s.worker id).storing ≠ [] := by
  cases move with
  | store job before => exact Or.inr (by simp [before, WorkerPc.storing])
  | _ => exact Or.inl rfl

end Workers

section Barrier

variable {N id : Nat} {s next : Pool Unit τ} {a : PoolAction Unit τ}

/-- A worker reports when it is signalled and has nothing left to do.

The case that matters is the report itself. The worker has found its signal set, its own
report missing and its queue empty under the mutex, and no push has come since, because
the client is in `getVeri` as long as the signal is set. -/
theorem Barrier.worker_moves (barrier : s.Barrier N) (inside : id < N)
    (move : s.WorkerMoves id next) : next.Barrier N := by
  obtain ⟨client, _, _, _, flags⟩ := move.frame
  obtain ⟨toGet, toEmpty, toSet, same⟩ := move.enters
  constructor
  case signal =>
    rw [flags, client]
    exact barrier.signal
  case cleared =>
    intro i bound withdrawn
    rw [client] at withdrawn
    rcases move.completed i with kept | ⟨rfl, before, _⟩
    · rw [kept]
      exact barrier.cleared i bound withdrawn
    · -- a reporting worker is signalled, so its report is not withdrawn
      have set := (barrier.asked i bound (Or.inr before)).2
      rw [barrier.signal i bound] at set
      rw [ClientPc.cleared_of_signals set] at withdrawn
      cases withdrawn
  case seen =>
    intro i bound seen
    rw [client] at seen
    have set := barrier.seen i bound seen
    rcases move.completed i with kept | ⟨rfl, _, set, _⟩
    · rw [kept]
      exact set
    · exact set
  case counted =>
    rw [client]
    exact barrier.counted
  case reported =>
    intro i bound set
    rcases move.completed i with kept | ⟨rfl, before, _, queue, worker⟩
    · rw [kept] at set
      exact (barrier.reported i bound set).moves move
    · have empty := barrier.drained i bound before
      exact ⟨by rw [queue, empty], by rw [worker]; rfl, by rw [worker]; rfl⟩
  case settled =>
    intro settled i bound
    rw [client] at settled
    exact (barrier.settled settled i bound).moves move
  case reading =>
    intro i bound here
    by_cases mover : i = id
    · subst mover
      rw [(same (Or.inl here)).1]
      exact toGet here
    · obtain ⟨worker, _, _, _, completed⟩ := move.others mover
      rw [worker] at here
      rw [completed]
      exact barrier.reading i bound here
  case asked =>
    intro i bound here
    rw [flags]
    by_cases mover : i = id
    · subst mover
      rw [(same (Or.inr here)).1]
      rcases here with here | here
      · obtain ⟨before, set⟩ := toEmpty here
        exact ⟨barrier.reading i bound before, set⟩
      · exact barrier.asked i bound (Or.inl (toSet here).1)
    · obtain ⟨worker, _, _, _, completed⟩ := move.others mover
      rw [worker] at here
      rw [completed]
      exact barrier.asked i bound here
  case drained =>
    intro i bound here
    by_cases mover : i = id
    · subst mover
      rw [(same (Or.inr (Or.inr here))).2]
      exact (toSet here).2
    · obtain ⟨worker, queue, _⟩ := move.others mover
      rw [worker] at here
      rw [queue]
      exact barrier.drained i bound here
  case merged =>
    rw [client]
    rcases move.results with kept | busy
    · rw [kept]
      exact barrier.merged
    · apply barrier.merged.of_unsettled
      apply eq_false_of_ne_true
      intro settled
      exact busy (barrier.settled settled id inside).storing

/-- A step that changes nothing but the position keeps the set signals. -/
theorem Control.signals {pc later : ClientPc τ} (control : s.Control N pc later) {i : Nat}
    (bound : i < N) : later.signals i = pc.signals i := by
  cases control with
  | signalled ended => simp [ClientPc.signals, Nat.lt_of_lt_of_le bound (Nat.not_lt.mp ended)]
  | clearGetOver ended => simp [ClientPc.signals, Nat.lt_of_lt_of_le bound (Nat.not_lt.mp ended)]
  | _ => rfl

/-- A step that changes nothing but the position of the client withdraws no report. -/
theorem Control.cleared {pc later : ClientPc τ} (control : s.Control N pc later) {i : Nat}
    (bound : i < N) (withdrawn : later.cleared i = true) : pc.cleared i = true := by
  cases control with
  | clearCompletedOver ended =>
    simp [ClientPc.cleared, Nat.lt_of_lt_of_le bound (Nat.not_lt.mp ended)]
  | notified => simp [ClientPc.cleared] at withdrawn
  | _ => first | rfl | cases withdrawn

/-- A poll that has counted as many reports as it has asked for has seen all. -/
theorem Control.seen {pc later : ClientPc τ} (control : s.Control N pc later)
    (counted : pc.Counted N) (before : ∀ i < N, pc.Seen i → s.completedStateMap i = true)
    {i : Nat} (bound : i < N) (seen : later.Seen i) : s.completedStateMap i = true := by
  cases control with
  | @count tmp j given merged inside =>
    obtain ⟨all, below⟩ := seen
    obtain ⟨counts, _⟩ := counted
    have limit := Bool.toNat_le (s.completedStateMap j)
    have reported : (s.completedStateMap j).toNat = 1 := by omega
    rcases Nat.lt_succ_iff_lt_or_eq.mp below with earlier | rfl
    · exact before i bound ⟨by omega, earlier⟩
    · exact Bool.toNat_eq_one.mp reported
  | @complete tmp j given merged ended all =>
    obtain ⟨_, within⟩ := counted
    exact before i bound ⟨by omega, by omega⟩
  | signalled | woken =>
    obtain ⟨_, below⟩ := seen
    cases below
  | merge | mergeOver | clearGetOver | notify => exact before i bound trivial
  | _ => cases seen

/-- A poll asks the workers in turn and counts each of them once at most. -/
theorem Control.counted {pc later : ClientPc τ} (control : s.Control N pc later)
    (before : pc.Counted N) : later.Counted N := by
  cases control with
  | @count tmp j given merged inside =>
    have limit := Bool.toNat_le (s.completedStateMap j)
    exact ⟨by have := before.1; omega, inside⟩
  | signalled | woken => exact ⟨le_rfl, Nat.zero_le N⟩
  | _ => trivial

/-- A client settles by completing a poll. -/
theorem Control.settled {pc later : ClientPc τ} (control : s.Control N pc later)
    (settled : later.settled = true) : pc.settled = true ∨ ∀ i, later.Seen i := by
  cases control with
  | complete => exact Or.inr fun _ => trivial
  | _ => first | exact Or.inl rfl | cases settled

/-- The merge appends the results worker by worker. -/
theorem Control.merged {pc later : ClientPc τ} (control : s.Control N pc later)
    (before : pc.Merged N s.resultVector) : later.Merged N s.resultVector := by
  cases control with
  | complete =>
    obtain rfl := before
    exact ⟨Nat.zero_le N, rfl⟩
  | @merge j given merged inside =>
    obtain ⟨_, rfl⟩ := before
    exact ⟨inside, (gather_succ j s.resultVector).symm⟩
  | @mergeOver j given merged ended =>
    obtain ⟨within, rfl⟩ := before
    obtain rfl : j = N := by omega
    rfl
  | _ => first | exact before | trivial

/-- A client step that leaves the workers and their queues alone, withdraws at most
reports, and withdraws no signal of a worker that has not reported, keeps the meaning of
the flags if the new position agrees with them. What is known about the workers is taken
over from the state before. -/
theorem Barrier.of_flags (barrier : s.Barrier N) (worker : next.worker = s.worker)
    (queue : next.veriQueue = s.veriQueue) (results : next.resultVector = s.resultVector)
    (withdraws : ∀ i, s.completedStateMap i = false → next.completedStateMap i = false)
    (keeps : ∀ i < N, s.completedStateMap i = false → s.getResultSignal i = true →
      next.getResultSignal i = true)
    (signal : ∀ i < N, next.getResultSignal i = (next.client ()).signals i)
    (cleared : ∀ i < N, (next.client ()).cleared i = true → next.completedStateMap i = false)
    (seen : ∀ i < N, (next.client ()).Seen i → next.completedStateMap i = true)
    (counted : (next.client ()).Counted N)
    (settled : (next.client ()).settled = true → ∀ i < N, s.Quiet i)
    (merged : (next.client ()).Merged N s.resultVector) : next.Barrier N := by
  have same {i : Nat} (quiet : s.Quiet i) : next.Quiet i :=
    ⟨by rw [queue]; exact quiet.queue, by rw [worker]; exact quiet.checking,
      by rw [worker]; exact quiet.storing⟩
  constructor
  case signal => exact signal
  case cleared => exact cleared
  case seen => exact seen
  case counted => exact counted
  case reported =>
    intro i bound set
    apply same
    apply barrier.reported i bound
    apply eq_true_of_ne_false
    intro unreported
    rw [withdraws i unreported] at set
    cases set
  case settled => exact fun here i bound => same (settled here i bound)
  case reading =>
    rw [worker]
    exact fun i bound here => withdraws i (barrier.reading i bound here)
  case asked =>
    rw [worker]
    intro i bound here
    obtain ⟨unreported, set⟩ := barrier.asked i bound here
    exact ⟨withdraws i unreported, keeps i bound unreported set⟩
  case drained =>
    rw [worker, queue]
    exact barrier.drained
  case merged =>
    rw [results]
    exact merged

/-- A client step that changes no flag keeps the meaning of the flags if the new
position agrees with them. -/
theorem Barrier.of_client (barrier : s.Barrier N) (worker : next.worker = s.worker)
    (queue : next.veriQueue = s.veriQueue) (results : next.resultVector = s.resultVector)
    (flags : next.getResultSignal = s.getResultSignal)
    (reports : next.completedStateMap = s.completedStateMap)
    (signals : ∀ i < N, (next.client ()).signals i = (s.client ()).signals i)
    (cleared : ∀ i < N, (next.client ()).cleared i = true → (s.client ()).cleared i = true)
    (seen : ∀ i < N, (next.client ()).Seen i → s.completedStateMap i = true)
    (counted : (next.client ()).Counted N)
    (settled : (next.client ()).settled = true →
      (s.client ()).settled = true ∨ ∀ i, (next.client ()).Seen i)
    (merged : (next.client ()).Merged N s.resultVector) : next.Barrier N := by
  apply barrier.of_flags worker queue results
  case withdraws =>
    rw [reports]
    exact fun _ => id
  case keeps =>
    rw [flags]
    exact fun _ _ _ => id
  case signal =>
    intro i bound
    rw [flags, signals i bound]
    exact barrier.signal i bound
  case cleared =>
    rw [reports]
    exact fun i bound withdrawn => barrier.cleared i bound (cleared i bound withdrawn)
  case seen =>
    rw [reports]
    exact seen
  case counted => exact counted
  case settled =>
    intro here i bound
    cases settled here with
    | inl before => exact barrier.settled before i bound
    | inr all => exact barrier.reported i bound (seen i bound (all i))
  case merged => exact merged

/-- A client that is not in `getVeri` finds all flags false. So a push, which gives a
worker something to do, contradicts no report. -/
theorem Barrier.push (barrier : s.Barrier N) {input : τ} {locked queue : Nat}
    (before : s.client () = .execPush input locked queue)
    (worker : next.worker = s.worker)
    (flags : next.getResultSignal = s.getResultSignal)
    (reports : next.completedStateMap = s.completedStateMap)
    (after : next.client () = .execUnlock locked queue) : next.Barrier N := by
  obtain ⟨signal, cleared, _, _, _, _, reading, asked, _, _⟩ := barrier
  rw [before] at signal cleared
  have unreported : ∀ i < N, s.completedStateMap i = false := fun i bound => cleared i bound rfl
  constructor
  case signal =>
    rw [flags, after]
    exact signal
  case cleared =>
    intro i bound _
    rw [reports]
    exact unreported i bound
  case seen =>
    intro i _ seen
    rw [after] at seen
    cases seen
  case counted =>
    rw [after]
    trivial
  case reported =>
    intro i bound set
    rw [reports, unreported i bound] at set
    cases set
  case settled =>
    intro settled
    rw [after] at settled
    cases settled
  case reading =>
    rw [worker, reports]
    exact reading
  case asked =>
    rw [worker, reports, flags]
    exact asked
  case drained =>
    intro i bound here
    rw [worker] at here
    have set := (asked i bound (Or.inr here)).2
    rw [signal i bound] at set
    cases set
  case merged =>
    rw [after]
    trivial

/-- The client sets the signal of a worker, or withdraws the signal of a worker that
has reported. -/
theorem Barrier.of_signal (barrier : s.Barrier N) {j : Nat} {value : Bool}
    (worker : next.worker = s.worker) (queue : next.veriQueue = s.veriQueue)
    (results : next.resultVector = s.resultVector)
    (reports : next.completedStateMap = s.completedStateMap)
    (flags : next.getResultSignal = update s.getResultSignal j value)
    (allowed : value = false → s.completedStateMap j = true)
    {pc later : ClientPc τ} (before : s.client () = pc) (after : next.client () = later)
    (signals : later.signals = update pc.signals j value) (cleared : later.cleared = pc.cleared)
    (seen : later.Seen = pc.Seen) (counted : later.Counted N)
    (settled : later.settled = pc.settled)
    (merged : later.Merged N s.resultVector = pc.Merged N s.resultVector) : next.Barrier N := by
  subst before
  apply barrier.of_flags worker queue results
  case withdraws =>
    rw [reports]
    exact fun _ => id
  case keeps =>
    intro i bound unreported set
    rw [flags]
    by_cases mover : i = j
    · rw [mover, update_self]
      apply eq_true_of_ne_false
      intro withdrawn
      rw [mover, allowed withdrawn] at unreported
      cases unreported
    · rw [update_of_ne mover]
      exact set
  case signal =>
    intro i bound
    rw [flags, after, signals]
    by_cases mover : i = j
    · rw [mover, update_self, update_self]
    · rw [update_of_ne mover, update_of_ne mover]
      exact barrier.signal i bound
  case cleared =>
    rw [after, cleared, reports]
    exact barrier.cleared
  case seen =>
    rw [after, seen, reports]
    exact barrier.seen
  case counted =>
    rw [after]
    exact counted
  case settled =>
    rw [after, settled]
    exact barrier.settled
  case merged =>
    rw [after, merged]
    exact barrier.merged

/-- The client withdraws a report, of a worker whose signal it has withdrawn before. -/
theorem Barrier.of_report (barrier : s.Barrier N) {j : Nat} {given merged : List (Job τ)}
    (before : s.client () = .get .clearCompleted j given merged)
    (worker : next.worker = s.worker) (queue : next.veriQueue = s.veriQueue)
    (results : next.resultVector = s.resultVector)
    (flags : next.getResultSignal = s.getResultSignal)
    (reports : next.completedStateMap = update s.completedStateMap j false)
    (after : next.client () = .get .clearCompleted (j + 1) given merged) : next.Barrier N := by
  have withdrawn {i : Nat} (unreported : i = j ∨ s.completedStateMap i = false) :
      next.completedStateMap i = false := by
    rw [reports, update_apply]
    split_ifs with mover
    · rfl
    · exact unreported.resolve_left mover
  have signal := barrier.signal
  have cleared := barrier.cleared
  have settled := barrier.settled
  have output := barrier.merged
  rw [before] at signal cleared settled output
  apply barrier.of_flags worker queue results
  case withdraws => exact fun i unreported => withdrawn (Or.inr unreported)
  case keeps =>
    rw [flags]
    exact fun _ _ _ => id
  case signal =>
    rw [flags, after]
    exact signal
  case cleared =>
    rw [after]
    intro i bound here
    apply withdrawn
    cases Nat.lt_succ_iff_lt_or_eq.mp (of_decide_eq_true here) with
    | inl below => exact Or.inr (cleared i bound (decide_eq_true below))
    | inr last => exact Or.inl last
  case seen =>
    rw [after]
    exact fun _ _ seen => nomatch seen
  case counted =>
    rw [after]
    trivial
  case settled => exact fun _ => settled rfl
  case merged =>
    rw [after]
    exact output

/-- A client keeps the meaning of the flags. The loops of `getVeri` set and withdraw one
flag at each step, a push comes when all flags are false, and all other steps change
neither the flags nor the queues. -/
theorem Barrier.client_moves (barrier : s.Barrier N) (outside : (s.client ()).inInit = false)
    (move : s.ClientMoves N () next) : next.Barrier N := by
  cases move with
  | go before control =>
    obtain rfl := before
    refine barrier.of_client rfl rfl rfl rfl rfl ?_ ?_ ?_ ?_ ?_ ?_ <;>
      simp only [clientAt_client, update_self]
    · exact fun i bound => control.signals bound
    · exact fun i bound => control.cleared bound
    · exact fun i bound => control.seen barrier.counted barrier.seen bound
    · exact control.counted barrier.counted
    · exact control.settled
    · exact control.merged barrier.merged
  | spawn before | initTerm before | initGet before | initCompleted before | assign before =>
    rw [before] at outside
    cases outside
  | lock before | unlock before | store before | terminate before =>
    refine barrier.of_client rfl rfl rfl rfl rfl ?_ ?_ ?_ ?_ ?_ ?_ <;>
      simp [before, ClientPc.signals, ClientPc.cleared, ClientPc.Seen, ClientPc.Counted,
        ClientPc.settled, ClientPc.Merged]
  | push before => exact barrier.push before rfl rfl rfl (by simp)
  | signal before inside =>
    exact barrier.of_signal rfl rfl rfl rfl rfl (fun lowered => nomatch lowered) before
      (by simp) ClientPc.signals_signal rfl rfl trivial rfl rfl
  | clearGet before inside =>
    have reported := barrier.seen _ inside (by rw [before]; trivial)
    exact barrier.of_signal rfl rfl rfl rfl rfl (fun _ => reported) before
      (by simp) ClientPc.signals_clearGet rfl rfl trivial rfl rfl
  | clearCompleted before inside => exact barrier.of_report before rfl rfl rfl rfl rfl (by simp)

/-- Every step keeps the meaning of the flags. -/
theorem Barrier.moves (barrier : s.Barrier N) (outside : (s.client ()).inInit = false)
    (move : s.Moves N a next) : next.Barrier N := by
  cases move with
  | worker inside move => exact barrier.worker_moves inside move
  | client move => exact barrier.client_moves outside move
  | execVeri before | termVeri before | getVeri before =>
    refine barrier.of_client rfl rfl rfl rfl rfl ?_ ?_ ?_ ?_ ?_ ?_ <;>
      simp [before, ClientPc.signals, ClientPc.cleared, ClientPc.Seen, ClientPc.Counted,
        ClientPc.settled, ClientPc.Merged]

/-- On a constructed instance no flag is set, and no worker is about to set one, so
nothing is claimed about any worker. -/
theorem Constructed.barrier (constructed : s.Constructed N) : s.Barrier N := by
  have outside := constructed.client ()
  have silent : ∀ i < N, s.worker i ≠ .checkEmpty ∧ s.worker i ≠ .setCompleted := by
    intro i bound
    have silent := constructed.silent i bound
    constructor <;> intro here <;> rw [here] at silent <;> cases silent
  constructor
  case signal =>
    rw [outside]
    exact constructed.getResultSignal
  case cleared => exact fun i bound _ => constructed.completedStateMap i bound
  case seen =>
    rw [outside]
    exact fun _ _ seen => nomatch seen
  case counted =>
    rw [outside]
    trivial
  case reported =>
    intro i bound set
    rw [constructed.completedStateMap i bound] at set
    cases set
  case settled =>
    rw [outside]
    exact fun settled => nomatch settled
  case reading => exact fun i bound _ => constructed.completedStateMap i bound
  case asked => exact fun i bound here => absurd here (not_or.mpr (silent i bound))
  case drained => exact fun i bound here => absurd here (silent i bound).2
  case merged =>
    rw [outside]
    trivial

/-- What the flags mean holds in every run of one client. -/
theorem barrier_of_run {s₀ : Pool Unit τ} {actions : List (PoolAction Unit τ)}
    (constructed : s₀.Constructed N) (ran : run (step N) s₀ actions = some s) : s.Barrier N := by
  have invariant := run_invariant
    (fun s : Pool Unit τ => s.Barrier N ∧ ∀ j, (s.client j).inInit = false) ?_ ?_ ran
  · exact invariant.1
  · exact ⟨constructed.barrier, constructed.inInit⟩
  · rintro s a next ⟨barrier, outside⟩ taken
    have move := step_moves taken
    exact ⟨barrier.moves (outside ()) move, fun j => move.inInit (outside j)⟩

/-- Where no worker has anything left, the accounts are closed. -/
theorem Accounted.of_quiet {ι : Type*} {s : Pool ι τ} (accounted : s.Accounted N)
    (quiet : ∀ i < N, s.Quiet i) :
    (s.taken.map Prod.snd).Perm s.submitted ∧ (s.verified.map Prod.snd).Perm s.submitted ∧
      (gather N s.resultVector).Perm s.submitted := by
  have queues : gather N s.veriQueue = [] :=
    gather_eq_nil_iff.mpr fun i bound => (quiet i bound).queue
  have checking : gather N (WorkerPc.checking ∘ s.worker) = [] :=
    gather_eq_nil_iff.mpr fun i bound => (quiet i bound).checking
  have storing : gather N (WorkerPc.storing ∘ s.worker) = [] :=
    gather_eq_nil_iff.mpr fun i bound => (quiet i bound).storing
  obtain ⟨_, submitted, taken, verified⟩ := accounted
  simp only [queues, checking, storing, Multiset.coe_nil, zero_add] at submitted taken verified
  refine ⟨Multiset.coe_eq_coe.mp ?_, Multiset.coe_eq_coe.mp submitted.symm,
    Multiset.coe_eq_coe.mp ?_⟩
  · rw [taken, submitted]
  · rw [submitted, verified]

/-- Jobs are told apart by their numbers. -/
theorem Accounted.nodup {ι : Type*} {s : Pool ι τ} (accounted : s.Accounted N) :
    s.submitted.Nodup := by
  apply List.Nodup.of_map Job.number
  rw [accounted.numbered]
  exact List.nodup_range

/-- When `getVeri` returns, every trace passed to `execVeri` so far has been taken once
and checked once, and the call has appended one result for each of them. The instance is
one whose constructor has left all flags false and no worker about to report.

The call has seen all reports, so no worker has anything left in its queue or in its
hands. Then the accounts say that the taken jobs, the checked jobs and the results are
all pushed jobs, once each. -/
theorem getVeri_is_barrier (positive : 0 < N) {s₀ : Pool Unit τ}
    {actions : List (PoolAction Unit τ)} (constructed : s₀.Constructed N)
    (ran : run (step N) s₀ actions = some s) {given merged : List (Job τ)}
    (returned : s.client () = .getReturn given merged) :
    s.submitted.map Job.input = passedInputs actions ∧ s.submitted.Nodup ∧
      (s.taken.map Prod.snd).Perm s.submitted ∧ (s.verified.map Prod.snd).Perm s.submitted ∧
      merged.Perm s.submitted := by
  obtain ⟨accounted, _, inputs⟩ := accounted_of_run positive constructed ran
  have barrier := barrier_of_run constructed ran
  have quiet := barrier.settled (by rw [returned]; rfl)
  obtain ⟨taken, verified, results⟩ := accounted.of_quiet quiet
  have output : merged = gather N s.resultVector := by
    have output := barrier.merged
    rwa [returned] at output
  rw [returned, show (ClientPc.getReturn given merged).toPush = [] from rfl,
    List.append_nil] at inputs
  rw [output]
  exact ⟨inputs, accounted.nodup, taken, verified, results⟩

/-- A client submits a trace to the only worker and waits for its result. -/
def submitAndWait : List (PoolAction Unit Unit) :=
  .execVeri () () :: List.replicate 9 (PoolAction.client ()) ++ .getVeri () [] ::
    List.replicate 2 (PoolAction.client ()) ++ List.replicate 19 (PoolAction.worker 0) ++
    List.replicate 10 (PoolAction.client ())

/-- The worker takes the trace, checks it and reports, and the call returns its result. -/
theorem getVeri_is_barrier_submit_and_wait :
    ∃ s merged, run (step 1) started submitAndWait = some s ∧
      s.client () = .getReturn [] merged ∧ s.submitted.map Job.input = [()] ∧
      (s.verified.map Prod.snd).Perm s.submitted ∧ merged.Perm s.submitted := by
  have result := getVeri_is_barrier Nat.zero_lt_one (started_constructed 1)
    (show run (step 1) started submitAndWait = some _ from rfl) rfl
  exact ⟨_, _, rfl, rfl, result.1, result.2.2.2⟩

/-- On storage that held a signal, the constructor returns with all flags false while
the worker is in front of its report. The worker reports, and the first `getVeri`
returns with a trace that nobody has taken. -/
theorem pending_report_ends_barrier :
    ∃ s₀ s, run (step 1) (storage (fun _ => true) (fun _ => false)) pendingReport = some s₀ ∧
      s₀.Returned 1 ∧ s₀.worker 0 = .setCompleted ∧
      run (step 1) s₀ (.worker 0 :: submitAndGet) = some s ∧ s.client () = .getReturn [] [] ∧
      s.submitted.map Job.input = [()] ∧ s.taken = [] ∧ s.verified = [] := by
  refine ⟨_, _, rfl, ?_, rfl, rfl, rfl, rfl, rfl, rfl⟩
  constructor <;> simp <;> rfl

end Barrier

end Pool

end PMTest

import PMTest.Notifications

/-!
# Calls that return

A call of a client is blocked while a mutex is taken, while the workers have not
reported, or while a worker that is joined still runs. For a single client none of
this lasts: the threads can always be scheduled such that the call returns, and no
wait of a worker has to end by itself for it.

There is one exception. A worker begins with a loop that waits until its
termination flag is false. If the instance is destroyed before the thread of a
worker has left this loop, the worker never leaves it, and the destructor waits for
the worker forever.

The proof gives a schedule. The workers leave their first loops, the client sets the
flags of its call, and each worker runs until it has released its mutex. The client
then goes on alone until it has notified every worker. None of them waits any more, and
each one runs until it has done what the client waits for. At last the client returns.
-/

namespace PMTest

open Transitions Function

variable {τ : Type*}

namespace WorkerPc

/-- A bound for the steps of a worker until it leaves its section. -/
def toRelease : WorkerPc τ → Nat
  | testTerm => 8
  | testGet => 7
  | testQueue => 6
  | checkTerm => 5
  | checkCompleted => 4
  | checkGet => 3
  | checkEmpty => 2
  | _ => 1

/-- A bound for the steps of a worker until it reports or takes its next trace, if it
is asked for its results. A worker that was on its way before goes round once more. -/
def toReport (drained : Bool) : WorkerPc τ → Nat
  | verify _ => 10
  | start | pushResult _ => 9
  | checkQueue => if drained then 9 else 1
  | lock => 8
  | testTerm => 7
  | testGet => 6
  | checkTerm => 5
  | checkCompleted => 4
  | checkGet => 3
  | checkEmpty => 2
  | _ => 1

/-- A bound for the steps of a worker until it finishes, if it is asked to. -/
def toFinish : WorkerPc τ → Nat
  | checkCompleted => 9
  | checkGet => 8
  | checkEmpty => 7
  | checkQueue => 6
  | verify _ => 5
  | pushResult _ | setCompleted => 4
  | lock => 3
  | testTerm => 2
  | checkTerm => 1
  | _ => 0

/-- A worker in a section neither waits nor has finished. -/
theorem runs_of_holdsMutex {pc : WorkerPc τ} (held : pc.holdsMutex ≠ false) :
    pc.asleep = false ∧ pc ≠ .finished := by
  cases pc <;> simp_all [holdsMutex, asleep]

end WorkerPc

namespace ClientPc

/-- The client is in no call. -/
def returned : ClientPc τ → Bool
  | outside | destroyed => true
  | _ => false

/-- The client is setting the flags of a call. -/
def raising : ClientPc τ → Bool
  | get .signal _ _ _ | term .signal _ => true
  | _ => false

/-- A bound for the steps of a client until it has set the flags of its call. -/
def toRaise (n : Nat) : ClientPc τ → Nat
  | get .signal i _ _ | term .signal i => n + 1 - i
  | _ => 0

/-- The client waits for the workers to finish. -/
def closing : ClientPc τ → Bool
  | term .wake _ | term .join _ => true
  | _ => false

/-- A bound for the steps of a client that waits until it has notified all workers, or
has found all reports. -/
def toCall (n : Nat) : ClientPc τ → Nat
  | get (.poll _) i _ _ => (n + 2) + (n + 1 - i)
  | get .wake i _ _ | term .wake i => n + 1 - i
  | _ => 0

/-- A bound for the steps of a client until its call returns, if it is not blocked and
finds all reports. A poll that has missed a report has to be repeated. -/
def toReturn (n : Nat) : ClientPc τ → Nat
  | execSelect _ => 9
  | execLock _ _ => 8
  | execQueue _ _ => 7
  | execPush _ _ _ => 6
  | execUnlock _ _ => 5
  | execTarget _ => 4
  | execNotify _ _ => 3
  | execNext => 2
  | execStore _ | getReturn _ _ => 1
  | get (.poll tmp) i _ _ => (if tmp = i then 4 else 6) * (n + 2) + (n - i) + 2
  | get .wake i _ _ => 5 * (n + 2) + (n - i) + 2
  | get .merge i _ _ => 3 * (n + 2) + (n - i) + 2
  | get .clearGet i _ _ => 2 * (n + 2) + (n - i) + 2
  | get .notify i _ _ => (n + 2) + (n - i) + 2
  | get .clearCompleted i _ _ => (n - i) + 2
  | term .wake i => (n + 2) + (n - i) + 2
  | term .join i => (n - i) + 2
  | _ => 0

/-- The wait loop of `getVeri` is no part of the destructor. -/
theorem not_closing_of_inWaitLoop {pc : ClientPc τ} (waits : pc.inWaitLoop = true) :
    pc.closing = false := by
  cases pc <;> first | rfl | cases waits

/-- When the destructor notifies or joins the workers, it has set all termination flags. -/
theorem terminates_of_closing {pc : ClientPc τ} (closes : pc.closing = true) (i : Nat) :
    pc.terminates i = true := by
  cases pc with
  | term phase j => cases phase <;> first | rfl | cases closes
  | _ => cases closes

/-- A client in the wait loop holds no mutex and has asked for the results alone. -/
theorem of_inWaitLoop {pc : ClientPc τ} (waits : pc.inWaitLoop = true) (i : Nat) :
    pc.holdsMutex ≠ some i ∧ pc.terminates i = false ∧ pc.signals i = true := by
  cases pc with
  | get phase j given merged =>
    cases phase with
    | poll | wake => simp [holdsMutex, terminates, signals]
    | _ => cases waits
  | _ => cases waits

end ClientPc


namespace Pool

section Workers

variable {N i : Nat} {s t next : Pool Unit τ}

/-- The second state comes from the first one by steps of one worker. -/
structure Beside (i : Nat) (s t : Pool Unit τ) : Prop where
  client : t.client = s.client
  worker : ∀ j, j ≠ i → t.worker j = s.worker j
  completed : ∀ j, j ≠ i → t.completedStateMap j = s.completedStateMap j
  begun : s.worker i ≠ .start → t.worker i ≠ .start

/-- No step at all is a run of the worker. -/
theorem Beside.refl (i : Nat) (s : Pool Unit τ) : Beside i s s :=
  ⟨rfl, fun _ _ => rfl, fun _ _ => rfl, id⟩

/-- Two runs of one worker make a longer one. -/
theorem Beside.trans {u : Pool Unit τ} (first : Beside i s t) (second : Beside i t u) :
    Beside i s u where
  client := second.client.trans first.client
  worker j other := (second.worker j other).trans (first.worker j other)
  completed j other := (second.completed j other).trans (first.completed j other)
  begun before := second.begun (first.begun before)

/-- A step of a worker changes neither the client nor the other workers, and it does not
lead back to the first loop. -/
theorem WorkerMoves.beside (move : s.WorkerMoves i next) : Beside i s next where
  client := move.frame.1
  worker _ other := (move.others other).1
  completed _ other := (move.others other).2.2.2.2
  begun before := mt move.runs.2.1 before

/-- A worker runs alone until it meets a goal, if each of its steps meets the goal
or lowers a rank. The client must not hold its mutex, and it must not wait. -/
theorem Attended.drive (attended : s.Attended N) (inside : i < N)
    (unheld : (s.client ()).holdsMutex ≠ some i) (kept goal : Pool Unit τ → Prop)
    (rank : Pool Unit τ → Nat) (start : kept s)
    (running : ∀ t, t.Coherent N → t.client = s.client → kept t → ¬ goal t →
      (t.worker i).asleep = false ∧ t.worker i ≠ .finished)
    (advance : ∀ t next, t.Coherent N → t.client = s.client → kept t → ¬ goal t →
      t.WorkerMoves i next → kept next ∧ (goal next ∨ rank next < rank t)) :
    ∃ t, Reaches (promptedStep N) s t ∧ (t.Attended N ∧ Beside i s t ∧ kept t) ∧ goal t := by
  refine reaches_of_rank (fun t => t.Attended N ∧ Beside i s t ∧ kept t) goal rank ?_
    ⟨attended, .refl i s, start⟩
  rintro t ⟨attended, beside, holds⟩ missed
  have coherent := attended.coherent
  have free : (t.worker i).holdsMutex = false → t.veriQueueMutex i = none := fun away =>
    coherent.released i inside away (by rw [beside.client]; exact unheld)
  obtain ⟨awake, unfinished⟩ := running t coherent beside.client holds missed
  obtain ⟨next, taken, move⟩ := exists_worker_move inside (coherent.born i inside) unfinished free
  obtain ⟨holds, closer⟩ := advance t next coherent beside.client holds missed move
  exact ⟨_, next, promptedStep_worker awake taken,
    ⟨attended.worker_moves inside move, beside.trans move.beside, holds⟩, closer⟩

/-- A worker can run until it has left its section, and it withdraws no report. -/
theorem Attended.release (attended : s.Attended N) (inside : i < N)
    (unheld : (s.client ()).holdsMutex ≠ some i) :
    ∃ t, Reaches (promptedStep N) s t ∧ t.Attended N ∧ Beside i s t ∧
      (t.worker i).holdsMutex = false ∧
      (s.completedStateMap i = true → t.completedStateMap i = true) := by
  have driven := attended.drive inside unheld
    (fun t => s.completedStateMap i = true → t.completedStateMap i = true)
    (fun t => (t.worker i).holdsMutex = false) (fun t => (t.worker i).toRelease)
    id (fun t _ _ _ held => WorkerPc.runs_of_holdsMutex held) ?_
  · obtain ⟨t, reached, ⟨later, beside, reported⟩, away⟩ := driven
    exact ⟨t, reached, later, beside, away, reported⟩
  · rintro t next _ _ reported held move
    refine ⟨fun before => ?_, ?_⟩
    · rcases move.completed i with same | ⟨_, _, set, _⟩
      · rw [same]
        exact reported before
      · exact set
    · cases move with
      | test before tested =>
        rw [before] at held
        cases tested <;> simp_all [WorkerPc.holdsMutex, WorkerPc.toRelease]
      | acquire before =>
        rcases before with before | before <;> simp [before, WorkerPc.holdsMutex] at held
      | _ => simp [WorkerPc.holdsMutex]

/-- A worker that has heard that its results are asked for can run until it has
reported. The rank counts its queued traces first: it goes once through its loop for
each of them, and once more to report. -/
theorem Attended.report (attended : s.Attended N) (inside : i < N) (heard : s.Heard i)
    (waits : (s.client ()).inWaitLoop = true) :
    ∃ t, Reaches (promptedStep N) s t ∧ t.Attended N ∧ Beside i s t ∧
      t.completedStateMap i = true := by
  obtain ⟨unheld, unterminated, signalled⟩ := ClientPc.of_inWaitLoop waits i
  have driven := attended.drive inside unheld (fun t => t.Heard i)
    (fun t => t.completedStateMap i = true)
    (fun t => 10 * (t.veriQueue i).length + (t.worker i).toReport (t.veriQueue i).isEmpty)
    heard ?_ ?_
  · obtain ⟨t, reached, ⟨later, beside, _⟩, reported⟩ := driven
    exact ⟨t, reached, later, beside, reported⟩
  · intro t later client heard _
    refine ⟨WorkerPc.asleep_eq_false_iff.mpr heard.awake, fun done => ?_⟩
    have ended := later.finished i inside done
    rw [client, unterminated] at ended
    cases ended
  · intro t next later client heard unreported move
    have term : t.termSignal i = false := by
      rw [later.terminated i inside, client, unterminated]
    have asked : t.getResultSignal i = true := by
      rw [later.barrier.signal i inside, client, signalled]
    refine ⟨heard.worker_moves later inside (by rw [client]; exact Or.inl signalled) move, ?_⟩
    cases move with
    | test before tested =>
      have alert := heard.alert
      refine Or.inr ?_
      cases tested <;> simp_all [WorkerPc.toReport]
    | acquire before =>
      refine Or.inr ?_
      simp [before.resolve_right heard.awake, WorkerPc.toReport]
    | wait before => exact absurd before heard.alert
    | verify job before | store job before =>
      exact Or.inr (by simp [before, WorkerPc.toReport])
    | pass before empty => exact Or.inr (by simp [before, empty, WorkerPc.toReport])
    | exit before set =>
      rw [term] at set
      cases set
    | report before => exact Or.inl (by simp)
    | take job rest before found =>
      refine Or.inr ?_
      simp only [workerAt_worker, update_self, WorkerPc.toReport, before, found,
        List.length_cons, List.isEmpty_cons, Bool.false_eq_true, if_false]
      omega

/-- A worker that has left its first loop and has heard that it is to terminate can run
until it has finished. It does not look at its queue in between. -/
theorem Attended.finish (attended : s.Attended N) (inside : i < N) (heard : s.Heard i)
    (asked : (s.client ()).terminates i = true) (begun : s.worker i ≠ .start) :
    ∃ t, Reaches (promptedStep N) s t ∧ t.Attended N ∧ Beside i s t ∧
      t.worker i = .finished := by
  have unheld : (s.client ()).holdsMutex ≠ some i := by
    cases pc : s.client () with
    | term | destroyed => simp [ClientPc.holdsMutex]
    | _ => simp [pc, ClientPc.terminates] at asked
  have driven := attended.drive inside unheld (fun t => t.worker i ≠ .start ∧ t.Heard i)
    (fun t => t.worker i = .finished) (fun t => (t.worker i).toFinish) ⟨begun, heard⟩
    (fun t _ _ kept unfinished =>
      ⟨WorkerPc.asleep_eq_false_iff.mpr kept.2.awake, unfinished⟩) ?_
  · obtain ⟨t, reached, ⟨later, beside, _⟩, done⟩ := driven
    exact ⟨t, reached, later, beside, done⟩
  · rintro t next later client ⟨begun, heard⟩ _ move
    have set : (t.client ()).terminates i = true := by rw [client, asked]
    have term : t.termSignal i = true := by rw [later.terminated i inside, set]
    refine ⟨⟨move.beside.begun begun, heard.worker_moves later inside (Or.inr set) move⟩, ?_⟩
    cases move with
    | test before tested =>
      have leaving := heard.leaving set
      have alert := heard.alert
      refine Or.inr ?_
      cases tested <;> simp_all [WorkerPc.toFinish]
    | acquire before =>
      refine Or.inr ?_
      simp [before.resolve_right heard.awake, WorkerPc.toFinish]
    | wait before => exact absurd before heard.alert
    | exit => exact Or.inl (by simp)
    | report before | pass before | take _ _ before | verify _ before | store _ before =>
      exact Or.inr (by simp [before, WorkerPc.toFinish])

/-- If every worker can be brought somewhere while the others stand still, all can
be brought there. -/
theorem Attended.each_worker (attended : s.Attended N) (there : WorkerPc τ → Bool → Prop)
    (drive : ∀ i < N, ∀ t : Pool Unit τ, t.Attended N → t.client = s.client →
      t.worker i = s.worker i → ∃ u, Reaches (promptedStep N) t u ∧ u.Attended N ∧
        Beside i t u ∧ there (u.worker i) (u.completedStateMap i)) :
    ∃ t, Reaches (promptedStep N) s t ∧ t.Attended N ∧ t.client = s.client ∧
      ∀ i < N, there (t.worker i) (t.completedStateMap i) := by
  have rounds := @reaches_rounds _ _ (promptedStep N) s (fun i (t : Pool Unit τ) =>
    t.Attended N ∧ t.client = s.client ∧
    (∀ j, i ≤ j → t.worker j = s.worker j) ∧ ∀ j < i, there (t.worker j) (t.completedStateMap j))
    N ?_ ⟨attended, rfl, fun _ _ => rfl, fun _ below => absurd below (Nat.not_lt_zero _)⟩
  · obtain ⟨t, reached, later, client, _, done⟩ := rounds
    exact ⟨t, reached, later, client, done⟩
  · rintro i inside t ⟨later, client, waiting, done⟩
    obtain ⟨u, reached, attended, beside, here⟩ :=
      drive i inside t later client (waiting i le_rfl)
    refine ⟨u, reached, attended, beside.client.trans client, fun j behind => ?_, fun j below => ?_⟩
    · rw [beside.worker j (by omega)]
      exact waiting j (by omega)
    · rcases Nat.lt_succ_iff_lt_or_eq.mp below with earlier | rfl
      · rw [beside.worker j (by omega), beside.completed j (by omega)]
        exact done j earlier
      · exact here

end Workers

section Client

variable {N : Nat} {s t next : Pool Unit τ}

/-- The workers stand outside of their first loops and of their sections, and the client
has set the flags of its call. No mutex blocks the client. -/
structure Aside (N : Nat) (s : Pool Unit τ) : Prop where
  attended : s.Attended N
  away : ∀ i < N, (s.worker i).holdsMutex = false
  begun : ∀ i < N, s.worker i ≠ .start
  raised : (s.client ()).raising = false

/-- Nobody else blocks the client: the workers have done what it waits for. -/
structure Ready (N : Nat) (s : Pool Unit τ) : Prop extends Aside N s where
  reported : (s.client ()).inWaitLoop = true → ∀ i < N, s.completedStateMap i = true
  finished : (s.client ()).closing = true → ∀ i < N, s.worker i = .finished

/-- The mutexes are free for the client. -/
theorem Aside.free (aside : s.Aside N) {i : Nat} (inside : i < N)
    (unheld : (s.client ()).holdsMutex = none) : s.veriQueueMutex i = none :=
  aside.attended.coherent.released i inside (aside.away i inside) (by simp [unheld])

/-- A client that can take a step makes one of the moves. -/
theorem exists_client_move_of_isSome (enabled : (s.step N (.client ())).isSome = true) :
    ∃ next, s.step N (.client ()) = some next ∧ s.ClientMoves N () next := by
  obtain ⟨next, taken⟩ := Option.isSome_iff_exists.mp enabled
  have moves := step_moves taken
  cases moves with
  | client move => exact ⟨next, taken, move⟩

/-- The client has a step unless it joins a worker that still runs. The locks it asks
for are free, because no worker is in a section and the client holds no mutex when it
asks for one. -/
theorem Aside.exists_client_move (aside : s.Aside N) (inside : (s.client ()).returned = false)
    (joins : ∀ i < N, s.client () = .term .join i → s.worker i = .finished) :
    ∃ next, s.step N (.client ()) = some next ∧ s.ClientMoves N () next := by
  have outside := aside.attended.coherent.outside
  apply exists_client_move_of_isSome
  cases pc : s.client () with
  | outside | destroyed =>
    rw [pc] at inside
    cases inside
  | init | initAssign =>
    rw [pc] at outside
    cases outside
  | execLock input locked =>
    have free := aside.free (aside.attended.coherent.locks input locked pc) (by rw [pc]; rfl)
    simp [step, clientStep, pc, free]
  | get phase i given merged =>
    have free (below : i < N) := aside.free below (by rw [pc]; rfl)
    cases phase with
    | wake | notify =>
      by_cases below : i < N
      · simp [step, clientStep, getVeri, notifyAll, pc, below, free below]
      · simp [step, clientStep, getVeri, pc, below]
    | _ =>
      simp only [step, clientStep, getVeri, pc]
      split_ifs <;> rfl
  | term phase i =>
    have free (below : i < N) := aside.free below (by rw [pc]; rfl)
    cases phase with
    | signal =>
      simp only [step, clientStep, termVeri, pc]
      split_ifs <;> rfl
    | wake =>
      by_cases below : i < N
      · simp [step, clientStep, termVeri, notifyAll, pc, below, free below]
      · simp [step, clientStep, termVeri, pc, below]
    | join =>
      by_cases below : i < N
      · simp [step, clientStep, termVeri, pc, below, joins i below pc]
      · simp [step, clientStep, termVeri, pc, below]
  | _ => simp [step, clientStep, pc]

/-- A step of control beyond the flags leads neither back to them nor into a wait. -/
theorem Control.stays {pc later : ClientPc τ} (control : s.Control N pc later)
    (raised : pc.raising = false) : later.raising = false ∧
      (later.inWaitLoop = true → pc.inWaitLoop = true) ∧
      (later.closing = true → pc.closing = true) := by
  cases control with
  | signalled | terminated => cases raised
  | _ => simp [ClientPc.raising, ClientPc.inWaitLoop, ClientPc.closing]

/-- A client that has set the flags of its call sets no others, and it does not begin to
wait if it was not waiting before. -/
theorem ClientMoves.stays (move : s.ClientMoves N () next)
    (outside : (s.client ()).inInit = false) (raised : (s.client ()).raising = false) :
    (next.client ()).raising = false ∧
      ((next.client ()).inWaitLoop = true → (s.client ()).inWaitLoop = true ∧
        next.completedStateMap = s.completedStateMap) ∧
      ((next.client ()).closing = true → (s.client ()).closing = true) := by
  cases move with
  | go before control =>
    rw [before] at raised ⊢
    obtain ⟨set, waits, closes⟩ := control.stays raised
    simp only [clientAt_client, update_self]
    exact ⟨set, fun here => ⟨waits here, rfl⟩, closes⟩
  | spawn before | initTerm before | initGet before | initCompleted before | assign before =>
    rw [before] at outside
    cases outside
  | signal before | terminate before =>
    rw [before] at raised
    cases raised
  | _ => simp [ClientPc.raising, ClientPc.inWaitLoop, ClientPc.closing]

/-- A step of the client sends no worker into a section. -/
theorem Aside.client_moves (aside : s.Aside N) (move : s.ClientMoves N () next) :
    (next.notify ((s.client ()).notifies N)).Aside N := by
  have outside := aside.attended.coherent.outside
  have worker := move.worker_eq outside
  constructor
  case attended => exact aside.attended.client_moves move
  case away =>
    intro i inside
    rw [notify_hands.1, worker]
    exact aside.away i inside
  case begun =>
    intro i inside
    rw [ne_eq, notify_worker_iff (by simp) (by simp), worker]
    exact aside.begun i inside
  case raised =>
    rw [notify_client]
    exact (move.stays outside aside.raised).1

/-- The client blocks nobody and takes back nothing that it waits for. -/
theorem Ready.client_moves (ready : s.Ready N) (move : s.ClientMoves N () next) :
    (next.notify ((s.client ()).notifies N)).Ready N := by
  have outside := ready.attended.coherent.outside
  obtain ⟨_, waits, closes⟩ := move.stays outside ready.raised
  refine ⟨ready.toAside.client_moves move, fun here i inside => ?_, fun here i inside => ?_⟩
  · rw [notify_client] at here
    rw [notify_completedStateMap, (waits here).2]
    exact ready.reported (waits here).1 i inside
  · rw [notify_client] at here
    rw [notify_worker_iff (by simp) (by simp), move.worker_eq outside]
    exact ready.finished (closes here) i inside

/-- Every step brings it closer to the return. While it polls, each report that it asks
for is there, so the poll counts all of them and is not repeated. -/
theorem Ready.closer (ready : s.Ready N) (move : s.ClientMoves N () next) :
    (next.client ()).toReturn N < (s.client ()).toReturn N := by
  obtain ⟨⟨⟨coherent, _⟩, _, _, raised⟩, reported, _⟩ := ready
  have outside := coherent.outside
  have counted := coherent.barrier.counted
  cases move with
  | go before control =>
    rw [before] at raised reported outside counted
    rw [before]
    simp only [clientAt_client, update_self]
    cases control with
    | spawned | initTermOver | initGetOver | initCompletedOver => cases outside
    | signalled | terminated => cases raised
    | @count tmp i given merged inside =>
      have set := reported rfl i inside
      simp only [ClientPc.toReturn, set, Bool.toNat_true, Nat.add_right_cancel_iff]
      split_ifs <;> omega
    | @complete tmp i given merged ended all =>
      obtain ⟨_, within⟩ := counted
      obtain rfl : tmp = i := by omega
      simp only [ClientPc.toReturn, if_true]
      omega
    | @incomplete tmp i given merged ended some =>
      obtain ⟨_, within⟩ := counted
      have missed : tmp ≠ i := by omega
      simp only [ClientPc.toReturn, if_neg missed]
      omega
    | _ =>
      simp only [ClientPc.toReturn, if_true]
      omega
  | spawn before | initTerm before | initGet before | initCompleted before | assign before =>
    rw [before] at outside
    cases outside
  | signal before | terminate before =>
    rw [before] at raised
    cases raised
  | clearGet before inside | clearCompleted before inside =>
    simp only [before, clientAt_client, update_self, ClientPc.toReturn]
    omega
  | lock before | push before | unlock before | store before =>
    simp [before, ClientPc.toReturn]

/-- A client that nobody blocks can run until its call returns. -/
theorem Ready.returns (ready : s.Ready N) :
    ∃ t, Reaches (promptedStep N) s t ∧ (t.client ()).returned = true := by
  have reached := @reaches_of_rank _ _ (promptedStep N) s (fun t : Pool Unit τ => t.Ready N)
    (fun t => (t.client ()).returned = true) (fun t => (t.client ()).toReturn N) ?_ ready
  · obtain ⟨t, reached, _, done⟩ := reached
    exact ⟨t, reached, done⟩
  · intro t ready missed
    obtain ⟨next, taken, move⟩ := ready.toAside.exists_client_move (eq_false_of_ne_true missed)
      fun i inside here => ready.finished (by rw [here]; rfl) i inside
    refine ⟨_, _, promptedStep_client taken, ready.client_moves move, Or.inr ?_⟩
    rw [notify_client]
    exact ready.closer move

/-- A client that waits goes on until it has notified all workers, unless it finds that
all have reported before. -/
theorem Aside.closer (aside : s.Aside N) (unheard : ¬ ∀ i < N, s.Heard i)
    (waits : (s.client ()).inWaitLoop = true ∨ (s.client ()).closing = true)
    (move : s.ClientMoves N () next) :
    ((next.client ()).inWaitLoop = false ∧ (next.client ()).closing = false) ∨
      (next.client ()).toCall N < (s.client ()).toCall N := by
  -- at the end of a loop that notifies the workers, all have heard of the call
  have uncalled : ∃ i < N, (s.client ()).called i = false := by
    by_contra all
    apply unheard
    intro i inside
    apply aside.attended.heard i inside
    by_contra missed
    exact all ⟨i, inside, eq_false_of_ne_true missed⟩
  obtain ⟨first, below, uncalled⟩ := uncalled
  cases move with
  | go before control =>
    rw [before] at waits uncalled
    rw [before]
    simp only [clientAt_client, update_self]
    cases control with
    | complete => exact Or.inl ⟨rfl, rfl⟩
    | count inside | incomplete | wake inside | termWake inside =>
      refine Or.inr ?_
      simp only [ClientPc.toCall]
      omega
    | woken ended | termWoken ended =>
      have missed := of_decide_eq_false uncalled
      omega
    | join | joined => cases uncalled
    | _ => rcases waits with here | here <;> cases here
  | spawn before | initTerm before | initGet before | initCompleted before | assign before
  | lock before | push before | unlock before | store before | signal before | clearGet before
  | clearCompleted before | terminate before =>
    rw [before] at waits
    rcases waits with here | here <;> cases here

/-- A client whose workers stand aside can go on alone until it has notified all of
them, or does not wait for them any more. -/
theorem Aside.summon (aside : s.Aside N) :
    ∃ t, Reaches (promptedStep N) s t ∧ t.Aside N ∧ ((∀ i < N, t.Heard i) ∨
      (t.client ()).inWaitLoop = false ∧ (t.client ()).closing = false) := by
  refine reaches_of_rank (fun t : Pool Unit τ => t.Aside N) _
    (fun t => (t.client ()).toCall N) ?_ aside
  intro t aside missed
  obtain ⟨unheard, still⟩ := not_or.mp missed
  have waits : (t.client ()).inWaitLoop = true ∨ (t.client ()).closing = true := by
    by_contra neither
    obtain ⟨over₁, over₂⟩ := not_or.mp neither
    exact still ⟨eq_false_of_ne_true over₁, eq_false_of_ne_true over₂⟩
  have inside : (t.client ()).returned = false := by
    cases pc : t.client () with
    | outside | destroyed =>
      rw [pc] at waits
      rcases waits with here | here <;> cases here
    | _ => rfl
  obtain ⟨next, taken, move⟩ := aside.exists_client_move inside fun i _ here =>
    absurd (fun i inside => aside.attended.heard i inside (by rw [here]; rfl)) unheard
  refine ⟨_, _, promptedStep_client taken, aside.client_moves move, ?_⟩
  rw [notify_client]
  exact (aside.closer unheard waits move).imp Or.inr id

end Client

section Return

variable {N : Nat} {s t next : Pool Unit τ} {a : PoolAction Unit τ}

/-- No worker is caught in its first loop. -/
def Unstuck (N : Nat) (s : Pool Unit τ) : Prop :=
  ∀ i < N, s.worker i = .start → s.termSignal i = false

/-- Workers that are not caught can leave their first loops, and those that are behind
it their sections. A section that the client has entered is empty. -/
theorem Attended.set_aside (attended : s.Attended N) (unstuck : s.Unstuck N) :
    ∃ t, Reaches (promptedStep N) s t ∧ t.Attended N ∧ t.client = s.client ∧
      ∀ i < N, (t.worker i).holdsMutex = false ∧ t.worker i ≠ .start := by
  apply attended.each_worker (fun pc _ => pc.holdsMutex = false ∧ pc ≠ .start)
  intro i inside t later client same
  by_cases start : t.worker i = .start
  · have clear : t.termSignal i = false := by
      rw [later.coherent.terminated i inside, client, ← attended.coherent.terminated i inside]
      exact unstuck i inside (same ▸ start)
    have move : t.WorkerMoves i (t.workerAt i .lock) := .test start (.begin clear)
    have taken : t.step N (.worker i) = some (t.workerAt i .lock) := by
      simp [step, inside, veriWorker, start, clear]
    exact ⟨_, .single (promptedStep_worker (by rw [start]; rfl) taken),
      later.worker_moves inside move, move.beside, by simp [WorkerPc.holdsMutex]⟩
  · by_cases held : (t.client ()).holdsMutex = some i
    · refine ⟨t, .refl t, later, .refl i t, eq_false_of_ne_true fun holds => ?_, start⟩
      -- the mutex has one holder
      have mine := later.coherent.owned.worker i inside holds
      rw [later.coherent.owned.client () i held] at mine
      cases mine
    · obtain ⟨u, reached, last, beside, away, _⟩ := later.release inside held
      exact ⟨u, reached, last, beside, away, beside.begun start⟩

/-- A client sets the flags of its call without being blocked. The loops that set them
take no lock. -/
theorem exists_raising_move (raising : (s.client ()).raising = true) :
    ∃ next, s.step N (.client ()) = some next ∧ s.ClientMoves N () next := by
  apply exists_client_move_of_isSome
  cases pc : s.client () with
  | get phase i given merged =>
    cases phase with
    | signal =>
      simp only [step, clientStep, getVeri, pc]
      split_ifs <;> rfl
    | _ =>
      rw [pc] at raising
      cases raising
  | term phase i =>
    cases phase with
    | signal =>
      simp only [step, clientStep, termVeri, pc]
      split_ifs <;> rfl
    | _ =>
      rw [pc] at raising
      cases raising
  | _ =>
    rw [pc] at raising
    cases raising

/-- A client that is setting its flags goes on with the next one, or it has set them
all. It notifies nobody. -/
theorem ClientMoves.raises (move : s.ClientMoves N () next)
    (raising : (s.client ()).raising = true) :
    (s.client ()).notifies N = none ∧ next.worker = s.worker ∧
      ((next.client ()).raising = false ∨
        (next.client ()).toRaise N < (s.client ()).toRaise N) := by
  cases move with
  | go before control =>
    rw [before] at raising ⊢
    cases control with
    | signalled | terminated => exact ⟨rfl, rfl, Or.inl (by simp [ClientPc.raising])⟩
    | _ => cases raising
  | signal before inside | terminate before inside =>
    rw [before]
    refine ⟨rfl, rfl, Or.inr ?_⟩
    simp only [clientAt_client, update_self, ClientPc.toRaise]
    omega
  | spawn before | initTerm before | initGet before | initCompleted before | assign before
  | lock before | push before | unlock before | store before | clearGet before
  | clearCompleted before =>
    rw [before] at raising
    cases raising

/-- A client can run until it has set the flags of its call, while no worker moves. -/
theorem Attended.raise (attended : s.Attended N) :
    ∃ t, Reaches (promptedStep N) s t ∧ (t.Attended N ∧ t.worker = s.worker) ∧
      (t.client ()).raising = false := by
  refine reaches_of_rank (fun t : Pool Unit τ => t.Attended N ∧ t.worker = s.worker) _
    (fun t => (t.client ()).toRaise N) ?_ ⟨attended, rfl⟩
  rintro t ⟨later, same⟩ missed
  have raising : (t.client ()).raising = true := by simpa using missed
  obtain ⟨next, taken, move⟩ := exists_raising_move raising
  obtain ⟨silent, workers, further⟩ := move.raises raising
  have attended := later.client_moves move
  have stepped := promptedStep_client taken
  rw [silent] at attended stepped
  exact ⟨_, next, stepped, ⟨attended, workers.trans same⟩, further⟩

/-- A client that does not wait has nobody to wait for. -/
theorem Aside.ready (aside : s.Aside N) (unasked : (s.client ()).inWaitLoop = false)
    (unclosed : (s.client ()).closing = false) : s.Ready N := by
  refine ⟨aside, fun waits => ?_, fun closes => ?_⟩
  · rw [unasked] at waits
    cases waits
  · rw [unclosed] at closes
    cases closes

/-- If the client waits for the reports and all workers have heard of it, they can run
until they have reported and left their sections. -/
theorem Aside.all_report (aside : s.Aside N) (heard : ∀ i < N, s.Heard i)
    (waits : (s.client ()).inWaitLoop = true) :
    ∃ t, Reaches (promptedStep N) s t ∧ t.Ready N := by
  have driven := aside.attended.each_worker
    (fun pc completed => pc.holdsMutex = false ∧ pc ≠ .start ∧ completed = true) ?_
  · obtain ⟨t, reached, later, client, done⟩ := driven
    refine ⟨t, reached, ⟨later, fun i inside => (done i inside).1,
      fun i inside => (done i inside).2.1, by rw [client]; exact aside.raised⟩,
      fun _ i inside => (done i inside).2.2, fun closes => ?_⟩
    rw [client, ClientPc.not_closing_of_inWaitLoop waits] at closes
    cases closes
  · intro i inside t later client same
    obtain ⟨u, first, middle, beside, reported⟩ := later.report inside
      ((heard i inside).congr same (by rw [client]; exact id)) (by rw [client]; exact waits)
    have unheld : (u.client ()).holdsMutex ≠ some i := by
      rw [beside.client, client]
      exact (ClientPc.of_inWaitLoop waits i).1
    obtain ⟨v, second, last, further, away, kept⟩ := middle.release inside unheld
    have both := beside.trans further
    exact ⟨v, first.trans second, last, both, away,
      both.begun (by rw [same]; exact aside.begun i inside), kept reported⟩

/-- If the client waits for the ends of the workers and all have heard of it, they can
run until they have finished. -/
theorem Aside.all_finish (aside : s.Aside N) (heard : ∀ i < N, s.Heard i)
    (closes : (s.client ()).closing = true) :
    ∃ t, Reaches (promptedStep N) s t ∧ t.Ready N := by
  obtain ⟨t, reached, later, client, done⟩ := aside.attended.each_worker
    (fun pc _ => pc = .finished) fun i inside t later client same =>
      later.finish inside ((heard i inside).congr same (by rw [client]; exact id))
        (by rw [client]; exact ClientPc.terminates_of_closing closes i)
        (by rw [same]; exact aside.begun i inside)
  refine ⟨t, reached, ⟨later, fun i inside => by rw [done i inside]; rfl,
    fun i inside => by simp [done i inside], by rw [client]; exact aside.raised⟩,
    fun waits => ?_, fun _ => done⟩
  rw [client] at waits
  rw [ClientPc.not_closing_of_inWaitLoop waits] at closes
  cases closes

/-- The threads can run until nobody blocks the client. -/
theorem Aside.makes_ready (aside : s.Aside N) : ∃ t, Reaches (promptedStep N) s t ∧ t.Ready N := by
  obtain ⟨t, first, aside, heard | ⟨unasked, unclosed⟩⟩ := aside.summon
  · cases waits : (t.client ()).inWaitLoop with
    | true =>
      obtain ⟨u, second, ready⟩ := aside.all_report heard waits
      exact ⟨u, first.trans second, ready⟩
    | false =>
      cases closes : (t.client ()).closing with
      | true =>
        obtain ⟨u, second, ready⟩ := aside.all_finish heard closes
        exact ⟨u, first.trans second, ready⟩
      | false => exact ⟨t, first, aside.ready waits closes⟩
  · exact ⟨t, first, aside.ready unasked unclosed⟩

/-- A worker that is caught in its first loop stays there. Its only step is the test of
the flag, and nobody clears a termination flag once the constructor has returned. -/
theorem stuck_moves {i : Nat} (coherent : s.Coherent N)
    (stuck : s.worker i = .start ∧ s.termSignal i = true) (move : s.Moves N a next) :
    next.worker i = .start ∧ next.termSignal i = true := by
  obtain ⟨start, set⟩ := stuck
  have outside := coherent.outside
  cases move with
  | @worker id next inside move =>
    rw [move.frame.2.2.2.1]
    refine ⟨?_, set⟩
    by_cases mover : i = id
    · subst mover
      cases move with
      | test before tested =>
        rw [start] at before
        subst before
        cases tested with
        | spin => simp
        | begin clear =>
          rw [set] at clear
          cases clear
      | acquire before => rcases before with before | before <;> simp [start] at before
      | wait before | exit before | report before | pass before | take _ _ before
      | verify _ before | store _ before => simp [start] at before
    · rw [(move.others mover).1]
      exact start
  | client move =>
    cases move with
    | spawn before | initTerm before | initGet before | initCompleted before | assign before =>
      rw [before] at outside
      cases outside
    | @terminate j before inside =>
      refine ⟨start, ?_⟩
      by_cases here : i = j
      · simp [here]
      · simp [here, set]
    | _ => exact ⟨start, set⟩
  | _ => exact ⟨start, set⟩

/-- Notifications do not help it: they reach workers that wait. -/
theorem stuck_step {i : Nat} (coherent : s.Coherent N)
    (stuck : s.worker i = .start ∧ s.termSignal i = true)
    (taken : s.notifyingStep N a = some next) :
    next.worker i = .start ∧ next.termSignal i = true := by
  obtain ⟨middle, move, rfl⟩ := notifyingStep_moves taken
  rw [notify_worker_iff (by simp) (by simp), notify_termSignal]
  exact stuck_moves coherent stuck move

/-- A call that returns, be it with the help of spurious wake-ups, has no caught worker.
The flag of a caught worker stays set, so the client is in the destructor, which joins
the worker before it ends, but the worker does not finish. -/
theorem unstuck_of_returns (attended : s.Attended N) (reached : Reaches (notifyingStep N) s t)
    (returned : (t.client ()).returned = true) : s.Unstuck N := by
  intro i inside start
  apply eq_false_of_ne_true
  intro set
  obtain ⟨actions, ran⟩ := reached
  obtain ⟨⟨last, _⟩, still, flag⟩ := run_invariant (fun t : Pool Unit τ => t.Attended N ∧
    t.worker i = .start ∧ t.termSignal i = true) ⟨attended, start, set⟩
    (fun t a next ⟨attended, stuck⟩ taken => ⟨attended.of_step taken,
      stuck_step attended.coherent stuck taken⟩) ran
  cases pc : t.client () with
  | outside =>
    rw [last.terminated i inside, pc] at flag
    cases flag
  | destroyed =>
    have done := last.joined i inside (by rw [pc]; rfl)
    rw [still] at done
    cases done
  | _ =>
    rw [pc] at returned
    cases returned

/-- A call returns without spurious wake-ups if no worker is caught: the schedule of the
header. -/
theorem returns_of_unstuck (attended : s.Attended N) (unstuck : s.Unstuck N) :
    ∃ t, Reaches (promptedStep N) s t ∧ (t.client ()).returned = true := by
  obtain ⟨t, first, attended, _, clear⟩ := attended.set_aside unstuck
  obtain ⟨u, second, ⟨attended, worker⟩, raised⟩ := attended.raise
  have aside : u.Aside N := by
    refine ⟨attended, fun i inside => ?_, fun i inside => ?_, raised⟩
    · rw [worker]
      exact (clear i inside).1
    · rw [worker]
      exact (clear i inside).2
  obtain ⟨v, third, ready⟩ := aside.makes_ready
  obtain ⟨w, fourth, returned⟩ := ready.returns
  exact ⟨w, first.trans (second.trans (third.trans fourth)), returned⟩

/-- In every state that one client reaches, the call it is in can still return exactly
when no worker is caught in its first loop, which a termination flag does that is set
before the thread of the worker has passed this loop. Spurious wake-ups make no
difference: the call can then return by notifications alone, and if a worker is caught,
no wake-up lets it return. -/
theorem call_can_return_iff (positive : 0 < N) {s₀ : Pool Unit τ}
    {actions : List (PoolAction Unit τ)} (constructed : s₀.Constructed N)
    (ran : run (notifyingStep N) s₀ actions = some s) :
    ((∃ t, Reaches (promptedStep N) s t ∧ (t.client ()).returned = true) ↔ s.Unstuck N) ∧
      ((∃ t, Reaches (notifyingStep N) s t ∧ (t.client ()).returned = true) ↔ s.Unstuck N) := by
  have attended := attended_of_run positive constructed ran
  refine ⟨⟨?_, returns_of_unstuck attended⟩, ⟨?_, fun unstuck => ?_⟩⟩
  · rintro ⟨t, reached, returned⟩
    exact unstuck_of_returns attended reached.of_restrict returned
  · rintro ⟨t, reached, returned⟩
    exact unstuck_of_returns attended reached returned
  · obtain ⟨t, reached, returned⟩ := returns_of_unstuck attended unstuck
    exact ⟨t, reached.of_restrict, returned⟩

/-- The only worker waits when the client asks for the results. -/
def askedAsleep : List (PoolAction Unit Unit) :=
  List.replicate 5 (PoolAction.worker 0) ++ [.getVeri () []]

/-- The instance is destroyed before its only worker has left the first loop. -/
def destroyedAtOnce : List (PoolAction Unit Unit) := [.termVeri (), .client ()]

/-- Both sides occur. A worker that waits when the client asks for the results can still
be brought to report, and a worker that has not begun when the destructor sets its flag
is caught. -/
theorem call_can_return_iff_destroyed_at_once :
    (∃ s, run (notifyingStep 1) started askedAsleep = some s ∧ s.worker 0 = .waiting ∧
      ∃ t, Reaches (promptedStep 1) s t ∧ (t.client ()).returned = true) ∧
    ∃ s, run (notifyingStep 1) started destroyedAtOnce = some s ∧
      ¬ ∃ t, Reaches (notifyingStep 1) s t ∧ (t.client ()).returned = true := by
  constructor
  · have result := call_can_return_iff Nat.zero_lt_one (started_constructed 1)
      (show run (notifyingStep 1) started askedAsleep = some _ from rfl)
    refine ⟨_, rfl, rfl, result.1.mpr fun i inside _ => ?_⟩
    obtain rfl : i = 0 := by omega
    rfl
  · have result := call_can_return_iff Nat.zero_lt_one (started_constructed 1)
      (show run (notifyingStep 1) started destroyedAtOnce = some _ from rfl)
    refine ⟨_, rfl, fun returns => ?_⟩
    exact absurd (result.2.mp returns 0 Nat.zero_lt_one rfl) (by decide)

end Return

end Pool

end PMTest

import PMTest.ConcurrentClients

/-!
# The constructor and its running workers

`initVeri` starts the workers before it stores to their flags, so a worker can act
on what the storage of the flags happened to hold. The loop in front of its work
only waits for `termSignal`, which is the first flag the constructor clears.

A worker that finds itself signalled and has not reported passes its tests, and
reports after the constructor has withdrawn all reports. That is possible exactly
if the storage of some worker holds a signal and no report. Otherwise the
constructor leaves the instance that the other developments start from.
-/

namespace PMTest

open Transitions Function

variable {ι τ : Type*}

namespace ClientPc

/-- The constructor has started the worker. -/
def spawned : ClientPc τ → Nat → Bool
  | init .spawn j, i => i < j
  | _, _ => true

/-- The constructor has permitted the worker to run. -/
def permitted : ClientPc τ → Nat → Bool
  | init .spawn _, _ => false
  | init .clearTerm j, i => i < j
  | _, _ => true

/-- The constructor has withdrawn the signal of the worker. -/
def unsignalled : ClientPc τ → Nat → Bool
  | init .spawn _, _ | init .clearTerm _, _ => false
  | init .clearGet j, i => i < j
  | _, _ => true

/-- The constructor has withdrawn the report of the worker. -/
def unreported : ClientPc τ → Nat → Bool
  | init .clearCompleted j, i => i < j
  | init _ _, _ => false
  | _, _ => true

/-- A call of `getVeri` is about to set the signal of a worker of the pool. -/
def signalling (n : Nat) : ClientPc τ → Bool
  | get .signal i _ _ => i < n
  | _ => false

/-- A call of `getVeri` that has not set a signal yet. -/
def Entering : ClientPc τ → Prop
  | get phase i _ _ => phase = .signal ∧ i = 0
  | _ => True

end ClientPc

namespace Pool

/-- An instance in front of `initVeri`. The flags and the index are whatever the
storage holds. -/
structure Allocated (k : ι) (s : Pool ι τ) : Prop where
  constructing : s.client k = .init .spawn 0
  others : ∀ j, j ≠ k → s.client j = .outside
  worker : ∀ i, s.worker i = .unborn
  veriQueue : ∀ i, s.veriQueue i = []
  veriQueueMutex : ∀ i, s.veriQueueMutex i = none
  resultVector : ∀ i, s.resultVector i = []
  submitted : s.submitted = []
  taken : s.taken = []
  verified : s.verified = []

/-- The action sets no signal. -/
def Unsignalled (N : Nat) (s : Pool ι τ) : PoolAction ι τ → Prop
  | .client k => (s.client k).signalling N = false
  | _ => True

instance (N : Nat) (s : Pool ι τ) : ∀ a, Decidable (s.Unsignalled N a)
  | .client k => inferInstanceAs (Decidable ((s.client k).signalling N = false))
  | .worker _ | .execVeri .. | .getVeri .. | .termVeri _ => inferInstanceAs (Decidable True)

/-- No storage holds a signal without a report. -/
def Harmless (N : Nat) (s : Pool ι τ) : Prop :=
  ∀ i < N, s.getResultSignal i = false ∨ s.completedStateMap i = true

section Safety

variable [DecidableEq ι] {N id : Nat} {s next : Pool ι τ} {a : PoolAction ι τ} {k : ι}

/-- What holds until a signal is set: no worker gets to its report. -/
structure Silent (N : Nat) (k : ι) (s : Pool ι τ) : Prop where
  harmless : s.Harmless N
  reading : ∀ i < N, s.worker i = .checkGet → s.getResultSignal i = false
  silent : ∀ i < N, s.worker i ≠ .checkEmpty ∧ s.worker i ≠ .setCompleted
  unsignalled : ∀ i < N, (s.client k).unsignalled i = true → s.getResultSignal i = false
  unreported : ∀ i < N, (s.client k).unreported i = true → s.completedStateMap i = false
  constructing : ∀ j, j ≠ k → (s.client j).inInit = false
  entering : ∀ j, (s.client j).Entering

omit [DecidableEq ι] in
/-- A worker that is not signalled, or has reported, does not get to its report.

The way to the report leads over the test of the own report and then over the test of
the signal. On harmless storage one of them turns the worker away, and a worker that
stands between the two has found its report missing, so its signal is false. -/
theorem Silent.worker_moves (silent : s.Silent N k) (inside : id < N)
    (move : s.WorkerMoves id next) : next.Silent N k := by
  obtain ⟨client, _, _, _, flags⟩ := move.frame
  obtain ⟨toGet, toEmpty, toSet, _⟩ := move.enters
  have reports : ∀ i < N, next.completedStateMap i = s.completedStateMap i := by
    intro i bound
    rcases move.completed i with kept | ⟨_, before, _⟩
    · exact kept
    · exact absurd before (silent.silent id inside).2
  constructor
  case harmless =>
    intro i bound
    rw [flags, reports i bound]
    exact silent.harmless i bound
  case reading =>
    intro i bound here
    rw [flags]
    by_cases mover : i = id
    · subst mover
      apply (silent.harmless i bound).resolve_right
      rw [toGet here]
      exact Bool.false_ne_true
    · rw [(move.others mover).1] at here
      exact silent.reading i bound here
  case silent =>
    intro i bound
    by_cases mover : i = id
    · subst mover
      constructor
      · intro here
        obtain ⟨before, set⟩ := toEmpty here
        rw [silent.reading i bound before] at set
        cases set
      · intro here
        exact (silent.silent i bound).1 (toSet here).1
    · rw [(move.others mover).1]
      exact silent.silent i bound
  case unsignalled =>
    rw [client, flags]
    exact silent.unsignalled
  case unreported =>
    intro i bound withdrawn
    rw [client] at withdrawn
    rw [reports i bound]
    exact silent.unreported i bound withdrawn
  case constructing =>
    rw [client]
    exact silent.constructing
  case entering =>
    rw [client]
    exact silent.entering

omit [DecidableEq ι] in
/-- The end of a loop withdraws no signal: the loop before it has withdrawn all of them. -/
theorem Control.unsignalled {pc later : ClientPc τ} (control : s.Control N pc later) {i : Nat}
    (bound : i < N) (withdrawn : later.unsignalled i = true) : pc.unsignalled i = true := by
  cases control with
  | initGetOver ended => simp [ClientPc.unsignalled, Nat.lt_of_lt_of_le bound (Nat.not_lt.mp ended)]
  | initTermOver => simp [ClientPc.unsignalled] at withdrawn
  | _ => first | rfl | cases withdrawn

omit [DecidableEq ι] in
/-- The end of a loop withdraws no report: the loop before it has withdrawn all of them. -/
theorem Control.unreported {pc later : ClientPc τ} (control : s.Control N pc later) {i : Nat}
    (bound : i < N) (withdrawn : later.unreported i = true) : pc.unreported i = true := by
  cases control with
  | initCompletedOver ended =>
    simp [ClientPc.unreported, Nat.lt_of_lt_of_le bound (Nat.not_lt.mp ended)]
  | initGetOver => simp [ClientPc.unreported] at withdrawn
  | _ => first | rfl | cases withdrawn

omit [DecidableEq ι] in
/-- A call that has not set a signal stays in front of it. -/
theorem Control.entering {pc later : ClientPc τ} (control : s.Control N pc later)
    (positive : 0 < N) (entering : pc.Entering) : later.Entering := by
  cases control with
  | signalled ended =>
    obtain ⟨_, rfl⟩ := entering
    exact absurd positive ended
  | count | complete | incomplete | wake | woken | merge | mergeOver | clearGetOver | notify
  | notified =>
    obtain ⟨other, _⟩ := entering
    cases other
  | _ => trivial

/-- What the client that constructs the instance has withdrawn is false. Its position
moves past a worker only with the store that clears the flag of this worker. -/
theorem ClientMoves.withdraws {j : ι} (move : s.ClientMoves N j next) {i : Nat} (bound : i < N) :
    ((next.client k).unsignalled i = true →
      (s.client k).unsignalled i = true ∨ next.getResultSignal i = false) ∧
    ((next.client k).unreported i = true →
      (s.client k).unreported i = true ∨ next.completedStateMap i = false) := by
  by_cases mover : k = j
  · subst mover
    cases move with
    | go before control =>
      simp only [clientAt_client, update_self, before]
      exact ⟨fun withdrawn => Or.inl (control.unsignalled bound withdrawn),
        fun withdrawn => Or.inl (control.unreported bound withdrawn)⟩
    | @initGet j before inside =>
      by_cases here : i = j
      · simp [here, ClientPc.unreported]
      · simp [before, ClientPc.unsignalled, ClientPc.unreported, here]
        omega
    | @initCompleted j before inside =>
      by_cases here : i = j
      · simp [here, before, ClientPc.unsignalled]
      · simp [before, ClientPc.unsignalled, ClientPc.unreported, here]
        omega
    | _ => simp_all [ClientPc.unsignalled, ClientPc.unreported]
  · rw [move.others mover]
    exact ⟨Or.inl, Or.inl⟩

/-- Until a signal is set, no call of `getVeri` gets past the first signal. The only
step out of that position sets it, for there is at least one worker. -/
theorem Silent.entering_moves (silent : s.Silent N k) {j : ι} (positive : 0 < N)
    (kept : s.Unsignalled N (.client j)) (move : s.ClientMoves N j next) :
    (next.client j).Entering := by
  have entering := silent.entering j
  cases move with
  | go before control =>
    rw [before] at entering
    simpa using control.entering positive entering
  | signal before inside =>
    simp [Unsignalled, before, ClientPc.signalling] at kept
    omega
  | clearGet before | clearCompleted before =>
    rw [before] at entering
    obtain ⟨other, _⟩ := entering
    cases other
  | _ => simp [ClientPc.Entering]

/-- Until a signal is set, clients only withdraw flags, and a report only after its
signal. The loops of the constructor come in this order, and no call of `getVeri` gets
as far. -/
theorem Silent.flags {j : ι} (silent : s.Silent N k) (kept : s.Unsignalled N (.client j))
    (move : s.ClientMoves N j next) {i : Nat} (bound : i < N) :
    (s.getResultSignal i = false → next.getResultSignal i = false) ∧
    (s.completedStateMap i = false → next.completedStateMap i = false) ∧
    (next.completedStateMap i = s.completedStateMap i ∨ s.getResultSignal i = false) := by
  have entering := silent.entering j
  cases move with
  | @initGet i₀ before =>
    refine ⟨?_, id, Or.inl rfl⟩
    by_cases here : i = i₀ <;> simp [here]
  | @initCompleted i₀ before =>
    refine ⟨id, ?_, Or.inr ?_⟩
    · by_cases here : i = i₀ <;> simp [here]
    have builder : j = k := by
      by_contra other
      have outside := silent.constructing j other
      rw [before] at outside
      cases outside
    subst builder
    exact silent.unsignalled i bound (by rw [before]; rfl)
  | signal before inside =>
    simp [Unsignalled, before, ClientPc.signalling] at kept
    omega
  | clearGet before | clearCompleted before =>
    rw [before] at entering
    obtain ⟨other, _⟩ := entering
    cases other
  | _ => exact ⟨id, id, Or.inl rfl⟩

/-- A client lets a worker start at most. -/
theorem ClientMoves.worker {j : ι} (move : s.ClientMoves N j next) (i : Nat) :
    next.worker i = s.worker i ∨ next.worker i = .start := by
  cases move with
  | @spawn i₀ before =>
    by_cases here : i = i₀
    · exact Or.inr (by simp [here])
    · exact Or.inl (by simp [here])
  | _ => exact Or.inl rfl

/-- No client makes a worker report without a signal. The flags that a client can still
change make no worker go on, and a worker that a client starts is at the beginning of
its loops. -/
theorem Silent.client_moves {j : ι} (silent : s.Silent N k) (positive : 0 < N)
    (kept : s.Unsignalled N (.client j)) (move : s.ClientMoves N j next) : next.Silent N k := by
  constructor
  case harmless =>
    intro i bound
    obtain ⟨signal, _, report⟩ := silent.flags kept move bound
    rcases report with same | unset
    · rw [same]
      exact (silent.harmless i bound).imp_left signal
    · exact Or.inl (signal unset)
  case reading =>
    intro i bound here
    obtain ⟨signal, _⟩ := silent.flags kept move bound
    rcases move.worker i with same | started
    · rw [same] at here
      exact signal (silent.reading i bound here)
    · rw [started] at here
      cases here
  case silent =>
    intro i bound
    rcases move.worker i with same | started
    · rw [same]
      exact silent.silent i bound
    · simp [started]
  case unsignalled =>
    intro i bound withdrawn
    rcases (move.withdraws bound).1 withdrawn with before | unset
    · exact (silent.flags kept move bound).1 (silent.unsignalled i bound before)
    · exact unset
  case unreported =>
    intro i bound withdrawn
    rcases (move.withdraws bound).2 withdrawn with before | unset
    · exact (silent.flags kept move bound).2.1 (silent.unreported i bound before)
    · exact unset
  case constructing =>
    intro l other
    exact (Moves.client move).inInit (silent.constructing l other)
  case entering =>
    intro l
    by_cases mover : l = j
    · subst mover
      exact silent.entering_moves positive kept move
    · rw [move.others mover]
      exact silent.entering l

/-- A call starts in front of the first signal, so it keeps this. -/
theorem Silent.call {j : ι} {pc : ClientPc τ} (silent : s.Silent N k)
    (before : s.client j = .outside) (outside : pc.inInit = false) (entering : pc.Entering) :
    (s.clientAt j pc).Silent N k := by
  obtain ⟨harmless, reading, quiet, unsignalled, unreported, constructing, calls⟩ := silent
  refine ⟨harmless, reading, quiet, fun i bound withdrawn => ?_, fun i bound withdrawn => ?_,
    fun l other => ?_, fun l => ?_⟩
  · apply unsignalled i bound
    by_cases mover : k = j
    · rw [mover, before]
      rfl
    · simpa [mover] using withdrawn
  · apply unreported i bound
    by_cases mover : k = j
    · rw [mover, before]
      rfl
    · simpa [mover] using withdrawn
  · by_cases mover : l = j
    · simpa [mover] using outside
    · simpa [mover] using constructing l other
  · by_cases mover : l = j
    · simpa [mover] using entering
    · simpa [mover] using calls l

/-- As long as no signal is set, no worker gets to its report. -/
theorem Silent.moves (silent : s.Silent N k) (positive : 0 < N) (kept : s.Unsignalled N a)
    (move : s.Moves N a next) : next.Silent N k := by
  cases move with
  | worker inside move => exact silent.worker_moves inside move
  | client move => exact silent.client_moves positive kept move
  | execVeri before | termVeri before => exact silent.call before rfl trivial
  | getVeri before => exact silent.call before rfl ⟨rfl, rfl⟩

omit [DecidableEq ι] in
/-- In front of the constructor no worker runs, and nothing has been withdrawn yet. -/
theorem Allocated.silent (allocated : s.Allocated k) (harmless : s.Harmless N) :
    s.Silent N k := by
  refine ⟨harmless, fun i _ here => ?_, fun i _ => ?_, fun i _ withdrawn => ?_,
    fun i _ withdrawn => ?_, fun j other => ?_, fun j => ?_⟩
  · rw [allocated.worker i] at here
    cases here
  · simp [allocated.worker i]
  · rw [allocated.constructing] at withdrawn
    cases withdrawn
  · rw [allocated.constructing] at withdrawn
    cases withdrawn
  · rw [allocated.others j other]
    rfl
  · by_cases mover : j = k
    · rw [mover, allocated.constructing]
      trivial
    · rw [allocated.others j mover]
      trivial

/-- On harmless storage no run reports a worker after the constructor and before the
first signal. -/
theorem Allocated.unreported {s₀ : Pool ι τ} {actions : List (PoolAction ι τ)}
    (allocated : s₀.Allocated k) (harmless : s₀.Harmless N)
    (ran : run (step N) s₀ actions = some s) (kept : Along (step N) (Unsignalled N) s₀ actions)
    (constructed : (s.client k).inInit = false) {i : Nat} (bound : i < N) :
    s.completedStateMap i = false := by
  have silent := run_guarded (fun _ (s : Pool ι τ) => s.Silent N k) (allocated.silent harmless)
    (fun _ s a next silent kept taken =>
      silent.moves (Nat.zero_lt_of_lt bound) kept (step_moves taken)) ran kept
  apply silent.unreported i bound
  revert constructed
  cases s.client k <;> simp [ClientPc.inInit, ClientPc.unreported]

end Safety

section Instance

variable [DecidableEq ι] {N id : Nat} {s next : Pool ι τ} {a : PoolAction ι τ} {k : ι}

/-- The instance while its constructor runs, as long as nobody calls it. -/
structure Building (N : Nat) (k : ι) (s : Pool ι τ) : Prop extends Silent N k s where
  others : ∀ j, j ≠ k → s.client j = .outside
  position : (s.client k).inInit = true ∨ s.client k = .outside ∧ s.assignTo = 0
  started : ∀ i < N, s.worker i = .unborn ↔ (s.client k).spawned i = false
  permitted : ∀ i < N, (s.client k).permitted i = true → s.termSignal i = false
  running : ∀ i < N, s.worker i = .unborn ∨
    (s.worker i).idle = true ∧ (s.worker i = .start ∨ s.termSignal i = false)
  mutex : ∀ i < N,
    s.veriQueueMutex i = if (s.worker i).holdsMutex then some (.worker i) else none
  veriQueue : ∀ i < N, s.veriQueue i = []
  resultVector : ∀ i < N, s.resultVector i = []
  submitted : s.submitted = []
  taken : s.taken = []
  verified : s.verified = []

omit [DecidableEq ι] in
/-- A worker that has been started is at rest and permitted to run, or waits for the
permission. -/
theorem Building.runs (building : s.Building N k) (inside : id < N)
    (born : s.worker id ≠ .unborn) (passed : s.worker id ≠ .start) :
    (s.worker id).idle = true ∧ s.termSignal id = false := by
  obtain ⟨idle, permitted⟩ := (building.running id inside).resolve_left born
  exact ⟨idle, permitted.resolve_left passed⟩

omit [DecidableEq ι] in
/-- The worker goes on to another position where it rests. All else but its own mutex is
as before. -/
theorem Building.of_worker {pc : WorkerPc τ} (building : s.Building N k)
    (silent : next.Silent N k) (worker : next.worker = update s.worker id pc)
    (client : next.client = s.client) (index : next.assignTo = s.assignTo)
    (term : next.termSignal = s.termSignal) (queue : next.veriQueue = s.veriQueue)
    (results : next.resultVector = s.resultVector)
    (pushed : next.submitted = s.submitted) (took : next.taken = s.taken)
    (checked : next.verified = s.verified) (born : s.worker id ≠ .unborn) (idle : pc.idle = true)
    (permitted : pc = .start ∨ s.termSignal id = false)
    (mutex : next.veriQueueMutex =
      update s.veriQueueMutex id (if pc.holdsMutex then some (.worker id) else none)) :
    next.Building N k := by
  refine { silent with
    others := ?_, position := ?_, started := ?_, permitted := ?_, running := ?_, mutex := ?_,
    veriQueue := ?_, resultVector := ?_, submitted := ?_, taken := ?_, verified := ?_ }
  · rw [client]
    exact building.others
  · rw [client, index]
    exact building.position
  · intro i bound
    have before := building.started i bound
    rw [client, worker, update_apply]
    split_ifs with mover
    · rw [← before, mover]
      exact iff_of_false (fun unborn => by rw [unborn] at idle; cases idle) born
    · exact before
  · rw [client, term]
    exact building.permitted
  · intro i bound
    rw [worker, term, update_apply]
    split_ifs with mover
    · rw [mover]
      exact Or.inr ⟨idle, permitted⟩
    · exact building.running i bound
  · intro i bound
    rw [mutex, worker]
    by_cases mover : i = id
    · rw [mover, update_self, update_self]
    · rw [update_of_ne mover, update_of_ne mover]
      exact building.mutex i bound
  · rw [queue]
    exact building.veriQueue
  · rw [results]
    exact building.resultVector
  · rw [pushed]
    exact building.submitted
  · rw [took]
    exact building.taken
  · rw [checked]
    exact building.verified

omit [DecidableEq ι] in
/-- A worker finds no work and does not exit while the constructor runs. The queues are
empty, and a worker that has left the loop at its start has seen its termination flag
cleared for good. -/
theorem Building.worker_moves (building : s.Building N k) (inside : id < N)
    (move : s.WorkerMoves id next) : next.Building N k := by
  have silent := building.toSilent.worker_moves inside move
  have mutex := building.mutex id inside
  have still : update s.veriQueueMutex id (s.veriQueueMutex id) = s.veriQueueMutex :=
    update_eq_self id s.veriQueueMutex
  cases move with
  | @test pc next before tested =>
    obtain ⟨notEmpty, notSet⟩ := silent.silent id inside
    simp only [workerAt_worker, update_self] at notEmpty notSet
    refine building.of_worker silent rfl rfl rfl rfl rfl rfl rfl rfl rfl ?_ ?_ ?_ ?_
    · cases tested <;> simp [before]
    · cases tested <;> first | rfl | contradiction
    · cases tested with
      | spin => exact Or.inl rfl
      | begin clear => exact Or.inr clear
      | _ => exact Or.inr (building.runs inside (by simp [before]) (by simp [before])).2
    · rw [tested.holdsMutex, ← before, ← mutex]
      exact still.symm
  | acquire before free =>
    have born : s.worker id ≠ .unborn ∧ s.worker id ≠ .start := by
      rcases before with before | before <;> simp [before]
    exact building.of_worker silent rfl rfl rfl rfl rfl rfl rfl rfl rfl born.1 rfl
      (Or.inr (building.runs inside born.1 born.2).2) rfl
  | wait before empty | pass before empty =>
    have permitted := (building.runs inside (by simp [before]) (by simp [before])).2
    exact building.of_worker silent rfl rfl rfl rfl rfl rfl rfl rfl rfl (by simp [before]) rfl
      (Or.inr permitted) rfl
  | exit before set =>
    rw [(building.runs inside (by simp [before]) (by simp [before])).2] at set
    cases set
  | report before => exact absurd before (building.silent id inside).2
  | take job rest before found =>
    rw [building.veriQueue id inside] at found
    cases found
  | verify job before | store job before =>
    have idle := (building.runs inside (by simp [before]) (by simp [before])).1
    rw [before] at idle
    cases idle

omit [DecidableEq ι] in
/-- The client is in the constructor before each of its steps. -/
theorem Building.at_init {pc : ClientPc τ} (building : s.Building N k)
    (before : s.client k = pc) (inside : pc ≠ .outside) : pc.inInit = true := by
  rcases building.position with here | ⟨outside, _⟩
  · rwa [before] at here
  · exact absurd (before.symm.trans outside) inside

omit [DecidableEq ι] in
/-- The end of a loop starts nothing. -/
theorem Control.has_spawned {pc later : ClientPc τ} (control : s.Control N pc later) {i : Nat}
    (bound : i < N) : later.spawned i = pc.spawned i := by
  cases control with
  | spawned ended => simp [ClientPc.spawned, Nat.lt_of_lt_of_le bound (Nat.not_lt.mp ended)]
  | _ => rfl

omit [DecidableEq ι] in
/-- The end of a loop permits nobody to run. -/
theorem Control.has_permitted {pc later : ClientPc τ} (control : s.Control N pc later) {i : Nat}
    (bound : i < N) (done : later.permitted i = true) : pc.permitted i = true := by
  cases control with
  | initTermOver ended => simp [ClientPc.permitted, Nat.lt_of_lt_of_le bound (Nat.not_lt.mp ended)]
  | spawned => simp [ClientPc.permitted] at done
  | _ => rfl

omit [DecidableEq ι] in
/-- The end of a loop does not lead out of the constructor. -/
theorem Control.stays_init {pc later : ClientPc τ} (control : s.Control N pc later)
    (before : pc.inInit = true) : later.inInit = true := by
  cases control <;> first | rfl | cases before

omit [DecidableEq ι] in
/-- The constructor starts no worker and stores to one kind of flags. This is what all
of its steps but one have in common. -/
theorem Building.of_client (building : s.Building N k) (silent : next.Silent N k)
    (others : ∀ j, j ≠ k → next.client j = .outside)
    (position : (next.client k).inInit = true ∨ next.client k = .outside ∧ next.assignTo = 0)
    (worker : next.worker = s.worker) (mutex : next.veriQueueMutex = s.veriQueueMutex)
    (queue : next.veriQueue = s.veriQueue) (results : next.resultVector = s.resultVector)
    (pushed : next.submitted = s.submitted) (took : next.taken = s.taken)
    (checked : next.verified = s.verified)
    (term : ∀ i, s.termSignal i = false → next.termSignal i = false)
    (started : ∀ i < N, (next.client k).spawned i = (s.client k).spawned i)
    (permitted : ∀ i < N, (next.client k).permitted i = true →
      (s.client k).permitted i = true ∨ next.termSignal i = false) : next.Building N k := by
  refine { silent with
    others := others, position := position, started := ?_, permitted := ?_, running := ?_,
    mutex := ?_, veriQueue := ?_, resultVector := ?_, submitted := ?_, taken := ?_,
    verified := ?_ }
  · intro i bound
    rw [worker, started i bound]
    exact building.started i bound
  · intro i bound done
    rcases permitted i bound done with before | clear
    · exact term i (building.permitted i bound before)
    · exact clear
  · intro i bound
    rw [worker]
    exact (building.running i bound).imp_right fun here => here.imp_right (Or.imp_right (term i))
  · rw [mutex, worker]
    exact building.mutex
  · rw [queue]
    exact building.veriQueue
  · rw [results]
    exact building.resultVector
  · rw [pushed]
    exact building.submitted
  · rw [took]
    exact building.taken
  · rw [checked]
    exact building.verified

/-- The constructor starts the next worker. It was not born before, so it holds no mutex
and has nothing in hand. -/
theorem Building.spawns {j : Nat} (building : s.Building N k)
    (before : s.client k = .init .spawn j) (inside : j < N)
    (silent : ((s.workerAt j .start).clientAt k (.init .spawn (j + 1))).Silent N k)
    (others : ∀ l, l ≠ k →
      ((s.workerAt j .start).clientAt k (.init .spawn (j + 1))).client l = .outside) :
    ((s.workerAt j .start).clientAt k (.init .spawn (j + 1))).Building N k := by
  have unborn : s.worker j = .unborn := by
    rw [building.started j inside, before]
    simp [ClientPc.spawned]
  refine { silent with
    others := others, position := ?_, started := fun i bound => ?_,
    permitted := fun i bound done => ?_, running := fun i bound => ?_,
    mutex := fun i bound => ?_, veriQueue := building.veriQueue,
    resultVector := building.resultVector, submitted := building.submitted,
    taken := building.taken, verified := building.verified }
  · simp [ClientPc.inInit]
  · have earlier := building.started i bound
    by_cases here : i = j
    · simp [here, ClientPc.spawned]
    · simp [before, ClientPc.spawned] at earlier
      simp [here, ClientPc.spawned, earlier]
      omega
  · simp [ClientPc.permitted] at done
  · by_cases here : i = j
    · simp [here, WorkerPc.idle]
    · simpa [here] using building.running i bound
  · by_cases here : i = j
    · have free := building.mutex j inside
      rw [unborn] at free
      simpa [here, WorkerPc.holdsMutex] using free
    · simpa [here] using building.mutex i bound

/-- The constructor goes on to its next store. The cases are its four loops and the
store of the index behind them. -/
theorem Building.client_moves (building : s.Building N k) (positive : 0 < N)
    (move : s.ClientMoves N k next) : next.Building N k := by
  have kept : s.Unsignalled N (.client k) := by
    rcases building.position with inside | ⟨outside, _⟩
    · revert inside
      simp only [Unsignalled]
      cases s.client k <;> simp [ClientPc.inInit, ClientPc.signalling]
    · simp [Unsignalled, outside, ClientPc.signalling]
  have silent := building.toSilent.client_moves positive kept move
  have others : ∀ j, j ≠ k → next.client j = .outside := by
    intro j other
    rw [move.others other]
    exact building.others j other
  cases move with
  | @go pc later before control =>
    have inside := building.at_init before (by cases control <;> simp)
    refine building.of_client silent others (Or.inl ?_) rfl rfl rfl rfl rfl rfl rfl
      (fun _ => id) (fun i bound => ?_) (fun i bound => ?_) <;>
      simp only [clientAt_client, update_self, before]
    · exact control.stays_init inside
    · exact control.has_spawned bound
    · exact fun done => Or.inl (control.has_permitted bound done)
  | spawn before inside => exact building.spawns before inside silent others
  | @initTerm j before inside =>
    refine building.of_client silent others (Or.inl (by simp [ClientPc.inInit])) rfl rfl rfl rfl
      rfl rfl rfl (fun i clear => ?_) (fun _ _ => by simp [before, ClientPc.spawned])
      (fun i bound done => ?_)
    · by_cases here : i = j <;> simp [here, clear]
    · by_cases here : i = j
      · simp [here]
      · simp [ClientPc.permitted] at done
        left
        simp [before, ClientPc.permitted]
        omega
  | initGet before inside | initCompleted before inside =>
    exact building.of_client silent others (Or.inl (by simp [ClientPc.inInit])) rfl rfl rfl rfl
      rfl rfl rfl (fun _ => id) (fun _ _ => by simp [before, ClientPc.spawned])
      (fun _ _ _ => Or.inl (by rw [before]; rfl))
  | assign before =>
    exact building.of_client silent others (Or.inr ⟨by simp, rfl⟩) rfl rfl rfl rfl
      rfl rfl rfl (fun _ => id) (fun _ _ => by simp [before, ClientPc.spawned])
      (fun _ _ _ => Or.inl (by rw [before]; rfl))
  | lock before | push before | unlock before | store before | signal before | clearGet before
  | clearCompleted before | terminate before => cases building.at_init before (by simp)

omit [DecidableEq ι] in
/-- On harmless storage the constructor has everything in order before it starts. -/
theorem Allocated.building (allocated : s.Allocated k) (harmless : s.Harmless N) :
    s.Building N k := by
  refine { allocated.silent harmless with
    others := allocated.others, position := ?_, started := fun i _ => ?_,
    permitted := fun i _ done => ?_, running := fun i _ => Or.inl (allocated.worker i),
    mutex := fun i _ => ?_, veriQueue := fun i _ => allocated.veriQueue i,
    resultVector := fun i _ => allocated.resultVector i, submitted := allocated.submitted,
    taken := allocated.taken, verified := allocated.verified }
  · rw [allocated.constructing]
    exact Or.inl rfl
  · simp [allocated.worker i, allocated.constructing, ClientPc.spawned]
  · rw [allocated.constructing] at done
    cases done
  · rw [allocated.worker i]
    exact allocated.veriQueueMutex i

/-- A constructor that returns on harmless storage has constructed the instance.

The invariant `Building` is carried along the run, which is one of this client and the
workers. When the client is outside, all loops are behind it, so the flags of all
workers are false and none of them is about to report. -/
theorem Allocated.constructed {s₀ : Pool ι τ} {actions : List (PoolAction ι τ)}
    (allocated : s₀.Allocated k) (harmless : s₀.Harmless N) (positive : 0 < N)
    (ran : run (step N) s₀ actions = some s)
    (uncalled : ∀ a ∈ actions, a = .client k ∨ ∃ id, a = .worker id)
    (returned : s.client k = .outside) : s.Constructed N := by
  have met : Along (step N) (fun _ a => a = .client k ∨ ∃ id, a = .worker id) s₀ actions :=
    along_of_forall (fun _ => uncalled) s₀
  have building : s.Building N k := by
    apply run_guarded (fun _ (s : Pool ι τ) => s.Building N k) (allocated.building harmless) ?_
      ran met
    intro _ s a next building mover taken
    have move := step_moves taken
    rcases mover with rfl | ⟨id, rfl⟩
    · cases move with
      | client move => exact building.client_moves positive move
    · cases move with
      | worker inside move => exact building.worker_moves inside move
  have running : ∀ i < N, s.worker i ≠ .unborn := by
    intro i bound
    rw [ne_eq, building.started i bound, returned]
    simp [ClientPc.spawned]
  have idle (i : Nat) (bound : i < N) :
      (s.worker i).unladen = true ∧ (s.worker i).reporting = false :=
    WorkerPc.idle_iff.mp ((building.running i bound).resolve_left (running i bound)).1
  refine ⟨?_, fun i bound => (idle i bound).2⟩
  constructor
  case termSignal => exact fun i bound => building.permitted i bound (by rw [returned]; rfl)
  case getResultSignal => exact fun i bound => building.unsignalled i bound (by rw [returned]; rfl)
  case completedStateMap => exact fun i bound => building.unreported i bound (by rw [returned]; rfl)
  case assignTo =>
    rcases building.position with inside | ⟨_, index⟩
    · rw [returned] at inside
      cases inside
    · exact index
  case veriQueue => exact building.veriQueue
  case veriQueueMutex => exact building.mutex
  case resultVector => exact building.resultVector
  case unladen => exact fun i bound => (idle i bound).1
  case client =>
    intro j
    by_cases builder : j = k
    · rw [builder, returned]
    · exact building.others j builder
  case submitted => exact building.submitted
  case taken => exact building.taken
  case verified => exact building.verified

end Instance

section Race

variable [DecidableEq ι] {N i : Nat} {s : Pool ι τ} {k : ι}

/-- Worker `i` would find itself signalled, with nothing to do and nothing reported. -/
structure Tempted (i : Nat) (s : Pool ι τ) : Prop where
  asked : s.getResultSignal i = true
  unreported : s.completedStateMap i = false
  queue : s.veriQueue i = []
  mutex : s.veriQueueMutex i = none

/-- The system before the first signal is set. -/
abbrev unsignalledStep (N : Nat) : Pool ι τ → PoolAction ι τ → Option (Pool ι τ) :=
  restrict (step N) (Unsignalled N)

/-- A step of the constructor sets no signal. -/
theorem init_step {phase : InitPhase} {j : Nat} (before : s.client k = .init phase j) :
    run (unsignalledStep N) s [.client k] = some (s.initVeri N k j phase) := by
  simp [run, restrict, Unsignalled, before, ClientPc.signalling, step, clientStep]

/-- Where the constructor goes after a loop. -/
def after : InitPhase → ClientPc τ
  | .spawn => .init .clearTerm 0
  | .clearTerm => .init .clearGet 0
  | .clearGet => .init .clearCompleted 0
  | .clearCompleted => .initAssign

/-- The constructor completes a loop without any worker moving. -/
theorem reaches_after (phase : InitPhase) (kept : Nat → Pool ι τ → Prop)
    (advance : ∀ j < N, ∀ t, kept j t → kept (j + 1) (t.initVeri N k j phase))
    (before : s.client k = .init phase 0) (start : kept 0 s) :
    ∃ t, Reaches (unsignalledStep N) s (t.clientAt k (after phase)) ∧
      kept N t := by
  have round (j : Nat) (below : j < N) (t : Pool ι τ)
      (here : t.client k = .init phase j ∧ kept j t) :
      ∃ u, Reaches (unsignalledStep N) t u ∧
        u.client k = .init phase (j + 1) ∧ kept (j + 1) u := by
    refine ⟨_, ⟨_, init_step here.1⟩, ?_, advance j below t here.2⟩
    cases phase <;> simp [initVeri, below]
  obtain ⟨t, reached, position, done⟩ := reaches_rounds _ N round ⟨before, start⟩
  have leaves : t.initVeri N k N phase = t.clientAt k (after phase) := by
    cases phase <;> simp [initVeri, after]
  refine ⟨t, reached.trans ⟨[.client k], ?_⟩, done⟩
  rw [init_step position, leaves]

/-- The constructor starts the worker. -/
theorem Tempted.starts (tempted : s.Tempted i) (inside : i < N)
    (before : s.client k = .init .spawn 0) :
    ∃ t, Reaches (unsignalledStep N) s t ∧ t.Tempted i ∧
      t.client k = .init .clearTerm 0 ∧ t.worker i = .start := by
  have advance (j : Nat) (below : j < N) (t : Pool ι τ)
      (here : t.Tempted i ∧ (i < j → t.worker i = .start)) :
      (t.initVeri N k j .spawn).Tempted i ∧
        (i < j + 1 → (t.initVeri N k j .spawn).worker i = .start) := by
    obtain ⟨⟨asked, unreported, queue, mutex⟩, started⟩ := here
    simp only [initVeri, if_pos below]
    refine ⟨⟨asked, unreported, queue, mutex⟩, fun early => ?_⟩
    by_cases here : i = j
    · simp [here]
    · simpa [here] using started (by omega)
  obtain ⟨t, reached, ⟨asked, unreported, queue, mutex⟩, started⟩ := reaches_after .spawn _ advance
    before ⟨tempted, fun early => absurd early (Nat.not_lt_zero i)⟩
  exact ⟨_, reached, ⟨asked, unreported, queue, mutex⟩, by simp [after], started inside⟩

/-- The constructor lets the worker pass the loop in front of its work. -/
theorem Tempted.passes (tempted : s.Tempted i) (inside : i < N)
    (before : s.client k = .init .clearTerm 0) (started : s.worker i = .start) :
    ∃ t, Reaches (unsignalledStep N) s t ∧ t.Tempted i ∧
      t.client k = .init .clearGet 0 ∧ t.worker i = .start ∧ t.termSignal i = false := by
  have advance (j : Nat) (below : j < N) (t : Pool ι τ)
      (here : t.Tempted i ∧ t.worker i = .start ∧ (i < j → t.termSignal i = false)) :
      (t.initVeri N k j .clearTerm).Tempted i ∧ (t.initVeri N k j .clearTerm).worker i = .start ∧
        (i < j + 1 → (t.initVeri N k j .clearTerm).termSignal i = false) := by
    obtain ⟨⟨asked, unreported, queue, mutex⟩, waiting, clear⟩ := here
    simp only [initVeri, if_pos below]
    refine ⟨⟨asked, unreported, queue, mutex⟩, waiting, fun early => ?_⟩
    by_cases here : i = j
    · simp [here]
    · simpa [here] using clear (by omega)
  obtain ⟨t, reached, ⟨asked, unreported, queue, mutex⟩, waiting, clear⟩ :=
    reaches_after .clearTerm _ advance before
      ⟨tempted, started, fun early => absurd early (Nat.not_lt_zero i)⟩
  exact ⟨_, reached, ⟨asked, unreported, queue, mutex⟩, by simp [after], waiting, clear inside⟩

/-- A test of a worker is a step that sets no signal. -/
theorem Tests.reaches {pc later : WorkerPc τ} (tested : s.Tests i pc later) (inside : i < N)
    (before : s.worker i = pc) : Reaches (unsignalledStep N) s (s.workerAt i later) := by
  have taken : s.veriWorker i = some (s.workerAt i later) := by
    cases tested with
    | queued found | undrained found =>
      obtain ⟨job, rest, queue⟩ := List.exists_cons_of_ne_nil found
      simp [veriWorker, before, queue]
    | _ => simp_all [veriWorker]
  exact .single (a := .worker i) (by simp [restrict, Unsignalled, step, inside, taken])

/-- The worker finds itself signalled and goes on to its report. It passes the loop at its
start, takes its mutex, leaves the wait loop because of the signal, and finds neither a
report nor a trace. -/
theorem Tempted.reports (tempted : s.Tempted i) (inside : i < N) (started : s.worker i = .start)
    (clear : s.termSignal i = false) :
    ∃ t, Reaches (unsignalledStep N) s t ∧ t.client = s.client ∧
      t.worker i = .setCompleted := by
  obtain ⟨asked, unreported, queue, mutex⟩ := tempted
  have enters : Reaches (unsignalledStep N) (s.workerAt i .lock)
      ((s.lockBy i (.worker i)).workerAt i .testTerm) :=
    .single (a := .worker i) (by
      simp [restrict, Unsignalled, step, inside, veriWorker, mutex, workerAt, lockBy])
  have test {pc later : WorkerPc τ} (tested : s.Tests i pc later) :
      Reaches (unsignalledStep N) ((s.lockBy i (.worker i)).workerAt i pc)
        ((s.lockBy i (.worker i)).workerAt i later) := by
    have same : ((s.lockBy i (.worker i)).workerAt i pc).Tests i pc later := by
      cases tested <;> constructor <;> assumption
    simpa [workerAt] using same.reaches inside (by simp)
  refine ⟨(s.lockBy i (.worker i)).workerAt i .setCompleted, ?_, rfl, by simp⟩
  refine .trans (Tests.reaches (.begin clear) inside started) (.trans enters ?_)
  refine .trans (test (.termClear clear)) (.trans (test (.getSet asked)) ?_)
  refine .trans (test (.stay clear)) (.trans (test (.unreported unreported)) ?_)
  exact .trans (test (.asked asked)) (test (.drained queue))

/-- The constructor returns while the worker is in front of its report. -/
theorem reaches_outside (before : s.client k = .init .clearGet 0)
    (reporting : s.worker i = .setCompleted) :
    ∃ t, Reaches (unsignalledStep N) s t ∧ t.client k = .outside ∧
      t.worker i = .setCompleted := by
  have advance (phase : InitPhase) (other : phase ≠ .spawn) : ∀ j < N, ∀ t : Pool ι τ,
      t.worker i = .setCompleted → (t.initVeri N k j phase).worker i = .setCompleted := by
    intro j below t here
    cases phase with
    | spawn => exact absurd rfl other
    | _ => simpa [initVeri, below] using here
  obtain ⟨t, cleared, here⟩ := reaches_after .clearGet (fun _ t => t.worker i = .setCompleted)
    (advance .clearGet (by simp)) before reporting
  obtain ⟨u, withdrawn, still⟩ := reaches_after .clearCompleted
    (fun _ t => t.worker i = .setCompleted) (advance .clearCompleted (by simp))
    (show (t.clientAt k (after .clearGet)).client k = .init .clearCompleted 0 by simp [after]) here
  refine ⟨{ u.clientAt k .outside with assignTo := 0 },
    (cleared.trans withdrawn).trans ⟨[.client k], ?_⟩, by simp, still⟩
  simp [run, restrict, Unsignalled, step, clientStep, after, ClientPc.signalling, clientAt]

/-- Storage that holds a signal without a report can lead to a late report.

The schedule: the constructor starts the workers and permits them to run, this worker
finds the stale signal and goes up to its report, the constructor clears all flags and
returns, and the worker reports. -/
theorem Allocated.reaches_report (allocated : s.Allocated k) (inside : i < N)
    (asked : s.getResultSignal i = true) (unreported : s.completedStateMap i = false) :
    ∃ t, Reaches (unsignalledStep N) s t ∧ t.client k = .outside ∧
      t.completedStateMap i = true := by
  have tempted : s.Tempted i :=
    ⟨asked, unreported, allocated.veriQueue i, allocated.veriQueueMutex i⟩
  obtain ⟨started, spawns, tempted, clearing, waiting⟩ :=
    tempted.starts inside allocated.constructing
  obtain ⟨passing, passes, tempted, withdrawing, waiting, clear⟩ :=
    tempted.passes inside clearing waiting
  obtain ⟨reporting, reports, client, here⟩ := tempted.reports inside waiting clear
  obtain ⟨returned, returns, outside, still⟩ :=
    reaches_outside (by rw [client]; exact withdrawing) here
  refine ⟨{ (returned.unlock i).workerAt i .lock with
      completedStateMap := update returned.completedStateMap i true },
    (((spawns.trans passes).trans reports).trans returns).trans ⟨[.worker i], ?_⟩,
    outside, update_self ..⟩
  simp [run, restrict, Unsignalled, step, inside, veriWorker, still]

/-- The constructor leaves no worker reported before the first signal, in any run,
exactly on storage where no worker has a signal without a report. One direction is an
invariant of the runs, the other one a schedule. -/
theorem construction_unreported_iff (allocated : s.Allocated k) :
    (∀ actions t, run (step N) s actions = some t → Along (step N) (Unsignalled N) s actions →
      (t.client k).inInit = false → ∀ i < N, t.completedStateMap i = false) ↔ s.Harmless N := by
  constructor
  · intro unreported i inside
    by_contra harmful
    rw [not_or, Bool.not_eq_false, Bool.not_eq_true] at harmful
    obtain ⟨t, ⟨actions, ran⟩, outside, reported⟩ :=
      allocated.reaches_report inside harmful.1 harmful.2
    obtain ⟨ran, kept⟩ := run_restrict.mp ran
    have clear := unreported actions t ran kept (by rw [outside]; rfl) i inside
    rw [reported] at clear
    cases clear
  · intro harmless actions t ran kept constructed i inside
    exact allocated.unreported harmless ran kept constructed inside

/-- Storage with the given signals and reports, in front of the constructor. -/
def storage (signals reports : Nat → Bool) : Pool Unit Unit where
  termSignal := fun _ => false
  getResultSignal := signals
  completedStateMap := reports
  assignTo := 0
  veriQueue := fun _ => []
  veriQueueMutex := fun _ => none
  resultVector := fun _ => []
  worker := fun _ => .unborn
  client := fun _ => .init .spawn 0
  submitted := []
  taken := []
  verified := []

/-- Storage with any signals and reports is an instance in front of its constructor. -/
theorem storage_allocated (signals reports : Nat → Bool) :
    (storage signals reports).Allocated () := by
  constructor <;> simp [storage]

/-- Storage of zeros is harmless. -/
theorem construction_unreported_zeroed :
    (storage (fun _ => false) (fun _ => false)).Allocated () ∧
      ∀ actions t, run (step 2) (storage (fun _ => false) (fun _ => false)) actions = some t →
        Along (step 2) (Unsignalled 2) (storage (fun _ => false) (fun _ => false)) actions →
        (t.client ()).inInit = false → ∀ i < 2, t.completedStateMap i = false :=
  have allocated := storage_allocated (fun _ => false) (fun _ => false)
  ⟨allocated, (construction_unreported_iff allocated).mpr fun _ _ => Or.inl rfl⟩

/-- The only worker tests its flags after the constructor has cleared `termSignal` and
before it clears `getResultSignal`. The constructor returns while the worker is in
front of its report. -/
def pendingReport : List (PoolAction Unit Unit) :=
  List.replicate 4 (PoolAction.client ()) ++ List.replicate 8 (PoolAction.worker 0) ++
    List.replicate 5 (PoolAction.client ())

/-- The worker reports after the constructor has returned. -/
def lateReport : List (PoolAction Unit Unit) := pendingReport ++ [.worker 0]

/-- A trace is submitted and the results are requested, while the worker rests. -/
def submitAndGet : List (PoolAction Unit Unit) :=
  .execVeri () () :: List.replicate 9 (PoolAction.client ()) ++ .getVeri () [] ::
    List.replicate 12 (PoolAction.client ())

/-- The late report makes the first `getVeri` return before the trace is checked, since
this call counts it as an answer. -/
theorem late_report_ends_barrier :
    ∃ s t, run (step 1) (storage (fun _ => true) (fun _ => false)) lateReport = some s ∧
      s.client () = .outside ∧ s.completedStateMap 0 = true ∧
      run (step 1) s submitAndGet = some t ∧ t.client () = .getReturn [] [] ∧
      t.submitted.map Job.input = [()] ∧ t.verified = [] :=
  ⟨_, _, rfl, rfl, rfl, rfl, rfl, rfl, rfl⟩

end Race

end Pool

end PMTest

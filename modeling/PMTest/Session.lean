import PMTest.Coherence
import PMTest.RecordPass
import PMTest.Recorder
import PMTest.Segments
import PMTest.Submissions

/-!
# A whole session

One thread of the tested program records its operations, sends traces, asks for the
results and exits; the workers of its instance check the traces at the same time.
What is passed to a worker is the address of a trace, so the two sides share the
traces: the thread fills the current one while the workers read those it has sent,
and a check rewrites records of its trace in place.

The session puts the recorder, the pool and the verification together. `C_exitVeri`
deletes the traces one by one before it destroys the instance and joins the
workers. A check of a deleted trace has no next state.
-/

namespace PMTest

open Transitions Function

/-- The variables of the thread with its traces, the pool, how many traces
`C_exitVeri` has deleted once it is called, and what each check has printed. -/
structure Session where
  recorder : Recorder
  pool : Pool Unit Nat
  deleted : Option Nat
  printed : List (Nat × Verdict)

/-- What may happen next: the thread makes a call or goes on inside one, or a worker
goes on. -/
inductive SessionAction
  | call (call : Call)
  | getResult
  | exitVeri
  | client
  | worker (id : Nat)
  deriving DecidableEq, Repr

section Model

variable (icl : Icl) (warn : Bool)

/-- `VeriProc` on one trace: what it prints, and its records afterwards. -/
def checkTrace (records : List Metadata) : Verdict × List Metadata :=
  let t := Trace.ofRecords records
  (t.verdict icl warn, t.veriptr.map (veriProc icl warn t.memory t.veriptr).memory)

namespace Session

/-- The session behind `C_initVeri`. -/
def initial (recorder : Recorder) (pool : Pool Unit Nat) : Session where
  recorder := recorder
  pool := pool
  deleted := none
  printed := []

/-- The thread is in none of the calls that take more than one step. -/
def idle (s : Session) : Prop := s.pool.client () = .outside ∧ s.deleted = none

instance (s : Session) : Decidable s.idle := inferInstanceAs (Decidable (_ ∧ _))

/-- The trace has been deleted. -/
def Deleted (s : Session) (trace : Nat) : Prop := ∃ count ∈ s.deleted, trace < count

instance (s : Session) (trace : Nat) : Decidable (s.Deleted trace) :=
  match deleted : s.deleted with
  | none => isFalse (by simp [Deleted, deleted])
  | some count => decidable_of_iff (trace < count) (by simp [Deleted, deleted])

variable (N : Nat)

/-- A worker whose next step is the check of its trace makes it; nobody else writes a
trace that was sent, so it is read at once. -/
def checkStep (s : Session) (id : Nat) (job : Job Nat) : Option Session :=
  if s.Deleted job.input then none
  else
    let checked := checkTrace icl warn (s.recorder.traces.getD job.input [])
    (s.pool.step N (.worker id)).map fun pool =>
      { s with
        recorder := { s.recorder with
          traces := s.recorder.traces.set job.input checked.2 }
        pool := pool
        printed := s.printed ++ [(job.input, checked.1)] }

/-- The next step of the thread in a call. `C_exitVeri` goes on with the destructor
when it has deleted the traces. -/
def clientStep (s : Session) : Option Session :=
  let goOn := fun action => (s.pool.step N action).map fun pool => { s with pool := pool }
  match s.deleted with
  | none => goOn (.client ())
  | some count =>
      if count < s.recorder.traces.length then some { s with deleted := some (count + 1) }
      else
        match s.pool.client () with
        | .outside => goOn (.termVeri ())
        | _ => goOn (.client ())

/-- `C_sendTrace`: a trace that is left goes to `execVeri`. -/
def sendStep (s : Session) : Option Session :=
  if s.recorder.pmtestCurIdx < s.recorder.traces.length then
    (s.pool.step N (.execVeri () s.recorder.pmtestCurIdx)).map fun pool =>
      { s with recorder := s.recorder.cSendTrace, pool := pool }
  else some { s with recorder := s.recorder.cSendTrace }

/-- One step of the session. -/
def step (s : Session) : SessionAction → Option Session
  | .call call =>
      if s.idle then
        match call with
        | .sendTrace => s.sendStep N
        | _ => (s.recorder.step call).map fun recorder => { s with recorder := recorder }
      else none
  | .getResult =>
      if s.idle then (s.pool.step N (.getVeri () [])).map fun pool => { s with pool := pool }
      else none
  | .exitVeri => if s.idle then some { s with deleted := some 0 } else none
  | .client => s.clientStep N
  | .worker id =>
      match s.pool.worker id with
      | .verify job => s.checkStep icl warn N id job
      | _ => (s.pool.step N (.worker id)).map fun pool => { s with pool := pool }

end Session

end Model

namespace Session

/-- The calls among the actions that concern the traces. -/
def calls (actions : List SessionAction) : List Call :=
  actions.filterMap fun
    | .call call => some call
    | _ => none

section Moves

variable {icl : Icl} {warn : Bool} {N : Nat} {s next : Session} {a : SessionAction}

/-- The moves of a session. -/
inductive Moves (icl : Icl) (warn : Bool) (N : Nat) (s : Session) :
    SessionAction → Session → Prop
  | record {call : Call} {recorder : Recorder} (idle : s.idle) (other : call ≠ .sendTrace)
      (moved : s.recorder.step call = some recorder) :
      Moves icl warn N s (.call call) { s with recorder := recorder }
  | send {pool : Pool Unit Nat} (idle : s.idle)
      (left : s.recorder.pmtestCurIdx < s.recorder.traces.length)
      (moved : s.pool.step N (.execVeri () s.recorder.pmtestCurIdx) = some pool) :
      Moves icl warn N s (.call .sendTrace)
        { s with recorder := s.recorder.cSendTrace, pool := pool }
  | refuse (idle : s.idle) (none : ¬ s.recorder.pmtestCurIdx < s.recorder.traces.length) :
      Moves icl warn N s (.call .sendTrace) { s with recorder := s.recorder.cSendTrace }
  | collect {pool : Pool Unit Nat} (idle : s.idle)
      (moved : s.pool.step N (.getVeri () []) = some pool) :
      Moves icl warn N s .getResult { s with pool := pool }
  | exit (idle : s.idle) : Moves icl warn N s .exitVeri { s with deleted := some 0 }
  | delete {count : Nat} (exiting : s.deleted = some count)
      (left : count < s.recorder.traces.length) :
      Moves icl warn N s .client { s with deleted := some (count + 1) }
  | destroy {count : Nat} {pool : Pool Unit Nat} (exiting : s.deleted = some count)
      (counted : ¬ count < s.recorder.traces.length)
      (moved : s.pool.step N (.termVeri ()) = some pool) :
      Moves icl warn N s .client { s with pool := pool }
  | goOn {pool : Pool Unit Nat}
      (inside : s.deleted = none ∨ s.pool.client () ≠ .outside)
      (moved : s.pool.step N (.client ()) = some pool) :
      Moves icl warn N s .client { s with pool := pool }
  | check {id : Nat} {job : Job Nat} {pool : Pool Unit Nat}
      (before : s.pool.worker id = .verify job) (kept : ¬ s.Deleted job.input)
      (moved : s.pool.step N (.worker id) = some pool) :
      Moves icl warn N s (.worker id)
        { s with
          recorder := { s.recorder with
            traces := s.recorder.traces.set job.input
              (checkTrace icl warn (s.recorder.traces.getD job.input [])).2 }
          pool := pool
          printed := s.printed ++
            [(job.input, (checkTrace icl warn (s.recorder.traces.getD job.input [])).1)] }
  | work {id : Nat} {pool : Pool Unit Nat} (other : ∀ job, s.pool.worker id ≠ .verify job)
      (moved : s.pool.step N (.worker id) = some pool) :
      Moves icl warn N s (.worker id) { s with pool := pool }

/-- Every step is one of the moves. The action decides which one; in `C_exitVeri` also
what is left to delete, and for a worker whether it has a trace to check. -/
theorem step_moves (taken : s.step icl warn N a = some next) : s.Moves icl warn N a next := by
  cases a with
  | call call =>
    simp only [step] at taken
    split_ifs at taken with idle
    by_cases send : call = .sendTrace
    · subst send
      simp only [sendStep] at taken
      split_ifs at taken with left
      · obtain ⟨pool, moved, rfl⟩ := Option.map_eq_some_iff.mp taken
        exact .send idle left moved
      · obtain rfl := Option.some.inj taken
        exact .refuse idle left
    · have other : (s.recorder.step call).map (fun recorder => { s with recorder := recorder }) =
          some next := by
        cases call with
        | sendTrace => exact absurd rfl send
        | _ => exact taken
      obtain ⟨recorder, moved, rfl⟩ := Option.map_eq_some_iff.mp other
      exact .record idle send moved
  | getResult =>
    simp only [step] at taken
    split_ifs at taken with idle
    obtain ⟨pool, moved, rfl⟩ := Option.map_eq_some_iff.mp taken
    exact .collect idle moved
  | exitVeri =>
    simp only [step] at taken
    split_ifs at taken with idle
    obtain rfl := Option.some.inj taken
    exact .exit idle
  | client =>
    simp only [step, clientStep] at taken
    split at taken
    · obtain ⟨pool, moved, rfl⟩ := Option.map_eq_some_iff.mp taken
      exact .goOn (.inl ‹_›) moved
    · split_ifs at taken with left
      · obtain rfl := Option.some.inj taken
        exact .delete ‹_› left
      · split at taken
        · obtain ⟨pool, moved, rfl⟩ := Option.map_eq_some_iff.mp taken
          exact .destroy ‹_› left moved
        · obtain ⟨pool, moved, rfl⟩ := Option.map_eq_some_iff.mp taken
          exact .goOn (.inr ‹_›) moved
  | worker id =>
    simp only [step] at taken
    split at taken
    · simp only [checkStep] at taken
      split_ifs at taken with deleted
      obtain ⟨pool, moved, rfl⟩ := Option.map_eq_some_iff.mp taken
      exact .check ‹_› deleted moved
    · obtain ⟨pool, moved, rfl⟩ := Option.map_eq_some_iff.mp taken
      exact .work ‹_› moved

end Moves

section Recording

variable {r q next : Recorder} {checked : List Nat}

/-- The second recorder has come from the same calls as the first, and the records of
the checked traces may have been rewritten. -/
structure AsRecorded (r q : Recorder) (checked : List Nat) : Prop where
  same : q = { r with traces := q.traces }
  length : q.traces.length = r.traces.length
  unchecked : ∀ k, k ∉ checked → q.traces[k]? = r.traces[k]?

/-- Before any check the recorders are the same. -/
theorem AsRecorded.refl (r : Recorder) : AsRecorded r r [] := ⟨rfl, rfl, fun _ _ => rfl⟩

/-- A send leaves the contents of the traces alone. -/
theorem cSendTrace_traces (r : Recorder) : r.cSendTrace.traces = r.traces := by
  unfold Recorder.cSendTrace
  split_ifs <;> rfl

/-- A call does the same to both. A record is pushed to the current trace of both, and
everything else that a call reads is equal. -/
theorem AsRecorded.step (recorded : AsRecorded r q checked) {call : Call}
    (moved : q.step call = some next) :
    ∃ last, r.step call = some last ∧ AsRecorded last next checked := by
  obtain ⟨same, length, unchecked⟩ := recorded
  generalize q.traces = traces at same length unchecked
  subst same
  cases call with
  | pmtestStart =>
    obtain rfl := Option.some.inj moved
    exact ⟨_, rfl, rfl, length, unchecked⟩
  | pmtestEnd =>
    obtain rfl := Option.some.inj moved
    exact ⟨_, rfl, rfl, length, unchecked⟩
  | sendTrace =>
    obtain rfl := Option.some.inj moved
    have sent :
        { r with traces := traces }.cSendTrace = { r.cSendTrace with traces := traces } := by
      simp only [Recorder.cSendTrace, length]
      split_ifs <;> rfl
    refine ⟨r.cSendTrace, rfl, by rw [sent], ?_, ?_⟩
    · rw [sent, cSendTrace_traces]
      exact length
    · rw [sent, cSendTrace_traces]
      exact unchecked
  | create recording =>
    simp only [Recorder.step, Recorder.create_eq, Recorder.createMetadata] at moved ⊢
    split_ifs at moved ⊢ with tracking
    · obtain ⟨trace, here, rfl⟩ := Option.map_eq_some_iff.mp moved
      refine ⟨_, Option.map_eq_some_iff.mpr ⟨trace, here, rfl⟩, rfl, ?_, fun k outside => ?_⟩
      · simp [length]
      · simp [List.getElem?_modify, unchecked k outside]
    · obtain rfl := Option.some.inj moved
      exact ⟨r, rfl, rfl, length, unchecked⟩

/-- A check rewrites its own trace. -/
theorem AsRecorded.check (recorded : AsRecorded r q checked) (trace : Nat)
    (records : List Metadata) :
    AsRecorded r { q with traces := q.traces.set trace records } (checked ++ [trace]) := by
  obtain ⟨same, length, unchecked⟩ := recorded
  refine ⟨by rw [same], by simp [length], fun k outside => ?_⟩
  obtain ⟨earlier, other⟩ : k ∉ checked ∧ k ≠ trace := by simpa using outside
  rw [List.getElem?_set_ne (Ne.symm other)]
  exact unchecked k earlier

end Recording

end Session

/-- A bound for the steps of a worker until it takes a trace from its queue, if it is
asked for nothing else. -/
def WorkerPc.toTake {τ : Type*} : WorkerPc τ → Nat
  | start | pushResult _ | setCompleted => 10
  | lock | waiting => 9
  | testTerm => 8
  | testGet => 7
  | testQueue => 6
  | checkTerm => 5
  | checkCompleted => 4
  | checkGet => 3
  | checkEmpty => 2
  | checkQueue => 1
  | _ => 0

namespace Session

section Tracks

variable {icl : Icl} {warn : Bool} {N n : Nat} {start : Recorder} {pool : Pool Unit Nat}
  {past : List SessionAction} {s next : Session} {a : SessionAction}

/-- What a session has done is what its parts do alone: the recorder has followed its
calls, the pool has been run on the traces sent, and every check has printed the
verdict of the section its trace was filled with. -/
structure Tracks (icl : Icl) (warn : Bool) (N : Nat) (start : Recorder) (pool : Pool Unit Nat)
    (past : List SessionAction) (s : Session) : Prop where
  recorded : ∃ r, run Recorder.step start (calls past) = some r ∧
    AsRecorded r s.recorder (s.printed.map Prod.fst)
  pooled : ∃ actions, run (Pool.step N) pool actions = some s.pool ∧
    Pool.passedInputs actions = s.recorder.sent
  checked : s.printed.map Prod.fst = s.pool.verified.map fun entry => entry.2.input
  verdicts : ∀ entry ∈ s.printed,
    entry.2 = verdict icl warn ((ledger (calls past)).closed.getD entry.1 [])

/-- The calls of a longer run are those of the run and of its last action. -/
theorem calls_concat (past : List SessionAction) (a : SessionAction) :
    calls (past ++ [a]) = calls past ++ calls [a] := List.filterMap_append ..

/-- What is known of the traces that were sent. -/
theorem Tracks.sent (tracks : Tracks icl warn N start pool past s)
    (initialised : Recorder.cInitVeri n = some start) :
    s.recorder.sent = List.range (min (ledger (calls past)).closed.length n) := by
  obtain ⟨r, ran, recorded⟩ := tracks.recorded
  rw [recorded.same]
  exact (follows_run initialised ran).2.sent

/-- The thread owns as many traces as it asked for. -/
theorem Tracks.owned (tracks : Tracks icl warn N start pool past s)
    (initialised : Recorder.cInitVeri n = some start) : s.recorder.traces.length = n := by
  obtain ⟨r, ran, recorded⟩ := tracks.recorded
  rw [recorded.length]
  exact (follows_run initialised ran).2.owned

/-- Only traces that were sent are checked, and no trace twice. The pool checks what it
was given, and it was given each trace once. -/
theorem Tracks.checking (positive : 0 < N) (constructed : pool.Constructed N)
    (tracks : Tracks icl warn N start pool past s)
    (initialised : Recorder.cInitVeri n = some start) :
    (∀ trace ∈ s.printed.map Prod.fst, trace ∈ s.recorder.sent) ∧
    ∀ id < N, ∀ job, s.pool.worker id = .verify job →
      job.input ∈ s.recorder.sent ∧ job.input ∉ s.printed.map Prod.fst := by
  obtain ⟨actions, ran, passed⟩ := tracks.pooled
  have distinct : (Pool.passedInputs actions).Nodup := by
    rw [passed, tracks.sent initialised]
    exact List.nodup_range
  have checks := Pool.checks_of_run positive constructed ran distinct
  rw [passed, Pool.checkedInputs, ← tracks.checked] at checks
  exact checks

/-- Closed sections stay as they are, so the verdicts of later calls agree. -/
theorem Tracks.verdicts_mono (tracks : Tracks icl warn N start pool past s)
    (sent : ∀ trace ∈ s.printed.map Prod.fst, trace ∈ s.recorder.sent)
    (initialised : Recorder.cInitVeri n = some start) (a : SessionAction) :
    ∀ entry ∈ s.printed,
      entry.2 = verdict icl warn ((ledger (calls (past ++ [a]))).closed.getD entry.1 []) := by
  intro entry member
  have given := sent entry.1 (List.mem_map_of_mem member)
  rw [tracks.sent initialised, List.mem_range] at given
  obtain ⟨more, same⟩ := closed_prefix (calls past) (calls [a])
  rw [calls_concat, ← same, List.getD_eq_getElem?_getD, List.getElem?_append_left (by omega),
    ← List.getD_eq_getElem?_getD]
  exact tracks.verdicts entry member

/-- A step of the pool that is neither a submission nor a check keeps all accounts as
they are. -/
theorem Tracks.pool_moves (tracks : Tracks icl warn N start pool past s)
    (sent : ∀ trace ∈ s.printed.map Prod.fst, trace ∈ s.recorder.sent)
    (initialised : Recorder.cInitVeri n = some start) {action : PoolAction Unit Nat}
    {moved : Pool Unit Nat} (taken : s.pool.step N action = some moved)
    (silent : Pool.passedInputs [action] = [])
    (other : ∀ id job, action = .worker id → s.pool.worker id ≠ .verify job)
    (uncalled : calls [a] = []) :
    Tracks icl warn N start pool (past ++ [a]) { s with pool := moved } := by
  obtain ⟨actions, ran, passed⟩ := tracks.pooled
  have same : calls (past ++ [a]) = calls past := by
    rw [calls_concat, uncalled, List.append_nil]
  have unverified : moved.verified = s.pool.verified := by
    rcases (Pool.step_moves taken).verified with ⟨same, _⟩ | ⟨id, job, worker, _, before, _⟩
    · exact same
    · exact absurd before (other id job worker)
  refine ⟨?_, ⟨actions ++ [action], (run_concat _).mpr ⟨_, ran, taken⟩, ?_⟩, ?_,
    tracks.verdicts_mono sent initialised a⟩
  · rw [same]
    exact tracks.recorded
  · rw [← passed, Pool.passedInputs_concat, silent, List.append_nil]
  · rw [unverified]
    exact tracks.checked

/-- A step that changes neither the recorder nor the pool. -/
theorem Tracks.of_same (tracks : Tracks icl warn N start pool past s)
    (sent : ∀ trace ∈ s.printed.map Prod.fst, trace ∈ s.recorder.sent)
    (initialised : Recorder.cInitVeri n = some start) (uncalled : calls [a] = [])
    (deleted : Option Nat) :
    Tracks icl warn N start pool (past ++ [a]) { s with deleted := deleted } := by
  refine ⟨?_, tracks.pooled, tracks.checked, tracks.verdicts_mono sent initialised a⟩
  rw [calls_concat, uncalled, List.append_nil]
  exact tracks.recorded

/-- The recorder and its model make the same call. -/
theorem Tracks.record (tracks : Tracks icl warn N start pool past s) {call : Call}
    {next : Recorder} (moved : s.recorder.step call = some next) :
    ∃ r, run Recorder.step start (calls (past ++ [.call call])) = some r ∧
      AsRecorded r next (s.printed.map Prod.fst) := by
  obtain ⟨r, ran, recorded⟩ := tracks.recorded
  obtain ⟨last, stepped, after⟩ := recorded.step moved
  refine ⟨last, ?_, after⟩
  rw [calls_concat]
  exact (run_concat _).mpr ⟨r, ran, stepped⟩

/-- Only a send gives a trace away. -/
theorem step_sent {q next : Recorder} {call : Call} (other : call ≠ .sendTrace)
    (moved : q.step call = some next) : next.sent = q.sent := by
  cases call with
  | sendTrace => exact absurd rfl other
  | create recording =>
    simp only [Recorder.step, Recorder.create_eq, Recorder.createMetadata] at moved
    split_ifs at moved
    · obtain ⟨trace, _, rfl⟩ := Option.map_eq_some_iff.mp moved
      rfl
    · obtain rfl := Option.some.inj moved
      rfl
  | pmtestStart | pmtestEnd =>
    obtain rfl := Option.some.inj moved
    rfl

/-- A check prints the verdict of the section its trace was filled with. The trace was
not checked before, so its records are still those that were recorded, and it was sent,
so its section is closed. -/
theorem Tracks.check (positive : 0 < N) (constructed : pool.Constructed N)
    (initialised : Recorder.cInitVeri n = some start)
    (tracks : Tracks icl warn N start pool past s) {id : Nat} {job : Job Nat}
    {moved : Pool Unit Nat} (before : s.pool.worker id = .verify job)
    (taken : s.pool.step N (.worker id) = some moved) :
    Tracks icl warn N start pool (past ++ [.worker id])
      { s with
        recorder := { s.recorder with
          traces := s.recorder.traces.set job.input
            (checkTrace icl warn (s.recorder.traces.getD job.input [])).2 }
        pool := moved
        printed := s.printed ++
          [(job.input, (checkTrace icl warn (s.recorder.traces.getD job.input [])).1)] } := by
  obtain ⟨sent, checking⟩ := tracks.checking positive constructed initialised
  obtain ⟨actions, ran, passed⟩ := tracks.pooled
  obtain ⟨r, recordedRun, recorded⟩ := tracks.recorded
  have follows := (follows_run initialised recordedRun).2
  have same : calls (past ++ [.worker id]) = calls past := by
    rw [calls_concat]
    exact List.append_nil _
  obtain ⟨inside, verified⟩ := Pool.verified_of_step before taken
  obtain ⟨given, unchecked⟩ := checking id inside job before
  rw [tracks.sent initialised, List.mem_range] at given
  -- the trace still holds what was recorded, and its section is closed
  have filled : s.recorder.traces.getD job.input [] =
      (ledger (calls past)).closed.getD job.input [] := by
    rw [List.getD_eq_getElem?_getD, recorded.unchecked _ unchecked,
      follows.traces job.input (by omega), Option.getD_some, List.getD_eq_getElem?_getD,
      List.getElem?_append_left (by omega), ← List.getD_eq_getElem?_getD]
  refine ⟨⟨r, by rw [same]; exact recordedRun, ?_⟩,
    ⟨actions ++ [.worker id], (run_concat _).mpr ⟨_, ran, taken⟩, ?_⟩, ?_, ?_⟩
  · rw [List.map_append]
    exact recorded.check job.input _
  · rw [← passed]
    simp [Pool.passedInputs]
  · rw [verified, List.map_append, List.map_append, tracks.checked]
    rfl
  · intro entry member
    rw [same]
    rcases List.mem_append.mp member with earlier | here
    · exact tracks.verdicts entry earlier
    · obtain rfl := List.mem_singleton.mp here
      exact congrArg (verdict icl warn) filled

/-- Every step of a session keeps to its parts.

A recording call is made by the recorder and its model alike. A send closes a section
and passes its trace to the pool, if there is a trace left. The steps of the pool are
those of the pool alone, up to the checks. -/
theorem Tracks.moves (positive : 0 < N) (constructed : pool.Constructed N)
    (initialised : Recorder.cInitVeri n = some start)
    (tracks : Tracks icl warn N start pool past s) (move : s.Moves icl warn N a next) :
    Tracks icl warn N start pool (past ++ [a]) next := by
  obtain ⟨sent, checking⟩ := tracks.checking positive constructed initialised
  have verdicts := tracks.verdicts_mono sent initialised a
  cases move with
  | record idle other moved =>
    refine ⟨tracks.record moved, ?_, tracks.checked, verdicts⟩
    rw [step_sent other moved]
    exact tracks.pooled
  | send idle left moved =>
    obtain ⟨actions, ran, passed⟩ := tracks.pooled
    refine ⟨tracks.record rfl, ⟨_, (run_concat _).mpr ⟨_, ran, moved⟩, ?_⟩, ?_, verdicts⟩
    · rw [Recorder.cSendTrace, if_neg (by omega), Pool.passedInputs_concat, passed]
      rfl
    · rcases (Pool.step_moves moved).verified with ⟨same, _⟩ | ⟨_, _, impossible, _⟩
      · rw [same]
        exact tracks.checked
      · cases impossible
  | refuse idle none =>
    refine ⟨tracks.record rfl, ?_, tracks.checked, verdicts⟩
    rw [Recorder.cSendTrace, if_pos (by omega)]
    exact tracks.pooled
  | collect idle moved | destroy exiting counted moved | goOn inside moved =>
    exact tracks.pool_moves sent initialised moved rfl
      (fun _ _ impossible => by cases impossible) rfl
  | exit idle | delete exiting left => exact tracks.of_same sent initialised rfl _
  | work other moved =>
    refine tracks.pool_moves sent initialised moved rfl (fun id job here => ?_) rfl
    obtain rfl := PoolAction.worker.inj here
    exact other job
  | check before kept taken =>
    exact tracks.check positive constructed initialised before taken

/-- The traces, the pool and what was printed in every run of a session. -/
theorem tracks_of_run (positive : 0 < N) (constructed : pool.Constructed N)
    (initialised : Recorder.cInitVeri n = some start) {actions : List SessionAction}
    (ran : run (step icl warn N) (initial start pool) actions = some s) :
    Tracks icl warn N start pool actions s :=
  run_history (Tracks icl warn N start pool)
    ⟨⟨start, rfl, .refl start⟩, ⟨[], rfl, by
      rw [show (initial start pool).recorder.sent = start.sent from rfl,
        (follows_cInitVeri initialised).sent]
      rfl⟩, by rw [initial, constructed.verified]; rfl,
      fun _ member => absurd member List.not_mem_nil⟩
    (fun _ _ _ _ tracks taken =>
      tracks.moves positive constructed initialised (step_moves taken)) ran

end Tracks

section Results

variable {icl : Icl} {warn : Bool} {N n : Nat} {start : Recorder} {pool : Pool Unit Nat}
  {s : Session}

/-- When `PMTest_GET_RESULT` returns, every section that was sent so far has been
checked once, and the verdicts printed so far are those of the sections, which are the
records made with tracking on between the sends. Nothing else was printed, and neither
the order of the threads nor what the thread recorded meanwhile matters.

The pool is quiet when the call returns, so the checked traces are the sent ones, up to
their order. Each of them was printed with the verdict of its section. -/
theorem get_result_prints_all_sections (positive : 0 < N) (constructed : pool.Constructed N)
    (initialised : Recorder.cInitVeri n = some start) {actions : List SessionAction}
    (ran : run (step icl warn N) (initial start pool) actions = some s)
    {given merged : List (Job Nat)} (returned : s.pool.client () = .getReturn given merged) :
    (s.printed.map Prod.snd).Perm
      (((ledger (calls actions)).closed.take n).map (verdict icl warn)) := by
  have tracks := tracks_of_run positive constructed initialised ran
  obtain ⟨poolActions, poolRan, passed⟩ := tracks.pooled
  obtain ⟨accounted, _, inputs⟩ := Pool.accounted_of_run positive constructed poolRan
  have barrier := Pool.barrier_of_run constructed poolRan
  have quiet := barrier.settled (by rw [returned]; rfl)
  have verified := (accounted.of_quiet quiet).2.1
  set sections := (ledger (calls actions)).closed
  have traces : (s.printed.map Prod.fst).Perm (List.range (min sections.length n)) := by
    rw [returned, show (ClientPc.getReturn given merged).toPush = [] from rfl, List.append_nil,
      passed, tracks.sent initialised] at inputs
    rw [tracks.checked, ← inputs]
    have inputsChecked := verified.map Job.input
    rwa [List.map_map] at inputsChecked
  have printed : s.printed.map Prod.snd =
      (s.printed.map Prod.fst).map fun trace => verdict icl warn (sections.getD trace []) := by
    rw [List.map_map]
    exact List.map_congr_left tracks.verdicts
  have all : ((List.range (min sections.length n)).map fun trace =>
      verdict icl warn (sections.getD trace [])) = (sections.take n).map (verdict icl warn) := by
    apply List.ext_getElem
    · simp [Nat.min_comm]
    · intro k below bound
      have inside : k < sections.length := by
        simp at bound
        omega
      simp [List.getElem?_eq_getElem inside]
  rw [printed, ← all]
  exact traces.map _

/-- The thread sends two sections and asks for the results. -/
def twoSections : List SessionAction :=
  [.call .pmtestStart, .call (.create (.assign 0 4 [] 1)), .call (.create (.persist 0 4 [] 2)),
    .call .sendTrace] ++ List.replicate 9 SessionAction.client ++
  [.call (.create (.fence [] 3)), .call .sendTrace] ++ List.replicate 9 SessionAction.client ++
  .getResult :: List.replicate 2 SessionAction.client ++
    List.replicate 29 (SessionAction.worker 0) ++ List.replicate 10 SessionAction.client

/-- The first section fails a persist check, the second one has nothing to report. -/
theorem get_result_prints_all_sections_two_sections :
    ∃ start s merged, Recorder.cInitVeri 2 = some start ∧
      run (step (Segments.segments Nat Int) false 1) (initial start Pool.started) twoSections =
        some s ∧ s.pool.client () = .getReturn [] merged ∧
      s.printed.map Prod.snd = [⟨[.persistError [] 2 0 4], false⟩, ⟨[], false⟩] ∧
      (s.printed.map Prod.snd).Perm (((ledger (calls twoSections)).closed.take 2).map
        (verdict (Segments.segments Nat Int) false)) := by
  have result := get_result_prints_all_sections Nat.zero_lt_one (Pool.started_constructed 1)
    (show Recorder.cInitVeri 2 = some _ from rfl)
    (show run (step (Segments.segments Nat Int) false 1) _ twoSections = some _ from rfl) rfl
  exact ⟨_, _, _, rfl, rfl, rfl, by decide, result⟩

end Results

section Exit

variable {icl : Icl} {warn : Bool} {N n i : Nat} {start : Recorder} {pool : Pool Unit Nat}
  {s t next : Session} {a : SessionAction}

/-- A worker is about to check a trace that has been deleted. -/
def ReadsDeleted (N : Nat) (s : Session) : Prop :=
  ∃ id < N, ∃ job, s.pool.worker id = .verify job ∧ s.Deleted job.input

/-- The thread is in `C_exitVeri`, and no worker has anything to check. -/
structure Drained (N : Nat) (s : Session) : Prop where
  exiting : s.deleted ≠ none
  emptied : s.pool.Emptied N

/-- Behind the call of `C_exitVeri` nothing is submitted and no results are asked for,
so nothing new is left to check. -/
theorem Drained.moves (drained : s.Drained N) (move : s.Moves icl warn N a next) :
    next.Drained N := by
  obtain ⟨exiting, emptied⟩ := drained
  cases move with
  | record idle | send idle | refuse idle | collect idle | exit idle =>
    exact absurd idle.2 exiting
  | delete exiting left => exact ⟨Option.some_ne_none _, emptied⟩
  | destroy _ _ moved | goOn _ moved | work _ moved | check _ _ moved =>
    refine ⟨exiting, emptied.step moved ?_ ?_⟩
    · rintro input ⟨⟩
    · rintro output ⟨⟩

/-- `C_exitVeri` can delete all traces before the workers move. -/
theorem exit_deletes (idle : s.idle) :
    ∃ later, run (step icl warn N) s (.exitVeri :: later) =
      some { s with deleted := some s.recorder.traces.length } := by
  have rounds := @reaches_rounds _ _ (step icl warn N) { s with deleted := some 0 }
    (fun count t => t = { s with deleted := some count }) s.recorder.traces.length ?_ rfl
  · obtain ⟨t, ⟨later, reached⟩, rfl⟩ := rounds
    refine ⟨later, ?_⟩
    rw [run, step, if_pos idle]
    exact reached
  · rintro count below _ rfl
    refine ⟨_, .single (a := .client) ?_, rfl⟩
    simp [step, clientStep, below]

/-- A worker with a trace in its queue can take it while the thread deletes traces. No
flag asks the worker for anything else, so each of its steps brings it closer to its
queue. -/
theorem reaches_taken (coherent : s.pool.Coherent N) (outside : s.pool.client () = .outside)
    (inside : i < N) (queued : s.pool.veriQueue i ≠ []) :
    ∃ t, Reaches (step icl warn N) s t ∧ t.deleted = s.deleted ∧
      ∃ job, t.pool.worker i = .verify job := by
  by_cases busy : ∃ job, s.pool.worker i = .verify job
  · exact ⟨s, .refl s, rfl, busy⟩
  have reached := @reaches_of_rank _ _ (step icl warn N) s
    (fun t : Session => t.deleted = s.deleted ∧ t.pool.Coherent N ∧
      t.pool.client () = .outside ∧
      (t.pool.veriQueue i ≠ [] ∨ ∃ job, t.pool.worker i = .verify job))
    (fun t => ∃ job, t.pool.worker i = .verify job) (fun t => (t.pool.worker i).toTake) ?_
    ⟨rfl, coherent, outside, Or.inl queued⟩
  · obtain ⟨t, reached, ⟨deleted, _⟩, taken⟩ := reached
    exact ⟨t, reached, deleted, taken⟩
  · rintro t ⟨deleted, coherent, outside, held⟩ missed
    have queued := held.resolve_right missed
    have term : t.pool.termSignal i = false := by
      rw [coherent.terminated i inside, outside]
      rfl
    have unasked : t.pool.getResultSignal i = false := by
      rw [coherent.barrier.signal i inside, outside]
      rfl
    have running : t.pool.worker i ≠ .finished := by
      intro done
      have ended := coherent.finished i inside done
      rw [outside] at ended
      cases ended
    obtain ⟨moved, taken, move⟩ := Pool.exists_worker_move inside (coherent.born i inside) running
      (fun away => coherent.released i inside away (by simp [outside, ClientPc.holdsMutex]))
    have stepped : t.step icl warn N (.worker i) = some { t with pool := moved } := by
      simp only [step]
      split
      · exact absurd ⟨_, ‹_›⟩ missed
      · rw [taken]
        rfl
    refine ⟨_, _, stepped, ⟨deleted, coherent.worker_moves inside move, ?_, ?_⟩, ?_⟩
    · simp only [move.frame.1]
      exact outside
    · cases move with
      | take job rest before found => exact Or.inr ⟨job, by simp⟩
      | _ => exact Or.inl queued
    · cases move with
      | test before tested =>
        refine Or.inr ?_
        cases tested <;> simp_all [WorkerPc.toTake]
      | acquire before =>
        refine Or.inr ?_
        rcases before with before | before <;> simp [before, WorkerPc.toTake]
      | take job rest before found => exact Or.inl ⟨job, by simp⟩
      | report before | store _ before => exact Or.inr (by simp [before, WorkerPc.toTake])
      | wait before empty | pass before empty => exact absurd empty queued
      | exit before set =>
        rw [term] at set
        cases set
      | verify job before => exact absurd ⟨job, before⟩ missed

/-- Calling `C_exitVeri` is safe under every schedule exactly when no trace is waiting
in a queue or being checked at that time. Otherwise some schedule lets a worker read a
trace that has been deleted.

If nothing is left, it stays so until the end. If something is left, the thread can
delete all traces before the worker moves; a worker that has a trace in hand then reads
it, and one with a trace in its queue takes it first. -/
theorem exit_is_safe_iff (positive : 0 < N) (constructed : pool.Constructed N)
    (initialised : Recorder.cInitVeri n = some start) {actions : List SessionAction}
    (ran : run (step icl warn N) (initial start pool) actions = some s) (idle : s.idle) :
    (∀ later t, run (step icl warn N) s (.exitVeri :: later) = some t → ¬ t.ReadsDeleted N) ↔
      ∀ i < N, s.pool.veriQueue i = [] ∧ (s.pool.worker i).checking = [] := by
  constructor
  · intro safe i inside
    obtain ⟨later, deleted⟩ := @exit_deletes icl warn N s idle
    -- a worker with a trace in hand is about to read it when all traces are gone
    have harmless {t : Session}
        (reached : Reaches (step icl warn N) { s with deleted := some s.recorder.traces.length } t)
        (kept : t.deleted = some s.recorder.traces.length) (job : Job Nat) :
        t.pool.worker i ≠ .verify job := by
      intro before
      obtain ⟨further, runs⟩ := reached
      have whole := run_trans _ deleted runs
      have tracks := tracks_of_run positive constructed initialised (run_trans _ ran whole)
      have sent := ((tracks.checking positive constructed initialised).2 i inside job before).1
      rw [tracks.sent initialised, List.mem_range] at sent
      refine safe _ t whole ⟨i, inside, job, before, _, kept, ?_⟩
      rw [(tracks_of_run positive constructed initialised ran).owned initialised]
      omega
    have idleHand : (s.pool.worker i).checking = [] := by
      cases pc : s.pool.worker i with
      | verify job => exact absurd pc (harmless (.refl _) rfl job)
      | _ => rfl
    refine ⟨?_, idleHand⟩
    by_contra queued
    obtain ⟨poolActions, poolRan, _⟩ :=
      (tracks_of_run positive constructed initialised ran).pooled
    obtain ⟨t, reached, kept, job, taken⟩ := @reaches_taken icl warn N i
      { s with deleted := some s.recorder.traces.length }
      (Pool.coherent_of_run positive constructed poolRan) idle.1 inside queued
    exact harmless reached kept job taken
  · intro nothing later t runs
    rw [run, step, if_pos idle, Option.bind_some] at runs
    have drained := run_invariant (Drained N) ?_
      (fun _ _ _ drained taken => drained.moves (step_moves taken)) runs
    · rintro ⟨id, inside, job, before, _⟩
      have hand := drained.emptied.checking id inside
      rw [before] at hand
      cases hand
    · refine ⟨Option.some_ne_none _, ?_, fun i below => (nothing i below).1,
        fun i below => (nothing i below).2⟩
      rw [idle.1]
      rfl

/-- The thread sends a trace and exits at once. -/
def sentOnly : List SessionAction :=
  [.call .pmtestStart, .call (.create (.fence [] 1)), .call .sendTrace] ++
    List.replicate 9 .client

/-- A trace that was just sent makes the exit unsafe. -/
theorem exit_is_safe_iff_sent_only :
    ∃ start s, Recorder.cInitVeri 1 = some start ∧
      run (step (Segments.segments Nat Int) false 1) (initial start Pool.started) sentOnly =
        some s ∧ s.idle ∧
      ¬ ∀ later t, run (step (Segments.segments Nat Int) false 1) s (.exitVeri :: later) = some t →
        ¬ t.ReadsDeleted 1 := by
  have result := exit_is_safe_iff Nat.zero_lt_one (Pool.started_constructed 1)
    (show Recorder.cInitVeri 1 = some _ from rfl)
    (show run (step (Segments.segments Nat Int) false 1) _ sentOnly = some _ from rfl)
    ⟨rfl, rfl⟩
  refine ⟨_, _, rfl, rfl, ⟨rfl, rfl⟩, fun safe => ?_⟩
  exact absurd (result.mp safe 0 Nat.zero_lt_one).1 (List.cons_ne_nil _ _)

end Exit

end Session

end PMTest

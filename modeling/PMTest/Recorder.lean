import Mathlib.Data.List.TakeWhile
import PMTest.Metadata
import PMTest.Transitions

/-!
# Recording calls and the traces they fill

A thread of the tested program owns a vector of traces, each of which is a list of
records here. `metadataPtr` points to the one that is being filled, and a recording
call appends to it if tracking is on. `C_sendTrace` hands the current trace to
`execVeri` and goes to the next one. After the last one there is none left:
`metadataPtr` becomes null, and a further send prints an error. A recording call
does not look whether there is a trace.

A ledger says what the calls mean: the records made with tracking on, divided by
the sends. The traces agree with it until a record is made behind the last send.
-/

namespace PMTest

section Records

/-- `strlen`. -/
def strlen (text : List Char) : Nat := (text.takeWhile (· ≠ '\x00')).length

/-- `strncpy`: it copies up to the terminator and fills the rest with it. -/
def strncpy (source : List Char) (count : Nat) : List Char :=
  let copied := (source.takeWhile (· ≠ '\x00')).take count
  copied ++ List.replicate (count - copied.length) '\x00'

/-- `file_offset>0 ? file_offset : 0`, where the offset is an `int`. -/
def fileOffset (fileName : List Char) : Nat :=
  (Int.bmod ((strlen fileName : Int) - filenameLen) (2 ^ 32)).toNat

/-- A new record with the fields that every recorder sets. -/
def newMetadata (type : MetadataType) (fileName : List Char) (lineNum : Nat) : Metadata where
  type := type
  lineNum := lineNum
  fileName := strncpy (fileName.drop (fileOffset fileName)) filenameLen

/-- A new record with a range. The size is a `size_t` and its field an `unsigned int`. -/
def newMetadataRange (type : MetadataType) (addr size : Nat) (fileName : List Char)
    (lineNum : Nat) : Metadata :=
  { newMetadata type fileName lineNum with
    addr := addr
    size := size % 2 ^ 32 }

/-- A new record with two ranges. -/
def newMetadataRanges (type : MetadataType) (addr size addrLate sizeLate : Nat)
    (fileName : List Char) (lineNum : Nat) : Metadata :=
  { newMetadataRange type addr size fileName lineNum with
    addrLate := addrLate
    sizeLate := sizeLate % 2 ^ 32 }

end Records

/-- The variables of a thread and the traces it owns. A pointer to a trace is its
index, and `none` is the null pointer. The last two fields are what the thread has
given away and printed. -/
structure Recorder where
  existVeriInstance : Bool
  traces : List (List Metadata)
  pmtestCurIdx : Nat
  metadataPtr : Option Nat
  sent : List Nat
  stdout : List String
  deriving DecidableEq, Repr

namespace Recorder

/-- `C_initVeri`. Without any trace it would read an unset pointer. -/
def cInitVeri (metadataVectorLen : Nat) : Option Recorder :=
  if metadataVectorLen = 0 then none
  else some
    { existVeriInstance := false
      traces := List.replicate metadataVectorLen []
      pmtestCurIdx := 0
      metadataPtr := some 0
      sent := []
      stdout := [] }

/-- `PMTest_START`. -/
def pmtestStart (s : Recorder) : Recorder := { s with existVeriInstance := true }

/-- `PMTest_END`. -/
def pmtestEnd (s : Recorder) : Recorder := { s with existVeriInstance := false }

/-- `C_sendTrace`. -/
def cSendTrace (s : Recorder) : Recorder :=
  if s.pmtestCurIdx ≥ s.traces.length then
    { s with
      stdout := s.stdout ++
        ["\x1B[31mSENDTRACE ERROR: \x1B[0mAll metadata traces have been sent.\n"] }
  else
    { s with
      sent := s.sent ++ [s.pmtestCurIdx]
      pmtestCurIdx := s.pmtestCurIdx + 1
      metadataPtr :=
        if s.pmtestCurIdx + 1 < s.traces.length then some (s.pmtestCurIdx + 1) else none }

/-- The body of a recorder: with tracking on, the record is pushed to the trace,
which is not defined for the null pointer. -/
def createMetadata (s : Recorder) (metadataVector : Option Nat) (m : Metadata) :
    Option Recorder :=
  if s.existVeriInstance then
    metadataVector.map fun trace => { s with traces := s.traces.modify trace (· ++ [m]) }
  else some s

variable (s : Recorder) (metadataVector : Option Nat) (addr size : Nat) (fileName : List Char)
  (lineNum : Nat)

-- The recorders differ in the type of their record and in the ranges that it gets.
/-- The recorder `C_createMetadata_Assign`. -/
def cCreateMetadataAssign : Option Recorder :=
  s.createMetadata metadataVector (newMetadataRange .assign addr size fileName lineNum)

/-- The recorder `C_createMetadata_Flush`. -/
def cCreateMetadataFlush : Option Recorder :=
  s.createMetadata metadataVector (newMetadataRange .flush addr size fileName lineNum)

/-- The recorder `C_createMetadata_Commit`. -/
def cCreateMetadataCommit : Option Recorder :=
  s.createMetadata metadataVector (newMetadata .commit fileName lineNum)

/-- The recorder `C_createMetadata_Barrier`. -/
def cCreateMetadataBarrier : Option Recorder :=
  s.createMetadata metadataVector (newMetadata .barrier fileName lineNum)

/-- The recorder `C_createMetadata_Fence`. -/
def cCreateMetadataFence : Option Recorder :=
  s.createMetadata metadataVector (newMetadata .fence fileName lineNum)

/-- The recorder `C_createMetadata_Persist`. -/
def cCreateMetadataPersist : Option Recorder :=
  s.createMetadata metadataVector (newMetadataRange .persist addr size fileName lineNum)

/-- The recorder `C_createMetadata_Order`, the one with two ranges. -/
def cCreateMetadataOrder (addr size addrLate sizeLate : Nat) (fileName : List Char)
    (lineNum : Nat) : Option Recorder :=
  s.createMetadata metadataVector
    (newMetadataRanges .order addr size addrLate sizeLate fileName lineNum)

/-- The recorder `C_createMetadata_TransactionBegin`. -/
def cCreateMetadataTransactionBegin : Option Recorder :=
  s.createMetadata metadataVector (newMetadata .transactionBegin fileName lineNum)

/-- The recorder `C_createMetadata_TransactionEnd`. -/
def cCreateMetadataTransactionEnd : Option Recorder :=
  s.createMetadata metadataVector (newMetadata .transactionEnd fileName lineNum)

/-- The recorder `C_createMetadata_TransactionAdd`. -/
def cCreateMetadataTransactionAdd : Option Recorder :=
  s.createMetadata metadataVector (newMetadataRange .transactionAdd addr size fileName lineNum)

/-- The recorder `C_createMetadata_Exclude`. -/
def cCreateMetadataExclude : Option Recorder :=
  s.createMetadata metadataVector (newMetadataRange .exclude addr size fileName lineNum)

/-- The recorder `C_createMetadata_Include`. -/
def cCreateMetadataInclude : Option Recorder :=
  s.createMetadata metadataVector (newMetadataRange .reinclude addr size fileName lineNum)

end Recorder

/-- A recording call with its arguments, as the macros make it. -/
inductive Recording
  | assign (addr size : Nat) (file : List Char) (line : Nat)
  | flush (addr size : Nat) (file : List Char) (line : Nat)
  | commit (file : List Char) (line : Nat)
  | barrier (file : List Char) (line : Nat)
  | fence (file : List Char) (line : Nat)
  | persist (addr size : Nat) (file : List Char) (line : Nat)
  | order (addr size addrLate sizeLate : Nat) (file : List Char) (line : Nat)
  | transactionBegin (file : List Char) (line : Nat)
  | transactionEnd (file : List Char) (line : Nat)
  | transactionAdd (addr size : Nat) (file : List Char) (line : Nat)
  | exclude (addr size : Nat) (file : List Char) (line : Nat)
  | reinclude (addr size : Nat) (file : List Char) (line : Nat)
  deriving DecidableEq, Repr

/-- The record that a call makes. -/
def Recording.metadata : Recording → Metadata
  | assign addr size file line => newMetadataRange .assign addr size file line
  | flush addr size file line => newMetadataRange .flush addr size file line
  | commit file line => newMetadata .commit file line
  | barrier file line => newMetadata .barrier file line
  | fence file line => newMetadata .fence file line
  | persist addr size file line => newMetadataRange .persist addr size file line
  | order addr size addrLate sizeLate file line =>
      newMetadataRanges .order addr size addrLate sizeLate file line
  | transactionBegin file line => newMetadata .transactionBegin file line
  | transactionEnd file line => newMetadata .transactionEnd file line
  | transactionAdd addr size file line => newMetadataRange .transactionAdd addr size file line
  | exclude addr size file line => newMetadataRange .exclude addr size file line
  | reinclude addr size file line => newMetadataRange .reinclude addr size file line

/-- What a thread does with its traces. -/
inductive Call
  | pmtestStart
  | pmtestEnd
  | create (recording : Recording)
  | sendTrace
  deriving DecidableEq, Repr

/-- The call is a recording call. -/
def Call.isCreate : Call → Bool
  | create _ => true
  | _ => false

namespace Recorder

/-- A recording call on the current trace. -/
def create (s : Recorder) : Recording → Option Recorder
  | .assign addr size file line => s.cCreateMetadataAssign s.metadataPtr addr size file line
  | .flush addr size file line => s.cCreateMetadataFlush s.metadataPtr addr size file line
  | .commit file line => s.cCreateMetadataCommit s.metadataPtr file line
  | .barrier file line => s.cCreateMetadataBarrier s.metadataPtr file line
  | .fence file line => s.cCreateMetadataFence s.metadataPtr file line
  | .persist addr size file line => s.cCreateMetadataPersist s.metadataPtr addr size file line
  | .order addr size addrLate sizeLate file line =>
      s.cCreateMetadataOrder s.metadataPtr addr size addrLate sizeLate file line
  | .transactionBegin file line => s.cCreateMetadataTransactionBegin s.metadataPtr file line
  | .transactionEnd file line => s.cCreateMetadataTransactionEnd s.metadataPtr file line
  | .transactionAdd addr size file line =>
      s.cCreateMetadataTransactionAdd s.metadataPtr addr size file line
  | .exclude addr size file line => s.cCreateMetadataExclude s.metadataPtr addr size file line
  | .reinclude addr size file line => s.cCreateMetadataInclude s.metadataPtr addr size file line

/-- Perform one call. -/
def step (s : Recorder) : Call → Option Recorder
  | .pmtestStart => some s.pmtestStart
  | .pmtestEnd => some s.pmtestEnd
  | .create recording => s.create recording
  | .sendTrace => some s.cSendTrace

/-- All recorders push the record of their call. -/
theorem create_eq (s : Recorder) (recording : Recording) :
    s.create recording = s.createMetadata s.metadataPtr recording.metadata := by
  cases recording <;> rfl

/-- The traces handed to `execVeri`, with what they hold now. -/
def handedOver (s : Recorder) : List (List Metadata) :=
  s.sent.map fun trace => s.traces.getD trace []

end Recorder

section Meaning

/-- The records made with tracking on: those before each send so far, counted from
the previous one, and those since the last send. -/
structure Ledger where
  tracking : Bool := false
  closed : List (List Metadata) := []
  current : List Metadata := []

/-- What one call adds. -/
def Ledger.step (l : Ledger) : Call → Ledger
  | .pmtestStart => { l with tracking := true }
  | .pmtestEnd => { l with tracking := false }
  | .create recording =>
      if l.tracking then { l with current := l.current ++ [recording.metadata] } else l
  | .sendTrace => { l with closed := l.closed ++ [l.current], current := [] }

/-- What the calls record. -/
def ledger (calls : List Call) : Ledger := calls.foldl Ledger.step {}

/-- The number of sends among the calls. -/
def sends (calls : List Call) : Nat := calls.count .sendTrace

/-- A call is added to what the calls before it record. -/
theorem ledger_concat (past : List Call) (call : Call) :
    ledger (past ++ [call]) = (ledger past).step call := by
  simp [ledger]

/-- Every send closes one section. -/
theorem length_closed (calls : List Call) : (ledger calls).closed.length = sends calls := by
  induction calls using List.reverseRecOn with
  | nil => rfl
  | append_singleton past call ih =>
    rw [ledger_concat, sends, List.count_append, ← sends, ← ih]
    cases call with
    | create recording =>
      simp only [Ledger.step]
      split_ifs <;> simp
    | _ => simp [Ledger.step]

/-- A closed section stays as it is. -/
theorem closed_prefix (past rest : List Call) :
    (ledger past).closed <+: (ledger (past ++ rest)).closed := by
  induction rest using List.reverseRecOn with
  | nil => simp
  | append_singleton rest call ih =>
    rw [← List.append_assoc, ledger_concat]
    refine ih.trans ?_
    cases call with
    | create recording =>
      simp only [Ledger.step]
      split_ifs <;> exact List.prefix_refl _
    | sendTrace => exact List.prefix_append _ _
    | _ => exact List.prefix_refl _

/-- Every record that is made with tracking on is made before the last trace is sent. -/
def InTime (n : Nat) (calls : List Call) : Prop :=
  ∀ past recording rest, calls = past ++ .create recording :: rest →
    (ledger past).tracking = true → sends past < n

/-- Calls are in time exactly if the call at every position is: it is enough to look at
the calls in front of each recording one. -/
theorem inTime_iff_positions (n : Nat) (calls : List Call) :
    InTime n calls ↔ ∀ k < calls.length, ∀ call ∈ calls[k]?, call.isCreate = true →
      (ledger (calls.take k)).tracking = true → sends (calls.take k) < n := by
  constructor
  · intro timely k below call found creates
    cases call with
    | create recording =>
      apply timely (calls.take k) recording (calls.drop (k + 1))
      obtain ⟨_, read⟩ := List.getElem?_eq_some_iff.mp found
      rw [← read, ← List.drop_eq_getElem_cons below, List.take_append_drop]
    | _ => cases creates
  · rintro positions past recording rest rfl
    simpa using positions past.length (by simp) (.create recording) (by simp) rfl

instance (n : Nat) (calls : List Call) : Decidable (InTime n calls) :=
  decidable_of_iff _ (inTime_iff_positions n calls).symm

/-- The last call has to be in time as well. A record among the calls is one of the
earlier calls or the last one. -/
theorem inTime_concat (n : Nat) (past : List Call) (call : Call) :
    InTime n (past ++ [call]) ↔ InTime n past ∧
      ∀ recording, call = .create recording → (ledger past).tracking = true → sends past < n := by
  constructor
  · intro timely
    constructor
    · rintro earlier recording rest rfl
      exact timely earlier recording (rest ++ [call]) (by simp)
    · rintro recording rfl
      exact timely past recording [] rfl
  · rintro ⟨timely, last⟩ earlier recording rest split
    cases rest using List.reverseRecOn with
    | nil =>
      obtain ⟨rfl, same⟩ := List.append_inj' split rfl
      exact last recording (List.head_eq_of_cons_eq same)
    | append_singleton rest final =>
      rw [← List.cons_append, ← List.append_assoc] at split
      obtain ⟨same, _⟩ := List.append_inj' split rfl
      exact timely earlier recording rest same

end Meaning

section Follows

/-- The thread owns `n` traces and has followed the ledger so far. -/
structure Follows (n : Nat) (l : Ledger) (s : Recorder) : Prop where
  tracking : s.existVeriInstance = l.tracking
  owned : s.traces.length = n
  index : s.pmtestCurIdx = min l.closed.length n
  pointer : s.metadataPtr = if l.closed.length < n then some l.closed.length else none
  sent : s.sent = List.range (min l.closed.length n)
  traces : ∀ k < n, s.traces[k]? = some ((l.closed ++ [l.current]).getD k [])

variable {n : Nat} {l : Ledger} {s : Recorder}

/-- A thread that owns its traces starts on the empty ledger. -/
theorem follows_cInitVeri {start : Recorder} (initialised : Recorder.cInitVeri n = some start) :
    Follows n {} start := by
  unfold Recorder.cInitVeri at initialised
  split_ifs at initialised with missing
  obtain rfl := Option.some.inj initialised
  have positive : 0 < n := Nat.pos_of_ne_zero missing
  refine ⟨rfl, by simp, by simp, by simp [positive], by simp, fun k below => ?_⟩
  cases k <;> simp [below]

/-- An empty section at the end is as good as none. -/
theorem getD_concat_nil (sections : List (List Metadata)) (k : Nat) :
    (sections ++ [[]]).getD k [] = sections.getD k [] := by
  induction sections generalizing k with
  | nil => cases k <;> simp
  | cons first rest ih =>
    cases k with
    | zero => rfl
    | succ k => exact ih k

/-- A send closes the section of the current trace, if there is one. Behind the last
trace it prints an error, and the sections that it closes are handed to nobody. -/
theorem Follows.cSendTrace (follows : Follows n l s) :
    Follows n (l.step .sendTrace) s.cSendTrace := by
  obtain ⟨tracking, owned, index, pointer, sent, traces⟩ := follows
  have extended (k : Nat) (below : k < n) :
      s.traces[k]? = some ((l.closed ++ [l.current] ++ [[]]).getD k []) := by
    rw [traces k below, getD_concat_nil]
  have counted : (l.step .sendTrace).closed.length = l.closed.length + 1 := by
    simp [Ledger.step]
  unfold Recorder.cSendTrace
  by_cases room : l.closed.length < n
  · have here : s.pmtestCurIdx = l.closed.length := by omega
    rw [if_neg (by omega)]
    refine ⟨tracking, owned, ?_, ?_, ?_, extended⟩
    · rw [counted, Nat.min_eq_left room, ← here]
    · rw [counted, here, owned]
    · rw [counted, sent, here, Nat.min_eq_left room.le, Nat.min_eq_left room, List.range_succ]
  · rw [if_pos (by omega)]
    refine ⟨tracking, owned, ?_, ?_, ?_, extended⟩
    · rw [counted, index]
      omega
    · rw [counted, pointer, if_neg room, if_neg (by omega)]
    · rw [counted, sent, Nat.min_eq_right (by omega), Nat.min_eq_right (by omega)]

/-- A recording call appends to the section of the current trace, which exists because
the call is in time. With tracking off it does nothing. -/
theorem Follows.create (follows : Follows n l s) (recording : Recording)
    (timely : l.tracking = true → l.closed.length < n) :
    ∃ next, s.create recording = some next ∧ Follows n (l.step (.create recording)) next := by
  by_cases tracked : l.tracking = true
  · have room := timely tracked
    have enabled : s.existVeriInstance = true := follows.tracking.trans tracked
    have here : s.metadataPtr = some l.closed.length := by rw [follows.pointer, if_pos room]
    have pushed : s.create recording = some { s with
        traces := s.traces.modify l.closed.length (· ++ [recording.metadata]) } := by
      rw [s.create_eq, Recorder.createMetadata, if_pos enabled, here, Option.map_some]
    obtain ⟨tracking, owned, index, pointer, sent, traces⟩ := follows
    rw [Ledger.step, if_pos tracked]
    refine ⟨_, pushed, tracking, by simpa using owned, index, pointer, sent, fun k below => ?_⟩
    rw [List.getElem?_modify, traces k below]
    rcases Nat.lt_trichotomy k l.closed.length with closed | rfl | behind
    · simp [List.getElem?_append_left closed, closed.ne']
    · simp
    · have empty (last : List Metadata) : (l.closed ++ [last])[k]? = none :=
        List.getElem?_eq_none (by rw [List.length_append]; exact behind)
      simp [empty, behind.ne]
  · have disabled : ¬ s.existVeriInstance = true := by rwa [follows.tracking]
    refine ⟨s, ?_, ?_⟩
    · rw [s.create_eq, Recorder.createMetadata, if_neg disabled]
    · rw [Ledger.step, if_neg tracked]
      exact follows

/-- Without a current trace it fails. -/
theorem Follows.create_eq_none (follows : Follows n l s) (recording : Recording)
    (tracked : l.tracking = true) (exhausted : n ≤ l.closed.length) :
    s.create recording = none := by
  rw [s.create_eq, Recorder.createMetadata, follows.tracking, if_pos tracked, follows.pointer,
    if_neg (Nat.not_lt.mpr exhausted), Option.map_none]

/-- A call that is in time keeps the thread on the ledger. -/
theorem Follows.step {past : List Call} {call : Call} (follows : Follows n (ledger past) s)
    (timely : InTime n (past ++ [call])) :
    ∃ next, s.step call = some next ∧ Follows n (ledger (past ++ [call])) next := by
  rw [ledger_concat]
  cases call with
  | pmtestStart =>
    obtain ⟨_, owned, index, pointer, sent, traces⟩ := follows
    exact ⟨s.pmtestStart, rfl, rfl, owned, index, pointer, sent, traces⟩
  | pmtestEnd =>
    obtain ⟨_, owned, index, pointer, sent, traces⟩ := follows
    exact ⟨s.pmtestEnd, rfl, rfl, owned, index, pointer, sent, traces⟩
  | create recording =>
    apply follows.create recording
    intro tracked
    rw [length_closed]
    exact ((inTime_concat n past _).mp timely).2 recording rfl tracked
  | sendTrace => exact ⟨s.cSendTrace, rfl, follows.cSendTrace⟩

/-- A call that has a result is in time: behind the last send a tracked record would
have been pushed to the null pointer. -/
theorem Follows.inTime {past : List Call} {call : Call} {next : Recorder}
    (follows : Follows n (ledger past) s) (timely : InTime n past)
    (moved : s.step call = some next) : InTime n (past ++ [call]) := by
  apply (inTime_concat n past call).mpr
  refine ⟨timely, ?_⟩
  rintro recording rfl tracked
  by_contra late
  have stuck : s.create recording = none :=
    follows.create_eq_none recording tracked (by rw [length_closed]; omega)
  exact absurd (moved.symm.trans stuck) (by simp)

variable {start : Recorder} (initialised : Recorder.cInitVeri n = some start) {calls : List Call}
include initialised

/-- Every run is in time and follows the ledger: a call that was too late has no result,
so it cannot have been part of the run. -/
theorem follows_run {last : Recorder}
    (ran : Transitions.run Recorder.step start calls = some last) :
    InTime n calls ∧ Follows n (ledger calls) last := by
  apply Transitions.run_history (fun past s => InTime n past ∧ Follows n (ledger past) s) _ _ ran
  · exact ⟨fun past recording rest split => by simp at split, follows_cInitVeri initialised⟩
  · rintro past s call next ⟨timely, follows⟩ moved
    have still := follows.inTime timely moved
    obtain ⟨_, same, kept⟩ := follows.step still
    obtain rfl := Option.some.inj (moved.symm.trans same)
    exact ⟨still, kept⟩

/-- Calls that are in time can be performed, by induction from the last call. -/
theorem run_of_inTime (timely : InTime n calls) :
    ∃ last, Transitions.run Recorder.step start calls = some last := by
  induction calls using List.reverseRecOn with
  | nil => exact ⟨start, rfl⟩
  | append_singleton past call ih =>
    obtain ⟨middle, ran⟩ := ih ((inTime_concat n past call).mp timely).1
    obtain ⟨next, moved, _⟩ := (follows_run initialised ran).2.step timely
    exact ⟨next, (Transitions.run_concat _).mpr ⟨middle, ran, moved⟩⟩

end Follows

section Traces

variable {n : Nat}

/-- The traces that were handed over hold the closed sections, as many as there are
traces. -/
theorem Follows.handedOver {l : Ledger} {s : Recorder} (follows : Follows n l s) :
    s.handedOver = l.closed.take n := by
  apply List.ext_getElem?
  intro k
  rw [Recorder.handedOver, List.getElem?_map, follows.sent, List.getElem?_take]
  by_cases below : k < min l.closed.length n
  · have first : k < l.closed.length := by omega
    have owned : k < n := by omega
    rw [List.getElem?_range below, if_pos owned, Option.map_some, List.getD_eq_getElem?_getD,
      follows.traces k owned, List.getD_eq_getElem?_getD, List.getElem?_append_left first,
      List.getElem?_eq_getElem first]
    rfl
  · rw [List.getElem?_eq_none (by rw [List.length_range]; omega), Option.map_none]
    split_ifs with owned
    · exact (List.getElem?_eq_none (by omega)).symm
    · rfl

/-- A trace that was handed over is never written again, since a closed section stays as
it is. -/
theorem Follows.sent_unchanged {past rest : List Call} {middle last : Recorder}
    (before : Follows n (ledger past) middle) (after : Follows n (ledger (past ++ rest)) last)
    (trace : Nat) (given : trace ∈ middle.sent) : last.traces[trace]? = middle.traces[trace]? := by
  rw [before.sent, List.mem_range] at given
  have closed : trace < (ledger past).closed.length := by omega
  obtain ⟨more, same⟩ := closed_prefix past rest
  rw [before.traces trace (by omega), after.traces trace (by omega), ← same,
    List.getD_eq_getElem?_getD, List.getD_eq_getElem?_getD, List.append_assoc,
    List.getElem?_append_left closed, List.getElem?_append_left closed]

/-- Every record lands in exactly one unsent trace: no recording call meets a null
trace, the traces handed over are the sections between the sends, and they stay as
they were when they were handed over. -/
def KeptApart (n : Nat) (calls : List Call) : Prop :=
  ∃ start last, Recorder.cInitVeri n = some start ∧
    Transitions.run Recorder.step start calls = some last ∧
    last.handedOver = (ledger calls).closed.take n ∧
    ∀ past rest middle, calls = past ++ rest →
      Transitions.run Recorder.step start past = some middle →
      ∀ trace ∈ middle.sent, last.traces[trace]? = middle.traces[trace]?

/-- Every record lands in one unsent trace, and the traces that were handed over stay as
they were, exactly for the calls that record nothing with tracking on behind the last
send that has a trace. Such calls can be performed and follow the ledger; and calls that
can be performed are such calls. -/
theorem kept_apart_iff_in_time (positive : 0 < n) (calls : List Call) :
    KeptApart n calls ↔ InTime n calls := by
  constructor
  · rintro ⟨start, last, initialised, ran, _⟩
    exact (follows_run initialised ran).1
  · intro timely
    have initialised : ∃ start, Recorder.cInitVeri n = some start := by
      rw [Recorder.cInitVeri, if_neg (by omega)]
      exact ⟨_, rfl⟩
    obtain ⟨start, initialised⟩ := initialised
    obtain ⟨last, ran⟩ := run_of_inTime initialised timely
    have follows := (follows_run initialised ran).2
    refine ⟨start, last, initialised, ran, follows.handedOver, ?_⟩
    rintro past rest middle rfl reached trace given
    exact (follows_run initialised reached).2.sent_unchanged follows trace given

/-- Two traces and three sends, as in the first test of the repository. -/
def threeSends : List Call :=
  [.pmtestStart, .create (.fence [] 1), .sendTrace, .create (.assign 0 4 [] 2), .sendTrace,
    .sendTrace, .pmtestEnd, .create (.fence [] 3)]

/-- The third send has no trace left, and the record behind it is made with tracking
off. -/
theorem kept_apart_iff_in_time_three_sends :
    InTime 2 threeSends ∧ KeptApart 2 threeSends ∧
      (ledger threeSends).closed =
        [[newMetadata .fence [] 1], [newMetadataRange .assign 0 4 [] 2], []] := by
  have timely : InTime 2 threeSends := by decide
  exact ⟨timely, (kept_apart_iff_in_time (by decide) threeSends).mpr timely, rfl⟩

/-- A record behind the last send is pushed to the null pointer. -/
theorem record_behind_last_send :
    ∃ start middle, Recorder.cInitVeri 1 = some start ∧
      Transitions.run Recorder.step start [.pmtestStart, .sendTrace] = some middle ∧
      middle.existVeriInstance = true ∧ middle.metadataPtr = none ∧
      middle.step (.create (.fence [] 1)) = none ∧
      ¬ KeptApart 1 [.pmtestStart, .sendTrace, .create (.fence [] 1)] := by
  refine ⟨_, _, rfl, rfl, rfl, rfl, rfl, ?_⟩
  rintro ⟨start, last, initialised, ran, _⟩
  obtain rfl := Option.some.inj initialised
  cases ran

end Traces

end PMTest

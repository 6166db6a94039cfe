import Mathlib.Data.List.ReduceOption
import PMTest.Metadata
import PMTest.Transitions

/-!
# The kernel FIFO and its two ends

Kernel threads write records into a bounded FIFO, and one process reads them back
one at a time. A writer that has filled the FIFO waits until half of it is free
again; the flag `asleep` tells the reader that somebody waits.

Every FIFO operation, every access of `asleep`, the wake-up and the test of the
wait are separate steps. A wait may be interrupted by a signal. Of the FIFO it is
assumed that a put appends unless the FIFO is full and that a read removes the
oldest record; of the wait queue, that a wait returns at once if its condition
holds, that a wake-up makes the blocked threads test it again, and that a blocked
thread does nothing without a wake-up or a signal.

The test for free space in front of a put, the put and the test behind it are not
one step, so what keeps a record from being dropped is that nobody enters with a
full FIFO. One writer whose waits are not interrupted ensures that itself. In
general no record is lost exactly along the runs in which every test and every put
finds room.
-/

namespace PMTest

open Transitions

/-- `KFIFO_LEN`. -/
def kfifoLen : Nat := 1024

/-- `KFIFO_THRESHOLD_LEN`, half of the maximum size. -/
def kfifoThresholdLen : Nat := kfifoLen / 2

/-- Where a kernel thread is in `PMTestFifoWrite`. -/
inductive WriterPc
  | outside
  /-- In front of the first test of `kfifo_avail`. -/
  | testAvail (input : Metadata)
  | put (input : Metadata)
  /-- In front of the second test of `kfifo_avail`. -/
  | testFull
  | setAsleep
  /-- In `wait_event_interruptible`, about to test the condition. -/
  | wait
  /-- In `wait_event_interruptible`, with no wake-up pending. -/
  | blocked
  deriving DecidableEq, Repr

/-- The record a thread has been called with and has not come to put yet. -/
def WriterPc.pending : WriterPc → List Metadata
  | .testAvail input | .put input => [input]
  | _ => []

/-- Where the reading process is in `PMTestDeviceRead`, with the record that was
copied to its buffer. -/
inductive ReaderPc
  | outside
  | copy
  | testAsleep (copied : Option Metadata)
  | testAvail (copied : Option Metadata)
  | wakeUp (copied : Option Metadata)
  | clearAsleep (copied : Option Metadata)
  | done (copied : Option Metadata)
  deriving DecidableEq, Repr

/-- The reader is in front of `asleep = 0`. -/
def ReaderPc.clearing : ReaderPc → Bool
  | .clearAsleep _ => true
  | _ => false

/-- The state of the module. `puts` and `reads` are the history: the records that
were put, with the thread that put them, and what every copy to the reader gave. -/
structure KernelFifo (ω : Type*) where
  fifo : List Metadata
  asleep : Bool
  writer : ω → WriterPc
  reader : ReaderPc
  puts : List (ω × Metadata)
  reads : List (Option Metadata)

/-- What may happen next: a call, the next step inside a call, or a signal that
ends a wait. -/
inductive FifoAction (ω : Type*)
  | write (w : ω) (input : Metadata)
  | writer (w : ω)
  | signal (w : ω)
  | read
  | reader
  deriving DecidableEq, Repr

namespace KernelFifo

variable {ω : Type*}

/-- The state after `kC_initPMTestDevice`. -/
def initial : KernelFifo ω where
  fifo := []
  asleep := false
  writer := fun _ => .outside
  reader := .outside
  puts := []
  reads := []

/-- `kfifo_avail`. -/
def avail (s : KernelFifo ω) : Nat := kfifoLen - s.fifo.length

/-- The records the reader has received. -/
def received (s : KernelFifo ω) : List Metadata := s.reads.reduceOption

/-- `wake_up_interruptible`: the blocked threads test their condition again. -/
def wakeUpInterruptible (s : KernelFifo ω) : KernelFifo ω :=
  { s with writer := fun w => if s.writer w = .blocked then .wait else s.writer w }

variable [DecidableEq ω]

/-- One thread goes to its next position. -/
def writerAt (s : KernelFifo ω) (w : ω) (pc : WriterPc) : KernelFifo ω :=
  { s with writer := Function.update s.writer w pc }

/-- The next step of a thread inside `PMTestFifoWrite`. -/
def pmTestFifoWrite (s : KernelFifo ω) (w : ω) : Option (KernelFifo ω) :=
  match s.writer w with
  | .outside => none
  | .testAvail input => some (s.writerAt w (if 0 < s.avail then .put input else .testFull))
  | .put input =>
      some (if 0 < s.avail then
          { s.writerAt w .testFull with
            fifo := s.fifo ++ [input]
            puts := s.puts ++ [(w, input)] }
        else s.writerAt w .testFull)
  | .testFull => some (s.writerAt w (if s.avail = 0 then .setAsleep else .outside))
  | .setAsleep => some { s.writerAt w .wait with asleep := true }
  | .wait =>
      some (s.writerAt w (if kfifoThresholdLen ≤ s.avail then .outside else .blocked))
  | .blocked => none

/-- The next step of the reader inside `PMTestDeviceRead`. -/
def pmTestDeviceRead (s : KernelFifo ω) : Option (KernelFifo ω) :=
  match s.reader with
  | .outside => none
  | .copy =>
      some { s with
        fifo := s.fifo.tail
        reads := s.reads ++ [s.fifo.head?]
        reader := .testAsleep s.fifo.head? }
  | .testAsleep copied =>
      some { s with reader := if s.asleep then .testAvail copied else .done copied }
  | .testAvail copied =>
      some { s with
        reader := if kfifoThresholdLen ≤ s.avail then .wakeUp copied else .done copied }
  | .wakeUp copied => some { s.wakeUpInterruptible with reader := .clearAsleep copied }
  | .clearAsleep copied => some { s with asleep := false, reader := .done copied }
  | .done _ => some { s with reader := .outside }

/-- One step of the system. -/
def step (s : KernelFifo ω) : FifoAction ω → Option (KernelFifo ω)
  | .write w input =>
      if s.writer w = .outside then some (s.writerAt w (.testAvail input)) else none
  | .writer w => s.pmTestFifoWrite w
  | .signal w =>
      if s.writer w = .wait ∨ s.writer w = .blocked then some (s.writerAt w .outside) else none
  | .read => if s.reader = .outside then some { s with reader := .copy } else none
  | .reader => s.pmTestDeviceRead

/-- The moves of the system one by one, each with what it found. -/
inductive Moves (s : KernelFifo ω) : FifoAction ω → KernelFifo ω → Prop
  | enter (w : ω) (input : Metadata) (before : s.writer w = .outside) :
      Moves s (.write w input) (s.writerAt w (.testAvail input))
  | findRoom (w : ω) (input : Metadata) (before : s.writer w = .testAvail input)
      (room : 0 < s.avail) : Moves s (.writer w) (s.writerAt w (.put input))
  | skip (w : ω) (input : Metadata) (before : s.writer w = .testAvail input)
      (full : ¬ 0 < s.avail) : Moves s (.writer w) (s.writerAt w .testFull)
  | append (w : ω) (input : Metadata) (before : s.writer w = .put input)
      (room : 0 < s.avail) :
      Moves s (.writer w) { s.writerAt w .testFull with
        fifo := s.fifo ++ [input]
        puts := s.puts ++ [(w, input)] }
  | drop (w : ω) (input : Metadata) (before : s.writer w = .put input)
      (full : ¬ 0 < s.avail) : Moves s (.writer w) (s.writerAt w .testFull)
  | findFull (w : ω) (before : s.writer w = .testFull) (full : s.avail = 0) :
      Moves s (.writer w) (s.writerAt w .setAsleep)
  | leave (w : ω) (before : s.writer w = .testFull) (room : s.avail ≠ 0) :
      Moves s (.writer w) (s.writerAt w .outside)
  | setAsleep (w : ω) (before : s.writer w = .setAsleep) :
      Moves s (.writer w) { s.writerAt w .wait with asleep := true }
  | waitOver (w : ω) (before : s.writer w = .wait) (free : kfifoThresholdLen ≤ s.avail) :
      Moves s (.writer w) (s.writerAt w .outside)
  | block (w : ω) (before : s.writer w = .wait) (short : ¬ kfifoThresholdLen ≤ s.avail) :
      Moves s (.writer w) (s.writerAt w .blocked)
  | interrupt (w : ω) (before : s.writer w = .wait ∨ s.writer w = .blocked) :
      Moves s (.signal w) (s.writerAt w .outside)
  | read (before : s.reader = .outside) : Moves s .read { s with reader := .copy }
  | copy (before : s.reader = .copy) :
      Moves s .reader { s with
        fifo := s.fifo.tail
        reads := s.reads ++ [s.fifo.head?]
        reader := .testAsleep s.fifo.head? }
  | findAsleep (copied : Option Metadata) (before : s.reader = .testAsleep copied)
      (set : s.asleep = true) : Moves s .reader { s with reader := .testAvail copied }
  | findAwake (copied : Option Metadata) (before : s.reader = .testAsleep copied)
      (clear : s.asleep = false) : Moves s .reader { s with reader := .done copied }
  | findFree (copied : Option Metadata) (before : s.reader = .testAvail copied)
      (free : kfifoThresholdLen ≤ s.avail) : Moves s .reader { s with reader := .wakeUp copied }
  | findShort (copied : Option Metadata) (before : s.reader = .testAvail copied)
      (short : ¬ kfifoThresholdLen ≤ s.avail) : Moves s .reader { s with reader := .done copied }
  | wakeUp (copied : Option Metadata) (before : s.reader = .wakeUp copied) :
      Moves s .reader { s.wakeUpInterruptible with reader := .clearAsleep copied }
  | clearAsleep (copied : Option Metadata) (before : s.reader = .clearAsleep copied) :
      Moves s .reader { s with asleep := false, reader := .done copied }
  | finish (copied : Option Metadata) (before : s.reader = .done copied) :
      Moves s .reader { s with reader := .outside }

variable {s next : KernelFifo ω} {a : FifoAction ω}

/-- Every step is one of the moves. The action and the position of its thread decide
which one. -/
theorem step_moves (taken : s.step a = some next) : s.Moves a next := by
  cases a with
  | write w input =>
    simp only [step] at taken
    split at taken
    · cases taken
      exact .enter w input ‹_›
    · cases taken
  | writer w =>
    simp only [step, pmTestFifoWrite] at taken
    split at taken
    case h_1 => cases taken
    case h_2 input before =>
      cases taken
      split
      · exact .findRoom w input before ‹_›
      · exact .skip w input before ‹_›
    case h_3 input before =>
      cases taken
      split
      · exact .append w input before ‹_›
      · exact .drop w input before ‹_›
    case h_4 before =>
      cases taken
      split
      · exact .findFull w before ‹_›
      · exact .leave w before ‹_›
    case h_5 before =>
      cases taken
      exact .setAsleep w before
    case h_6 before =>
      cases taken
      split
      · exact .waitOver w before ‹_›
      · exact .block w before ‹_›
    case h_7 => cases taken
  | signal w =>
    simp only [step] at taken
    split at taken
    · cases taken
      exact .interrupt w ‹_›
    · cases taken
  | read =>
    simp only [step] at taken
    split at taken
    · cases taken
      exact .read ‹_›
    · cases taken
  | reader =>
    simp only [step, pmTestDeviceRead] at taken
    split at taken
    case h_1 => cases taken
    case h_2 before =>
      cases taken
      exact .copy before
    case h_3 copied before =>
      cases taken
      split
      · exact .findAsleep copied before ‹_›
      · exact .findAwake copied before (Bool.not_eq_true _ ▸ ‹_›)
    case h_4 copied before =>
      cases taken
      split
      · exact .findFree copied before ‹_›
      · exact .findShort copied before ‹_›
    case h_5 copied before =>
      cases taken
      exact .wakeUp copied before
    case h_6 copied before =>
      cases taken
      exact .clearAsleep copied before
    case h_7 copied before =>
      cases taken
      exact .finish copied before

section Contents

/-- What was received and what is still queued is what was put, in order, and the
FIFO never holds more than its capacity. -/
structure Conserved (s : KernelFifo ω) : Prop where
  order : s.received ++ s.fifo = s.puts.map Prod.snd
  bound : s.fifo.length ≤ kfifoLen

omit [DecidableEq ω] in
/-- At the start nothing was put and nothing is queued. -/
theorem conserved_initial : (initial : KernelFifo ω).Conserved :=
  ⟨rfl, Nat.zero_le _⟩

/-- A put appends on both sides and a copy moves the oldest record. -/
theorem Conserved.moves (conserved : s.Conserved) (move : s.Moves a next) : next.Conserved := by
  obtain ⟨order, bound⟩ := conserved
  cases move with
  | append w input before room =>
    simp only [avail] at room
    refine ⟨?_, ?_⟩
    · simp only [received, writerAt, ← List.append_assoc, List.map_append, List.map_singleton,
        ← order]
    · rw [List.length_append, List.length_singleton]
      omega
  | copy before =>
    refine ⟨?_, ?_⟩
    · rw [← order]
      cases queued : s.fifo <;> simp [received, List.reduceOption_append]
    · rw [List.length_tail]
      omega
  | _ => exact ⟨order, bound⟩

/-- The order of the records is kept along every run. -/
theorem conserved_of_run {actions : List (FifoAction ω)}
    (ran : run step initial actions = some s) : s.Conserved :=
  run_invariant Conserved conserved_initial
    (fun _ _ _ conserved taken => conserved.moves (step_moves taken)) ran

end Contents

section Account

variable (s) in
/-- The records one thread has put. -/
def putsOf (w : ω) : List Metadata := (s.puts.filter fun entry => entry.1 = w).map Prod.snd

variable (s) in
/-- The records one thread has put, and the one it is about to put. -/
def account (w : ω) : List Metadata := s.putsOf w ++ (s.writer w).pending

/-- The records one thread has passed to `PMTestFifoWrite`. -/
def passedBy (w : ω) (actions : List (FifoAction ω)) : List Metadata :=
  actions.filterMap fun
    | .write v input => if v = w then some input else none
    | _ => none

/-- A thread that has not put its record yet finds room in the FIFO. -/
def HasRoom (s : KernelFifo ω) : FifoAction ω → Prop
  | .writer w => (s.writer w).pending ≠ [] → 0 < s.avail
  | _ => True

instance (s : KernelFifo ω) : ∀ a, Decidable (HasRoom s a)
  | .writer w => inferInstanceAs (Decidable ((s.writer w).pending ≠ [] → 0 < s.avail))
  | .write .. | .signal _ | .read | .reader => inferInstanceAs (Decidable True)

/-- A thread that goes on with the same record pending leaves all pending records
alone. -/
theorem pending_writerAt {w : ω} {pc : WriterPc} (same : pc.pending = (s.writer w).pending)
    (v : ω) : ((s.writerAt w pc).writer v).pending = (s.writer v).pending := by
  by_cases mover : v = w
  · simp [mover, writerAt, same]
  · simp [writerAt, Function.update_of_ne mover]

omit [DecidableEq ω] in
/-- Waking a thread leaves all pending records alone. -/
theorem pending_wakeUp (v : ω) :
    (s.wakeUpInterruptible.writer v).pending = (s.writer v).pending := by
  simp only [wakeUpInterruptible]
  split
  · rename_i blocked
    rw [blocked]
    rfl
  · rfl

/-- The account of a thread depends on what was put and on what it has pending. -/
theorem account_congr (puts : next.puts = s.puts)
    (pending : ∀ v, (next.writer v).pending = (s.writer v).pending) (v : ω) :
    next.account v = s.account v := by
  rw [account, account, putsOf, putsOf, puts, pending]

/-- A call adds its record to the account of its thread. -/
theorem account_enter {w : ω} {input : Metadata} (before : s.writer w = .outside) (v : ω) :
    (s.writerAt w (.testAvail input)).account v =
      s.account v ++ passedBy v [.write w input] := by
  by_cases mover : w = v
  · subst mover
    simp [account, putsOf, writerAt, before, passedBy, WriterPc.pending]
  · simp [account, putsOf, writerAt, mover, passedBy, Function.update_of_ne (Ne.symm mover)]

/-- A put moves the pending record of its thread to the records it has put. -/
theorem account_append {w : ω} {input : Metadata} (before : (s.writer w).pending = [input])
    (v : ω) :
    ({ s.writerAt w .testFull with
        fifo := s.fifo ++ [input]
        puts := s.puts ++ [(w, input)] } : KernelFifo ω).account v = s.account v := by
  by_cases mover : w = v
  · subst mover
    rw [account, account, before]
    simp [putsOf, writerAt, WriterPc.pending]
  · simp [account, putsOf, writerAt, mover, Function.update_of_ne (Ne.symm mover)]

/-- A record that is skipped leaves the account of its thread, and no other
account changes. -/
theorem account_skip {w : ω} {input : Metadata} (before : (s.writer w).pending = [input]) :
    s.account w = (s.writerAt w .testFull).account w ++ [input] ∧
      ∀ v, ((s.writerAt w .testFull).account v).Sublist (s.account v) := by
  have lost : s.account w = (s.writerAt w .testFull).account w ++ [input] := by
    rw [account, before]
    simp [account, putsOf, writerAt, WriterPc.pending]
  refine ⟨lost, fun v => ?_⟩
  by_cases mover : v = w
  · rw [mover, lost]
    exact List.sublist_append_left _ _
  · simp [account, putsOf, writerAt, Function.update_of_ne mover]

/-- How the accounts change. A call adds its record. Any other step leaves them alone
unless its thread finds no room for a pending record, which is then lost.

The cases are the moves. Most of them change neither what was put nor what is pending; a
put moves a record from one to the other. -/
theorem account_moves (move : s.Moves a next) :
    (HasRoom s a ∧ ∀ v, next.account v = s.account v ++ passedBy v [a]) ∨
    (¬ HasRoom s a ∧ (∀ v, (next.account v).Sublist (s.account v)) ∧ (∀ v, passedBy v [a] = []) ∧
      ∃ w input, s.account w = next.account w ++ [input]) := by
  have quiet (room : HasRoom s a) (silent : ∀ v, passedBy v [a] = [])
      (same : ∀ v, next.account v = s.account v) :
      HasRoom s a ∧ ∀ v, next.account v = s.account v ++ passedBy v [a] :=
    ⟨room, fun v => by rw [silent, List.append_nil, same]⟩
  cases move with
  | enter w input before =>
    exact Or.inl ⟨trivial, account_enter before⟩
  | findRoom w input before room =>
    have same : (WriterPc.put input).pending = (s.writer w).pending := by rw [before]; rfl
    exact Or.inl (quiet (fun _ => room) (fun _ => rfl)
      (account_congr rfl (pending_writerAt same)))
  | append w input before room =>
    have pending : (s.writer w).pending = [input] := by rw [before]; rfl
    exact Or.inl (quiet (fun _ => room) (fun _ => rfl) (account_append pending))
  | skip w input before full | drop w input before full =>
    have pending : (s.writer w).pending = [input] := by rw [before]; rfl
    obtain ⟨lost, shorter⟩ := account_skip pending
    have crowded : ¬ HasRoom s (.writer w) := fun room => full (room (by simp [pending]))
    exact Or.inr ⟨crowded, shorter, fun _ => rfl, w, input, lost⟩
  | findFull w before _ | leave w before _ | setAsleep w before | waitOver w before _
  | block w before _ =>
    have nothing : (s.writer w).pending = [] := by rw [before]; rfl
    exact Or.inl (quiet (absurd nothing) (fun _ => rfl)
      (account_congr rfl (pending_writerAt nothing.symm)))
  | interrupt w before =>
    have nothing : (s.writer w).pending = [] := by
      cases before with
      | inl waiting => rw [waiting]; rfl
      | inr blocked => rw [blocked]; rfl
    exact Or.inl (quiet trivial (fun _ => rfl)
      (account_congr rfl (pending_writerAt nothing.symm)))
  | wakeUp copied before =>
    exact Or.inl (quiet trivial (fun _ => rfl)
      (account_congr rfl pending_wakeUp))
  | _ => exact Or.inl (quiet trivial (fun _ => rfl) fun _ => rfl)

end Account

section Filling

variable {w : ω} {n : Nat} {asleep : Bool} {pc : WriterPc} {r : ReaderPc}

/-- The action is not the one that clears `asleep`. -/
def LeavesFlag (s : KernelFifo ω) (a : FifoAction ω) : Prop :=
  a = .reader → s.reader.clearing = false

instance (s : KernelFifo ω) (a : FifoAction ω) : Decidable (LeavesFlag s a) :=
  inferInstanceAs (Decidable (_ → _))

/-- The system while the reader does not clear `asleep`. -/
abbrev unclearedStep : KernelFifo ω → FifoAction ω → Option (KernelFifo ω) :=
  restrict step LeavesFlag

omit [DecidableEq ω] in
/-- There is room exactly when the FIFO is not full. -/
theorem avail_pos : 0 < s.avail ↔ s.fifo.length < kfifoLen := Nat.sub_pos_iff_lt

omit [DecidableEq ω] in
/-- There is no room exactly when the FIFO is full. -/
theorem avail_eq_zero : s.avail = 0 ↔ kfifoLen ≤ s.fifo.length := Nat.sub_eq_zero_iff_le

omit [DecidableEq ω] in
/-- The threshold leaves half of the places free. -/
theorem threshold_le_avail :
    kfifoThresholdLen ≤ s.avail ↔ s.fifo.length + kfifoThresholdLen ≤ kfifoLen := by
  simp only [avail, kfifoThresholdLen, kfifoLen]
  omega

/-- One thread has filled the FIFO to some level while all others were outside. -/
structure At (s : KernelFifo ω) (w : ω) (n : Nat) (asleep : Bool) (pc : WriterPc)
    (r : ReaderPc) : Prop where
  level : s.fifo.length = n
  asleep : s.asleep = asleep
  writer : s.writer = Function.update (fun _ => .outside) w pc
  reader : s.reader = r
  puts : ∀ entry ∈ s.puts, entry.1 = w

/-- At the start the FIFO is empty and everybody is outside. -/
theorem at_initial (w : ω) : At initial w 0 false .outside .outside where
  level := rfl
  asleep := rfl
  writer := (Function.update_eq_self w _).symm
  reader := rfl
  puts := fun _ member => absurd member List.not_mem_nil

/-- A write that leaves room returns at once. -/
theorem At.write_one (here : At s w n asleep .outside r) (room : n + 1 < kfifoLen) :
    ∃ t, Reaches unclearedStep s t ∧ At t w (n + 1) asleep .outside r := by
  obtain ⟨level, flag, writer, reader, puts⟩ := here
  have free : s.fifo.length < kfifoLen := by omega
  have left : ¬ kfifoLen ≤ s.fifo.length + 1 := by omega
  refine ⟨{ s with
    fifo := s.fifo ++ [{ type := .fence }]
    puts := s.puts ++ [(w, { type := .fence })] },
    ⟨[.write w { type := .fence }, .writer w, .writer w, .writer w], ?_⟩, ?_⟩
  · simp [run, restrict, LeavesFlag, step, pmTestFifoWrite, writerAt, avail_pos, avail_eq_zero,
      writer, free, left]
  · constructor <;> simp [level, flag, writer, reader]
    grind

/-- The write that fills the FIFO puts its thread to sleep: it finds no free place
behind its put and waits for half of them. -/
theorem At.write_last (here : At s w n asleep .outside r) (room : n + 1 = kfifoLen) :
    ∃ t, Reaches unclearedStep s t ∧ At t w kfifoLen true .blocked r := by
  obtain ⟨level, _, writer, reader, puts⟩ := here
  have free : s.fifo.length < kfifoLen := by omega
  have full : kfifoLen ≤ s.fifo.length + 1 := by omega
  have positive : 0 < kfifoThresholdLen := by decide
  have short : ¬ s.fifo.length + 1 + kfifoThresholdLen ≤ kfifoLen := by omega
  refine ⟨{ s with
    fifo := s.fifo ++ [{ type := .fence }]
    puts := s.puts ++ [(w, { type := .fence })]
    asleep := true
    writer := Function.update s.writer w .blocked },
    ⟨[.write w { type := .fence }, .writer w, .writer w, .writer w, .writer w, .writer w], ?_⟩, ?_⟩
  · simp [run, restrict, LeavesFlag, step, pmTestFifoWrite, writerAt, avail_pos, avail_eq_zero,
      threshold_le_avail, writer, free, full, short]
  · constructor <;> simp [level, writer, reader, room]
    grind

/-- One thread can fill the FIFO up to its last place. -/
theorem At.fill (here : At s w n asleep .outside r) (room : n < kfifoLen) :
    ∃ t, Reaches unclearedStep s t ∧ At t w (kfifoLen - 1) asleep .outside r := by
  obtain ⟨t, reached, filled⟩ := reaches_rounds (fun i t => At t w (n + i) asleep .outside r)
    (kfifoLen - 1 - n) (fun i below t here => here.write_one (by omega)) here
  refine ⟨t, reached, ?_⟩
  rwa [show n + (kfifoLen - 1 - n) = kfifoLen - 1 by omega] at filled

end Filling

section ManyWriters

/-- The records of a longer run are those of the run and of its last action. -/
theorem passedBy_concat (w : ω) (past : List (FifoAction ω)) (a : FifoAction ω) :
    passedBy w (past ++ [a]) = passedBy w past ++ passedBy w [a] := List.filterMap_append ..

/-- A step never puts a record in an account that was not passed, nor changes their
order. -/
theorem account_sublist_moves {past : List (FifoAction ω)} {w : ω}
    (shorter : (s.account w).Sublist (passedBy w past)) (move : s.Moves a next) :
    (next.account w).Sublist (passedBy w (past ++ [a])) := by
  rw [passedBy_concat]
  rcases account_moves move with ⟨_, grown⟩ | ⟨_, lost, silent, _⟩
  · rw [grown]
    exact shorter.append_right _
  · rw [silent, List.append_nil]
    exact (lost w).trans shorter

/-- Every record passed to `PMTestFifoWrite` is put before the call returns, exactly
along the runs in which every thread that has not put its record yet finds room at its
test and at its put. A record that finds no room leaves its account for good, since
accounts grow at their ends only. -/
theorem every_record_put_iff {actions : List (FifoAction ω)}
    (ran : run step initial actions = some s) :
    (∀ w, s.account w = passedBy w actions) ↔ Along step HasRoom initial actions := by
  apply run_exact (fun past (s : KernelFifo ω) => ∀ w, (s.account w).Sublist (passedBy w past))
    (fun past (s : KernelFifo ω) => ∀ w, s.account w = passedBy w past)
  · exact fun _ => List.Sublist.refl []
  · exact fun _ => rfl
  · exact fun past s a next shorter taken w =>
      account_sublist_moves (shorter w) (step_moves taken)
  · intro past s a next shorter taken
    simp only [passedBy_concat]
    rcases account_moves (step_moves taken) with
      ⟨room, grown⟩ | ⟨crowded, _, silent, w, input, lost⟩
    · simp only [grown, List.append_cancel_right_eq, room, and_true]
    · apply iff_of_false
      · intro complete
        have longer := (shorter w).length_le
        have same := complete w
        rw [silent, List.append_nil] at same
        rw [lost, ← same, List.length_append, List.length_singleton] at longer
        omega
      · exact fun both => crowded both.2
  · exact ran

/-- Two threads each write a record, one after the other. -/
def twoWrites : List (FifoAction Bool) :=
  [.write false { type := .fence }, .writer false, .write true { type := .persist },
    .writer true, .writer true, .writer false]

/-- Two threads that write at the same time can both find room. -/
theorem every_record_put_two_writes :
    ∃ s, run step initial twoWrites = some s ∧ ∀ w, s.account w = passedBy w twoWrites := by
  have room : Along step HasRoom initial twoWrites := by decide
  exact ⟨_, rfl, (every_record_put_iff rfl).mpr room⟩

/-- Two threads find the last free place. The one that comes second drops its
record and returns, as the reader has made room by then. -/
def raceForLastPlace : List (FifoAction Bool) :=
  [.write false { type := .fence }, .write true { type := .fence }, .writer false, .writer true,
    .writer false, .writer true, .read, .reader, .writer true]

/-- If only one place is left, one of the two records is lost. -/
theorem concurrent_write_lost :
    ∃ actions s, run step (initial : KernelFifo Bool) actions = some s ∧
      FifoAction.write true { type := .fence } ∈ actions ∧ s.writer true = .outside ∧
      s.putsOf true = [] := by
  obtain ⟨t, filling, level, _, writer, reader, puts⟩ := (at_initial false).fill (by decide)
  obtain ⟨fill, filled⟩ := filling.of_restrict
  have length : t.fifo.length = 1023 := level
  have foreign (m : Metadata) : (true, m) ∉ t.puts := fun member => nomatch puts _ member
  have raced : ∃ s, run step t raceForLastPlace = some s ∧ s.writer true = .outside ∧
      s.putsOf true = [] := by
    simp [raceForLastPlace, run, step, pmTestFifoWrite, pmTestDeviceRead, writerAt, avail,
      writer, reader, length, kfifoLen, putsOf, foreign]
  obtain ⟨s, ran, returned, lost⟩ := raced
  exact ⟨fill ++ raceForLastPlace, s, run_trans step filled ran, by simp [raceForLastPlace],
    returned, lost⟩

end ManyWriters

section SingleWriter

variable {s next : KernelFifo Unit} {a : FifoAction Unit}

/-- With one writer the FIFO is full only between its put and the end of its wait. -/
def Throttled (s : KernelFifo Unit) : Prop :=
  0 < s.avail ∨ s.writer () = .testFull ∨ s.writer () = .setAsleep ∨ s.writer () = .wait ∨
    s.writer () = .blocked

/-- A throttled writer has room for every record it is called with. -/
theorem Throttled.room (throttled : s.Throttled) (pending : (s.writer ()).pending ≠ []) :
    0 < s.avail := by
  cases throttled with
  | inl room => exact room
  | inr waiting =>
    rcases waiting with before | before | before | before <;>
      simp [before, WriterPc.pending] at pending

/-- A throttled writer does nothing without room. -/
theorem Throttled.hasRoom (throttled : s.Throttled) : ∀ a, HasRoom s a
  | .writer _ => throttled.room
  | .write .. | .signal _ | .read | .reader => trivial

/-- Only an interrupted wait lets the writer return to a full FIFO: a wait that is over
has found half of it free, and a read frees more. The put that fills the FIFO is
followed by the test that leads to the wait. -/
theorem Throttled.moves (throttled : s.Throttled) (move : s.Moves a next)
    (uninterrupted : a ≠ .signal ()) : next.Throttled := by
  have threshold : 0 < kfifoThresholdLen := by decide
  cases move with
  | enter w input before =>
    left
    rcases throttled with room | h | h | h | h
    · exact room
    all_goals rw [before] at h; cases h
  | findRoom w input before room => exact Or.inl room
  | leave w before room => exact Or.inl (Nat.pos_of_ne_zero room)
  | waitOver w before free => exact Or.inl (threshold.trans_le free)
  | skip w input before full | drop w input before full => simp [Throttled, writerAt]
  | append w input before room => simp [Throttled, writerAt]
  | findFull w before full => simp [Throttled, writerAt]
  | setAsleep w before => simp [Throttled, writerAt]
  | block w before short => simp [Throttled, writerAt]
  | interrupt w before => exact absurd rfl uninterrupted
  | copy before =>
    refine throttled.imp (fun room => ?_) id
    simp only [avail, List.length_tail] at room ⊢
    omega
  | wakeUp copied before =>
    refine throttled.imp id fun waiting => ?_
    simp only [wakeUpInterruptible]
    rcases waiting with h | h | h | h <;> simp [h]
  | _ => exact throttled

/-- The records of a single writer are in the reader's hands, in the FIFO or about to
be put, in the order in which they were put. -/
theorem account_single {actions : List (FifoAction Unit)}
    (ran : run step initial actions = some s) :
    s.account () = s.received ++ s.fifo ++ (s.writer ()).pending := by
  rw [(conserved_of_run ran).order]
  simp [account, putsOf]

/-- Whatever becomes of its waits, the reader receives records that were written, in
the order in which they were. -/
theorem received_sublist {actions : List (FifoAction Unit)}
    (ran : run step initial actions = some s) : s.received.Sublist (passedBy () actions) := by
  have shorter : (s.account ()).Sublist (passedBy () actions) :=
    run_history (fun past (s : KernelFifo Unit) => (s.account ()).Sublist (passedBy () past))
      (show (account initial ()).Sublist [] from .refl [])
      (fun _ _ _ _ shorter taken => account_sublist_moves shorter (step_moves taken)) ran
  rw [account_single ran, List.append_assoc] at shorter
  exact (List.sublist_append_left _ _).trans shorter

/-- Along every run without interrupted waits the writer stays throttled, and its
records are in the reader's hands, in the FIFO or about to be put, in order. -/
theorem single_writer_order {actions : List (FifoAction Unit)}
    (ran : run step initial actions = some s) (uninterrupted : FifoAction.signal () ∉ actions) :
    s.Throttled ∧ s.received ++ s.fifo ++ (s.writer ()).pending = passedBy () actions := by
  have met : Along step (fun _ a => a ≠ .signal ()) initial actions := by
    apply along_of_forall
    rintro _ _ member rfl
    exact uninterrupted member
  obtain ⟨throttled, account⟩ : s.Throttled ∧ s.account () = passedBy () actions := by
    apply run_guarded (fun past (s : KernelFifo Unit) =>
      s.Throttled ∧ s.account () = passedBy () past) ?_ ?_ ran met
    · exact ⟨Or.inl (by decide), rfl⟩
    · rintro past s a next ⟨throttled, account⟩ uninterrupted taken
      refine ⟨throttled.moves (step_moves taken) uninterrupted, ?_⟩
      rcases account_moves (step_moves taken) with ⟨_, grown⟩ | ⟨crowded, _⟩
      · rw [grown, account, passedBy_concat]
      · exact absurd (throttled.hasRoom a) crowded
  exact ⟨throttled, by rw [← account, account_single ran]⟩

/-- One writer whose waits are not interrupted loses no record. Its test for free
space never fails, the records read are at every moment the first ones that were
written, and the others are in the FIFO or about to be put. -/
theorem single_writer_exactly_once {actions : List (FifoAction Unit)}
    (ran : run step initial actions = some s)
    (uninterrupted : FifoAction.signal () ∉ actions) :
    ((s.writer ()).pending ≠ [] → 0 < s.avail) ∧
    s.received ++ s.fifo ++ (s.writer ()).pending = passedBy () actions ∧
    s.received <+: passedBy () actions ∧
    s.fifo.length ≤ kfifoLen := by
  obtain ⟨throttled, order⟩ := single_writer_order ran uninterrupted
  refine ⟨throttled.room, order, ?_, (conserved_of_run ran).bound⟩
  rw [← order, List.append_assoc]
  exact List.prefix_append _ _

/-- A fence is written and read back while the next record is being written. -/
def writeAndRead : List (FifoAction Unit) :=
  [.write () { type := .fence }, .writer (), .writer (), .writer (),
    .write () { type := .persist }, .read, .reader]

/-- The first of two records has been received while the second one is written. -/
theorem single_writer_exactly_once_write_and_read :
    ∃ s, run step initial writeAndRead = some s ∧
      s.received = [{ type := .fence }] ∧ s.received <+: passedBy () writeAndRead := by
  have uninterrupted : FifoAction.signal () ∉ writeAndRead := by decide
  exact ⟨_, rfl, rfl, (single_writer_exactly_once rfl uninterrupted).2.2.1⟩

end SingleWriter

end KernelFifo

end PMTest

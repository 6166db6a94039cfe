import PMTest.KernelFifo

/-!
# Wake-ups between the reader and the writer of the kernel FIFO

The reader wakes the waiting writer when it finds `asleep` set and half of the
FIFO free, and clears the flag behind the wake-up. In between, the woken writer
can fill the FIFO again, set the flag again and block. The reader then clears a
flag that was set for the next wait, and no later read looks at the free space.

A blocked writer is never left behind by a reader that clears the flag in time,
that is, while the writer does not wait or has enough space to end its wait. Every
clear that comes late can end in a lost wake-up.
-/

namespace PMTest

open Transitions

namespace KernelFifo

/-- The writer is blocked with no wake-up pending, although enough of the FIFO is
free and the reader has left. -/
def LostWakeUp (s : KernelFifo Unit) : Prop :=
  s.writer () = .blocked ∧ kfifoThresholdLen ≤ s.avail ∧ s.reader = .outside

/-- The reader is about to clear `asleep` while the writer waits and still has to. -/
def ClearsLate (s : KernelFifo Unit) : Prop :=
  s.reader.clearing = true ∧ (s.writer () = .wait ∨ s.writer () = .blocked) ∧
    ¬ kfifoThresholdLen ≤ s.avail

instance (s : KernelFifo Unit) : Decidable s.ClearsLate :=
  inferInstanceAs (Decidable (_ ∧ _ ∧ _))

section Schedules

variable {ω : Type*} [DecidableEq ω] {s : KernelFifo ω} {w : ω} {n : Nat} {asleep : Bool}
  {pc : WriterPc} {copied : Option Metadata}

/-- A read that finds the flag clear only takes a record. -/
theorem At.read_awake (here : At s w (n + 1) false pc .outside) :
    ∃ t, Reaches step s t ∧ At t w n false pc .outside := by
  obtain ⟨level, flag, writer, reader, puts⟩ := here
  refine ⟨{ s with fifo := s.fifo.tail, reads := s.reads ++ [s.fifo.head?] },
    ⟨[.read, .reader, .reader, .reader], ?_⟩, ?_⟩
  · simp [run, step, pmTestDeviceRead, flag, reader]
  · constructor <;> simp [level, flag, writer, reader]
    grind

/-- A read that leaves less than half of the FIFO free only takes a record. -/
theorem At.read_short (here : At s w (n + 1) true pc .outside)
    (short : kfifoLen < n + kfifoThresholdLen) :
    ∃ t, Reaches unclearedStep s t ∧ At t w n true pc .outside := by
  obtain ⟨level, flag, writer, reader, puts⟩ := here
  have positive : 0 < kfifoThresholdLen := by decide
  have unmet : ¬ kfifoThresholdLen ≤ kfifoLen - s.fifo.tail.length := by
    rw [List.length_tail]
    omega
  refine ⟨{ s with fifo := s.fifo.tail, reads := s.reads ++ [s.fifo.head?] },
    ⟨[.read, .reader, .reader, .reader, .reader], ?_⟩, ?_⟩
  · simp [run, restrict, LeavesFlag, ReaderPc.clearing, step, pmTestDeviceRead, avail, flag, reader,
      unmet, -List.length_tail]
  · constructor <;> simp [level, flag, writer, reader]
    grind

/-- A read that frees half of the FIFO wakes the blocked writer. Its five steps take the
record, find the flag set and the space free, and send the wake-up. -/
theorem At.read_wakes (here : At s w (n + 1) true .blocked .outside)
    (free : n + kfifoThresholdLen ≤ kfifoLen) :
    ∃ t copied, Reaches unclearedStep s t ∧ At t w n true .wait (.clearAsleep copied) := by
  obtain ⟨level, flag, writer, reader, puts⟩ := here
  have met : kfifoThresholdLen ≤ kfifoLen - s.fifo.tail.length := by
    rw [List.length_tail]
    omega
  refine ⟨{ s with
    fifo := s.fifo.tail
    reads := s.reads ++ [s.fifo.head?]
    writer := Function.update s.writer w .wait
    reader := .clearAsleep s.fifo.head? }, s.fifo.head?,
    ⟨[.read, .reader, .reader, .reader, .reader], ?_⟩, ?_⟩
  · have woken : (fun v => if s.writer v = .blocked then WriterPc.wait else s.writer v) =
        Function.update s.writer w .wait := by
      funext v
      by_cases mover : v = w
      · simp [mover, writer]
      · simp [writer, Function.update_of_ne mover]
    simp [run, restrict, LeavesFlag, ReaderPc.clearing, step, pmTestDeviceRead,
      wakeUpInterruptible, avail, flag, reader, met, woken, -List.length_tail]
  · constructor <;> simp [level, flag, writer]
    grind

/-- The woken writer returns. -/
theorem At.wait_over {r : ReaderPc} (here : At s w n asleep .wait r)
    (free : n + kfifoThresholdLen ≤ kfifoLen) :
    ∃ t, Reaches unclearedStep s t ∧ At t w n asleep .outside r := by
  obtain ⟨level, flag, writer, reader, puts⟩ := here
  have met : kfifoThresholdLen ≤ kfifoLen - s.fifo.length := by omega
  refine ⟨s.writerAt w .outside, ⟨[.writer w], ?_⟩, ?_⟩
  · simp [run, restrict, LeavesFlag, step, pmTestFifoWrite, avail, writer, met]
  · constructor <;> simp [writerAt, level, flag, writer, reader]
    grind

/-- The reader clears the flag and leaves, whatever has happened since the wake-up. -/
theorem At.clear (here : At s w n asleep pc (.clearAsleep copied)) :
    ∃ t, Reaches step s t ∧ At t w n false pc .outside := by
  obtain ⟨level, flag, writer, reader, puts⟩ := here
  refine ⟨{ s with asleep := false, reader := .outside }, ⟨[.reader, .reader], ?_⟩, ?_⟩
  · simp [run, step, pmTestDeviceRead, reader]
  · constructor <;> simp [level, writer]
    grind

/-- Once the flag is clear, the FIFO can be read down to any level. -/
theorem At.drain (here : At s w n false pc .outside) {m : Nat} (below : m ≤ n) :
    ∃ t, Reaches step s t ∧ At t w m false pc .outside := by
  have rounds := reaches_rounds (fun i t => At t w (n - i) false pc .outside) (n - m)
    (fun i bound t here => At.read_awake (by rwa [show n - (i + 1) + 1 = n - i by omega])) here
  rwa [show n - (n - m) = m by omega] at rounds

/-- After a late clear the reader can take all it wants without a wake-up. -/
theorem At.lost {s : KernelFifo Unit} (here : At s () n asleep .blocked (.clearAsleep copied))
    (short : kfifoLen < n + kfifoThresholdLen) : ∃ t, Reaches step s t ∧ t.LostWakeUp := by
  obtain ⟨cleared, toCleared, here⟩ := here.clear
  obtain ⟨drained, toDrained, level, _, writer, reader, _⟩ :=
    here.drain (show kfifoLen - kfifoThresholdLen ≤ n by omega)
  refine ⟨drained, toCleared.trans toDrained, by simp [writer], ?_, reader⟩
  rw [avail, level]
  decide

/-- The writer can fill the FIFO and block, and the reader can then free half of it
and wake the writer, up to the point where it is about to clear the flag. -/
theorem reaches_wake_up (w : ω) :
    ∃ full woken copied, Reaches unclearedStep initial full ∧
      At full w kfifoLen true .blocked .outside ∧ Reaches unclearedStep full woken ∧
      At woken w kfifoThresholdLen true .wait (.clearAsleep copied) := by
  have half : kfifoThresholdLen + kfifoThresholdLen = kfifoLen := by decide
  have positive : 0 < kfifoThresholdLen := by decide
  obtain ⟨filled, toFilled, here⟩ := (at_initial w).fill (by decide)
  obtain ⟨full, toFull, here⟩ := here.write_last (by decide)
  obtain ⟨drained, toDrained, low⟩ := reaches_rounds
    (fun i t => At t w (kfifoLen - i) true .blocked .outside) (kfifoThresholdLen - 1)
    (fun i bound t here => At.read_short
      (by rwa [show kfifoLen - (i + 1) + 1 = kfifoLen - i by omega]) (by omega)) here
  rw [show kfifoLen - (kfifoThresholdLen - 1) = kfifoThresholdLen + 1 by omega] at low
  obtain ⟨woken, copied, toWoken, awake⟩ := low.read_wakes half.le
  exact ⟨full, woken, copied, toFilled.trans toFull, here, toDrained.trans toWoken, awake⟩

end Schedules

section Safety

variable {s next : KernelFifo Unit} {a : FifoAction Unit}

/-- The reader has taken a record and is on its way to a wake-up. -/
def ComesToWake (s : KernelFifo Unit) : Prop :=
  ∃ copied, s.reader = .testAsleep copied ∨ s.reader = .testAvail copied ∨ s.reader = .wakeUp copied

/-- A writer that is about to test its condition finds it met or has left the flag
set. A blocked one has left the flag set, and whoever has freed enough of the FIFO
is on the way to wake it. -/
structure Watched (s : KernelFifo Unit) : Prop where
  waiting : s.writer () = .wait → s.asleep = true ∨ kfifoThresholdLen ≤ s.avail
  blocked : s.writer () = .blocked →
    s.asleep = true ∧ (kfifoThresholdLen ≤ s.avail → s.ComesToWake)

/-- At the start the writer does not wait. -/
theorem watched_initial : (initial : KernelFifo Unit).Watched :=
  ⟨fun waiting => (nomatch waiting), fun blocked => (nomatch blocked)⟩

/-- Every step but a late clear keeps the writer watched.

The writer sets the flag before it waits. A read that frees enough space while the flag
is set goes on to the wake-up, and afterwards the reader clears the flag, which is
harmless if the writer has enough space to end its wait. -/
theorem Watched.moves (watched : s.Watched) (inTime : a = .reader → ¬ s.ClearsLate)
    (move : s.Moves a next) : next.Watched := by
  obtain ⟨waiting, blocked⟩ := watched
  cases move with
  | enter w input before | findRoom w input before room | skip w input before full
  | drop w input before full | findFull w before full | leave w before room
  | waitOver w before free | interrupt w before =>
    constructor <;> simp [writerAt]
  | append w input before room => constructor <;> simp [writerAt]
  | setAsleep w before => constructor <;> simp [writerAt]
  | block w before short =>
    refine ⟨by simp [writerAt], fun _ => ?_⟩
    cases waiting before with
    | inl set => exact ⟨set, fun free => absurd free short⟩
    | inr free => exact absurd free short
  | read before =>
    refine ⟨waiting, fun stuck => ⟨(blocked stuck).1, fun free => ?_⟩⟩
    have coming := (blocked stuck).2 free
    simp [ComesToWake, before] at coming
  | copy before =>
    refine ⟨fun stuck => (waiting stuck).imp_right fun free => ?_, fun stuck =>
      ⟨(blocked stuck).1, fun _ => ⟨_, Or.inl rfl⟩⟩⟩
    simp only [avail, List.length_tail] at free ⊢
    omega
  | findAsleep copied before set =>
    exact ⟨waiting, fun stuck => ⟨(blocked stuck).1, fun _ => ⟨copied, Or.inr (Or.inl rfl)⟩⟩⟩
  | findAwake copied before clear =>
    refine ⟨waiting, fun stuck => ?_⟩
    have set := (blocked stuck).1
    rw [clear] at set
    cases set
  | findFree copied before free =>
    exact ⟨waiting, fun stuck => ⟨(blocked stuck).1, fun _ => ⟨copied, Or.inr (Or.inr rfl)⟩⟩⟩
  | findShort copied before short =>
    exact ⟨waiting, fun stuck => ⟨(blocked stuck).1, fun free => absurd free short⟩⟩
  | wakeUp copied before =>
    refine ⟨fun woken => ?_, fun stuck => ?_⟩
    · by_cases stuck : s.writer () = .blocked
      · exact Or.inl (blocked stuck).1
      · simp only [wakeUpInterruptible, if_neg stuck] at woken
        exact waiting woken
    · simp only [wakeUpInterruptible] at stuck
      split at stuck
      · cases stuck
      · exact absurd stuck ‹_›
  | clearAsleep copied before =>
    have enough (stuck : s.writer () = .wait ∨ s.writer () = .blocked) :
        kfifoThresholdLen ≤ s.avail := by
      by_contra short
      exact inTime rfl ⟨by rw [before]; rfl, stuck, short⟩
    refine ⟨fun stuck => Or.inr (enough (Or.inl stuck)), fun stuck => ?_⟩
    have coming := (blocked stuck).2 (enough (Or.inr stuck))
    simp [ComesToWake, before] at coming
  | finish copied before =>
    refine ⟨waiting, fun stuck => ⟨(blocked stuck).1, fun free => ?_⟩⟩
    have coming := (blocked stuck).2 free
    simp [ComesToWake, before] at coming

/-- No wake-up is lost in a run whose reader never clears the flag late. A watched
writer that is blocked with enough space free has a reader on the way to wake it, and
this reader has not left. -/
theorem no_lost_wake_up {actions : List (FifoAction Unit)}
    (ran : run step initial actions = some s)
    (inTime : Along step (fun s a => a = .reader → ¬ s.ClearsLate) initial actions) :
    ¬ s.LostWakeUp := by
  have watched : s.Watched := run_guarded (fun _ => Watched) watched_initial
    (fun _ _ _ _ watched inTime taken => watched.moves inTime (step_moves taken)) ran inTime
  rintro ⟨stuck, free, left⟩
  have coming := (watched.blocked stuck).2 free
  simp [ComesToWake, left] at coming

/-- The writer fills the FIFO and blocks, and the reader frees half of it and wakes the
writer. It then clears the flag while the writer has enough space to end its wait,
and leaves: half of the FIFO is free, and the writer is not blocked. -/
theorem no_lost_wake_up_cleared_in_time :
    ∃ full woken s : KernelFifo Unit, Reaches step initial full ∧ full.avail = 0 ∧
      full.writer () = .blocked ∧ Reaches step full woken ∧ woken.reader.clearing = true ∧
      woken.writer () = .wait ∧ run step woken [.reader, .reader] = some s ∧ s.asleep = false ∧
      kfifoThresholdLen ≤ s.avail ∧ s.reader = .outside ∧ ¬ s.LostWakeUp := by
  obtain ⟨full, woken, copied, toFull, stuck, toWoken, awake⟩ := reaches_wake_up ()
  have leaves (s : KernelFifo Unit) (a : FifoAction Unit) (kept : LeavesFlag s a) :
      a = .reader → ¬ s.ClearsLate := by
    rintro mover ⟨clearing, _⟩
    rw [kept mover] at clearing
    cases clearing
  obtain ⟨first, ran, met⟩ := (toFull.trans toWoken).along leaves
  have free : kfifoThresholdLen ≤ woken.avail := by
    rw [avail, awake.level]
    decide
  have cleared : run step woken [.reader, .reader] =
      some { woken with asleep := false, reader := .outside } := by
    simp [run, step, pmTestDeviceRead, awake.reader]
  have inTime : Along step (fun s a => a = .reader → ¬ s.ClearsLate) woken [.reader, .reader] := by
    simp [Along, step, pmTestDeviceRead, awake.reader, ClearsLate, ReaderPc.clearing, free]
  have result := no_lost_wake_up (run_trans step ran cleared) (met.append ran inTime)
  refine ⟨full, woken, _, toFull.of_restrict, ?_, ?_, toWoken.of_restrict, ?_, ?_, cleared, rfl,
    free, rfl, result⟩
  · rw [avail, stuck.level, Nat.sub_self]
  · rw [stuck.writer, Function.update_self]
  · rw [awake.reader]
    rfl
  · rw [awake.writer, Function.update_self]

/-- The writer fills the FIFO, the reader frees half of it and wakes the writer, and the
writer fills the FIFO again before the reader clears the flag. It then waits for a
wake-up that depends on the flag. -/
theorem lost_wake_up_reached :
    ∃ s, Reaches step (initial : KernelFifo Unit) s ∧ s.LostWakeUp := by
  have half : kfifoThresholdLen + kfifoThresholdLen = kfifoLen := by decide
  have positive : 0 < kfifoThresholdLen := by decide
  obtain ⟨full, woken, copied, toFull, _, toWoken, here⟩ := reaches_wake_up ()
  obtain ⟨returned, toReturned, here⟩ := here.wait_over half.le
  obtain ⟨filled, toFilled, here⟩ := here.fill (by omega)
  obtain ⟨stuck, toStuck, here⟩ := here.write_last (by decide)
  obtain ⟨lost, toLost, missed⟩ := here.lost (by omega)
  have reached : Reaches step initial stuck := (toFull.trans <| toWoken.trans <|
    toReturned.trans <| toFilled.trans toStuck).of_restrict
  exact ⟨lost, reached.trans toLost, missed⟩

end Safety

end KernelFifo

end PMTest

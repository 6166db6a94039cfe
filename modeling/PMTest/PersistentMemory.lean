import Mathlib.Data.Set.Basic
import Mathlib.Order.Basic
import PMTest.Transitions

/-!
# Memory that survives a crash

A store changes the cached content of some addresses and reaches the persistent
memory at an unknown time. A write-back starts to move the cached content of its
addresses there, and a fence waits until the write-backs in front of it have
arrived. Apart from that the hardware moves cached contents whenever it wants.

The content of an address is given by its version, the number of stores it comes
from, so a crash leaves one version of each address. A program is a list of events.
The versions that a crash behind it can leave are found address by address: they
are those between a version that the fences of the program promise and the last
one.
-/

namespace PMTest.PersistentMemory

open Transitions

section Occurrences

variable {ε ζ : Type*}

/-- An element with the property stands at the position. -/
def OccursAt (holds : ε → Prop) (items : List ε) (position : Nat) : Prop :=
  ∃ x, items[position]? = some x ∧ holds x

variable {holds : ε → Prop} {items : List ε} {x : ε} {position : Nat}

/-- What occurs stands inside the list. -/
theorem OccursAt.lt_length (occurs : OccursAt holds items position) : position < items.length := by
  obtain ⟨x, found, _⟩ := occurs
  exact (List.getElem?_eq_some_iff.mp found).1

/-- Nothing occurs in the empty list. -/
theorem not_occursAt_nil : ¬ OccursAt holds [] position :=
  fun occurs => Nat.not_lt_zero _ occurs.lt_length

/-- One more element occurs behind all others. -/
theorem occursAt_concat :
    OccursAt holds (items ++ [x]) position ↔
      OccursAt holds items position ∨ (position = items.length ∧ holds x) := by
  rcases Nat.lt_trichotomy position items.length with before | rfl | behind
  · simp [OccursAt, List.getElem?_append_left before, before.ne]
  · simp [OccursAt]
  · have outside : (items ++ [x])[position]? = none :=
      List.getElem?_eq_none (by rw [List.length_append, List.length_singleton]; omega)
    have before : items[position]? = none := List.getElem?_eq_none behind.le
    simp [OccursAt, outside, before, behind.ne']

/-- In the first elements occurs what occurs in front of the bound. -/
theorem occursAt_take (bound : Nat) :
    OccursAt holds (items.take bound) position ↔
      position < bound ∧ OccursAt holds items position := by
  rw [OccursAt, OccursAt, List.getElem?_take]
  split_ifs with below <;> simp [below]

/-- In a mapped list occurs what occurs in the list under the mapping. -/
theorem occursAt_map (f : ζ → ε) (sources : List ζ) :
    OccursAt holds (sources.map f) position ↔ OccursAt (fun y => holds (f y)) sources position := by
  simp [OccursAt]

end Occurrences

/-- What a program does to the memory. -/
inductive Event (α : Type*)
  | store (range : Set α)
  | writeBack (range : Set α)
  | fence
  /-- Anything that leaves the memory alone. -/
  | other

/-- The version of each address in the cache, the newest version on its way to the
persistent memory, and the version that has arrived there. -/
structure Memory (α : Type*) where
  current : α → Nat
  inFlight : α → Nat
  durable : α → Nat

/-- The program makes its next step, or the hardware moves cached contents. -/
inductive Action (α : Type*)
  | perform (event : Event α)
  | drain (contents : α → Nat)

section Model

variable {α : Type*}

namespace Event

/-- The event stores to the address. -/
def Stores (a : α) : Event α → Prop
  | store range => a ∈ range
  | _ => False

/-- The event writes the address back. -/
def WritesBack (a : α) : Event α → Prop
  | writeBack range => a ∈ range
  | _ => False

/-- The event is a fence. -/
def Fences : Event α → Prop
  | fence => True
  | _ => False

/-- A store does not write back. -/
theorem not_writesBack_of_stores {a : α} (event : Event α) (stores : event.Stores a) :
    ¬ event.WritesBack a := by
  cases event <;> simp_all [Stores, WritesBack]

/-- A write-back is no fence. -/
theorem not_fences_of_writesBack {a : α} (event : Event α) (writes : event.WritesBack a) :
    ¬ event.Fences := by
  cases event <;> simp_all [WritesBack, Fences]

/-- A fence stores nothing. -/
theorem not_stores_of_fences (event : Event α) (fences : event.Fences) (a : α) :
    ¬ event.Stores a := by
  cases event <;> simp_all [Stores, Fences]

end Event

/-- Before the first store the memory holds the version zero of every address. -/
def Memory.initial : Memory α := ⟨fun _ => 0, fun _ => 0, fun _ => 0⟩

open Classical in
/-- The memory behind an event of the program. -/
noncomputable def Memory.after (s : Memory α) (event : Event α) : Memory α where
  current := fun a => if event.Stores a then s.current a + 1 else s.current a
  inFlight := fun a => if event.WritesBack a then s.current a else s.inFlight a
  durable := s.durable

open Classical in
/-- A fence is passed when all write-backs have arrived. The hardware replaces
persistent contents by newer ones that are in the cache. -/
noncomputable def step (s : Memory α) : Action α → Option (Memory α)
  | .perform event =>
      if event.Fences → ∀ a, s.inFlight a ≤ s.durable a then some (s.after event) else none
  | .drain contents =>
      if ∀ a, s.durable a ≤ contents a ∧ contents a ≤ s.current a then
        some { s with durable := contents }
      else none

/-- The events of the program among the actions of a run. -/
def performed (actions : List (Action α)) : List (Event α) :=
  actions.filterMap fun
    | .perform event => some event
    | .drain _ => none

/-- A crash behind the program may leave these contents. -/
def CrashState (program : List (Event α)) (contents : α → Nat) : Prop :=
  ∃ actions s, performed actions = program ∧ run step Memory.initial actions = some s ∧
    s.durable = contents

/-- What the program says about one address: its last version, the newest version
that was written back, and the newest one that some fence has waited for. -/
structure Promise where
  current : Nat
  inFlight : Nat
  durable : Nat

open Classical in
/-- What an event does to the promise for an address. -/
noncomputable def Promise.next (a : α) (p : Promise) (event : Event α) : Promise where
  current := if event.Stores a then p.current + 1 else p.current
  inFlight := if event.WritesBack a then p.current else p.inFlight
  durable := if event.Fences then p.inFlight else p.durable

/-- The promise of a whole program. -/
noncomputable def promise (program : List (Event α)) (a : α) : Promise :=
  program.foldl (Promise.next a) ⟨0, 0, 0⟩

/-- The version of the last store to the address. -/
noncomputable def lastVersion (program : List (Event α)) (a : α) : Nat :=
  (promise program a).current

/-- Some crash behind the program loses the last store to the address. -/
def Loses (program : List (Event α)) (a : α) : Prop :=
  ∃ contents, CrashState program contents ∧ contents a ≠ lastVersion program a

/-- Wherever the program is cut, a crash that leaves the last store to the second
address leaves the last store to the first one too. -/
def PersistsBefore (program : List (Event α)) (first second : α) : Prop :=
  ∀ cut ≤ program.length, ∀ contents, CrashState (program.take cut) contents →
    contents second = lastVersion program second → contents first = lastVersion program first

end Model

section Promises

variable {α : Type*} {program : List (Event α)} {event : Event α} {a : α}

/-- The empty program promises the first version of every address. -/
@[simp] theorem promise_nil : promise ([] : List (Event α)) a = ⟨0, 0, 0⟩ := rfl

/-- The promise of a longer program is that of the program, changed by its last event. -/
theorem promise_concat : promise (program ++ [event]) a = (promise program a).next a event := by
  rw [promise, List.foldl_append]
  rfl

/-- Versions are written back after they are stored, and waited for after that. So the
three numbers of a promise are ordered, by induction on the program from its end. -/
theorem promise_ordered (program : List (Event α)) (a : α) :
    (promise program a).durable ≤ (promise program a).inFlight ∧
      (promise program a).inFlight ≤ (promise program a).current := by
  induction program using List.reverseRecOn with
  | nil => exact ⟨le_rfl, le_rfl⟩
  | append_singleton past event ih =>
    obtain ⟨waited, written⟩ := ih
    rw [promise_concat]
    simp only [Promise.next]
    split_ifs <;> constructor <;> omega

open Classical in
/-- Stores alone make a new version. -/
theorem lastVersion_concat :
    lastVersion (program ++ [event]) a =
      if event.Stores a then lastVersion program a + 1 else lastVersion program a := by
  rw [lastVersion, promise_concat]
  rfl

/-- A later part of the program keeps the last version exactly when it does not
store to the address. -/
theorem lastVersion_append (past later : List (Event α)) (a : α) :
    lastVersion past a ≤ lastVersion (past ++ later) a ∧
      (lastVersion (past ++ later) a = lastVersion past a ↔ ∀ event ∈ later, ¬ event.Stores a) := by
  induction later using List.reverseRecOn with
  | nil => simp
  | append_singleton later event ih =>
    obtain ⟨older, same⟩ := ih
    rw [← List.append_assoc, lastVersion_concat]
    simp only [List.mem_append, List.mem_singleton, or_imp, forall_and, forall_eq, ← same]
    split_ifs with stores
    · simp only [stores, not_true_eq_false, and_false, iff_false]
      omega
    · simp only [stores, not_false_eq_true, and_true, iff_self]
      exact older

/-- The part in front of a cut holds the last version exactly when no store comes
behind the cut. -/
theorem lastVersion_take (program : List (Event α)) (cut : Nat) (a : α) :
    lastVersion (program.take cut) a ≤ lastVersion program a ∧
      (lastVersion program a = lastVersion (program.take cut) a ↔
        ∀ i, cut ≤ i → ¬ OccursAt (Event.Stores a) program i) := by
  have split := lastVersion_append (program.take cut) (program.drop cut) a
  rw [List.take_append_drop] at split
  refine ⟨split.1, split.2.trans ⟨fun unstored i behind => ?_, fun unstored event member => ?_⟩⟩
  · rintro ⟨event, found, stores⟩
    refine unstored event (List.mem_iff_getElem?.mpr ⟨i - cut, ?_⟩) stores
    rw [List.getElem?_drop, Nat.add_sub_cancel' behind, found]
  · obtain ⟨i, found⟩ := List.mem_iff_getElem?.mp member
    rw [List.getElem?_drop] at found
    exact fun stores => unstored (cut + i) (Nat.le_add_right cut i) ⟨event, found, stores⟩

/-- A version is still to be written back when a store was not followed by a write-back.

Induct on the program from its end. A store at the end is such a store itself, and a
write-back at the end leaves none. Any other event changes neither side. -/
theorem inFlight_lt_iff (program : List (Event α)) (a : α) :
    (promise program a).inFlight < (promise program a).current ↔
      ∃ store, OccursAt (Event.Stores a) program store ∧
        ∀ written, store < written → ¬ OccursAt (Event.WritesBack a) program written := by
  induction program using List.reverseRecOn with
  | nil => simp [not_occursAt_nil]
  | append_singleton past event ih =>
    have ordered := (promise_ordered past a).2
    rw [promise_concat]
    simp only [Promise.next]
    by_cases stores : event.Stores a
    · -- nothing follows the store
      have unwritten := event.not_writesBack_of_stores stores
      rw [if_pos stores, if_neg unwritten]
      refine iff_of_true (Nat.lt_succ_of_le ordered) ⟨past.length,
        occursAt_concat.mpr (.inr ⟨rfl, stores⟩), fun written after occurs => ?_⟩
      have bound := occurs.lt_length
      rw [List.length_append, List.length_singleton] at bound
      omega
    · rw [if_neg stores]
      by_cases writes : event.WritesBack a
      · -- the write-back follows every store
        rw [if_pos writes]
        refine iff_of_false (lt_irrefl _) ?_
        rintro ⟨store, occurs, unwritten⟩
        rcases occursAt_concat.mp occurs with before | ⟨_, impossible⟩
        · exact unwritten past.length before.lt_length (occursAt_concat.mpr (.inr ⟨rfl, writes⟩))
        · exact stores impossible
      · rw [if_neg writes, ih]
        simp only [occursAt_concat, stores, writes, and_false, or_false]

/-- The store is written back and the write-back waited for. -/
def Completed (program : List (Event α)) (a : α) (store : Nat) : Prop :=
  ∃ written fence, store < written ∧ written < fence ∧
    OccursAt (Event.WritesBack a) program written ∧ OccursAt Event.Fences program fence

/-- A fence completes the stores that were written back in front of it. -/
theorem completed_concat_fence (fences : event.Fences) (store : Nat) :
    Completed (program ++ [event]) a store ↔
      ∃ written, store < written ∧ OccursAt (Event.WritesBack a) program written := by
  constructor
  · rintro ⟨written, fence, after, before, occurs, _⟩
    refine ⟨written, after, (occursAt_concat.mp occurs).resolve_right ?_⟩
    exact fun last => event.not_fences_of_writesBack last.2 fences
  · rintro ⟨written, after, occurs⟩
    exact ⟨written, program.length, after, occurs.lt_length, occursAt_concat.mpr (.inl occurs),
      occursAt_concat.mpr (.inr ⟨rfl, fences⟩)⟩

/-- Anything else completes nothing. -/
theorem completed_concat_other (unfenced : ¬ event.Fences) (store : Nat) :
    Completed (program ++ [event]) a store ↔ Completed program a store := by
  unfold Completed
  simp only [occursAt_concat, unfenced, and_false, or_false]
  refine exists_congr fun written => exists_congr fun fence => and_congr_right fun _ =>
    and_congr_right fun before => and_congr_left fun occurs => or_iff_left ?_
  rintro ⟨rfl, _⟩
  exact before.not_gt occurs.lt_length

/-- A version is not promised when some store is not completed.

Induct on the program from its end. A fence at the end completes what was written back
in front of it, so the statement is the one about write-backs. A store at the end is not
completed, and any other event completes nothing and stores nothing. -/
theorem durable_lt_iff (program : List (Event α)) (a : α) :
    (promise program a).durable < (promise program a).current ↔
      ∃ store, OccursAt (Event.Stores a) program store ∧ ¬ Completed program a store := by
  induction program using List.reverseRecOn with
  | nil => simp [not_occursAt_nil]
  | append_singleton past event ih =>
    obtain ⟨waited, written⟩ := promise_ordered past a
    rw [promise_concat]
    simp only [Promise.next]
    by_cases fences : event.Fences
    · have stores := event.not_stores_of_fences fences a
      rw [if_pos fences, if_neg stores, inFlight_lt_iff]
      simp only [completed_concat_fence fences, occursAt_concat, stores, and_false, or_false,
        not_exists, not_and]
    · simp only [if_neg fences, completed_concat_other fences, occursAt_concat]
      by_cases stores : event.Stores a
      · rw [if_pos stores]
        refine iff_of_true (by omega) ⟨past.length, .inr ⟨rfl, stores⟩, ?_⟩
        rintro ⟨written, fence, after, before, _, occurs⟩
        have bound := occurs.lt_length
        omega
      · rw [if_neg stores, ih]
        simp only [stores, and_false, or_false]

end Promises

section Crashes

variable {α : Type*}

/-- A step of the program is the next event that is performed. -/
theorem performed_concat_perform (past : List (Action α)) (event : Event α) :
    performed (past ++ [.perform event]) = performed past ++ [event] := by
  simp [performed]

/-- A move of the hardware is no event of the program. -/
theorem performed_concat_drain (past : List (Action α)) (contents : α → Nat) :
    performed (past ++ [.drain contents]) = performed past := by
  simp [performed]

/-- The program goes on, if it does not have to wait at a fence. -/
theorem step_perform {s : Memory α} {event : Event α}
    (arrived : event.Fences → ∀ a, s.inFlight a ≤ s.durable a) :
    step s (.perform event) = some (s.after event) := if_pos arrived

/-- The hardware may move any newer content of the cache. -/
theorem step_drain {s : Memory α} {contents : α → Nat}
    (newer : ∀ a, s.durable a ≤ contents a ∧ contents a ≤ s.current a) :
    step s (.drain contents) = some { s with durable := contents } := if_pos newer

/-- A run keeps the promises of its program: the cache and the write-backs are as
the program says, and the persistent content lies between promise and cache. -/
structure Keeps (program : List (Event α)) (s : Memory α) : Prop where
  current : ∀ a, s.current a = (promise program a).current
  inFlight : ∀ a, s.inFlight a = (promise program a).inFlight
  promised : ∀ a, (promise program a).durable ≤ s.durable a
  stored : ∀ a, s.durable a ≤ (promise program a).current

/-- Every action keeps the promises. At a fence the promise grows to what was written
back, and this has arrived when the fence is passed. The hardware only replaces contents
by newer ones. -/
theorem Keeps.step {past : List (Action α)} {s next : Memory α} {action : Action α}
    (keeps : Keeps (performed past) s) (moved : step s action = some next) :
    Keeps (performed (past ++ [action])) next := by
  obtain ⟨current, inFlight, promised, stored⟩ := keeps
  cases action with
  | perform event =>
    simp only [PersistentMemory.step, Option.ite_none_right_eq_some, Option.some.injEq] at moved
    obtain ⟨arrived, rfl⟩ := moved
    rw [performed_concat_perform]
    refine ⟨fun a => ?_, fun a => ?_, fun a => ?_, fun a => ?_⟩ <;> rw [promise_concat] <;>
      simp only [Promise.next, Memory.after]
    · rw [current a]
    · rw [current a, inFlight a]
    · split_ifs with fences
      · exact inFlight a ▸ arrived fences a
      · exact promised a
    · split_ifs
      · exact (stored a).trans (Nat.le_succ _)
      · exact stored a
  | drain contents =>
    simp only [PersistentMemory.step, Option.ite_none_right_eq_some, Option.some.injEq] at moved
    obtain ⟨newer, rfl⟩ := moved
    rw [performed_concat_drain]
    refine ⟨current, inFlight, fun a => (promised a).trans (newer a).1, fun a => ?_⟩
    exact (newer a).2.trans (current a).le

/-- Whatever the hardware does, the promises of the program are kept. -/
theorem keeps_of_run {actions : List (Action α)} {s : Memory α}
    (ran : run step Memory.initial actions = some s) : Keeps (performed actions) s :=
  run_history (fun past s => Keeps (performed past) s)
    ⟨fun _ => rfl, fun _ => rfl, fun _ => le_rfl, fun _ => le_rfl⟩
    (fun _ _ _ _ keeps moved => keeps.step moved) ran

/-- The hardware may do no more than the fences demand. The run is built along the
program: right in front of a fence the hardware moves what was written back, and nothing
at any other time. -/
theorem exists_lazy_run (program : List (Event α)) :
    ∃ actions s, performed actions = program ∧ run step Memory.initial actions = some s ∧
      ∀ a, s.durable a = (promise program a).durable := by
  induction program using List.reverseRecOn with
  | nil => exact ⟨[], Memory.initial, rfl, rfl, fun _ => rfl⟩
  | append_singleton past event ih =>
    obtain ⟨actions, s, rfl, ran, lazily⟩ := ih
    have keeps := keeps_of_run ran
    by_cases fences : event.Fences
    · -- what was written back moves right in front of the fence
      have newer (a : α) : s.durable a ≤ s.inFlight a ∧ s.inFlight a ≤ s.current a := by
        rw [lazily a, keeps.inFlight a, keeps.current a]
        exact promise_ordered (performed actions) a
      have drained := (run_concat step).mpr ⟨s, ran, step_drain newer⟩
      refine ⟨actions ++ [.drain s.inFlight] ++ [.perform event], _, ?_,
        (run_concat step).mpr ⟨_, drained, step_perform fun _ _ => le_rfl⟩, fun a => ?_⟩
      · rw [performed_concat_perform, performed_concat_drain]
      · rw [promise_concat]
        simp only [Promise.next, if_pos fences]
        exact keeps.inFlight a
    · refine ⟨actions ++ [.perform event], _, performed_concat_perform _ _,
        (run_concat step).mpr ⟨s, ran, step_perform fun impossible => absurd impossible fences⟩,
        fun a => ?_⟩
      rw [promise_concat]
      simp only [Promise.next, if_neg fences]
      exact lazily a

/-- A crash leaves any mixture of versions between promise and cache. Contents of a run
lie there because the promises are kept; any others there are reached by a last move of
the hardware behind the lazy run. -/
theorem crashState_iff (program : List (Event α)) (contents : α → Nat) :
    CrashState program contents ↔
      ∀ a, (promise program a).durable ≤ contents a ∧ contents a ≤ lastVersion program a := by
  constructor
  · rintro ⟨actions, s, rfl, ran, rfl⟩ a
    exact ⟨(keeps_of_run ran).promised a, (keeps_of_run ran).stored a⟩
  · intro between
    obtain ⟨actions, s, rfl, ran, lazily⟩ := exists_lazy_run program
    have newer (a : α) : s.durable a ≤ contents a ∧ contents a ≤ s.current a := by
      rw [lazily a, (keeps_of_run ran).current a]
      exact between a
    exact ⟨actions ++ [.drain contents], _, performed_concat_drain _ _,
      (run_concat step).mpr ⟨s, ran, step_drain newer⟩, rfl⟩

/-- The last store to an address can be lost exactly when some store to it is not
written back, or no fence has waited for that. -/
theorem loses_iff (program : List (Event α)) (a : α) :
    Loses program a ↔
      ∃ store, OccursAt (Event.Stores a) program store ∧ ¬ Completed program a store := by
  rw [← durable_lt_iff]
  constructor
  · rintro ⟨contents, crash, lost⟩
    obtain ⟨promised, stored⟩ := (crashState_iff program contents).mp crash a
    exact lt_of_le_of_lt promised (lt_of_le_of_ne stored lost)
  · intro unpromised
    refine ⟨fun b => (promise program b).durable, (crashState_iff _ _).mpr fun b => ⟨le_rfl, ?_⟩,
      unpromised.ne⟩
    exact (promise_ordered program b).1.trans (promise_ordered program b).2

/-- The order of two addresses can be violated exactly at a cut that has seen the last
store to the second address, while some store to the first one is not completed in front
of it.

A violating crash holds the last version of the second address, so the cut has seen its
last store. It does not hold the last version of the first address, so either that
version is not promised at the cut or a store to the address comes behind the cut, where
nothing completes it. Conversely the second address may have arrived at the cut while
all others are no newer than promised, and this crash violates the order. -/
theorem not_persistsBefore_iff {program : List (Event α)} {first second : α}
    (distinct : first ≠ second) :
    ¬ PersistsBefore program first second ↔ ∃ cut ≤ program.length,
      (∀ i, cut ≤ i → ¬ OccursAt (Event.Stores second) program i) ∧
      ∃ store, OccursAt (Event.Stores first) program store ∧
        ¬ Completed (program.take cut) first store := by
  classical
  constructor
  · intro violated
    simp only [PersistsBefore, not_forall, exists_prop] at violated
    obtain ⟨cut, bound, contents, crash, arrived, missing⟩ := violated
    have between := (crashState_iff _ _).mp crash
    have seen := lastVersion_take program cut second
    refine ⟨cut, bound, seen.2.mp (le_antisymm (arrived ▸ (between second).2) seen.1), ?_⟩
    by_cases later : ∀ i, cut ≤ i → ¬ OccursAt (Event.Stores first) program i
    · rw [(lastVersion_take program cut first).2.mpr later] at missing
      obtain ⟨store, occurs, uncompleted⟩ := (loses_iff _ _).mp ⟨contents, crash, missing⟩
      exact ⟨store, ((occursAt_take cut).mp occurs).2, uncompleted⟩
    · simp only [not_forall, not_not, exists_prop] at later
      obtain ⟨store, behind, occurs⟩ := later
      refine ⟨store, occurs, ?_⟩
      rintro ⟨written, _, after, _, writes, _⟩
      have before := ((occursAt_take cut).mp writes).1
      omega
  · rintro ⟨cut, bound, seen, store, occurs, uncompleted⟩ ordered
    -- the second address arrives at once and the first one as late as it may
    let contents a := if a = second then lastVersion (program.take cut) a
      else (promise (program.take cut) a).durable
    have chain (a : α) := (promise_ordered (program.take cut) a).1.trans
      (promise_ordered (program.take cut) a).2
    have crash : CrashState (program.take cut) contents := by
      refine (crashState_iff _ _).mpr fun a => ?_
      simp only [contents]
      split_ifs
      · exact ⟨chain a, le_rfl⟩
      · exact ⟨le_rfl, chain a⟩
    have arrived : contents second = lastVersion program second := by
      rw [(lastVersion_take program cut second).2.mpr seen]
      exact if_pos rfl
    have survived := ordered cut bound contents crash arrived
    have late : contents first = (promise (program.take cut) first).durable := if_neg distinct
    have upper := lastVersion_take program cut first
    rcases Nat.lt_or_ge store cut with before | behind
    · have unpromised := (durable_lt_iff _ _).mpr
        ⟨store, (occursAt_take cut).mpr ⟨before, occurs⟩, uncompleted⟩
      exact absurd (survived.symm.trans late) (lt_of_lt_of_le unpromised upper.1).ne'
    · have last : lastVersion program first = lastVersion (program.take cut) first :=
        le_antisymm (survived ▸ late ▸ chain first) upper.1
      exact upper.2.mp last store behind occurs

end Crashes

end PMTest.PersistentMemory

import Mathlib.Data.Set.Insert
import Mathlib.Logic.Function.Basic
import PMTest.PersistentMemory

/-!
# The contents that a crash leaves

A program stores values. A crash leaves one of the values that each address has had, and
which of them are possible is said by the versions of the persistent memory.

A program that waits for all of its stores settles. Behind it a crash can only leave what
the memory holds, so programs that settle can be looked at one after the other: a crash of
the whole is a crash of one of them, started from the contents that the ones before it
leave. Inside one of them an address holds its old content or one that was stored.
-/

namespace PMTest.CrashImages

open PersistentMemory

variable {α β : Type*}

/-- A step of a program. -/
inductive Instr (α β : Type*)
  | store (address : α) (value : β)
  | writeBack (range : α → Bool)
  | fence

/-- What it does to the versions of the addresses. -/
def Instr.event : Instr α β → Event α
  | store address _ => .store {address}
  | writeBack range => .writeBack { a | range a = true }
  | fence => .fence

/-- The program without its values. -/
def events (program : List (Instr α β)) : List (Event α) := program.map Instr.event

/-- The events of two programs in a row are put together. -/
theorem events_append (first second : List (Instr α β)) :
    events (first ++ second) = events first ++ events second := List.map_append

section Promises

/-- The stores of a second program come on top. -/
theorem current_append (first second : List (Event α)) (a : α) :
    (promise (first ++ second) a).current =
      (promise first a).current + (promise second a).current := by
  induction second using List.reverseRecOn with
  | nil => simp
  | append_singleton past event ih =>
    rw [← List.append_assoc, promise_concat, promise_concat]
    simp only [Promise.next, ih]
    split_ifs <;> omega

/-- The write-backs of a second program come on top of the first one, when nothing of
the first was left to be written back. -/
theorem inFlight_append {first : List (Event α)} (second : List (Event α)) {a : α}
    (written : (promise first a).inFlight = (promise first a).current) :
    (promise (first ++ second) a).inFlight =
      (promise first a).current + (promise second a).inFlight := by
  induction second using List.reverseRecOn with
  | nil => simpa using written
  | append_singleton past event ih =>
    rw [← List.append_assoc, promise_concat, promise_concat]
    simp only [Promise.next, ih, current_append]
    split_ifs <;> rfl

/-- The fences of a second program come on top of the first one, when nothing of the
first was left to be waited for. -/
theorem durable_append {first : List (Event α)} (second : List (Event α)) {a : α}
    (settled : (promise first a).durable = (promise first a).current) :
    (promise (first ++ second) a).durable =
      (promise first a).current + (promise second a).durable := by
  have written : (promise first a).inFlight = (promise first a).current := by
    have ordered := promise_ordered first a
    omega
  induction second using List.reverseRecOn with
  | nil => simpa using settled
  | append_singleton past event ih =>
    rw [← List.append_assoc, promise_concat, promise_concat]
    simp only [Promise.next, ih, inFlight_append past written]
    split_ifs <;> rfl

variable {first second program : List (Instr α β)}

/-- All stores of the program have been written back. -/
def WrittenBack (program : List (Instr α β)) : Prop :=
  ∀ a, (promise (events program) a).inFlight = (promise (events program) a).current

/-- The program has waited for all of its stores. -/
def Settles (program : List (Instr α β)) : Prop :=
  ∀ a, (promise (events program) a).durable = (promise (events program) a).current

/-- Two programs that write back all of their stores do so one after the other. -/
theorem WrittenBack.append (before : WrittenBack first) (behind : WrittenBack second) :
    WrittenBack (first ++ second) := by
  intro a
  rw [events_append, inFlight_append _ (before a), current_append, behind a]

/-- Two programs that wait for all of their stores do so one after the other. -/
theorem Settles.append (before : Settles first) (behind : Settles second) :
    Settles (first ++ second) := by
  intro a
  rw [events_append, durable_append _ (before a), current_append, behind a]

/-- A fence behind the write-backs waits for all stores. -/
theorem WrittenBack.settles (written : WrittenBack program) : Settles (program ++ [.fence]) := by
  intro a
  have waited : promise (events (program ++ [.fence])) a =
      (promise (events program) a).next a .fence := by
    rw [events_append]
    exact promise_concat
  rw [waited]
  simpa [Promise.next, Event.Fences, Event.Stores] using written a

/-- Write-backs make no version, and the last version of what they cover is written
back. By induction on the write-backs from their end: the last one covers the address,
or an earlier one has, and no store came in between. -/
theorem promise_append_writeBacks (program : List (Instr α β)) (ranges : List (α → Bool)) (a : α) :
    let behind := promise (events (program ++ ranges.map .writeBack)) a
    behind.current = (promise (events program) a).current ∧
      ((∃ range ∈ ranges, range a = true) → behind.inFlight = behind.current) := by
  induction ranges using List.reverseRecOn with
  | nil => simp
  | append_singleton past range ih =>
    obtain ⟨unchanged, written⟩ := ih
    have next : promise (events (program ++ (past ++ [range]).map .writeBack)) a =
        (promise (events (program ++ past.map .writeBack)) a).next a
          (.writeBack {a | range a}) := by
      rw [List.map_append, ← List.append_assoc, events_append]
      exact promise_concat
    have unstored : ¬ (Event.writeBack {a | range a = true}).Stores a := id
    simp only [next, Promise.next, if_neg unstored]
    refine ⟨unchanged, ?_⟩
    rintro ⟨covering, member, covers⟩
    split_ifs with last
    · rfl
    · rcases List.mem_append.mp member with earlier | latest
      · exact written ⟨covering, earlier, covers⟩
      · rw [List.mem_singleton.mp latest] at covers
        exact absurd covers last

end Promises

section Execution

variable [DecidableEq α]

/-- What it does to the contents of the memory. -/
def Instr.apply (m : α → β) : Instr α β → α → β
  | store address value => Function.update m address value
  | _ => m

/-- The contents behind a program. -/
def exec (m : α → β) (program : List (Instr α β)) : α → β := program.foldl Instr.apply m

/-- The value that a step stores to an address. -/
def Instr.stored? (a : α) : Instr α β → Option β
  | store address value => if address = a then some value else none
  | _ => none

/-- The values that a program stores to an address. -/
def stored (a : α) (program : List (Instr α β)) : List β := program.filterMap (Instr.stored? a)

/-- The contents that an address has had, the oldest first. -/
def versions (m : α → β) (program : List (Instr α β)) (a : α) : List β := m a :: stored a program

variable {m : α → β} {first second program : List (Instr α β)} {a : α}

/-- A fence changes no content. -/
@[simp] theorem Instr.apply_fence : (Instr.fence : Instr α β).apply m = m := rfl

/-- The empty program changes nothing. -/
@[simp] theorem exec_nil : exec m ([] : List (Instr α β)) = m := rfl

/-- The first step is executed first. -/
@[simp] theorem exec_cons (i : Instr α β) : exec m (i :: program) = exec (i.apply m) program := rfl

/-- The second program starts from what the first one leaves. -/
@[simp] theorem exec_append : exec m (first ++ second) = exec (exec m first) second :=
  List.foldl_append

/-- Two programs in a row store what each of them stores. -/
@[simp] theorem stored_append : stored a (first ++ second) = stored a first ++ stored a second :=
  List.filterMap_append

/-- A step changes the addresses it stores to. -/
theorem Instr.apply_eq (i : Instr α β) : i.apply m a = (i.stored? a).getD (m a) := by
  cases i with
  | store address value =>
    by_cases same : address = a
    · simp [Instr.apply, Instr.stored?, same]
    · simp [Instr.apply, Instr.stored?, same, Ne.symm same]
  | writeBack | fence => rfl

/-- A store makes a version. -/
theorem Instr.stores_event (i : Instr α β) : i.event.Stores a ↔ (i.stored? a).isSome := by
  cases i with
  | store address value =>
    by_cases same : address = a
    · simp [Instr.event, Event.Stores, Instr.stored?, same]
    · simp [Instr.event, Event.Stores, Instr.stored?, same, Ne.symm same]
  | writeBack | fence => simp [Instr.event, Event.Stores, Instr.stored?]

/-- The last version of an address counts the values that were stored there. -/
theorem lastVersion_events (program : List (Instr α β)) (a : α) :
    lastVersion (events program) a = (stored a program).length := by
  induction program using List.reverseRecOn with
  | nil => rfl
  | append_singleton past i ih =>
    have last : lastVersion (events past ++ [i.event]) a = _ := lastVersion_concat
    rw [events_append, stored_append, List.length_append, ← ih]
    refine last.trans ?_
    cases here : i.stored? a with
    | none => simp [i.stores_event, stored, here]
    | some value => simp [i.stores_event, stored, here]

/-- The last version is what the memory holds. -/
theorem versions_last (m : α → β) (program : List (Instr α β)) (a : α) :
    (versions m program a)[(stored a program).length]? = some (exec m program a) := by
  induction program using List.reverseRecOn with
  | nil => rfl
  | append_singleton past i ih =>
    rw [versions, stored_append, exec_append, exec_cons, exec_nil, i.apply_eq]
    cases here : i.stored? a with
    | none =>
      rw [show stored a [i] = [] by simp [stored, here], List.append_nil]
      exact ih
    | some value => simp [stored, here]

/-- Behind a program an address holds its old content or one that was stored. -/
theorem exec_value (m : α → β) (program : List (Instr α β)) (a : α) :
    exec m program a = m a ∨ exec m program a ∈ stored a program :=
  List.mem_cons.mp (List.mem_of_getElem? (versions_last m program a))

/-- An address that is not stored to keeps its content. -/
theorem exec_of_unstored (unstored : stored a program = []) : exec m program a = m a := by
  refine (exec_value m program a).resolve_right ?_
  rw [unstored]
  exact List.not_mem_nil

/-- Behind a program, the versions go on from what the memory holds. -/
theorem versions_append (later : Nat) :
    (versions m (first ++ second) a)[(stored a first).length + later]? =
      (versions (exec m first) second a)[later]? := by
  have whole : versions m (first ++ second) a = versions m first a ++ stored a second := by
    rw [versions, stored_append]
    rfl
  have length : (versions m first a).length = (stored a first).length + 1 := List.length_cons
  rw [whole]
  cases later with
  | zero =>
    rw [List.getElem?_append_left (by omega)]
    exact versions_last m first a
  | succ behind =>
    rw [List.getElem?_append_right (by omega), length]
    exact congrArg ((stored a second)[·]?) (by omega)

/-- Write-backs of all stored addresses leave nothing to be written back. -/
theorem writtenBack_append_writeBacks (ranges : List (α → Bool))
    (covered : ∀ a, stored a program ≠ [] → ∃ range ∈ ranges, range a = true) :
    WrittenBack (program ++ ranges.map .writeBack) := by
  intro a
  obtain ⟨unchanged, written⟩ := promise_append_writeBacks program ranges a
  by_cases unstored : stored a program = []
  · have none : (promise (events program) a).current = 0 := by
      rw [← lastVersion, lastVersion_events, unstored]
      rfl
    have ordered := (promise_ordered (events (program ++ ranges.map .writeBack)) a).2
    omega
  · exact written (covered a unstored)

end Execution

section Crashes

variable [DecidableEq α]

/-- A crash behind the program may leave these contents. -/
def CrashImage (m : α → β) (program : List (Instr α β)) (image : α → β) : Prop :=
  ∃ contents, CrashState (events program) contents ∧
    ∀ a, (versions m program a)[contents a]? = some (image a)

/-- A crash at some time of the program may leave these contents. -/
def CrashesTo (m : α → β) (program : List (Instr α β)) (image : α → β) : Prop :=
  ∃ front back, program = front ++ back ∧ CrashImage m front image

variable {m image : α → β} {first second program : List (Instr α β)}

/-- A crash leaves an old content or one that was stored. -/
theorem CrashesTo.value (crashes : CrashesTo m program image) (a : α) :
    image a = m a ∨ image a ∈ stored a program := by
  obtain ⟨front, back, rfl, contents, _, left⟩ := crashes
  have member := List.mem_of_getElem? (left a)
  rw [versions, List.mem_cons] at member
  rw [stored_append]
  exact member.imp_right fun stored => List.mem_append_left _ stored

/-- A crash behind the program may leave all that was stored. -/
theorem crashesTo_exec (m : α → β) (program : List (Instr α β)) :
    CrashesTo m program (exec m program) := by
  refine ⟨program, [], (List.append_nil _).symm, lastVersion (events program),
    (crashState_iff _ _).mpr fun a => ⟨?_, le_rfl⟩, fun a => ?_⟩
  · obtain ⟨waited, written⟩ := promise_ordered (events program) a
    exact waited.trans written
  · rw [lastVersion_events]
    exact versions_last m program a

/-- A crash of no program leaves the memory as it is. -/
theorem CrashesTo.eq_of_nil (crashes : CrashesTo m [] image) : image = m :=
  funext fun a => (crashes.value a).resolve_right List.not_mem_nil

/-- Behind a program that settles, a crash starts from what the memory holds. The
versions that the crash has left are not older than the settled ones, so they are
versions of the second program, counted from where the first one ended. -/
theorem CrashImage.behind (settles : Settles first)
    (crash : CrashImage m (first ++ second) image) : CrashImage (exec m first) second image := by
  obtain ⟨contents, state, left⟩ := crash
  have between := (crashState_iff _ _).mp state
  have versioned (a : α) : (promise (events first) a).current = (stored a first).length :=
    lastVersion_events first a
  refine ⟨fun a => contents a - (stored a first).length, (crashState_iff _ _).mpr fun a => ?_,
    fun a => ?_⟩
  · obtain ⟨lower, upper⟩ := between a
    rw [events_append, durable_append _ (settles a), versioned] at lower
    rw [events_append, lastVersion, current_append, versioned] at upper
    rw [lastVersion]
    omega
  · obtain ⟨lower, _⟩ := between a
    rw [events_append, durable_append _ (settles a), versioned] at lower
    rw [← versions_append, Nat.add_sub_cancel' (by omega)]
    exact left a

/-- A crash of a program is one of every program that goes on behind it. -/
theorem CrashesTo.extend (crashes : CrashesTo m first image) (second : List (Instr α β)) :
    CrashesTo m (first ++ second) image := by
  obtain ⟨front, back, rfl, crash⟩ := crashes
  exact ⟨front, back ++ second, List.append_assoc .., crash⟩

/-- A crash of two programs, the first of which settles, is a crash of one of them. -/
theorem CrashesTo.append (settles : Settles first) (crashes : CrashesTo m (first ++ second) image) :
    CrashesTo m first image ∨ CrashesTo (exec m first) second image := by
  obtain ⟨front, back, whole, crash⟩ := crashes
  rcases List.append_eq_append_iff.mp whole with ⟨middle, rfl, rfl⟩ | ⟨middle, rfl, rfl⟩
  · exact .inr ⟨middle, back, rfl, crash.behind settles⟩
  · exact .inl ⟨front, middle, rfl, crash⟩

end Crashes

end PMTest.CrashImages

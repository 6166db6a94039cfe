import Mathlib.Algebra.Ring.Int.Defs
import Mathlib.Algebra.Ring.Nat
import Mathlib.Data.Set.Function
import Mathlib.Logic.Function.Basic

/-!
# The variable registry

A program registers the address and the size of a variable under a name, to ask
for them later. All threads share one map. Its key is the name followed by the
decimal number of the thread, with nothing between them, so `x` of thread 12 and
`x1` of thread 2 have the same key.

The registry is compared with a map whose keys are pairs of a thread and a name. It
behaves like this one for a set of pairs exactly when no two of them collide.

The comparison rests on maps under encoded keys, of which the first part speaks: a map
may be stored under encodings of its keys, and its values may be seen through a view.
If the encoding is injective on the keys in use, an insertion or a removal under an
encoded key is one under the key, and it leaves the other keys alone. An insertion
keeps a value that is already there.
-/

namespace PMTest.EncodedMaps

variable {κ ε α β : Type*}

section Operations

variable [DecidableEq ε] (stored : ε → Option α) {key other : ε}

/-- Insert a value under a key that has none. -/
def insertNew (key : ε) (value : α) : ε → Option α :=
  if (stored key).isNone then Function.update stored key (some value) else stored

/-- Remove a key. -/
def erase (key : ε) : ε → Option α := Function.update stored key none

/-- Behind an insertion the key has a value: the old one, if there was any. -/
theorem insertNew_self (value : α) :
    insertNew stored key value key = some ((stored key).getD value) := by
  unfold insertNew
  cases found : stored key with
  | none => simp
  | some old => simp [found]

/-- An insertion leaves the values of other keys alone. -/
theorem insertNew_of_ne (apart : other ≠ key) (value : α) :
    insertNew stored key value other = stored other := by
  unfold insertNew
  split_ifs
  · exact Function.update_of_ne apart _ _
  · rfl

/-- A removed key has no value. -/
theorem erase_self : erase stored key key = none := Function.update_self ..

/-- A removal leaves the values of other keys alone. -/
theorem erase_of_ne (apart : other ≠ key) : erase stored key other = stored other :=
  Function.update_of_ne apart _ _

end Operations

section Encoded

variable (encode : κ → ε) (view : α → β) (used : Set κ)

/-- The map holds the reference under the encodings of the keys in use. -/
def Stores (stored : ε → Option α) (reference : κ → Option β) : Prop :=
  ∀ key ∈ used, (stored (encode key)).map view = reference key

/-- The empty map holds the empty reference. -/
theorem stores_empty : Stores encode view used (fun _ => none) fun _ => none := fun _ _ => rfl

variable [DecidableEq ε] [DecidableEq κ] {encode view used} {stored : ε → Option α}
  {reference : κ → Option β} (injective : Set.InjOn encode used)
  (stores : Stores encode view used stored reference) {key : κ} (inUse : key ∈ used)
include injective stores inUse

/-- An insertion under the encoded key is an insertion under the key. Another key in use
has another encoding, so it is not affected. -/
theorem Stores.insertNew (value : α) : Stores encode view used
    (insertNew stored (encode key) value) (insertNew reference key (view value)) := by
  intro other used
  by_cases same : other = key
  · obtain rfl := same
    rw [insertNew_self, insertNew_self, ← stores other used]
    cases stored (encode other) <;> rfl
  · have apart : encode other ≠ encode key := fun equal => same (injective used inUse equal)
    rw [insertNew_of_ne stored apart, insertNew_of_ne reference same]
    exact stores other used

/-- A removal under the encoded key is a removal under the key. -/
theorem Stores.erase :
    Stores encode view used (erase stored (encode key)) (erase reference key) := by
  intro other used
  by_cases same : other = key
  · obtain rfl := same
    rw [erase_self, erase_self, Option.map_none]
  · have apart : encode other ≠ encode key := fun equal => same (injective used inUse equal)
    rw [erase_of_ne stored apart, erase_of_ne reference same]
    exact stores other used

end Encoded

end PMTest.EncodedMaps

namespace PMTest

open EncodedMaps

section Threads

/-- `ThreadInfo`; its lock makes `C_initThread` one step. -/
structure ThreadInfo where
  curThreadId : Nat := 0

/-- The variables of a thread that `C_initThread` sets. -/
structure ThreadLocals where
  threadId : Nat
  existVeriInstance : Bool
  pmtestCurIdx : Nat

/-- `C_initThread`. -/
def cInitThread (info : ThreadInfo) : ThreadInfo × ThreadLocals :=
  ({ curThreadId := info.curThreadId + 1 },
    { threadId := info.curThreadId, existVeriInstance := false, pmtestCurIdx := 0 })

/-- Some threads are initialised, one after the other. -/
def initThreads : Nat → ThreadInfo × List ThreadLocals
  | 0 => ({}, [])
  | n + 1 =>
      let (info, threads) := initThreads n
      let (info, thread) := cInitThread info
      (info, threads ++ [thread])

/-- The threads are numbered in the order in which they are initialised. -/
theorem threadIds_initThreads (n : Nat) :
    (initThreads n).1.curThreadId = n ∧
      (initThreads n).2.map ThreadLocals.threadId = List.range n := by
  induction n with
  | zero => exact ⟨rfl, rfl⟩
  | succ n ih =>
    obtain ⟨next, ids⟩ := ih
    constructor
    · simp only [initThreads, cInitThread, next]
    · simp only [initThreads, cInitThread, List.map_append, ids, List.map_singleton, next,
        List.range_succ]

end Threads

/-- A name as one thread uses it. -/
structure ThreadVariable where
  threadId : Nat
  name : List Char
  deriving DecidableEq, Repr

/-- `variableName`: the name with `std::to_string(thread_id)` appended. -/
def ThreadVariable.variableName (v : ThreadVariable) : List Char :=
  v.name ++ Nat.toDigits 10 v.threadId

/-- `VariableInfo`. -/
structure VariableInfo where
  addr : Nat
  size : Int
  deriving DecidableEq, Repr

/-- `VariableNameAddressMap`. -/
abbrev VariableMap := List Char → Option VariableInfo

section Registry

/-- `C_registerVariable`. The size becomes an `int`. -/
def cRegisterVariable (m : VariableMap) (v : ThreadVariable) (addr size : Nat) : VariableMap :=
  insertNew m v.variableName { addr := addr, size := Int.bmod size (2 ^ 32) }

/-- `C_unregisterVariable`. -/
def cUnregisterVariable (m : VariableMap) (v : ThreadVariable) : VariableMap :=
  erase m v.variableName

/-- What `C_getVariable` returns for an entry: the address, and the size as a
`size_t`. -/
def VariableInfo.returned (info : VariableInfo) : Nat × Nat :=
  (info.addr, (info.size % 2 ^ 64).toNat)

/-- `C_getVariable`, with the address it returns and the size it stores. -/
def cGetVariable (m : VariableMap) (v : ThreadVariable) : Nat × Nat :=
  match m v.variableName with
  | none => (0, 0)
  | some info => info.returned

/-- A call of some thread with some name. -/
inductive Access
  | register (v : ThreadVariable) (addr size : Nat)
  | unregister (v : ThreadVariable)
  | get (v : ThreadVariable)
  deriving DecidableEq, Repr

/-- The thread and the name of a call. -/
def Access.variable : Access → ThreadVariable
  | register v _ _ => v
  | unregister v => v
  | get v => v

/-- The call uses one of the given pairs, with a size that is an `int`. -/
def Access.Allowed (used : Set ThreadVariable) : Access → Prop
  | register v _ size => v ∈ used ∧ size < 2 ^ 31
  | unregister v => v ∈ used
  | get v => v ∈ used

/-- One call: the map after it, and what the calls have returned. -/
def registryStep : VariableMap × List (Nat × Nat) → Access → VariableMap × List (Nat × Nat)
  | (m, answers), .register v addr size => (cRegisterVariable m v addr size, answers)
  | (m, answers), .unregister v => (cUnregisterVariable m v, answers)
  | (m, answers), .get v => (m, answers ++ [cGetVariable m v])

/-- An interleaving of calls on the empty map. -/
def registryRun (accesses : List Access) : VariableMap × List (Nat × Nat) :=
  accesses.foldl registryStep (fun _ => none, [])

/-- The map whose keys are pairs of a thread and a name. -/
abbrev ReferenceMap := ThreadVariable → Option (Nat × Nat)

/-- One access to the reference, which is indexed by thread and name. -/
def referenceStep : ReferenceMap × List (Nat × Nat) → Access → ReferenceMap × List (Nat × Nat)
  | (m, answers), .register v addr size => (insertNew m v (addr, size), answers)
  | (m, answers), .unregister v => (erase m v, answers)
  | (m, answers), .get v => (m, answers ++ [(m v).getD (0, 0)])

/-- An interleaving of accesses to the reference. -/
def referenceRun (accesses : List Access) : ReferenceMap × List (Nat × Nat) :=
  accesses.foldl referenceStep (fun _ => none, [])

/-- The registry keeps the pairs apart: every interleaving of calls gets the answers
of the reference, and no call changes what is returned for another pair. -/
def KeepsApart (used : Set ThreadVariable) : Prop :=
  ∀ accesses : List Access, (∀ access ∈ accesses, access.Allowed used) →
    (registryRun accesses).2 = (referenceRun accesses).2 ∧
    ∀ access : Access, access.Allowed used → ∀ other ∈ used, other ≠ access.variable →
      cGetVariable (registryRun (accesses ++ [access])).1 other =
        cGetVariable (registryRun accesses).1 other

end Registry

section Collisions

/-- The number of the first thread ends in the number of the second one, and the
digits in front of it are what the second name has behind the first. -/
def Collide (v w : ThreadVariable) : Prop :=
  ∃ digits, digits ≠ [] ∧ Nat.toDigits 10 v.threadId = digits ++ Nat.toDigits 10 w.threadId ∧
    w.name = v.name ++ digits

/-- Pairs that collide are different. -/
theorem Collide.ne {v w : ThreadVariable} (collide : Collide v w) : v ≠ w := by
  rintro rfl
  obtain ⟨digits, nonempty, _, same⟩ := collide
  exact nonempty (List.self_eq_append_right.mp same)

/-- Colliding variables have the same key: the digits belong to the name of one and to
the number of the other. -/
theorem Collide.variableName_eq {v w : ThreadVariable} (collide : Collide v w) :
    v.variableName = w.variableName := by
  obtain ⟨digits, _, ids, names⟩ := collide
  rw [ThreadVariable.variableName, ThreadVariable.variableName, ids, names, List.append_assoc]

/-- Decimal numbers are different for different threads. -/
theorem toDigits_injective : Function.Injective (Nat.toDigits 10) := by
  intro m n same
  rw [← Nat.ofDigitChars_toDigits (b := 10) (n := m) (by decide) (by decide), same,
    Nat.ofDigitChars_toDigits (by decide) (by decide)]

/-- Equal keys come from equal pairs or from a collision. One of the two names is the
beginning of the other, and what the longer name has in addition are digits of the other
number. -/
theorem variableName_eq {v w : ThreadVariable} (same : v.variableName = w.variableName) :
    v = w ∨ Collide v w ∨ Collide w v := by
  have split {v w : ThreadVariable} {digits : List Char} (names : w.name = v.name ++ digits)
      (ids : Nat.toDigits 10 v.threadId = digits ++ Nat.toDigits 10 w.threadId) :
      v = w ∨ Collide v w := by
    cases digits with
    | nil =>
      left
      obtain ⟨id, name⟩ := v
      obtain ⟨id', name'⟩ := w
      obtain rfl : name' = name := by simpa using names
      obtain rfl : id = id' := toDigits_injective ids
      rfl
    | cons digit rest => exact .inr ⟨digit :: rest, List.cons_ne_nil _ _, ids, names⟩
  obtain ⟨digits, names, ids⟩ | ⟨digits, names, ids⟩ := List.append_eq_append_iff.mp same
  · exact (split names ids).imp_right .inl
  · exact (split names ids).elim (fun equal => .inl equal.symm) fun collide => .inr (.inr collide)

/-- Without a collision the keys of the pairs in use are different. -/
theorem injOn_variableName {used : Set ThreadVariable}
    (apart : ∀ v ∈ used, ∀ w ∈ used, ¬ Collide v w) :
    Set.InjOn ThreadVariable.variableName used := by
  intro v inUse w inUse' same
  obtain equal | collide | collide := variableName_eq same
  · exact equal
  · exact absurd collide (apart v inUse w inUse')
  · exact absurd collide (apart w inUse' v inUse)

end Collisions

section Refinement

variable {used : Set ThreadVariable}

/-- The size of a variable is returned as it was registered. -/
theorem returned_registered {addr size : Nat} (small : size < 2 ^ 31) :
    (VariableInfo.mk addr (Int.bmod size (2 ^ 32))).returned = (addr, size) := by
  have kept : Int.bmod size (2 ^ 32) = size := Int.bmod_eq_of_le (by omega) (by omega)
  have back : ((size : Int) % 2 ^ 64).toNat = size := by omega
  rw [VariableInfo.returned, kept, back]

/-- What is returned is what the map holds, or two zeros. -/
theorem cGetVariable_eq (m : VariableMap) (v : ThreadVariable) :
    cGetVariable m v = ((m v.variableName).map VariableInfo.returned).getD (0, 0) := by
  unfold cGetVariable
  cases m v.variableName <;> rfl

/-- The registry holds what the reference holds, and has returned the same. -/
def Agrees (used : Set ThreadVariable) (s : VariableMap × List (Nat × Nat))
    (r : ReferenceMap × List (Nat × Nat)) : Prop :=
  Stores ThreadVariable.variableName VariableInfo.returned used s.1 r.1 ∧ s.2 = r.2

section Injective

variable (injective : Set.InjOn ThreadVariable.variableName used) {access : Access}
  (allowed : access.Allowed used)
include injective allowed

/-- One call keeps the agreement. -/
theorem Agrees.step {s : VariableMap × List (Nat × Nat)} {r : ReferenceMap × List (Nat × Nat)}
    (agrees : Agrees used s r) : Agrees used (registryStep s access) (referenceStep r access) := by
  obtain ⟨stores, answers⟩ := agrees
  cases access with
  | register v addr size =>
    obtain ⟨inUse, small⟩ := allowed
    have inserted := stores.insertNew injective inUse
      { addr := addr, size := Int.bmod size (2 ^ 32) }
    rw [returned_registered small] at inserted
    exact ⟨inserted, answers⟩
  | unregister v => exact ⟨stores.erase injective allowed, answers⟩
  | get v =>
    refine ⟨stores, ?_⟩
    simp only [registryStep, referenceStep]
    rw [cGetVariable_eq, stores v allowed, answers]

/-- A call leaves the other pairs alone. -/
theorem registryStep_other (s : VariableMap × List (Nat × Nat)) {other : ThreadVariable}
    (inUse : other ∈ used) (apart : other ≠ access.variable) :
    cGetVariable (registryStep s access).1 other = cGetVariable s.1 other := by
  have keys {v : ThreadVariable} (known : v ∈ used) (different : other ≠ v) :
      other.variableName ≠ v.variableName := fun same => different (injective inUse known same)
  rw [cGetVariable_eq, cGetVariable_eq]
  cases access with
  | register v addr size =>
    simp only [registryStep, cRegisterVariable]
    rw [insertNew_of_ne s.1 (keys allowed.1 apart)]
  | unregister v =>
    simp only [registryStep, cUnregisterVariable]
    rw [erase_of_ne s.1 (keys allowed apart)]
  | get v => rfl

end Injective

/-- Without a collision the registry keeps the pairs apart, since it holds the reference
under keys that are different for the pairs in use. -/
theorem keepsApart_of_no_collision (apart : ∀ v ∈ used, ∀ w ∈ used, ¬ Collide v w) :
    KeepsApart used := by
  have injective := injOn_variableName apart
  intro accesses allowed
  have agrees : Agrees used (registryRun accesses) (referenceRun accesses) :=
    List.foldl_rel (r := Agrees used) ⟨stores_empty _ _ _, rfl⟩ fun access member _ _ before =>
      before.step injective (allowed access member)
  refine ⟨agrees.2, fun access permitted other inUse different => ?_⟩
  rw [registryRun, List.foldl_append]
  exact registryStep_other injective permitted _ inUse different

/-- Up to ten threads the numbers have one digit, and nothing collides. -/
theorem keepsApart_of_few_threads (few : ∀ v ∈ used, v.threadId < 10) : KeepsApart used := by
  apply keepsApart_of_no_collision
  rintro v inUse w inUse' ⟨digits, nonempty, ids, _⟩
  have lengths := congrArg List.length ids
  rw [Nat.toDigits_of_lt_base (few v inUse), Nat.toDigits_of_lt_base (few w inUse')] at lengths
  exact nonempty (by simpa using lengths)

/-- In a collision, one variable is returned for the other. -/
theorem Collide.answers {v w : ThreadVariable} (collide : Collide v w) :
    (registryRun [.register v 1 1, .get w]).2 = [(1, 1)] ∧
      (referenceRun [.register v 1 1, .get w]).2 = [(0, 0)] := by
  constructor
  · change [cGetVariable (cRegisterVariable (fun _ => none) v 1 1) w] = [(1, 1)]
    rw [cGetVariable_eq, ← collide.variableName_eq, cRegisterVariable, insertNew_self]
    rfl
  · change [(insertNew (fun _ => none) v (1, 1) w).getD (0, 0)] = [(0, 0)]
    rw [insertNew_of_ne _ collide.ne.symm]
    rfl

/-- The registry keeps the pairs of a set apart exactly when no two of them collide. For
two that collide, registering one of them and asking for the other shows it. -/
theorem registry_keeps_apart_iff (used : Set ThreadVariable) :
    KeepsApart used ↔ ∀ v ∈ used, ∀ w ∈ used, ¬ Collide v w := by
  constructor
  · intro kept v inUse w inUse' collide
    have same := (kept [.register v 1 1, .get w] (by simp [Access.Allowed, inUse, inUse'])).1
    rw [collide.answers.1, collide.answers.2] at same
    exact absurd same (by decide)
  · exact keepsApart_of_no_collision

/-- The variable `x` of the thirteenth thread is returned for `x1` of the third. -/
theorem variables_of_two_threads_confused :
    12 ∈ (initThreads 13).2.map ThreadLocals.threadId ∧
    2 ∈ (initThreads 13).2.map ThreadLocals.threadId ∧
    (registryRun [.register ⟨12, ['x']⟩ 4096 8, .get ⟨2, ['x', '1']⟩]).2 = [(4096, 8)] ∧
    (referenceRun [.register ⟨12, ['x']⟩ 4096 8, .get ⟨2, ['x', '1']⟩]).2 = [(0, 0)] ∧
    ¬ KeepsApart Set.univ := by
  rw [(threadIds_initThreads 13).2]
  refine ⟨by decide, by decide, by decide, by decide, fun kept => ?_⟩
  have same := (kept [.register ⟨12, ['x']⟩ 4096 8, .get ⟨2, ['x', '1']⟩] (by
    simp [Access.Allowed])).1
  exact absurd same (by decide)

end Refinement

end PMTest

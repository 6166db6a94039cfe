import Mathlib.Data.Nat.Find
import PMTest.PersistentMemory

/-!
# Undoing a program after a crash

While a program runs, an undo log remembers contents of addresses: an entry holds the
version that its address has when the entry is made, and it is persistent at once. When
the machine has crashed, a recovery puts back the oldest remembered version of each
address and leaves the others as the crash left them.

Whatever the crash left, nothing that was stored behind a position survives the recovery
exactly if every address has been remembered before it is stored to.
-/

namespace PMTest.PersistentMemory

variable {α : Type*} {program : List (Event α)} {log : α → Nat → Prop} {a : α}

/-- Between two cuts the last version stays the same exactly if nothing is stored. -/
theorem lastVersion_between {first cut : Nat} (order : first ≤ cut) :
    lastVersion (program.take first) a ≤ lastVersion (program.take cut) a ∧
      (lastVersion (program.take cut) a = lastVersion (program.take first) a ↔
        ∀ i, first ≤ i → i < cut → ¬ OccursAt (Event.Stores a) program i) := by
  have between := lastVersion_take (program.take cut) first a
  rw [List.take_take, Nat.min_eq_left order] at between
  refine ⟨between.1, between.2.trans (forall_congr' fun i => forall_congr' fun _ => ?_)⟩
  rw [occursAt_take, not_and]

section Recovery

variable (program log) (first cut : Nat)

/-- The first entry for an address between the positions. -/
def OldestEntry (a : α) (i : Nat) : Prop :=
  (first ≤ i ∧ i < cut ∧ log a i) ∧ ∀ j, first ≤ j → j < i → ¬ log a j

open Classical in
/-- The contents behind the recovery of a program that started at the first position. An
address with an entry gets back what was current when its oldest entry was made. -/
noncomputable def recovered (contents : α → Nat) (a : α) : Nat :=
  if remembered : ∃ i, OldestEntry log first cut a i then
    lastVersion (program.take remembered.choose) a
  else contents a

/-- No crash between the positions leaves anything that was stored behind the first one. -/
def Undoes (last : Nat) : Prop :=
  ∀ cut, first ≤ cut → cut ≤ last → ∀ contents, CrashState (program.take cut) contents →
    ∀ a, recovered program log first cut contents a ≤ lastVersion (program.take first) a

end Recovery

variable {first cut last : Nat}

/-- If there is an entry, there is a first one. -/
theorem exists_oldestEntry {i : Nat} (behind : first ≤ i) (before : i < cut) (logged : log a i) :
    ∃ i, OldestEntry log first cut a i := by
  classical
  have some_entry : ∃ i, first ≤ i ∧ i < cut ∧ log a i := ⟨i, behind, before, logged⟩
  obtain ⟨oldest_behind, oldest_before, oldest_logged⟩ := Nat.find_spec some_entry
  refine ⟨Nat.find some_entry, ⟨oldest_behind, oldest_before, oldest_logged⟩, ?_⟩
  intro j above below entry
  exact Nat.find_min some_entry below ⟨above, below.trans oldest_before, entry⟩

/-- Without an entry the address is left as it is. -/
theorem recovered_of_unlogged (unlogged : ∀ i, first ≤ i → i < cut → ¬ log a i)
    (contents : α → Nat) : recovered program log first cut contents a = contents a := by
  rw [recovered, dif_neg]
  rintro ⟨i, ⟨behind, before, logged⟩, _⟩
  exact unlogged i behind before logged

/-- If every store is logged before, an address gets the version that it had at first:
nothing is stored in front of its oldest entry. -/
theorem recovered_of_logged
    (covered : ∀ i, first ≤ i → i < cut → OccursAt (Event.Stores a) program i →
      ∃ j, first ≤ j ∧ j < i ∧ log a j)
    {i : Nat} (behind : first ≤ i) (before : i < cut) (logged : log a i) (contents : α → Nat) :
    recovered program log first cut contents a = lastVersion (program.take first) a := by
  have remembered := exists_oldestEntry behind before logged
  obtain ⟨⟨after, below, _⟩, oldest⟩ := remembered.choose_spec
  rw [recovered, dif_pos remembered]
  apply (lastVersion_between after).2.mpr
  -- a store in front of the oldest entry would have an older one
  intro j above under stores
  obtain ⟨k, above, earlier, entry⟩ := covered j above (under.trans below) stores
  exact oldest k above (earlier.trans under) entry

/-- The recovery undoes the program exactly if it is logged in front of every store.

If a store is not logged before, the machine may stop right behind it with everything
arrived; the recovery has no entry for the address and leaves the store in place. If all
stores are logged, an address without entries has no store, and any other gets its first
version back. -/
theorem undoes_iff (apart : ∀ a i, log a i → ¬ OccursAt (Event.Stores a) program i) :
    Undoes program log first last ↔
      ∀ a i, first ≤ i → i < last → OccursAt (Event.Stores a) program i →
        ∃ j, first ≤ j ∧ j < i ∧ log a j := by
  constructor
  · intro undoes a i behind before stores
    by_contra missing
    -- the machine stops behind the store, when everything has arrived
    have current (b : α) := promise_ordered (program.take (i + 1)) b
    have crash : CrashState (program.take (i + 1)) (lastVersion (program.take (i + 1))) :=
      (crashState_iff _ _).mpr fun b => ⟨(current b).1.trans (current b).2, le_rfl⟩
    have survived := undoes (i + 1) (by omega) before _ crash a
    rw [recovered_of_unlogged] at survived
    · obtain ⟨newer, same⟩ :=
        @lastVersion_between α program a first (i + 1) (by omega)
      exact same.mp (le_antisymm survived newer) i behind (Nat.lt_succ_self i) stores
    · intro j above below logged
      rcases Nat.lt_succ_iff_lt_or_eq.mp below with earlier | rfl
      · exact missing ⟨j, above, earlier, logged⟩
      · exact apart a j logged stores
  · intro covered cut behind before contents crash a
    have own (i : Nat) (above : first ≤ i) (below : i < cut) := covered a i above (by omega)
    by_cases entry : ∃ i, first ≤ i ∧ i < cut ∧ log a i
    · obtain ⟨i, above, below, logged⟩ := entry
      exact (recovered_of_logged own above below logged contents).le
    · have unlogged (i : Nat) (above : first ≤ i) (below : i < cut) : ¬ log a i :=
        fun logged => entry ⟨i, above, below, logged⟩
      have unstored : lastVersion (program.take cut) a = lastVersion (program.take first) a := by
        apply (lastVersion_between behind).2.mpr
        intro i above below stores
        obtain ⟨j, later, earlier, logged⟩ := own i above below stores
        exact unlogged j later (earlier.trans below) logged
      rw [recovered_of_unlogged unlogged, ← unstored]
      exact ((crashState_iff _ _).mp crash a).2

end PMTest.PersistentMemory

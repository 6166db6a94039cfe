import PMTest.History

/-!
# Two runs that differ in some records

Several questions about the checker compare its runs on a trace and on the same
trace without some of its records. Records are identified by their addresses, so
the lines printed for one record can be compared even though its position has
changed.

If no erased record is a fence, the same flushes are skipped in both runs. A
relation between byte states that every retained record keeps on both sides, and
every erased record keeps on the side where it is processed, then holds in front
of every position.
-/

namespace PMTest

open Lookahead

variable (icl : Icl) (warn : Bool) (t : Trace) (kept : Ptr → Bool)

/-- The number of retained records in front of a position. -/
def keptBefore (position : Nat) : Nat := ((t.veriptr.take position).filter kept).length

/-- At the end of the trace every retained record has been counted. -/
theorem keptBefore_length :
    keptBefore t kept t.veriptr.length = (t.keep kept).veriptr.length := by
  rw [keptBefore, List.take_length]
  rfl

/-- A retained record is counted behind its position, an erased one is not. -/
theorem keptBefore_succ {position : Nat} {cur : Ptr} (found : t.veriptr[position]? = some cur) :
    keptBefore t kept (position + 1) =
      if kept cur then keptBefore t kept position + 1 else keptBefore t kept position := by
  simp only [keptBefore, List.take_add_one, found, Option.toList_some, List.filter_append,
    List.length_append, List.filter_singleton]
  cases kept cur <;> rfl

/-- Erasing records other than fences leaves the search for a fence alone. -/
theorem hasFence_filter (later : List Ptr)
    (unfenced : ∀ p ∈ later, kept p = false → (t.memory p).type ≠ .fence) :
    hasFence t.memory (later.filter kept) = hasFence t.memory later := by
  rw [Bool.eq_iff_iff]
  simp only [hasFence, List.any_eq_true, List.mem_filter, decide_eq_true_eq]
  constructor
  · rintro ⟨p, ⟨member, _⟩, fence⟩
    exact ⟨p, member, fence⟩
  · rintro ⟨p, member, fence⟩
    exact ⟨p, ⟨member, eq_true_of_ne_false fun erased => unfenced p member erased fence⟩, fence⟩

/-- Only one record is missing from a trace without it. -/
theorem eq_of_erased {p q : Ptr} (erased : decide (q ≠ p) = false) : q = p :=
  not_not.mp (of_decide_eq_false erased)

variable {t} in
/-- Erasing a record that is no fence erases no fence. -/
theorem unfenced_without {p : Ptr} (other : (t.memory p).type ≠ .fence) :
    ∀ q ∈ t.veriptr, decide (q ≠ p) = false → (t.memory q).type ≠ .fence := by
  intro q _ erased
  rw [eq_of_erased erased]
  exact other

variable {t kept} (unfenced : ∀ p ∈ t.veriptr, kept p = false → (t.memory p).type ≠ .fence)
include unfenced

/-- A retained record performs the same step in both runs. -/
theorem machine_filter (position : Nat) (cur : Ptr) (w : ByteState) :
    ByteState.machine warn t.memory ((t.veriptr.drop (position + 1)).filter kept) cur w =
      if t.Skipped position cur then (w, [])
      else (w.next t.memory cur, w.lines warn t.memory cur) := by
  have same := hasFence_filter t kept (t.veriptr.drop (position + 1))
    fun p member => unfenced p (List.mem_of_mem_drop member)
  rw [ByteState.machine, same]
  rfl

/-- The byte states of the two runs stay related. There are three kinds of steps: a
retained record that both runs process, a retained record that both skip, and an erased
record, which is a step of the longer run alone. -/
theorem keep_simulates (related : Nat → ByteState → ByteState → Prop)
    (matched : ∀ position cur v w, t.veriptr[position]? = some cur → kept cur = true →
      ¬ t.Skipped position cur → Summarises t.records position v →
      Summarises (t.keep kept).records (keptBefore t kept position) w → related position v w →
        related (position + 1) (v.next t.memory cur) (w.next t.memory cur))
    (skipped : ∀ position cur v w, t.veriptr[position]? = some cur → kept cur = true →
      t.Skipped position cur → related position v w → related (position + 1) v w)
    (erased : ∀ position cur v w, t.veriptr[position]? = some cur → kept cur = false →
      Summarises t.records position v → related position v w →
        related (position + 1)
          (if t.Skipped position cur then v else v.next t.memory cur) w)
    (start : related 0 ByteState.initial ByteState.initial) (position : Nat)
    (bound : position ≤ t.veriptr.length) :
    related position (t.before warn position)
      ((t.keep kept).before warn (keptBefore t kept position)) := by
  -- both states summarise their own trace, so the steps may read either history
  refine (simulate_erased (ByteState.machine warn t.memory) (ByteState.machine warn t.memory) kept
    (fun position v w => Summarises t.records position v ∧
      Summarises (t.keep kept).records (keptBefore t kept position) w ∧ related position v w)
    t.veriptr ?_ ?_ _ _
    ⟨summarises_initial t.records, summarises_initial (t.keep kept).records, start⟩
    position bound).2.2
  · intro position cur v w found retained ⟨summary, shorter, relation⟩
    obtain ⟨located, rest⟩ := filter_position kept t.veriptr position cur found retained
    have shorterNext := shorter.step warn located
    have counted : keptBefore t kept (position + 1) = keptBefore t kept position + 1 := by
      rw [keptBefore_succ t kept found, if_pos retained]
    refine ⟨summary.step warn found, ?_, ?_⟩
    · rw [counted, ← rest]
      exact shorterNext
    · rw [machine_eq, machine_filter warn unfenced]
      split_ifs with skip
      · exact skipped position cur v w found retained skip relation
      · exact matched position cur v w found retained skip summary shorter relation
  · intro position cur v w found removed ⟨summary, shorter, relation⟩
    have next := erased position cur v w found removed summary relation
    refine ⟨summary.step warn found, ?_, ?_⟩
    · rw [keptBefore_succ t kept found, removed]
      exact shorter
    · rw [machine_eq]
      split_ifs at next ⊢ <;> exact next

/-- The lines printed for a retained record come from the state in front of it in the
shorter run. -/
theorem printedBy_keep {position : Nat} {cur : Ptr} (found : t.veriptr[position]? = some cur)
    (retained : kept cur = true) :
    printedBy icl warn (t.keep kept) cur =
      if t.Skipped position cur then []
      else ((t.keep kept).before warn (keptBefore t kept position)).lines warn t.memory cur := by
  obtain ⟨located, rest⟩ := filter_position kept t.veriptr position cur found retained
  have same := hasFence_filter t kept (t.veriptr.drop (position + 1))
    fun p member => unfenced p (List.mem_of_mem_drop member)
  have skip : (t.keep kept).Skipped (keptBefore t kept position) cur ↔ t.Skipped position cur := by
    rw [Trace.Skipped, Trace.Skipped, ← same, ← rest]
    rfl
  rw [printedBy_eq icl warn (t.keep kept) (keptBefore t kept position) cur located]
  exact if_congr skip rfl rfl

omit unfenced in
/-- The lines printed for another record after erasing one come from the state in front
of it in the shorter run. -/
theorem printedBy_without {p cur : Ptr} {position : Nat} (other : (t.memory p).type ≠ .fence)
    (found : t.veriptr[position]? = some cur) (different : cur ≠ p) :
    printedBy icl warn (t.without p) cur =
      if t.Skipped position cur then []
      else ((t.without p).before warn (keptBefore t (fun q => q ≠ p) position)).lines
        warn t.memory cur :=
  printedBy_keep icl warn (unfenced_without other) found (decide_eq_true different)

end PMTest

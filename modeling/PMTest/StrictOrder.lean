import PMTest.OrderVerdict

/-!
# Order queries as a strict order

A byte precedes another one when its last operation is a flush in a section
strictly before the section of the other's last operation. This is a strict order
on bytes, and a strict order on bytes gives one on nonempty sets of bytes: every
element of the first precedes every element of the second.

An order query of two ranges is accepted exactly if the bytes of the first precede
those of the second in this sense. A range is nonempty if its end is an address.
A range whose end would lie behind the last address denotes no byte, and a query
with such a range compares nothing.
-/

namespace PMTest

open Intervals Lookahead

section Sets

variable {α : Type*} (precedes : α → α → Prop)

/-- Every element of the first set precedes every element of the second. -/
def SetPrecedes (first second : Set α) : Prop := ∀ a ∈ first, ∀ b ∈ second, precedes a b

variable {precedes} {A B C : Set α}

/-- Overlapping sets do not precede each other if no element precedes itself. -/
theorem SetPrecedes.disjoint (irreflexive : ∀ a, ¬ precedes a a)
    (before : SetPrecedes precedes A B) : Disjoint A B := by
  apply Set.disjoint_left.mpr
  intro a first second
  exact irreflexive a (before a first a second)

/-- The middle set has an element to go through. -/
theorem SetPrecedes.trans (transitive : ∀ a b c, precedes a b → precedes b c → precedes a c)
    (middle : B.Nonempty) (first : SetPrecedes precedes A B) (second : SetPrecedes precedes B C) :
    SetPrecedes precedes A C := by
  obtain ⟨b, inside⟩ := middle
  intro a early c late
  exact transitive a b c (first a early b inside) (second b inside c late)

/-- Two nonempty sets do not precede each other. -/
theorem SetPrecedes.asymm (irreflexive : ∀ a, ¬ precedes a a)
    (transitive : ∀ a b c, precedes a b → precedes b c → precedes a c)
    (nonempty : A.Nonempty) (other : B.Nonempty) (first : SetPrecedes precedes A B) :
    ¬ SetPrecedes precedes B A := by
  intro second
  obtain ⟨a, inside⟩ := nonempty
  have apart := (first.trans transitive other second).disjoint irreflexive
  exact Set.disjoint_left.mp apart inside inside

end Sets

section Bytes

namespace ByteState

/-- The last operation on the early byte is a flush, in a section before that of
the last operation on the late byte. -/
def Precedes (v : ByteState) (e l : Nat) : Prop :=
  ∃ time late, v.stamp e = some (.exactly time) ∧ (time : Int) < intMax ∧
    v.stamp l = some late ∧ time < late.time

/-- No byte precedes itself, as it has one stamp. -/
theorem precedes_irrefl (v : ByteState) (b : Nat) : ¬ v.Precedes b b := by
  rintro ⟨time, late, early, _, same, before⟩
  obtain rfl : Stamp.exactly time = late := Option.some.inj (early.symm.trans same)
  exact Nat.lt_irrefl time before

/-- A byte in the middle is flushed too, so it has one time for both comparisons. -/
theorem precedes_trans (v : ByteState) (a b c : Nat) (first : v.Precedes a b)
    (second : v.Precedes b c) : v.Precedes a c := by
  obtain ⟨time, middle, early, small, found, before⟩ := first
  obtain ⟨later, last, again, _, late, after⟩ := second
  obtain rfl : Stamp.exactly later = middle := Option.some.inj (again.symm.trans found)
  exact ⟨time, last, early, small, late, Nat.lt_trans before after⟩

/-- The comparison of two nonempty ranges succeeds exactly if the bytes of the first
precede those of the second.

The comparison fails for an early byte without an exact stamp, for an early time that is
not before some late one, and for an early time that is too large. An early byte that
precedes some late byte is none of these, and conversely the stamps that are found
witness the precedence. -/
theorem ordered_iff (v : ByteState) (m : Metadata) (early : m.bytes.Nonempty)
    (late : m.bytesLate.Nonempty) :
    v.Stamped m ∧ ¬ v.Unordered m ↔ SetPrecedes v.Precedes m.bytes m.bytesLate := by
  constructor
  · rintro ⟨⟨stamped, stampedLate⟩, ordered⟩ e inEarly l inLate
    obtain ⟨stamp, found⟩ := Option.isSome_iff_exists.mp (stamped e inEarly)
    obtain ⟨last, foundLate⟩ := Option.isSome_iff_exists.mp (stampedLate l inLate)
    cases stamp with
    | atLeast time => exact absurd (.inl ⟨e, inEarly, time, found⟩) ordered
    | exactly time =>
      refine ⟨time, last, found, ?_, foundLate, ?_⟩
      · by_contra huge
        exact ordered (.inr (.inr ⟨e, inEarly, _, found, not_lt.mp huge⟩))
      · by_contra unordered
        exact ordered (.inr (.inl ⟨e, inEarly, l, inLate, _, last, found, foundLate,
          not_lt.mp unordered⟩))
  · intro before
    obtain ⟨first, inFirst⟩ := early
    obtain ⟨last, inLast⟩ := late
    refine ⟨⟨fun e inEarly => ?_, fun l inLate => ?_⟩, ?_⟩
    · obtain ⟨time, _, found, _⟩ := before e inEarly last inLast
      exact Option.isSome_iff_exists.mpr ⟨_, found⟩
    · obtain ⟨_, late, _, _, found, _⟩ := before first inFirst l inLate
      exact Option.isSome_iff_exists.mpr ⟨_, found⟩
    · rintro (⟨e, inEarly, bound, inexact⟩ | ⟨e, inEarly, l, inLate, stamp, stampLate, found,
        foundLate, unordered⟩ | ⟨e, inEarly, stamp, found, huge⟩)
      · obtain ⟨time, _, exact, _⟩ := before e inEarly last inLast
        exact absurd (exact.symm.trans inexact) (by simp)
      · obtain ⟨time, late, exact, _, same, order⟩ := before e inEarly l inLate
        obtain rfl : stamp = .exactly time := Option.some.inj (found.symm.trans exact)
        obtain rfl : stampLate = late := Option.some.inj (foundLate.symm.trans same)
        exact absurd unordered (Nat.not_le.mpr order)
      · obtain ⟨time, _, exact, small, _⟩ := before e inEarly last inLast
        obtain rfl : stamp = .exactly time := Option.some.inj (found.symm.trans exact)
        exact absurd huge (not_le.mpr small)

end ByteState

end Bytes

section Ranges

/-- A range with a size whose end is an address. -/
structure AddrRange where
  addr : Nat
  size : Nat
  sized : 0 < size
  fits : addr + size < 2 ^ 64

namespace AddrRange

/-- The bytes of the range. -/
def bytes (r : AddrRange) : Set Nat := Set.Ico r.addr (r.addr + r.size)

/-- A range with a size has a byte. -/
theorem bytes_nonempty (r : AddrRange) : r.bytes.Nonempty :=
  ⟨r.addr, Nat.le_refl _, Nat.lt_add_of_pos_right r.sized⟩

/-- The order query of two ranges. -/
def query (early late : AddrRange) : Metadata where
  type := .order
  addr := early.addr
  size := early.size
  addrLate := late.addr
  sizeLate := late.size

/-- The query is about the bytes of the two ranges, whose ends do not wrap around. -/
theorem bytes_query (early late : AddrRange) :
    (early.query late).bytes = early.bytes ∧ (early.query late).bytesLate = late.bytes := by
  simp only [Metadata.bytes, Metadata.bytesLate, Metadata.addrinterval, Metadata.addrintervalLate,
    query, endaddr, Nat.mod_eq_of_lt early.fits, Nat.mod_eq_of_lt late.fits]
  exact ⟨rfl, rfl⟩

end AddrRange

variable {icl : Icl} {warn : Bool} {t : Trace} {position : Nat} {s : VeriState icl}

/-- The range does not meet the excluded set. -/
def Included (s : VeriState icl) (r : AddrRange) : Prop :=
  Disjoint r.bytes (icl.toSet s.excludeInfo)

/-- `VeriProc_Order` prints an error for the query. -/
def OrderError (s : VeriState icl) (early late : AddrRange) : Prop :=
  ∃ report ∈ (veriProcOrder (early.query late) s.excludeInfo s.orderInfo).2,
    report.isOrderError = true

/-- No error is printed exactly if the bytes of the first range precede those of
the second. -/
theorem accepted_iff_precedes {v : ByteState} (refines : Refines s v) {early late : AddrRange}
    (included : Included s early) (includedLate : Included s late) :
    ¬ OrderError s early late ↔ SetPrecedes v.Precedes early.bytes late.bytes := by
  obtain ⟨same, sameLate⟩ := early.bytes_query late
  have queried : v.Queried (early.query late) := by
    refine ⟨⟨early.sized, late.sized⟩, ?_, ?_⟩
    · rw [same, ← refines.excluded]
      exact included
    · rw [sameLate, ← refines.excluded]
      exact includedLate
  have ordered := v.ordered_iff (early.query late) (same ▸ early.bytes_nonempty)
    (sameLate ▸ late.bytes_nonempty)
  rw [same, sameLate] at ordered
  rw [OrderError, order_refines refines, order_reports_iff v _ queried, not_or, not_not, ordered]

/-- In front of every record `VeriProc_Order` is a strict order on the ranges that have
a size, end at an address and do not meet the excluded set. An accepted query says that
the bytes precede each other, which is a strict order on bytes and so on nonempty sets
of them. -/
theorem order_is_strict (visited : VisitedAt icl warn t.memory t.veriptr position s)
    (A B C : AddrRange) (includedA : Included s A) (includedB : Included s B)
    (includedC : Included s C) :
    ((A.bytes ∩ B.bytes).Nonempty → OrderError s A B) ∧
    (OrderError s A B ∨ OrderError s B A) ∧
    (¬ OrderError s A B → ¬ OrderError s B C → ¬ OrderError s A C) := by
  obtain ⟨_, rfl⟩ := visited.eq_variablesAt
  have refines := stateAt_refines icl warn t.memory t.veriptr position
  have irreflexive := (stateAt (ByteState.machine warn t.memory) t.veriptr ByteState.initial
    position).precedes_irrefl
  have transitive := (stateAt (ByteState.machine warn t.memory) t.veriptr ByteState.initial
    position).precedes_trans
  refine ⟨fun shared => ?_, ?_, fun first second => ?_⟩
  · by_contra accepted
    have before := (accepted_iff_precedes refines includedA includedB).mp accepted
    exact shared.not_disjoint (before.disjoint irreflexive)
  · by_contra accepted
    rw [not_or, accepted_iff_precedes refines includedA includedB,
      accepted_iff_precedes refines includedB includedA] at accepted
    exact accepted.1.asymm irreflexive transitive A.bytes_nonempty B.bytes_nonempty accepted.2
  · rw [accepted_iff_precedes refines includedA includedB] at first
    rw [accepted_iff_precedes refines includedB includedC] at second
    rw [accepted_iff_precedes refines includedA includedC]
    exact first.trans transitive B.bytes_nonempty second

/-- Three ranges are flushed one after the other, each in its own section. -/
def flushedInTurn : Trace := .ofRecords
  [{ type := .flush, addr := 0, size := 4 }, { type := .fence },
    { type := .flush, addr := 8, size := 4 }, { type := .fence },
    { type := .flush, addr := 16, size := 4 }, { type := .fence }]

/-- The three ranges are in order, and a query the other way round fails. -/
theorem order_is_strict_flushed_in_turn :
    ∃ s, VisitedAt (Segments.segments Nat Int) false flushedInTurn.memory
        flushedInTurn.veriptr 6 s ∧
      ¬ OrderError s ⟨0, 4, by decide, by decide⟩ ⟨8, 4, by decide, by decide⟩ ∧
      OrderError s ⟨8, 4, by decide, by decide⟩ ⟨0, 4, by decide, by decide⟩ ∧
      ¬ OrderError s ⟨0, 4, by decide, by decide⟩ ⟨16, 4, by decide, by decide⟩ := by
  have visited := (visitedAt_iff (Segments.segments Nat Int) false flushedInTurn 6 _).mpr
    ⟨by decide, rfl⟩
  have included (r : AddrRange) :
      Included (variablesAt (Segments.segments Nat Int) false flushedInTurn 6) r := by
    rw [Included, (stateAt_refines _ false flushedInTurn.memory flushedInTurn.veriptr 6).excluded,
      ← Trace.before, (summarises_before flushedInTurn false 6 (by decide)).excluded,
      excludedBefore_eq_empty (by decide)]
    exact Set.disjoint_empty _
  have accepted : ¬ OrderError (variablesAt (Segments.segments Nat Int) false flushedInTurn 6)
      ⟨0, 4, by decide, by decide⟩ ⟨8, 4, by decide, by decide⟩ := by
    unfold OrderError
    decide
  have next : ¬ OrderError (variablesAt (Segments.segments Nat Int) false flushedInTurn 6)
      ⟨8, 4, by decide, by decide⟩ ⟨16, 4, by decide, by decide⟩ := by
    unfold OrderError
    decide
  obtain ⟨_, asymmetric, transitive⟩ := order_is_strict visited ⟨0, 4, by decide, by decide⟩
    ⟨8, 4, by decide, by decide⟩ ⟨16, 4, by decide, by decide⟩ (included _) (included _)
    (included _)
  exact ⟨_, visited, accepted, asymmetric.resolve_left accepted, transitive accepted next⟩

/-- The query of the first range and of four bytes that end behind the last address. -/
def wrappedLate : Metadata :=
  { type := .order, addr := 0, size := 4, addrLate := 2 ^ 64 - 4, sizeLate := 4 }

/-- The query of `wrappedLate` in the other direction. -/
def wrappedEarly : Metadata :=
  { type := .order, addr := 2 ^ 64 - 4, size := 4, addrLate := 0, sizeLate := 4 }

/-- The bounds of the second range wrap around, so it denotes no byte, and both
queries are accepted. -/
theorem wrapped_range_unordered :
    ∃ s, VisitedAt (Segments.segments Nat Int) false flushedInTurn.memory
        flushedInTurn.veriptr 2 s ∧
      s.excludeInfo = (Segments.segments Nat Int).emptySet ∧
      veriProcOrder wrappedLate s.excludeInfo s.orderInfo = (0, []) ∧
      veriProcOrder wrappedEarly s.excludeInfo s.orderInfo = (0, []) :=
  ⟨_, (visitedAt_iff (Segments.segments Nat Int) false flushedInTurn 2 _).mpr ⟨by decide, rfl⟩,
    rfl, by decide, by decide⟩

end Ranges

end PMTest

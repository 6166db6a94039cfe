import Mathlib.Order.MinMax
import PMTest.Intervals

/-!
# RightOpen containers stored as ordered segments

A container is a list of nonempty segments in increasing order. Two neighbors
that touch carry different values, since equal ones are joined when a segment is
stored. A set is the map whose only value is `()`: its segments are then exactly
the runs of the set, and no two of them touch.

The list is carried together with its order, so an overlapping or unjoined list
cannot be built. Storing a segment first erases its interval, which may split an
older segment in two, and then places it between the remainders.
-/

namespace PMTest.Segments

open Intervals

variable {α β : Type} [LinearOrder α]

/-- One stored interval and the value it carries. -/
abbrev Segment (α β : Type) := RightOpen α × β

/-- The first segment lies wholly below the second. They may touch only when
their values keep them apart. -/
def Precedes (first second : Segment α β) : Prop :=
  first.1.upper < second.1.lower ∨ first.1.upper = second.1.lower ∧ first.2 ≠ second.2

instance [DecidableEq β] (first second : Segment α β) : Decidable (Precedes first second) :=
  inferInstanceAs (Decidable (_ ∨ _))

/-- The storage order: every segment is nonempty and precedes all later ones. -/
structure Canonical (stored : List (Segment α β)) : Prop where
  nonempty : ∀ segment ∈ stored, segment.1.lower < segment.1.upper
  ordered : stored.Pairwise Precedes

/-- The stored segments with their order. -/
structure Container (α β : Type) [LinearOrder α] where
  stored : List (Segment α β)
  canonical : Canonical stored

/-- Some stored segment covers the element with this value. -/
def Holds (stored : List (Segment α β)) (x : α) (v : β) : Prop :=
  ∃ segment ∈ stored, x ∈ segment.1.elements ∧ segment.2 = v

/-- Nothing is stored in an empty container. -/
@[simp] theorem holds_nil (x : α) (v : β) : ¬ Holds ([] : List (Segment α β)) x v := by
  simp [Holds]

/-- What is stored in a container is in its first segment or in the rest. -/
@[simp] theorem holds_cons (segment : Segment α β) (rest : List (Segment α β)) (x : α) (v : β) :
    Holds (segment :: rest) x v ↔
      (x ∈ segment.1.elements ∧ segment.2 = v) ∨ Holds rest x v := by
  simp [Holds]

/-- A segment ends at or below the start of every later one. -/
theorem Precedes.upper_le {first second : Segment α β} (before : Precedes first second) :
    first.1.upper ≤ second.1.lower := by
  rcases before with apart | ⟨touching, _⟩
  · exact apart.le
  · exact touching.le

/-- The first segment is nonempty and precedes all others. -/
theorem Canonical.head {segment : Segment α β} {rest : List (Segment α β)}
    (canonical : Canonical (segment :: rest)) :
    segment.1.lower < segment.1.upper ∧ ∀ later ∈ rest, Precedes segment later :=
  ⟨canonical.nonempty segment (by simp), (List.pairwise_cons.mp canonical.ordered).1⟩

/-- The segments behind the first one are in storage order. -/
theorem Canonical.tail {segment : Segment α β} {rest : List (Segment α β)}
    (canonical : Canonical (segment :: rest)) : Canonical rest :=
  ⟨fun later member => canonical.nonempty later (by simp [member]),
    (List.pairwise_cons.mp canonical.ordered).2⟩

/-- A nonempty segment can be stored in front of segments that it precedes. -/
theorem Canonical.cons {segment : Segment α β} {rest : List (Segment α β)}
    (nonempty : segment.1.lower < segment.1.upper)
    (before : ∀ later ∈ rest, Precedes segment later) (canonical : Canonical rest) :
    Canonical (segment :: rest) := by
  refine ⟨?_, List.pairwise_cons.mpr ⟨before, canonical.ordered⟩⟩
  intro stored member
  rcases List.mem_cons.mp member with rfl | member
  · exact nonempty
  · exact canonical.nonempty stored member

/-- Two stored segments that share an element are the same segment. The order
would otherwise put one wholly below the other. -/
theorem Canonical.unique {stored : List (Segment α β)} (canonical : Canonical stored)
    {first second : Segment α β} (inFirst : first ∈ stored) (inSecond : second ∈ stored)
    {x : α} (xFirst : x ∈ first.1.elements) (xSecond : x ∈ second.1.elements) :
    first = second := by
  induction stored with
  | nil => simp at inFirst
  | cons head rest ih =>
    have before := canonical.head.2
    have below (later : Segment α β) (member : later ∈ rest) (inHead : x ∈ head.1.elements)
        (inLater : x ∈ later.1.elements) : False := by
      have order := (before later member).upper_le
      exact absurd (lt_of_lt_of_le inHead.2 (order.trans inLater.1)) (lt_irrefl x)
    rcases List.mem_cons.mp inFirst with rfl | firstRest <;>
      rcases List.mem_cons.mp inSecond with rfl | secondRest
    · rfl
    · exact (below second secondRest xFirst xSecond).elim
    · exact (below first firstRest xSecond xFirst).elim
    · exact ih canonical.tail firstRest secondRest

section Erase

/-- What is left of one segment below and above an erased interval. -/
def remainders (i : RightOpen α) (segment : Segment α β) : List (Segment α β) :=
  (if segment.1.lower < min segment.1.upper i.lower then
    [(⟨segment.1.lower, min segment.1.upper i.lower⟩, segment.2)] else []) ++
  (if max segment.1.lower i.upper < segment.1.upper then
    [(⟨max segment.1.lower i.upper, segment.1.upper⟩, segment.2)] else [])

/-- Erasing an empty interval keeps every segment; a nonempty one leaves the
remainders of each. -/
def erase (i : RightOpen α) (stored : List (Segment α β)) : List (Segment α β) :=
  if i.lower < i.upper then stored.flatMap (remainders i) else stored

/-- A remainder is the part below the erased interval or the part above it, if there is
such a part. -/
theorem mem_remainders (i : RightOpen α) (segment piece : Segment α β) :
    piece ∈ remainders i segment ↔
      (segment.1.lower < min segment.1.upper i.lower ∧
        piece = (⟨segment.1.lower, min segment.1.upper i.lower⟩, segment.2)) ∨
      (max segment.1.lower i.upper < segment.1.upper ∧
        piece = (⟨max segment.1.lower i.upper, segment.1.upper⟩, segment.2)) := by
  unfold remainders
  split_ifs with below above above <;> simp [below, above]

/-- A remainder is nonempty, stays inside its segment and keeps its value. -/
theorem remainder_bounds {i : RightOpen α} {segment piece : Segment α β}
    (member : piece ∈ remainders i segment) :
    piece.1.lower < piece.1.upper ∧ segment.1.lower ≤ piece.1.lower ∧
      piece.1.upper ≤ segment.1.upper ∧ piece.2 = segment.2 := by
  rcases (mem_remainders i segment piece).mp member with ⟨order, rfl⟩ | ⟨order, rfl⟩
  · exact ⟨order, le_refl _, min_le_left _ _, rfl⟩
  · exact ⟨order, le_max_left _ _, le_refl _, rfl⟩

/-- The remainders of a segment cover its elements outside of the erased interval. An
element outside of it lies below its lower end or above its upper end, and accordingly
in the first or the second remainder. -/
theorem holds_remainders (i : RightOpen α) (segment : Segment α β) (x : α) (v : β) :
    Holds (remainders i segment) x v ↔
      (x ∈ segment.1.elements ∧ segment.2 = v) ∧ x ∉ i.elements := by
  simp only [Holds, mem_remainders]
  constructor
  · rintro ⟨piece, ⟨order, rfl⟩ | ⟨order, rfl⟩, inside, rfl⟩
    · obtain ⟨above, below⟩ := inside
      obtain ⟨belowSegment, belowErased⟩ := lt_min_iff.mp below
      exact ⟨⟨⟨above, belowSegment⟩, rfl⟩, fun erased => absurd erased.1 (not_le_of_gt belowErased)⟩
    · obtain ⟨above, below⟩ := inside
      obtain ⟨aboveSegment, aboveErased⟩ := max_le_iff.mp above
      exact ⟨⟨⟨aboveSegment, below⟩, rfl⟩, fun erased => absurd erased.2 (not_lt_of_ge aboveErased)⟩
  · rintro ⟨⟨⟨above, below⟩, rfl⟩, outside⟩
    by_cases left : x < i.lower
    · have inPiece : x < min segment.1.upper i.lower := lt_min below left
      exact ⟨_, .inl ⟨lt_of_le_of_lt above inPiece, rfl⟩, ⟨above, inPiece⟩, rfl⟩
    · have right : i.upper ≤ x := by
        by_contra inside
        exact outside ⟨le_of_not_gt left, lt_of_not_ge inside⟩
      have inPiece : max segment.1.lower i.upper ≤ x := max_le above right
      exact ⟨_, .inr ⟨lt_of_le_of_lt inPiece below, rfl⟩, ⟨inPiece, below⟩, rfl⟩

/-- Erasing removes exactly the elements of the interval. -/
theorem holds_erase (i : RightOpen α) (stored : List (Segment α β)) (x : α) (v : β) :
    Holds (erase i stored) x v ↔ Holds stored x v ∧ x ∉ i.elements := by
  by_cases ordered : i.lower < i.upper
  · rw [erase, if_pos ordered]
    induction stored with
    | nil => simp
    | cons segment rest ih =>
      have append : Holds (remainders i segment ++ rest.flatMap (remainders i)) x v ↔
          Holds (remainders i segment) x v ∨ Holds (rest.flatMap (remainders i)) x v := by
        simp only [Holds, List.mem_append, or_and_right, exists_or]
      rw [List.flatMap_cons, append, ih, holds_remainders i, holds_cons, or_and_right]
  · have empty : x ∉ i.elements := fun inside =>
      ordered (lt_of_le_of_lt inside.1 inside.2)
    simp [erase, ordered, empty]

/-- Remainders keep the order of their segments. The two remainders of one
segment are separated by the erased interval, and remainders of different
segments are no closer to each other than those segments were. -/
theorem erase_canonical (i : RightOpen α) (stored : List (Segment α β))
    (canonical : Canonical stored) : Canonical (erase i stored) := by
  by_cases ordered : i.lower < i.upper
  · rw [erase, if_pos ordered]
    refine ⟨?_, ?_⟩
    · intro piece member
      obtain ⟨segment, _, inside⟩ := List.mem_flatMap.mp member
      exact (remainder_bounds inside).1
    · refine List.pairwise_flatMap.mpr ⟨?_, ?_⟩
      · intro segment _
        have apart : min segment.1.upper i.lower < max segment.1.lower i.upper :=
          lt_of_le_of_lt (min_le_right _ _) (lt_of_lt_of_le ordered (le_max_right _ _))
        unfold remainders
        split_ifs
        · refine List.pairwise_pair.mpr (.inl ?_)
          exact apart
        all_goals simp
      · apply canonical.ordered.imp
        intro first second before left inLeft right inRight
        obtain ⟨_, _, leftUpper, leftValue⟩ := remainder_bounds inLeft
        obtain ⟨_, rightLower, _, rightValue⟩ := remainder_bounds inRight
        rcases before with apart | ⟨touching, different⟩
        · exact .inl (lt_of_le_of_lt leftUpper (lt_of_lt_of_le apart rightLower))
        · cases lt_or_eq_of_le (leftUpper.trans (touching.le.trans rightLower)) with
          | inl gap => exact .inl gap
          | inr touch => exact .inr ⟨touch, by rw [leftValue, rightValue]; exact different⟩
  · rwa [erase, if_neg ordered]

/-- Neither of the two intervals reaches into the other. -/
def Apart (i j : RightOpen α) : Prop := i.upper ≤ j.lower ∨ j.upper ≤ i.lower

/-- What is left after erasing an interval lies apart from it. -/
theorem erase_apart (i : RightOpen α) (ordered : i.lower < i.upper)
    (stored : List (Segment α β)) : ∀ other ∈ erase i stored, Apart other.1 i := by
  intro other member
  rw [erase, if_pos ordered] at member
  obtain ⟨segment, _, inside⟩ := List.mem_flatMap.mp member
  rcases (mem_remainders i segment other).mp inside with ⟨_, rfl⟩ | ⟨_, rfl⟩
  · exact .inl (min_le_right _ _)
  · exact .inr (le_max_right _ _)

end Erase

section Store

variable [DecidableEq β]

/-- Place a segment among stored ones that do not overlap it. An equal-valued
neighbor touching it below or above is absorbed. -/
def join (segment : Segment α β) : List (Segment α β) → List (Segment α β)
  | [] => [segment]
  | head :: rest =>
      if Precedes head segment then head :: join segment rest
      else if head.1.upper = segment.1.lower then
        join (⟨head.1.lower, segment.1.upper⟩, segment.2) rest
      else if segment.1.upper = head.1.lower ∧ segment.2 = head.2 then
        (⟨segment.1.lower, head.1.upper⟩, segment.2) :: rest
      else segment :: head :: rest

/-- A stored segment starts where the placed one or an older one started, and
carries that one's value. Absorption extends upward only from such a start. -/
theorem join_starts (segment : Segment α β) (stored : List (Segment α β)) :
    ∀ later ∈ join segment stored, ∃ source ∈ segment :: stored,
      later.1.lower = source.1.lower ∧ later.2 = source.2 := by
  induction stored generalizing segment with
  | nil =>
    intro later member
    exact ⟨later, by simpa [join] using member, rfl, rfl⟩
  | cons head rest ih =>
    intro later member
    simp only [join] at member
    split_ifs at member with before touching above
    · rcases List.mem_cons.mp member with rfl | member
      · exact ⟨later, by simp, rfl, rfl⟩
      · obtain ⟨source, inside, lower, value⟩ := ih segment later member
        refine ⟨source, ?_, lower, value⟩
        rcases List.mem_cons.mp inside with rfl | inside <;> simp [*]
    · obtain ⟨source, inside, lower, value⟩ := ih _ later member
      rcases List.mem_cons.mp inside with rfl | inside
      · -- absorbed below: the joined segment starts at the old head
        have same : head.2 = segment.2 := by
          by_contra different
          exact before (.inr ⟨touching, different⟩)
        exact ⟨head, by simp, lower, value.trans same.symm⟩
      · exact ⟨source, by simp [inside], lower, value⟩
    · rcases List.mem_cons.mp member with rfl | member
      · exact ⟨segment, by simp, rfl, rfl⟩
      · exact ⟨later, by simp [member], rfl, rfl⟩
    · exact ⟨later, by simpa using member, rfl, rfl⟩

/-- Placing a nonempty segment apart from all others keeps the storage order and
adds exactly its own elements.

Induct over the stored segments. A lower segment that stays separate is kept.
One that touches from below with the same value is absorbed, and the longer
segment continues; everything after it already lies above. Otherwise the placed
segment belongs before the head, absorbing it when they touch with one value. -/
theorem join_spec (segment : Segment α β) (stored : List (Segment α β))
    (nonempty : segment.1.lower < segment.1.upper) (canonical : Canonical stored)
    (apart : ∀ other ∈ stored, Apart other.1 segment.1) :
    Canonical (join segment stored) ∧
      ∀ x v, Holds (join segment stored) x v ↔
        (x ∈ segment.1.elements ∧ segment.2 = v) ∨ Holds stored x v := by
  induction stored generalizing segment with
  | nil =>
    refine ⟨Canonical.cons nonempty (by simp) ⟨by simp, .nil⟩, ?_⟩
    intro x v
    simp [join]
  | cons head rest ih =>
    obtain ⟨headNonempty, headBefore⟩ := canonical.head
    have restApart : ∀ other ∈ rest, Apart other.1 segment.1 :=
      fun other member => apart other (by simp [member])
    simp only [join]
    split_ifs with before touching above
    · obtain ⟨joined, exact⟩ := ih segment nonempty canonical.tail restApart
      refine ⟨Canonical.cons headNonempty ?_ joined, ?_⟩
      · intro later member
        obtain ⟨source, inside, lower, value⟩ := join_starts segment rest later member
        have sourceBefore : Precedes head source := by
          rcases List.mem_cons.mp inside with rfl | inside
          · exact before
          · exact headBefore source inside
        simpa only [Precedes, lower, value] using sourceBefore
      · intro x v
        rw [holds_cons, exact, holds_cons, or_left_comm]
    · have same : head.2 = segment.2 := by
        by_contra different
        exact before (.inr ⟨touching, different⟩)
      have longer : head.1.lower < segment.1.upper := by order
      have above (other : Segment α β) (member : other ∈ rest) :
          Apart other.1 ⟨head.1.lower, segment.1.upper⟩ := by
        have order := (headBefore other member).upper_le
        have otherNonempty := canonical.nonempty other (by simp [member])
        cases restApart other member with
        | inl lower => exact absurd lower (not_le_of_gt (by order))
        | inr higher => exact .inr higher
      obtain ⟨joined, exact⟩ := ih (⟨head.1.lower, segment.1.upper⟩, segment.2) longer
        canonical.tail above
      refine ⟨joined, ?_⟩
      intro x v
      have union := RightOpen.mem_elements_joined headNonempty.le touching nonempty.le x
      rw [exact, holds_cons, union, same, ← or_assoc, ← or_and_right, or_comm (a := x ∈ _)]
    · obtain ⟨meeting, same⟩ := above
      refine ⟨Canonical.cons (by order) ?_ canonical.tail, ?_⟩
      · intro later member
        simpa only [Precedes, same] using headBefore later member
      · intro x v
        have union := RightOpen.mem_elements_joined nonempty.le meeting headNonempty.le x
        rw [holds_cons, holds_cons, union, same, ← or_assoc, ← or_and_right]
    · have higher : segment.1.upper ≤ head.1.lower := by
        cases apart head (by simp) with
        | inl lower =>
          cases lt_or_eq_of_le lower with
          | inl gap => exact absurd (Or.inl gap) before
          | inr touch => exact absurd touch touching
        | inr higher => exact higher
      have segmentBefore : Precedes segment head := by
        cases lt_or_eq_of_le higher with
        | inl gap => exact .inl gap
        | inr touch => exact .inr ⟨touch, fun same => above ⟨touch, same⟩⟩
      refine ⟨Canonical.cons nonempty ?_ canonical, ?_⟩
      · intro later member
        rcases List.mem_cons.mp member with rfl | member
        · exact segmentBefore
        · have order := (headBefore later member).upper_le
          exact .inl (by order)
      · intro x v
        rw [holds_cons]

/-- Storing a value on an interval: erase what was there, then place the new
segment. An empty interval stores nothing. -/
def store (i : RightOpen α) (v : β) (stored : List (Segment α β)) : List (Segment α β) :=
  if i.lower < i.upper then join (i, v) (erase i stored) else stored

/-- Storing a value keeps the storage order. The erased interval lies apart from what is
left, so the new segment can be placed. -/
theorem store_canonical (i : RightOpen α) (v : β) (stored : List (Segment α β))
    (canonical : Canonical stored) : Canonical (store i v stored) := by
  unfold store
  split_ifs with ordered
  · exact (join_spec (i, v) _ ordered (erase_canonical i stored canonical)
      (erase_apart i ordered stored)).1
  · exact canonical

/-- Storing a value changes the elements of the interval to this value and no others. -/
theorem holds_store (i : RightOpen α) (v : β) (stored : List (Segment α β))
    (canonical : Canonical stored) (x : α) (w : β) :
    Holds (store i v stored) x w ↔
      (x ∈ i.elements ∧ v = w) ∨ (Holds stored x w ∧ x ∉ i.elements) := by
  unfold store
  split_ifs with ordered
  · rw [(join_spec (i, v) _ ordered (erase_canonical i stored canonical)
      (erase_apart i ordered stored)).2, holds_erase]
  · have empty : x ∉ i.elements := fun inside =>
      ordered (lt_of_le_of_lt inside.1 inside.2)
    simp [empty]

end Store

section Read

/-- The value stored at an element, read from the first segment covering it. -/
def lookup (stored : List (Segment α β)) (x : α) : Option β :=
  (stored.find? fun segment => decide (segment.1.lower ≤ x ∧ x < segment.1.upper)).map Prod.snd

/-- The first segment that covers an element is the only one, so its value is the value
stored there. -/
theorem lookup_eq_some_iff {stored : List (Segment α β)} (canonical : Canonical stored)
    (x : α) (v : β) : lookup stored x = some v ↔ Holds stored x v := by
  unfold lookup
  cases found : stored.find? fun segment => decide (segment.1.lower ≤ x ∧ x < segment.1.upper) with
  | none =>
    simp only [List.find?_eq_none, decide_eq_true_eq] at found
    simp only [Option.map_none, reduceCtorEq, false_iff]
    rintro ⟨segment, member, inside, _⟩
    exact found segment member inside
  | some first =>
    have member : first ∈ stored := List.mem_of_find?_eq_some found
    have inside : x ∈ first.1.elements := by
      simpa using List.find?_some found
    simp only [Option.map_some, Option.some.injEq]
    constructor
    · intro value
      exact ⟨first, member, inside, value⟩
    · rintro ⟨segment, other, covers, rfl⟩
      rw [canonical.unique member other inside covers]

/-- Every element of `[lower, upper)` is stored. The scan drops segments below
the part still to be covered and moves its lower end up past each segment met. -/
def covered : List (Segment α β) → α → α → Bool
  | [], lower, upper => decide (upper ≤ lower)
  | segment :: rest, lower, upper =>
      if upper ≤ lower then true
      else if lower < segment.1.lower then false
      else if lower < segment.1.upper then covered rest segment.1.upper upper
      else covered rest lower upper

/-- The scan decides whether all elements of the interval are stored.

Induct over the segments, for every lower end. A segment below the part still to be
covered does not matter. One that starts above its lower end leaves this end uncovered,
since all later ones start higher. Otherwise the part up to the end of the segment is
covered, and the scan goes on from there. -/
theorem covered_iff (stored : List (Segment α β)) (canonical : Canonical stored)
    (lower upper : α) :
    covered stored lower upper = true ↔
      ∀ x, lower ≤ x → x < upper → ∃ v, Holds stored x v := by
  induction stored generalizing lower with
  | nil =>
    simp only [covered, decide_eq_true_eq, holds_nil, exists_false]
    constructor
    · intro empty x above below
      exact absurd (lt_of_le_of_lt above below) (not_lt_of_ge empty)
    · intro none
      by_contra open'
      exact none lower (le_refl _) (lt_of_not_ge open')
  | cons segment rest ih =>
    obtain ⟨nonempty, before⟩ := canonical.head
    have outsideRest (x : α) (below : x < segment.1.upper) (v : β) : ¬ Holds rest x v := by
      rintro ⟨later, member, inside, _⟩
      have order := (before later member).upper_le
      exact absurd inside.1 (not_le_of_gt (lt_of_lt_of_le below order))
    simp only [covered]
    split_ifs with empty gap inside
    · simp only [true_iff]
      intro x above below
      exact absurd (lt_of_le_of_lt above below) (not_lt_of_ge empty)
    · simp only [false_iff, not_forall]
      refine ⟨lower, le_refl _, lt_of_not_ge empty, ?_⟩
      rintro ⟨v, held⟩
      rcases (holds_cons segment rest lower v).mp held with ⟨covers, _⟩ | later
      · exact absurd covers.1 (not_le_of_gt gap)
      · exact outsideRest lower (gap.trans nonempty) v later
    · rw [ih canonical.tail]
      constructor
      · intro all x above below
        cases lt_or_ge x segment.1.upper with
        | inl here => exact ⟨segment.2, (holds_cons ..).mpr (.inl ⟨⟨by order, here⟩, rfl⟩)⟩
        | inr beyond =>
          obtain ⟨v, held⟩ := all x beyond below
          exact ⟨v, (holds_cons ..).mpr (.inr held)⟩
      · intro all x above below
        obtain ⟨v, held⟩ := all x (by order) below
        rcases (holds_cons segment rest x v).mp held with ⟨covers, _⟩ | later
        · exact absurd covers.2 (not_lt_of_ge above)
        · exact ⟨v, later⟩
    · rw [ih canonical.tail]
      apply forall_congr'
      intro x
      constructor
      · intro all above below
        obtain ⟨v, held⟩ := all above below
        exact ⟨v, (holds_cons ..).mpr (.inr held)⟩
      · intro all above below
        obtain ⟨v, held⟩ := all above below
        rcases (holds_cons segment rest x v).mp held with ⟨covers, _⟩ | later
        · exact absurd covers.2 (not_lt_of_ge (by order))
        · exact ⟨v, later⟩

/-- The parts of the stored segments inside an interval, in order. -/
def restrict (i : RightOpen α) (stored : List (Segment α β)) : List (Segment α β) :=
  stored.filterMap fun segment =>
    if (segment.1.inter i).lower < (segment.1.inter i).upper then
      some (segment.1.inter i, segment.2) else none

/-- A part of the restriction is the nonempty intersection of a stored segment with the
interval. -/
theorem mem_restrict (i : RightOpen α) (stored : List (Segment α β)) (part : Segment α β) :
    part ∈ restrict i stored ↔ ∃ segment ∈ stored,
      (segment.1.inter i).lower < (segment.1.inter i).upper ∧
        part = (segment.1.inter i, segment.2) := by
  simp only [restrict, List.mem_filterMap]
  refine exists_congr fun segment => and_congr_right fun _ => ?_
  split_ifs with meets <;> simp [meets, eq_comm]

/-- The first stored segment that meets the interval. -/
def find (i : RightOpen α) (stored : List (Segment α β)) : Option (Segment α β) :=
  stored.find? fun segment => decide ((segment.1.inter i).lower < (segment.1.inter i).upper)

/-- The stored segments of a set are its runs, and the first one found is the
lowest. Above a segment the next one starts strictly later, because equal values
cannot touch; the gap below a segment ends where an earlier one stops. -/
theorem find_is_lowest_run (i : RightOpen α) (stored : List (Segment α Unit))
    (canonical : Canonical stored) (found : Segment α Unit)
    (result : find i stored = some found) :
    IsLowestRun {x | Holds stored x ()} i found.1 := by
  obtain ⟨meets, earlier, later, rfl, missed⟩ := List.find?_eq_some_iff_append.mp result
  have meeting := (RightOpen.inter_nonempty_iff found.1 i).mp (by simpa using meets)
  have ordered := List.pairwise_append.mp canonical.ordered
  have laterBefore := (List.pairwise_cons.mp ordered.2.1).1
  have nonempty (segment : Segment α Unit) (member : segment ∈ earlier ++ found :: later) :
      segment.1.lower < segment.1.upper := canonical.nonempty segment member
  have gap {first second : Segment α Unit} (before : Precedes first second) :
      first.1.upper < second.1.lower := by
    rcases before with apart | ⟨_, different⟩
    · exact apart
    · exact absurd rfl different
  have upperOutside (first : Segment α Unit) (member : first ∈ earlier ++ found :: later) :
      first.1.upper ∉ {x | Holds (earlier ++ found :: later) x ()} := by
    rintro ⟨other, otherMember, inside, _⟩
    have ordering := canonical.ordered
    rcases List.mem_iff_append.mp member with ⟨pre, post, split⟩
    rw [split] at otherMember ordering
    have parts := List.pairwise_append.mp ordering
    cases List.mem_append.mp otherMember with
    | inl before =>
      have order := gap (parts.2.2 other before first (by simp))
      have own := nonempty first member
      exact absurd inside.2 (not_lt_of_ge (by order))
    | inr atOrAfter =>
      rcases List.mem_cons.mp atOrAfter with rfl | after
      · exact absurd inside.2 (lt_irrefl _)
      · have order := gap ((List.pairwise_cons.mp parts.2.1).1 other after)
        exact absurd inside.1 (not_le_of_gt order)
  refine ⟨⟨nonempty found (by simp), ?_, upperOutside found (by simp), ?_⟩, meeting, ?_⟩
  · intro x inside
    exact ⟨found, by simp, inside, rfl⟩
  · intro x below
    by_cases held : Holds (earlier ++ found :: later) x ()
    · obtain ⟨other, member, inside, _⟩ := held
      have before : Precedes other found := by
        cases List.mem_append.mp member with
        | inl early => exact ordered.2.2 other early found (by simp)
        | inr atOrAfter =>
          rcases List.mem_cons.mp atOrAfter with rfl | after
          · exact absurd inside.1 (not_le_of_gt below)
          · have order := gap (laterBefore other after)
            have own := nonempty found (by simp)
            exact absurd inside.1 (not_le_of_gt (by order))
      exact ⟨other.1.upper, inside.2.le, gap before, upperOutside other member⟩
    · exact ⟨x, le_refl _, below, held⟩
  · rintro x ⟨other, member, inside, _⟩ xIn
    cases List.mem_append.mp member with
    | inl early =>
      have apart := missed other early
      have meet := (RightOpen.inter_nonempty_iff other.1 i).mpr ⟨x, inside, xIn⟩
      simp [meet] at apart
    | inr atOrAfter =>
      rcases List.mem_cons.mp atOrAfter with rfl | after
      · exact inside.1
      · have order := gap (laterBefore other after)
        have own := nonempty found (by simp)
        exact le_of_lt (lt_of_lt_of_le (by order) inside.1)

end Read

/-- Ordered segments implement interval sets and interval maps. Sets are the
maps with the single value `()`. -/
def segments (α β : Type) [LinearOrder α] [DecidableEq β] : IntervalContainers α β where
  SetOf := Container α Unit
  MapOf := Container α β
  emptySet := ⟨[], by simp, .nil⟩
  toSet s := {x | Holds s.stored x ()}
  add s i := ⟨store i () s.stored, store_canonical i () s.stored s.canonical⟩
  subtract s i := ⟨erase i s.stored, erase_canonical i s.stored s.canonical⟩
  find s i := (find i s.stored).map Prod.fst
  emptyMap := ⟨[], by simp, .nil⟩
  lookup m x := lookup m.stored x
  assign m i v := ⟨store i v m.stored, store_canonical i v m.stored m.canonical⟩
  within i m := covered m.stored i.lower i.upper
  restrict i m := restrict i m.stored
  toSet_empty := by simp
  toSet_add s i := by
    ext x
    simp only [Set.mem_ofPred_eq, holds_store i () s.stored s.canonical, and_true, Set.mem_union]
    tauto
  toSet_subtract s i := by
    ext x
    exact holds_erase i s.stored x ()
  find_eq_none s i := by
    simp only [Option.map_eq_none_iff, find, List.find?_eq_none, decide_eq_true_eq,
      RightOpen.inter_nonempty_iff, Set.disjoint_left]
    constructor
    · rintro none x inside ⟨segment, member, covers, _⟩
      exact none segment member ⟨x, covers, inside⟩
    · rintro apart segment member ⟨x, covers, inside⟩
      exact apart inside ⟨segment, member, covers, rfl⟩
  find_lowest s i r found := by
    obtain ⟨segment, result, rfl⟩ := Option.map_eq_some_iff.mp found
    exact find_is_lowest_run i s.stored s.canonical segment result
  lookup_empty x := rfl
  lookup_assign_inside m i v x inside := by
    rw [lookup_eq_some_iff (store_canonical i v m.stored m.canonical),
      holds_store i v m.stored m.canonical]
    exact .inl ⟨inside, rfl⟩
  lookup_assign_outside m i v x outside := by
    apply Option.ext
    intro w
    rw [lookup_eq_some_iff (store_canonical i v m.stored m.canonical),
      holds_store i v m.stored m.canonical, lookup_eq_some_iff m.canonical]
    simp [outside]
  within_iff i m := by
    rw [covered_iff m.stored m.canonical]
    simp only [RightOpen.mem_elements, Option.isSome_iff_exists,
      lookup_eq_some_iff m.canonical, and_imp]
  restrict_nonempty i m part member := by
    obtain ⟨segment, _, meets, rfl⟩ := (mem_restrict i m.stored part).mp member
    exact meets
  restrict_sound i m part member x inside := by
    obtain ⟨segment, stored, _, rfl⟩ := (mem_restrict i m.stored part).mp member
    have both : x ∈ segment.1.elements ∩ i.elements := by
      rw [← RightOpen.elements_inter]
      exact inside
    exact ⟨both.2, (lookup_eq_some_iff m.canonical x _).mpr ⟨segment, stored, both.1, rfl⟩⟩
  restrict_complete i m x v inside value := by
    obtain ⟨segment, stored, covers, rfl⟩ := (lookup_eq_some_iff m.canonical x v).mp value
    have meets := (RightOpen.inter_nonempty_iff segment.1 i).mpr ⟨x, covers, inside⟩
    refine ⟨_, (mem_restrict i m.stored _).mpr ⟨segment, stored, meets, rfl⟩, ?_, rfl⟩
    have both : x ∈ segment.1.elements ∩ i.elements := ⟨covers, inside⟩
    rwa [← RightOpen.elements_inter] at both

end PMTest.Segments

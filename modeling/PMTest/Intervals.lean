import Mathlib.Data.Set.Lattice
import Mathlib.Order.CompletePartialOrder
import Mathlib.Order.MinMax
import Mathlib.Order.WellFounded
import Mathlib.Order.Interval.Set.LinearOrder
import Mathlib.Tactic.Order

/-!
# Right-open intervals and containers of them

An interval is a pair of bounds over a linear order and denotes the elements
from its lower bound up to, and excluding, its upper bound. Reversed or equal
bounds denote no element.

A run of a set is a nonempty interval inside the set that can be extended at
neither end. The lowest run meeting an interval is unique, so an operation that
returns it is a function of the denoted set alone, however the set is stored.

`IntervalContainers` states the interface of an interval set and an interval
map. The stored representation is not visible: each operation is specified by
the set or the partial function it leaves behind. Reading a container back goes
through `find`, `within` and `restrict` only.
-/

namespace PMTest.Intervals

universe u v
variable {α : Type u} {β : Type v}

/-- The bounds of a right-open interval. No order between them is required. -/
structure RightOpen (α : Type u) where
  lower : α
  upper : α
  deriving DecidableEq, Repr

namespace RightOpen

variable [LinearOrder α]

/-- The elements from the lower bound up to, and excluding, the upper bound. -/
def elements (i : RightOpen α) : Set α := Set.Ico i.lower i.upper

/-- The common part of two intervals; it is empty when they do not meet. -/
def inter (i j : RightOpen α) : RightOpen α := ⟨max i.lower j.lower, min i.upper j.upper⟩

/-- The bounds say which elements belong to the interval. -/
@[simp] theorem mem_elements {i : RightOpen α} {x : α} :
    x ∈ i.elements ↔ i.lower ≤ x ∧ x < i.upper := Iff.rfl

/-- Two intervals that touch form one. -/
theorem mem_elements_joined {i j : RightOpen α} (nonempty : i.lower ≤ i.upper)
    (touching : i.upper = j.lower) (other : j.lower ≤ j.upper) (x : α) :
    x ∈ (⟨i.lower, j.upper⟩ : RightOpen α).elements ↔ x ∈ i.elements ∨ x ∈ j.elements := by
  have whole := Set.Ico_union_Ico_eq_Ico nonempty (touching.le.trans other)
  rw [elements, elements, elements, ← whole, touching]
  rfl

/-- The common part of two intervals holds the elements of both. -/
theorem elements_inter (i j : RightOpen α) :
    (i.inter j).elements = i.elements ∩ j.elements :=
  Set.Ico_inter_Ico.symm

/-- Two intervals meet exactly when the bounds of their common part are in order. -/
theorem inter_nonempty_iff (i j : RightOpen α) :
    (i.inter j).lower < (i.inter j).upper ↔ ∃ x, x ∈ i.elements ∧ x ∈ j.elements := by
  constructor
  · intro ordered
    have inside : (i.inter j).lower ∈ (i.inter j).elements := ⟨le_refl _, ordered⟩
    rw [elements_inter] at inside
    exact ⟨_, inside.1, inside.2⟩
  · rintro ⟨x, first, second⟩
    have inside : x ∈ (i.inter j).elements := by
      rw [elements_inter]
      exact ⟨first, second⟩
    exact lt_of_le_of_lt inside.1 inside.2

end RightOpen

section Runs

variable [LinearOrder α]

/-- A nonempty interval inside the set that can be extended at neither end: its
upper bound is outside, and arbitrarily close below its lower bound there is an
element outside. Over the natural numbers the last clause says that the lower
bound is zero or its predecessor is outside. -/
structure IsRun (members : Set α) (r : RightOpen α) : Prop where
  nonempty : r.lower < r.upper
  inside : r.elements ⊆ members
  upper_outside : r.upper ∉ members
  lower_outside : ∀ x < r.lower, ∃ y, x ≤ y ∧ y < r.lower ∧ y ∉ members

/-- The first run of the set that shares an element with the given interval. -/
structure IsLowestRun (members : Set α) (i r : RightOpen α) : Prop where
  run : IsRun members r
  meets : ∃ x, x ∈ r.elements ∧ x ∈ i.elements
  lowest : ∀ x ∈ members, x ∈ i.elements → r.lower ≤ x

/-- Two runs of one set that overlap have the same bounds. An end of one that
lay strictly inside the other would be both outside and inside the set. -/
theorem run_unique {members : Set α} {r t : RightOpen α} (first : IsRun members r)
    (second : IsRun members t) (overlap : ∃ x, x ∈ r.elements ∧ x ∈ t.elements) : r = t := by
  obtain ⟨x, ⟨rLower, rUpper⟩, tLower, tUpper⟩ := overlap
  have lowerLe (a b : RightOpen α) (runA : IsRun members a) (runB : IsRun members b)
      (aUpper : x < a.upper) (bLower : b.lower ≤ x) : b.lower ≤ a.lower := by
    by_contra crossing
    obtain ⟨y, above, below, outside⟩ := runB.lower_outside a.lower (lt_of_not_ge crossing)
    exact outside (runA.inside ⟨above, by order⟩)
  have upperLe (a b : RightOpen α) (runA : IsRun members a) (runB : IsRun members b)
      (aUpper : x < a.upper) (bLower : b.lower ≤ x) : b.upper ≤ a.upper := by
    by_contra crossing
    exact runA.upper_outside (runB.inside ⟨by order, lt_of_not_ge crossing⟩)
  have lower : r.lower = t.lower := le_antisymm
    (lowerLe t r second first tUpper rLower) (lowerLe r t first second rUpper tLower)
  have upper : r.upper = t.upper := le_antisymm
    (upperLe t r second first tUpper rLower) (upperLe r t first second rUpper tLower)
  cases r
  cases t
  simp_all

/-- The lowest run meeting an interval is determined by the set. Both runs hold
an element of the interval, each is no higher than the other's element, and so
the two overlap. -/
theorem lowest_run_unique {members : Set α} {i r t : RightOpen α}
    (first : IsLowestRun members i r) (second : IsLowestRun members i t) : r = t := by
  obtain ⟨x, inR, xIn⟩ := first.meets
  obtain ⟨y, inT, yIn⟩ := second.meets
  have tLower : t.lower ≤ x := second.lowest x (first.run.inside inR) xIn
  have rLower : r.lower ≤ y := first.lowest y (second.run.inside inT) yIn
  obtain ⟨lowR, upR⟩ := inR
  obtain ⟨lowT, upT⟩ := inT
  apply run_unique first.run second.run
  cases le_total x y with
  | inl order => exact ⟨x, ⟨lowR, upR⟩, tLower, lt_of_le_of_lt order upT⟩
  | inr order => exact ⟨y, ⟨rLower, lt_of_le_of_lt order upR⟩, lowT, upT⟩

/-- Cutting the lowest run of a set to the interval gives the lowest run of the part of
the set inside the interval. A bound of the cut run is a bound of the run or of the
interval, and either way it cannot be passed inside the part. -/
theorem IsLowestRun.clip {members : Set α} {i r : RightOpen α} (found : IsLowestRun members i r) :
    IsLowestRun (i.elements ∩ members) i (i.inter r) := by
  obtain ⟨x, inRun, inside⟩ := found.meets
  have cut : (i.inter r).elements ⊆ i.elements ∩ members := by
    rw [RightOpen.elements_inter]
    exact fun y both => ⟨both.1, found.run.inside both.2⟩
  refine ⟨⟨(i.inter_nonempty_iff r).mpr ⟨x, inside, inRun⟩, cut, ?_, ?_⟩, ?_, ?_⟩
  · rintro ⟨⟨_, below⟩, member⟩
    cases min_choice i.upper r.upper with
    | inl same => exact absurd same.ge below.not_ge
    | inr same => exact found.run.upper_outside (same ▸ member)
  · intro y below
    cases lt_max_iff.mp below with
    | inl left => exact ⟨y, le_refl y, below, fun both => absurd both.1.1 left.not_ge⟩
    | inr right =>
      obtain ⟨z, above, under, outside⟩ := found.run.lower_outside y right
      exact ⟨z, above, lt_of_lt_of_le under (le_max_right _ _), fun both => outside both.2⟩
  · exact ⟨x, by rw [RightOpen.elements_inter]; exact ⟨inside, inRun⟩, inside⟩
  · exact fun y both inI => max_le inI.1 (found.lowest y both.2 inI)

/-- The lowest run meeting the interval, when there is one. -/
noncomputable def lowestRun (members : Set α) (i : RightOpen α) : Option (RightOpen α) :=
  open Classical in
  if found : ∃ r, IsLowestRun members i r then some found.choose else none

/-- The lowest run is any run that qualifies, since there is only one. -/
theorem lowest_run_eq_some {members : Set α} {i r : RightOpen α}
    (found : IsLowestRun members i r) : lowestRun members i = some r := by
  have present : ∃ t, IsLowestRun members i t := ⟨r, found⟩
  rw [lowestRun, dif_pos present]
  exact congrArg some (lowest_run_unique present.choose_spec found)

/-- No run meets an interval that holds no member. -/
theorem lowest_run_eq_none {members : Set α} {i : RightOpen α}
    (apart : Disjoint i.elements members) : lowestRun members i = none := by
  rw [lowestRun, dif_neg]
  rintro ⟨r, lowest⟩
  obtain ⟨x, inR, xIn⟩ := lowest.meets
  exact Set.disjoint_left.mp apart xIn (lowest.run.inside inR)

/-- Over a well-founded order the part of a set inside an interval has a lowest
run as soon as it has a member. The run starts at the least member and ends at
the least element behind it that is no member. -/
theorem exists_lowest_run [WellFoundedLT α] {members : Set α} {i : RightOpen α}
    (meets : ¬ Disjoint i.elements members) :
    ∃ r, IsLowestRun (i.elements ∩ members) i r := by
  obtain ⟨first, ⟨inside, member⟩, least⟩ := wellFounded_lt.has_min (i.elements ∩ members)
    (Set.not_disjoint_iff_nonempty_inter.mp meets)
  obtain ⟨last, ⟨above, outside⟩, earliest⟩ := wellFounded_lt.has_min
    { x | first < x ∧ x ∉ i.elements ∩ members }
    ⟨i.upper, inside.2, fun both => absurd both.1.2 (lt_irrefl _)⟩
  have held : ∀ x, first ≤ x → x < last → x ∈ i.elements ∩ members := by
    intro x from_first below
    rcases eq_or_lt_of_le from_first with rfl | after
    · exact ⟨inside, member⟩
    · by_contra absent
      exact earliest x ⟨after, absent⟩ below
  refine ⟨⟨first, last⟩, ⟨above, fun x between => held x between.1 between.2, outside, ?_⟩,
    ⟨first, ⟨le_refl first, above⟩, inside⟩, fun x both _ => not_lt.mp (least x both)⟩
  exact fun x below => ⟨x, le_refl x, below, fun both => least x both below⟩

end Runs

/-- Interval sets over `α` and interval maps from `α` to `β`, given by their
operations. `toSet` and `lookup` say what a container holds; every other field
is an operation, and each law gives what it does in those terms. -/
structure IntervalContainers (α : Type u) (β : Type v) [LinearOrder α] where
  SetOf : Type
  MapOf : Type
  emptySet : SetOf
  toSet : SetOf → Set α
  add : SetOf → RightOpen α → SetOf
  subtract : SetOf → RightOpen α → SetOf
  find : SetOf → RightOpen α → Option (RightOpen α)
  emptyMap : MapOf
  lookup : MapOf → α → Option β
  assign : MapOf → RightOpen α → β → MapOf
  within : RightOpen α → MapOf → Bool
  restrict : RightOpen α → MapOf → List (RightOpen α × β)
  toSet_empty : toSet emptySet = ∅
  toSet_add : ∀ s i, toSet (add s i) = toSet s ∪ i.elements
  toSet_subtract : ∀ s i, toSet (subtract s i) = toSet s \ i.elements
  /-- A lookup fails exactly when no stored element lies in the interval. -/
  find_eq_none : ∀ s i, find s i = none ↔ Disjoint i.elements (toSet s)
  /-- A successful lookup returns the lowest stored run that meets the interval. -/
  find_lowest : ∀ s i r, find s i = some r → IsLowestRun (toSet s) i r
  lookup_empty : ∀ x, lookup emptyMap x = none
  /-- Adding a segment overwrites the map on the interval and nowhere else. -/
  lookup_assign_inside : ∀ m i v x, x ∈ i.elements → lookup (assign m i v) x = some v
  lookup_assign_outside : ∀ m i v x, x ∉ i.elements → lookup (assign m i v) x = lookup m x
  /-- Containment of the interval in the domain of the map. -/
  within_iff : ∀ i m, within i m = true ↔ ∀ x ∈ i.elements, (lookup m x).isSome
  /-- The segments of the map restricted to the interval: each is nonempty and
  holds the map's value throughout, and together they cover the whole restriction. -/
  restrict_nonempty : ∀ i m, ∀ segment ∈ restrict i m, segment.1.lower < segment.1.upper
  restrict_sound : ∀ i m, ∀ segment ∈ restrict i m, ∀ x ∈ segment.1.elements,
    x ∈ i.elements ∧ lookup m x = some segment.2
  restrict_complete : ∀ i m x v, x ∈ i.elements → lookup m x = some v →
    ∃ segment ∈ restrict i m, x ∈ segment.1.elements ∧ segment.2 = v

namespace IntervalContainers

variable [LinearOrder α] (icl : IntervalContainers α β)

attribute [simp] toSet_empty toSet_add toSet_subtract lookup_empty

/-- The values occurring in a restriction are the values the map takes on the
interval. This is all a loop over the segments can observe of their contents. -/
theorem restrict_values (i : RightOpen α) (m : icl.MapOf) (v : β) :
    (∃ segment ∈ icl.restrict i m, segment.2 = v) ↔
      ∃ x ∈ i.elements, icl.lookup m x = some v := by
  constructor
  · rintro ⟨segment, member, rfl⟩
    have inside : segment.1.lower ∈ segment.1.elements :=
      ⟨le_refl _, icl.restrict_nonempty i m segment member⟩
    obtain ⟨within, value⟩ := icl.restrict_sound i m segment member _ inside
    exact ⟨_, within, value⟩
  · rintro ⟨x, inside, value⟩
    obtain ⟨segment, member, _, same⟩ := icl.restrict_complete i m x v inside value
    exact ⟨segment, member, same⟩

end IntervalContainers

end PMTest.Intervals

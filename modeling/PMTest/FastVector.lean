import Mathlib.Logic.Function.Basic
import Mathlib.Tactic.NormNum
import Mathlib.Tactic.Positivity
import PMTest.Buffers
import PMTest.Transitions

/-!
# The growable vector

`FastVector` keeps its elements in one block of cells, with the number of
elements and the capacity as signed 32-bit integers. `push_back` multiplies the
capacity by ten when the block is full; the two `append`s make it ten times the
new number of elements when the block would become full. One of them compares
and multiplies in unsigned 64-bit arithmetic. `clear` goes back to the first
capacity.

A computation that does not fit its integer type, and an access outside of the
block, have no result here. The vectors that exist side by side are a family, so
that appending a vector to itself reads the block that was just reallocated.

Within the bound that ten times the number of elements fits an `int`, every
operation has a result and acts on the listed elements as it should.
-/

namespace PMTest

open Buffers

/-- `FastVector<T>`. -/
structure FastVector (T : Type) where
  arrVector : Block T
  curSize : Int
  vectorMaxSize : Int

namespace FastVector

variable {T : Type}

/-- `FastVector()`. -/
def new : FastVector T := ⟨malloc 200, 0, 200⟩

/-- The new capacity is stored and the block reallocated. -/
def resize (f : FastVector T) (vectorMaxSize : Int) : FastVector T :=
  { f with
    vectorMaxSize := vectorMaxSize
    arrVector := realloc f.arrVector vectorMaxSize.toNat }

/-- The first statement of `push_back`: a full block grows tenfold. -/
def reserve (f : FastVector T) : Option (FastVector T) :=
  if f.curSize ≥ f.vectorMaxSize then (int32 (f.vectorMaxSize * 10)).map f.resize else some f

/-- `push_back(T)`. -/
def pushBack (f : FastVector T) (input : T) : Option (FastVector T) := do
  let f ← f.reserve
  let arrVector ← copyIn f.arrVector f.curSize.toNat [some input]
  let curSize ← int32 (f.curSize + 1)
  return { f with arrVector := arrVector, curSize := curSize }

/-- The first statement of `append(T *, size_t)`. The sums and the product are of
type `size_t`. -/
def reserveArray (f : FastVector T) (inputSize : Nat) : Option (FastVector T) :=
  if size64 (inputSize + f.curSize) ≥ size64 f.vectorMaxSize then
    (int32 (size64 (size64 (f.curSize + inputSize) * 10))).map f.resize
  else some f

/-- `append(T *, size_t)`, with an array outside of the vector. -/
def appendArray (f : FastVector T) (input : List T) : Option (FastVector T) := do
  let f ← f.reserveArray input.length
  let arrVector ← copyIn f.arrVector f.curSize.toNat (input.map some)
  let curSize ← int32 (size64 (f.curSize + input.length))
  return { f with arrVector := arrVector, curSize := curSize }

/-- `clear()`. -/
def clear (f : FastVector T) : FastVector T := { f.resize 200 with curSize := 0 }

/-- `size()`. -/
def size (f : FastVector T) : Int := f.curSize

/-- `operator[](int)`; a cell outside of the block or never written has no value. -/
def get (f : FastVector T) (idx : Int) : Option T := f.arrVector[idx.toNat]?.join

variable {ι : Type} [DecidableEq ι]

/-- The first statement of `append(FastVector<T> &)`. -/
def reserveVector (f : FastVector T) (inputSize : Int) : Option (FastVector T) := do
  let total ← int32 (inputSize + f.curSize)
  if total ≥ f.vectorMaxSize then
    let sum ← int32 (f.curSize + inputSize)
    (int32 (sum * 10)).map f.resize
  else return f

/-- `append(FastVector<T> &)`. The argument may be the vector itself, whose block
is then the reallocated one. -/
def append (vectors : ι → FastVector T) (this input : ι) : Option (ι → FastVector T) := do
  let f ← (vectors this).reserveVector (vectors input).size
  let vectors := Function.update vectors this f
  let cells ← copyOut (vectors input).arrVector (vectors input).size.toNat
  let arrVector ← copyIn f.arrVector f.curSize.toNat cells
  let curSize ← int32 (f.curSize + (vectors input).size)
  return Function.update vectors this { f with arrVector := arrVector, curSize := curSize }

end FastVector

/-- The operations on a family of vectors. -/
inductive VectorOp (ι T : Type)
  | pushBack (this : ι) (input : T)
  | append (this input : ι)
  | appendArray (this : ι) (input : List T)
  | clear (this : ι)

namespace FastVector

variable {ι T : Type} [DecidableEq ι]

/-- Perform one operation. -/
def step (vectors : ι → FastVector T) : VectorOp ι T → Option (ι → FastVector T)
  | .pushBack this input => do
      let f ← (vectors this).pushBack input
      return Function.update vectors this f
  | .append this input => append vectors this input
  | .appendArray this input => do
      let f ← (vectors this).appendArray input
      return Function.update vectors this f
  | .clear this => some (Function.update vectors this (vectors this).clear)

/-- The operation on lists. -/
def listStep (lists : ι → List T) : VectorOp ι T → ι → List T
  | .pushBack this input => Function.update lists this (lists this ++ [input])
  | .append this input => Function.update lists this (lists this ++ lists input)
  | .appendArray this input => Function.update lists this (lists this ++ input)
  | .clear this => Function.update lists this []

/-- The lists after some operations on empty ones. -/
def listRun (ops : List (VectorOp ι T)) : ι → List T := ops.foldl listStep fun _ => []

/-- The largest number of elements whose tenfold is an `int`. -/
def elementLimit : Nat := 214748364

/-- The vector holds the elements: they stand at the front of a block whose length
is the capacity, and both integers are in range. -/
structure Represents (f : FastVector T) (elements : List T) : Prop where
  size : f.curSize = elements.length
  allocated : (f.arrVector.length : Int) = f.vectorMaxSize
  fits : f.curSize ≤ f.vectorMaxSize
  roomy : 200 ≤ f.vectorMaxSize
  small : f.vectorMaxSize ≤ int32Max
  holds : Holds f.arrVector elements

/-- A new vector is empty. -/
theorem represents_new : Represents (new : FastVector T) [] where
  size := rfl
  allocated := by simp [new]
  fits := by simp [new]
  roomy := le_rfl
  small := by simp [new, int32Max]
  holds := holds_nil _

section Single

variable {f : FastVector T} {elements : List T}

/-- A capacity that leaves room for the elements keeps them. -/
theorem Represents.resize (represents : Represents f elements) {vectorMaxSize : Int}
    (room : (elements.length : Int) ≤ vectorMaxSize) (roomy : 200 ≤ vectorMaxSize)
    (small : vectorMaxSize ≤ int32Max) : Represents (f.resize vectorMaxSize) elements where
  size := represents.size
  allocated := by
    simp only [FastVector.resize, length_realloc]
    omega
  fits := represents.size ▸ room
  roomy := roomy
  small := small
  holds := represents.holds.realloc (by omega)

/-- Clearing leaves no element. -/
theorem represents_clear (f : FastVector T) : Represents f.clear [] where
  size := rfl
  allocated := by simp [FastVector.clear, FastVector.resize]
  fits := by simp [FastVector.clear, FastVector.resize]
  roomy := le_rfl
  small := by simp [FastVector.clear, FastVector.resize, int32Max]
  holds := holds_nil _

/-- Copying elements behind the present ones and counting them appends, if the
capacity has room for all. -/
theorem Represents.extend (represents : Represents f elements) (more : List T)
    (room : (elements.length + more.length : Int) ≤ f.vectorMaxSize) :
    ∃ arrVector, copyIn f.arrVector f.curSize.toNat (more.map some) = some arrVector ∧
      int32 (f.curSize + more.length) = some (elements.length + more.length : Int) ∧
      Represents { f with arrVector := arrVector, curSize := elements.length + more.length }
        (elements ++ more) := by
  have front : f.curSize.toNat = elements.length := by
    rw [represents.size, Int.toNat_natCast]
  have allocated := represents.allocated
  have small := represents.small
  obtain ⟨arrVector, written, length, holds⟩ := represents.holds.copyIn more (by omega)
  refine ⟨arrVector, by rw [front]; exact written, ?_, ?_⟩
  · rw [represents.size]
    exact int32_eq_some (by omega) (by omega)
  · exact { represents with
      size := by simp
      allocated := by rw [← allocated, ← length]
      fits := room
      holds := holds }

/-- A full block has as many cells as elements, so below the limit ten times its
capacity fits, and there is room for one more. -/
theorem Represents.reserve (represents : Represents f elements)
    (bounded : elements.length + 1 ≤ elementLimit) :
    ∃ g, f.reserve = some g ∧ Represents g elements ∧
      (elements.length + 1 : Int) ≤ g.vectorMaxSize := by
  have size := represents.size
  have roomy := represents.roomy
  have fits := represents.fits
  simp only [elementLimit] at bounded
  unfold FastVector.reserve
  split_ifs with full
  · have small : f.vectorMaxSize * 10 ≤ int32Max := by
      simp only [int32Max]
      omega
    rw [int32_eq_some (by omega) small]
    refine ⟨_, rfl, represents.resize (by omega) (by omega) small, ?_⟩
    simp only [FastVector.resize]
    omega
  · exact ⟨f, rfl, represents, by omega⟩

/-- An element is pushed, if there are fewer elements than the limit. -/
theorem Represents.pushBack (represents : Represents f elements) (input : T)
    (bounded : elements.length + 1 ≤ elementLimit) :
    ∃ pushed, f.pushBack input = some pushed ∧ Represents pushed (elements ++ [input]) := by
  obtain ⟨g, reserved, kept, room⟩ := represents.reserve bounded
  obtain ⟨arrVector, written, counted, extended⟩ := kept.extend [input] room
  refine ⟨_, ?_, extended⟩
  simp only [List.map_singleton, List.length_singleton, Int.natCast_one] at written counted ⊢
  simp [FastVector.pushBack, reserved, written, counted]

/-- The two appends make room for more elements by the same rule, and below the
limit no step of their arithmetic wraps or overflows. -/
theorem Represents.grow (represents : Represents f elements) (count : Nat)
    (bounded : elements.length + count ≤ elementLimit) :
    ∃ g, f.reserveArray count = some g ∧ f.reserveVector count = some g ∧
      Represents g elements ∧ (elements.length + count : Int) ≤ g.vectorMaxSize := by
  have size := represents.size
  have roomy := represents.roomy
  have capacity := represents.small
  simp only [elementLimit] at bounded
  have sum : (f.curSize + count : Int) = elements.length + count := by rw [size]
  have flipped : (count + f.curSize : Int) = elements.length + count := by rw [size, Int.add_comm]
  have total : int32 (elements.length + count) = some (elements.length + count : Int) :=
    int32_eq_some (by omega) (by simp only [int32Max]; omega)
  have wide (x : Int) (nonnegative : 0 ≤ x) (small : x ≤ int32Max) : size64 x = x :=
    size64_eq nonnegative (by simp only [int32Max] at *; omega)
  have product : int32 ((elements.length + count : Int) * 10) =
      some ((elements.length + count : Int) * 10) :=
    int32_eq_some (by omega) (by simp only [int32Max]; omega)
  simp only [FastVector.reserveArray, FastVector.reserveVector, sum, flipped, total, product,
    Option.bind_eq_bind, Option.bind_some, Option.map_some]
  rw [wide (elements.length + count) (by omega) (by simp only [int32Max]; omega),
    wide f.vectorMaxSize (by omega) capacity,
    wide ((elements.length + count) * 10) (by omega) (by simp only [int32Max]; omega), product]
  split_ifs with full
  · refine ⟨_, rfl, rfl, represents.resize (by omega) (by omega) ?_, ?_⟩
    · simp only [int32Max]
      omega
    · simp only [FastVector.resize]
      omega
  · exact ⟨f, rfl, rfl, represents, by omega⟩

/-- An array is appended, if the sum stays within the limit. -/
theorem Represents.appendArray (represents : Represents f elements) (input : List T)
    (bounded : elements.length + input.length ≤ elementLimit) :
    ∃ appended, f.appendArray input = some appended ∧
      Represents appended (elements ++ input) := by
  obtain ⟨g, reserved, _, kept, room⟩ := represents.grow input.length bounded
  obtain ⟨arrVector, written, counted, extended⟩ := kept.extend input room
  refine ⟨_, ?_, extended⟩
  have fits := (le_of_int32 counted).2
  have narrow : size64 (g.curSize + input.length) = g.curSize + input.length :=
    size64_eq (by rw [kept.size]; omega) (by simp only [int32Max] at *; omega)
  simp [FastVector.appendArray, reserved, written, narrow, counted]

end Single

section Family

variable {vectors : ι → FastVector T} {lists : ι → List T}

/-- Replacing one vector of a family replaces one list. -/
theorem represents_update (represents : ∀ i, Represents (vectors i) (lists i)) (this : ι)
    {f : FastVector T} {elements : List T} (here : Represents f elements) (i : ι) :
    Represents (Function.update vectors this f i) (Function.update lists this elements i) := by
  by_cases same : i = this
  · subst same
    simpa using here
  · simpa [same] using represents i

/-- A vector is appended to another one or to itself, if the sum stays within the
limit. The reallocation comes first and leaves every list alone, so what is read
back from the argument is its list in either case. -/
theorem append_represents (represents : ∀ i, Represents (vectors i) (lists i)) (this input : ι)
    (bounded : (lists this).length + (lists input).length ≤ elementLimit) :
    ∃ next, append vectors this input = some next ∧
      ∀ i, Represents (next i) (Function.update lists this (lists this ++ lists input) i) := by
  have inputSize : (vectors input).size = (lists input).length := (represents input).size
  obtain ⟨g, _, reserved, kept, room⟩ := (represents this).grow (lists input).length bounded
  have resized (i : ι) : Represents (Function.update vectors this g i) (lists i) := by
    simpa using represents_update represents this kept i
  have read := (resized input).holds.copyOut
  have readSize : (Function.update vectors this g input).size = (lists input).length :=
    (resized input).size
  obtain ⟨arrVector, written, counted, extended⟩ := kept.extend (lists input) room
  refine ⟨_, ?_, represents_update resized this extended⟩
  simp [append, inputSize, reserved, readSize, read, written, counted]

/-- Every operation whose result stays within the limit acts on the lists. -/
theorem step_represents (represents : ∀ i, Represents (vectors i) (lists i)) (op : VectorOp ι T)
    (bounded : ∀ i, (listStep lists op i).length ≤ elementLimit) :
    ∃ next, step vectors op = some next ∧ ∀ i, Represents (next i) (listStep lists op i) := by
  cases op with
  | pushBack this input =>
    have here := bounded this
    simp only [listStep, Function.update_self, List.length_append, List.length_singleton] at here
    obtain ⟨pushed, done, kept⟩ := (represents this).pushBack input here
    exact ⟨_, by simp [step, done], represents_update represents this kept⟩
  | append this input =>
    have here := bounded this
    simp only [listStep, Function.update_self, List.length_append] at here
    exact append_represents represents this input here
  | appendArray this input =>
    have here := bounded this
    simp only [listStep, Function.update_self, List.length_append] at here
    obtain ⟨appended, done, kept⟩ := (represents this).appendArray input here
    exact ⟨_, by simp [step, done], represents_update represents this kept⟩
  | clear this => exact ⟨_, rfl, represents_update represents this (represents_clear _)⟩

end Family

/-- What can be observed of a vector that holds a list. -/
theorem Represents.observed {f : FastVector T} {elements : List T}
    (represents : Represents f elements) :
    f.size = elements.length ∧
      ∀ idx : Nat, idx < elements.length → f.get idx = elements[idx]? := by
  refine ⟨represents.size, fun idx inside => ?_⟩
  rw [get, Int.toNat_natCast, represents.holds.getElem? inside, List.getElem?_eq_getElem inside]
  rfl

/-- Any operations on new vectors during which no vector exceeds the limit are
performed without an overflow and without an access outside of a block. After
each of them the number of elements is at most the capacity, the block has that
capacity, and size and elements are those of the list. -/
theorem vectors_are_lists (ops : List (VectorOp ι T))
    (bounded : ∀ k ≤ ops.length, ∀ i, (listRun (ops.take k) i).length ≤ elementLimit) :
    ∀ k ≤ ops.length, ∃ vectors : ι → FastVector T,
      Transitions.run step (fun _ => new) (ops.take k) = some vectors ∧
      ∀ i, (vectors i).curSize ≤ (vectors i).vectorMaxSize ∧
        ((vectors i).arrVector.length : Int) = (vectors i).vectorMaxSize ∧
        (vectors i).vectorMaxSize ≤ int32Max ∧
        (vectors i).size = (listRun (ops.take k) i).length ∧
        ∀ idx : Nat, idx < (listRun (ops.take k) i).length →
          (vectors i).get idx = (listRun (ops.take k) i)[idx]? := by
  intro k below
  have within : ∀ j ≤ (ops.take k).length, ∀ i,
      (((ops.take k).take j).foldl listStep (fun _ => []) i).length ≤ elementLimit := by
    intro j shorter i
    rw [List.take_take, Nat.min_eq_left (Nat.le_trans shorter (List.length_take_le k ops))]
    exact bounded j (Nat.le_trans shorter (List.length_take_le' k ops)) i
  obtain ⟨vectors, ran, represents⟩ := Transitions.run_follows listStep
    (fun (vectors : ι → FastVector T) lists => ∀ i, Represents (vectors i) (lists i))
    (fun lists => ∀ i, (lists i).length ≤ elementLimit)
    (fun _ _ op related fits => step_represents related op fits)
    (ops.take k) (fun _ => represents_new) within
  refine ⟨vectors, ran, fun i => ?_⟩
  obtain ⟨size, elements⟩ := (represents i).observed
  exact ⟨(represents i).fits, (represents i).allocated, (represents i).small, size, elements⟩

/-- A vector of one element is appended to itself, an array to the other one, which
is then cleared. -/
def selfAppend : List (VectorOp Bool Nat) :=
  [.pushBack true 7, .append true true, .appendArray false [1, 2], .clear false]

/-- The first vector holds its element twice, and the other one is empty again. -/
theorem vectors_are_lists_self_append :
    listRun selfAppend true = [7, 7] ∧ ∃ vectors : Bool → FastVector Nat,
      Transitions.run step (fun _ => new) selfAppend = some vectors ∧
      (vectors true).size = 2 ∧ (vectors true).get 1 = some 7 ∧ (vectors false).size = 0 := by
  obtain ⟨vectors, ran, same⟩ := vectors_are_lists selfAppend (by decide) 4 (by decide)
  obtain ⟨_, _, _, size, elements⟩ := same true
  obtain ⟨_, _, _, cleared, _⟩ := same false
  exact ⟨rfl, vectors, ran, size, elements 1 (by decide), cleared⟩

section Filling

/-- The capacities that pushing alone goes through. -/
structure Grown (f : FastVector T) : Prop where
  fits : f.curSize ≤ f.vectorMaxSize
  grown : ∃ k ≤ 7, f.vectorMaxSize = 200 * 10 ^ k

/-- A new vector has the first of them. -/
theorem grown_new : Grown (new : FastVector T) := ⟨by simp [new], 0, by simp [new]⟩

/-- Making room for one more element goes to the next capacity at most, and the
one behind the last of them is no `int`. -/
theorem Grown.reserve {f g : FastVector T} (before : Grown f) (reserved : f.reserve = some g) :
    g.curSize = f.curSize ∧ f.curSize + 1 ≤ g.vectorMaxSize ∧
      ∃ k ≤ 7, g.vectorMaxSize = 200 * 10 ^ k := by
  obtain ⟨fits, k, bound, capacity⟩ := before
  have positive : (0 : Int) < 10 ^ k := by positivity
  unfold FastVector.reserve at reserved
  split_ifs at reserved with full
  · obtain ⟨vectorMaxSize, computed, rfl⟩ := Option.map_eq_some_iff.mp reserved
    obtain ⟨rfl, small⟩ := le_of_int32 computed
    have next : k + 1 ≤ 7 := by
      rcases Nat.lt_or_eq_of_le bound with below | rfl
      · exact below
      · simp only [capacity, int32Max] at small
        norm_num at small
    refine ⟨rfl, ?_, k + 1, next, ?_⟩
    · simp only [FastVector.resize]
      omega
    · rw [FastVector.resize, capacity, pow_succ, mul_assoc]
  · obtain rfl := Option.some.inj reserved
    exact ⟨rfl, by omega, k, bound, capacity⟩

/-- One push counts one element. -/
theorem Grown.pushBack {f next : FastVector T} (before : Grown f) {input : T}
    (pushed : f.pushBack input = some next) : next.curSize = f.curSize + 1 ∧ Grown next := by
  simp only [FastVector.pushBack, Option.bind_eq_bind, Option.bind_eq_some_iff, Option.pure_def,
    Option.some.injEq] at pushed
  obtain ⟨g, reserved, _, _, curSize, counted, rfl⟩ := pushed
  obtain ⟨same, room, capacity⟩ := before.reserve reserved
  obtain ⟨rfl, _⟩ := le_of_int32 counted
  exact ⟨by rw [same], by rw [same]; exact room, capacity⟩

/-- A vector that was filled by pushing, without an overflow of its capacity, holds
at most two thousand million elements. -/
theorem filled_length_le {elements : List T} {f : FastVector T}
    (filled : Transitions.run pushBack new elements = some f) : elements.length ≤ 2000000000 := by
  obtain ⟨counted, grown⟩ := Transitions.run_history
    (fun (past : List T) f => f.curSize = (past.length : Int) ∧ Grown f) ⟨rfl, grown_new⟩
    (fun past f input next before pushed => by
      obtain ⟨one, kept⟩ := before.2.pushBack pushed
      exact ⟨by rw [one, before.1]; simp, kept⟩) filled
  obtain ⟨fits, k, bound, capacity⟩ := grown
  have largest : (10 : Int) ^ k ≤ 10 ^ 7 := pow_le_pow_right₀ (by norm_num) bound
  norm_num at largest
  omega

/-- Within the limit every list can be pushed. -/
theorem exists_filled (elements : List T) (bounded : elements.length ≤ elementLimit) :
    ∃ f : FastVector T, Transitions.run pushBack new elements = some f := by
  obtain ⟨f, filled, _⟩ := Transitions.run_follows (fun past input => past ++ [input]) Represents
    (fun past => past.length ≤ elementLimit)
    (fun _ _ input represents fits => represents.pushBack input (by simpa using fits))
    elements represents_new fun k below => by
      rw [List.foldl_append_eq_append]
      simp only [List.nil_append, List.length_flatten, List.map_map, Function.comp_def,
        List.length_singleton, List.map_const', List.sum_replicate_nat, List.length_take]
      omega
  exact ⟨f, filled⟩

end Filling

end FastVector

end PMTest

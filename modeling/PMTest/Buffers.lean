import Mathlib.Data.List.Basic

/-!
# Checked integers and memory blocks

Signed 32-bit arithmetic has no result when the value does not fit. Unsigned
64-bit arithmetic wraps around, and a narrowing conversion to a signed 32-bit
integer is taken to have a result only if it keeps the value.

A memory block is the list of its cells. A cell that was never written holds no
value. Copying into a block or out of it has no result when it would leave the
block, so a computation that has one stays inside its blocks.

`Holds` says which values stand at the front of a block. Reallocation keeps them
as long as they fit, and a copy behind them appends.
-/

namespace PMTest.Buffers

variable {T : Type*}

/-- The largest signed 32-bit integer. -/
def int32Max : Int := 2147483647

/-- The value of a signed 32-bit computation, if it fits. -/
def int32 (x : Int) : Option Int := if -int32Max - 1 ≤ x ∧ x ≤ int32Max then some x else none

/-- The value of an unsigned 64-bit computation. -/
def size64 (x : Int) : Int := x % 18446744073709551616

/-- A nonnegative value that is not too large fits. -/
theorem int32_eq_some {x : Int} (nonnegative : 0 ≤ x) (small : x ≤ int32Max) :
    int32 x = some x := by
  unfold int32Max at small
  exact if_pos ⟨by simp only [int32Max]; omega, small⟩

/-- A computation that has a value has not overflowed. -/
theorem le_of_int32 {x y : Int} (fits : int32 x = some y) : y = x ∧ x ≤ int32Max := by
  unfold int32 at fits
  split_ifs at fits with bounds
  exact ⟨(Option.some.inj fits).symm, bounds.2⟩

/-- A nonnegative product of ten small values does not wrap around in 64 bits. -/
theorem size64_eq {x : Int} (nonnegative : 0 ≤ x) (small : x ≤ 10 * int32Max) : size64 x = x := by
  unfold int32Max at small
  exact Int.emod_eq_of_lt nonnegative (by omega)

/-- The cells of a memory block. -/
abbrev Block (T : Type*) := List (Option T)

/-- A new block holds no value. -/
def malloc (capacity : Nat) : Block T := List.replicate capacity none

/-- The block with another capacity. Cells that fit keep their values. -/
def realloc (block : Block T) (capacity : Nat) : Block T :=
  block.take capacity ++ List.replicate (capacity - block.length) none

/-- Read cells from the front of a block. -/
def copyOut (block : Block T) (count : Nat) : Option (List (Option T)) :=
  if count ≤ block.length then some (block.take count) else none

/-- Write cells into a block from a position on. -/
def copyIn (block : Block T) (position : Nat) (cells : List (Option T)) : Option (Block T) :=
  if position + cells.length ≤ block.length then
    some (block.take position ++ cells ++ block.drop (position + cells.length))
  else none

/-- The values stand at the front of the block. -/
def Holds (block : Block T) (values : List T) : Prop :=
  values.map some <+: block

/-- Every block holds no values at its front. -/
theorem holds_nil (block : Block T) : Holds block [] := List.nil_prefix

/-- The values of a block fit into it. -/
theorem Holds.length_le {block : Block T} {values : List T} (holds : Holds block values) :
    values.length ≤ block.length := by
  simpa using List.IsPrefix.length_le holds

/-- Reading as many cells as there are values gives the values. -/
theorem Holds.take_eq {block : Block T} {values : List T} (holds : Holds block values) :
    block.take values.length = values.map some := by
  simpa using (List.prefix_iff_eq_take.mp holds).symm

/-- Each value is found at its index. -/
theorem Holds.getElem? {block : Block T} {values : List T} (holds : Holds block values)
    {index : Nat} (inside : index < values.length) : block[index]? = values[index]?.map some := by
  obtain ⟨rest, rfl⟩ := holds
  rw [List.getElem?_append_left (by simpa using inside), List.getElem?_map]

/-- A new block has the requested capacity. -/
@[simp] theorem length_malloc (capacity : Nat) : (malloc capacity : Block T).length = capacity :=
  List.length_replicate

/-- A block has the requested capacity after a reallocation. -/
@[simp] theorem length_realloc (block : Block T) (capacity : Nat) :
    (realloc block capacity).length = capacity := by
  simp only [realloc, List.length_append, List.length_take, List.length_replicate]
  omega

/-- Values that fit the new capacity survive a reallocation. -/
theorem Holds.realloc {block : Block T} {values : List T} (holds : Holds block values)
    {capacity : Nat} (fits : values.length ≤ capacity) : Holds (realloc block capacity) values := by
  have shorter : values.map some <+: block.take capacity :=
    List.prefix_take_iff.mpr ⟨holds, by simpa using fits⟩
  exact shorter.trans (List.prefix_append _ _)

/-- The values at the front of a block can be read. -/
theorem Holds.copyOut {block : Block T} {values : List T} (holds : Holds block values) :
    copyOut block values.length = some (values.map some) := by
  rw [Buffers.copyOut, if_pos holds.length_le, holds.take_eq]

/-- Writing behind the values of a block appends, if there is room. -/
theorem Holds.copyIn {block : Block T} {values : List T} (holds : Holds block values)
    (more : List T) (room : values.length + more.length ≤ block.length) :
    ∃ written, copyIn block values.length (more.map some) = some written ∧
      written.length = block.length ∧ Holds written (values ++ more) := by
  refine ⟨_, if_pos (by simpa using room), ?_, ?_⟩
  · simp only [List.length_append, List.length_take, List.length_map, List.length_drop]
    omega
  · rw [Holds, holds.take_eq, List.map_append]
    exact List.prefix_append _ _

end PMTest.Buffers

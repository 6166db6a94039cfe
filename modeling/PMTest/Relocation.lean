import PMTest.Agreement
import PMTest.UnsetFields
import PMTest.Segments

/-!
# Pools at other addresses

A pool is mapped at another address in every run of the tested program, and two pools may
change places. The records then hold other addresses. As long as every queried or written
range moves as one block and no two bytes fall together, the verdict is the old one with
the addresses moved.

The state of the pass over the moved records, read through the move, is the state of the
pass over the old ones.
-/

namespace PMTest

open Intervals Lookahead

section Runs

variable {members moved : Set Nat} {start start' size : Nat} {r : RightOpen Nat}

/-- Where an interval lies after its block has been moved. -/
def moveBlock (start start' : Nat) (r : RightOpen Nat) : RightOpen Nat :=
  ⟨start' + (r.lower - start), start' + (r.upper - start)⟩

/-- The lowest run of a set inside a block moves with the block.

Inside the two blocks membership agrees offset by offset, and outside of them both sets
are empty. So the bounds of the run, the element behind it and the element in front of
it can be carried over one by one. -/
theorem lowest_run_moves (inside : members ⊆ Set.Ico start (start + size))
    (moved_inside : moved ⊆ Set.Ico start' (start' + size))
    (same : ∀ i < size, start' + i ∈ moved ↔ start + i ∈ members)
    (lowest : IsLowestRun members ⟨start, start + size⟩ r) :
    IsLowestRun moved ⟨start', start' + size⟩ (moveBlock start start' r) := by
  obtain ⟨⟨nonempty, within, upper_outside, lower_outside⟩, ⟨x, inRun, inBlock⟩, first⟩ := lowest
  have lower := inside (within ⟨le_refl r.lower, nonempty⟩)
  have upper := inside (within (show r.upper - 1 ∈ r.elements from ⟨by omega, by omega⟩))
  simp only [Set.mem_Ico] at lower upper
  refine ⟨⟨?_, ?_, ?_, ?_⟩, ?_, ?_⟩
  · simp only [moveBlock]
    omega
  · rintro y ⟨above, below⟩
    simp only [moveBlock] at above below
    have member : start + (y - start') ∈ members := within ⟨by omega, by omega⟩
    have back := (same (y - start') (by omega)).mpr member
    rwa [show start' + (y - start') = y by omega] at back
  · intro member
    simp only [moveBlock] at member
    have bound := moved_inside member
    simp only [Set.mem_Ico] at bound
    have back := (same (r.upper - start) (by omega)).mp member
    rw [show start + (r.upper - start) = r.upper by omega] at back
    exact upper_outside back
  · intro y below
    simp only [moveBlock] at below ⊢
    refine ⟨start' + (r.lower - start) - 1, by omega, by omega, fun member => ?_⟩
    have bound := moved_inside member
    simp only [Set.mem_Ico] at bound
    -- the predecessor of the lower bound is in the block, so it is the one outside
    obtain ⟨z, above, under, outside⟩ := lower_outside (r.lower - 1) (by omega)
    have back := (same (r.lower - start - 1) (by omega)).mp (by
      rwa [show start' + (r.lower - start - 1) = start' + (r.lower - start) - 1 by omega])
    rw [show start + (r.lower - start - 1) = z by omega] at back
    exact outside back
  · refine ⟨start' + (r.lower - start), ⟨le_refl _, ?_⟩, by simp, ?_⟩
    · simp only [moveBlock]
      omega
    · simp only
      omega
  · intro y member block
    have bound := moved_inside member
    simp only [Set.mem_Ico] at bound
    have back := (same (y - start') (by omega)).mp (by
      rwa [show start' + (y - start') = y by omega])
    have low := first _ back (inside back)
    simp only [moveBlock]
    omega

end Runs

section Move

/-- The range moves as one block, and lies in the address space before and after. -/
def MovesAsBlock (f : Nat → Nat) (addr size : Nat) : Prop :=
  addr + size < 2 ^ 64 ∧ f addr + size < 2 ^ 64 ∧ ∀ i < size, f (addr + i) = f addr + i

instance (f : Nat → Nat) (addr size : Nat) : Decidable (MovesAsBlock f addr size) :=
  inferInstanceAs (Decidable (_ ∧ _ ∧ _))

namespace Metadata

/-- The record with its addresses moved. -/
def relocate (f : Nat → Nat) (m : Metadata) : Metadata :=
  { m with addr := f m.addr, addrLate := f m.addrLate }

/-- The ranges that the type of the record uses move as blocks. -/
def Relocatable (f : Nat → Nat) (m : Metadata) : Prop :=
  (m.type.hasRange = true → MovesAsBlock f m.addr m.size) ∧
    (m.type = .order → MovesAsBlock f m.addrLate m.sizeLate)

instance (f : Nat → Nat) (m : Metadata) : Decidable (m.Relocatable f) :=
  inferInstanceAs (Decidable (_ ∧ _))

end Metadata

namespace Report

/-- The report with its ranges moved. -/
def relocate (f : Nat → Nat) : Report → Report
  | assignError file line lower upper =>
      assignError file line (f lower) (f lower + (upper - lower))
  | flushWarning file line lower upper =>
      flushWarning file line (f lower) (f lower + (upper - lower))
  | persistError file line lower upper =>
      persistError file line (f lower) (f lower + (upper - lower))
  | orderError file line lower upper lowerLate upperLate =>
      orderError file line (f lower) (f lower + (upper - lower))
        (f lowerLate) (f lowerLate + (upperLate - lowerLate))
  | orderUnassigned file line => orderUnassigned file line
  | transactionAddWarning file line lower upper =>
      transactionAddWarning file line (f lower) (f lower + (upper - lower))

end Report

/-- The verdict with the ranges of its reports moved. -/
def Verdict.relocate (f : Nat → Nat) (verdict : Verdict) : Verdict :=
  { verdict with reports := verdict.reports.map (Report.relocate f) }

end Move

section Blocks

variable {f : Nat → Nat} {m : Metadata}

/-- The bytes of a block that moves as one are the bytes at its new place. -/
theorem MovesAsBlock.image {addr size : Nat} (block : MovesAsBlock f addr size) :
    Set.Ico (f addr) (f addr + size) = f '' Set.Ico addr (addr + size) := by
  obtain ⟨_, _, moves⟩ := block
  ext b
  constructor
  · rintro ⟨above, below⟩
    refine ⟨addr + (b - f addr), ⟨by omega, by omega⟩, ?_⟩
    rw [moves _ (by omega)]
    omega
  · rintro ⟨a, ⟨above, below⟩, rfl⟩
    have there := moves (a - addr) (by omega)
    rw [show addr + (a - addr) = a by omega] at there
    rw [there]
    exact ⟨by omega, by omega⟩

namespace Metadata

/-- The interval of the moved record begins at the new address. Its end does not wrap
around, because the block fits at the new place. -/
theorem addrinterval_relocate (block : MovesAsBlock f m.addr m.size) :
    (m.relocate f).addrinterval = ⟨f m.addr, f m.addr + m.size⟩ := by
  rw [addrinterval, endaddr, relocate, Nat.mod_eq_of_lt block.2.1]

/-- The interval of a range that moves as a block does not wrap around at the old place. -/
theorem addrinterval_of_block (block : MovesAsBlock f m.addr m.size) :
    m.addrinterval = ⟨m.addr, m.addr + m.size⟩ := by
  rw [addrinterval, endaddr, Nat.mod_eq_of_lt block.1]

/-- A relocated record covers the moved bytes. -/
theorem bytes_relocate (block : MovesAsBlock f m.addr m.size) :
    (m.relocate f).bytes = f '' m.bytes := by
  rw [bytes, bytes, addrinterval_relocate block, addrinterval_of_block block]
  exact block.image

/-- The late range of an order query moves in the same way. -/
theorem bytesLate_relocate (block : MovesAsBlock f m.addrLate m.sizeLate) :
    (m.relocate f).bytesLate = f '' m.bytesLate := by
  rw [bytesLate, bytesLate, addrintervalLate, addrintervalLate, endaddr, endaddr,
    Nat.mod_eq_of_lt block.1, relocate, Nat.mod_eq_of_lt block.2.1]
  exact block.image

end Metadata

end Blocks

namespace ByteState

/-- The state read through a move of the addresses. -/
def pull (f : Nat → Nat) (w : ByteState) : ByteState :=
  { w with
    excluded := Set.preimage f w.excluded
    dirty := Set.preimage f w.dirty
    added := Set.preimage f w.added
    stamp := fun b => w.stamp (f b) }

section Pull

variable {f : Nat → Nat} (injective : Function.Injective f) (w : ByteState) {m : Metadata}

include injective

/-- A moved record touches a moved byte when the old record touches the byte. -/
theorem touches_pull {type : MetadataType} (ranged : type.hasRange = true)
    (movable : m.Relocatable f) (b : Nat) :
    w.Touches type (m.relocate f) (f b) ↔ (w.pull f).Touches type m b := by
  refine and_congr_right fun same => ?_
  have block := movable.1 (show m.type.hasRange = true by rw [← ranged, ← same]; rfl)
  rw [Metadata.bytes_relocate block, injective.mem_set_image, Set.disjoint_image_left]
  rfl

/-- A record and the moved record have the same effect.

The components of the state are compared byte by byte. Exclusions are images of the
range, which an injective move reflects; for all others it is enough that the records
touch corresponding bytes. -/
theorem after_pull (movable : m.Relocatable f) :
    (w.after (m.relocate f)).pull f = (w.pull f).after m := by
  classical
  have assign := @touches_pull f injective w m .assign rfl movable
  have flush := @touches_pull f injective w m .flush rfl movable
  apply ByteState.ext
  · ext b
    change f b ∈ excludeStep w.excluded (m.relocate f) ↔ _
    rw [after_excluded, excludeStep, excludeStep, show (m.relocate f).type = m.type from rfl]
    cases type : m.type with
    | exclude | reinclude =>
      have block := movable.1 (by rw [type]; rfl)
      simp only [Metadata.bytes_relocate block, pull, Set.mem_union, Set.mem_sdiff,
        Set.mem_preimage, injective.mem_set_image]
    | _ => rfl
  · ext b
    change f b ∈ (w.after (m.relocate f)).dirty ↔ _
    rw [mem_after_dirty, mem_after_dirty, assign, flush]
    rfl
  · ext b
    change f b ∈ (w.after (m.relocate f)).added ↔ _
    rw [mem_after_added, mem_after_added]
    refine or_congr_right (and_congr_right fun (add : m.type = .transactionAdd) => ?_)
    rw [Metadata.bytes_relocate (movable.1 (by rw [add]; rfl)), injective.mem_set_image]
    rfl
  · funext b
    change (w.after (m.relocate f)).stamp (f b) = _
    rw [after_stamp, after_stamp]
    exact if_congr (assign b) rfl (if_congr (flush b) rfl rfl)
  · rfl
  · rfl
  · rfl

omit injective in
/-- Whether a record is skipped, because it is empty or meets an excluded range, does
not change by the move. -/
theorem effective_pull (block : MovesAsBlock f m.addr m.size) :
    w.Effective (m.relocate f) ↔ (w.pull f).Effective m := by
  refine and_congr_right fun _ => ?_
  rw [Metadata.bytes_relocate block, Set.disjoint_image_left]
  rfl

/-- The lowest dirty run of a range moves with the range. The range is a block, inside
of which the dirty bytes agree offset by offset. -/
theorem lowest_run_pull (block : MovesAsBlock f m.addr m.size) {run : RightOpen Nat}
    (lowest : IsLowestRun (m.bytes ∩ (w.pull f).dirty) m.addrinterval run) :
    IsLowestRun ((m.relocate f).bytes ∩ w.dirty) (m.relocate f).addrinterval
      ⟨f run.lower, f run.lower + (run.upper - run.lower)⟩ := by
  have interval := Metadata.addrinterval_of_block block
  have bytes : m.bytes = Set.Ico m.addr (m.addr + m.size) := by
    rw [Metadata.bytes, interval]
    rfl
  have inside : m.bytes ∩ (w.pull f).dirty ⊆ Set.Ico m.addr (m.addr + m.size) := by
    rw [bytes]
    exact Set.inter_subset_left
  have moved_inside :
      (m.relocate f).bytes ∩ w.dirty ⊆ Set.Ico (f m.addr) (f m.addr + m.size) := by
    rw [Metadata.bytes, Metadata.addrinterval_relocate block]
    exact Set.inter_subset_left
  have same (i : Nat) (bound : i < m.size) :
      f m.addr + i ∈ (m.relocate f).bytes ∩ w.dirty ↔
        m.addr + i ∈ m.bytes ∩ (w.pull f).dirty := by
    rw [← block.2.2 i bound, Metadata.bytes_relocate block, Set.mem_inter_iff, Set.mem_inter_iff,
      injective.mem_set_image]
    rfl
  have lower := inside (lowest.run.inside ⟨le_refl _, lowest.run.nonempty⟩)
  have nonempty := lowest.run.nonempty
  rw [interval] at lowest
  have moves := lowest_run_moves inside moved_inside same lowest
  obtain ⟨above, below⟩ := lower
  have there := block.2.2 (run.lower - m.addr) (by omega)
  rw [show m.addr + (run.lower - m.addr) = run.lower by omega] at there
  rw [Metadata.addrinterval_relocate block, there]
  rwa [moveBlock, show f m.addr + (run.upper - m.addr) =
    f m.addr + (run.lower - m.addr) + (run.upper - run.lower) by omega] at moves

/-- A persist check of the relocated record reports the moved run. -/
theorem persistReports_pull (block : MovesAsBlock f m.addr m.size) :
    w.persistReports (m.relocate f) =
      ((w.pull f).persistReports m).map (Report.relocate f) := by
  by_cases effective : (w.pull f).Effective m
  · have moved := (effective_pull w block).mpr effective
    rw [persistReports, persistReports, if_pos effective, if_pos moved]
    by_cases clean : Disjoint m.bytes (w.pull f).dirty
    · have moved_clean : Disjoint (m.relocate f).bytes w.dirty := by
        rw [Metadata.bytes_relocate block, Set.disjoint_image_left]
        exact clean
      rw [lowest_run_eq_none (clean.mono_right Set.inter_subset_right),
        lowest_run_eq_none (moved_clean.mono_right Set.inter_subset_right)]
      rfl
    · obtain ⟨run, lowest⟩ := exists_lowest_run clean
      rw [lowest_run_eq_some (lowest_run_pull injective w block lowest), Metadata.bytes,
        lowest_run_eq_some lowest]
      rfl
  · rw [persistReports, persistReports, if_neg effective, if_neg (mt (effective_pull w block).mp
      effective)]
    rfl

omit injective in
/-- An order query compares the same stamps. Its conditions speak about all bytes of the
two ranges, or about some, and hold of the images when they hold of the ranges. -/
theorem orderReports_pull (block : MovesAsBlock f m.addr m.size)
    (late : MovesAsBlock f m.addrLate m.sizeLate) :
    w.orderReports (m.relocate f) = ((w.pull f).orderReports m).map (Report.relocate f) := by
  classical
  have bytes := Metadata.bytes_relocate block
  have bytesLate := Metadata.bytesLate_relocate late
  have queried : w.Queried (m.relocate f) ↔ (w.pull f).Queried m := by
    rw [Queried, Queried, bytes, bytesLate, Set.disjoint_image_left, Set.disjoint_image_left]
    rfl
  have stamped : w.Stamped (m.relocate f) ↔ (w.pull f).Stamped m := by
    rw [Stamped, Stamped, bytes, bytesLate, Set.forall_mem_image, Set.forall_mem_image]
    rfl
  have unordered : w.Unordered (m.relocate f) ↔ (w.pull f).Unordered m := by
    simp only [Unordered, bytes, bytesLate, Set.exists_mem_image]
    rfl
  rw [orderReports, orderReports, apply_ite (List.map _), apply_ite (List.map _),
    apply_ite (List.map _)]
  refine if_congr queried (if_congr stamped (if_congr unordered ?_ rfl) rfl) rfl
  have early (addr size : Nat) (moves : MovesAsBlock f addr size) :
      endaddr (f addr) size = f addr + (endaddr addr size - addr) := by
    obtain ⟨fits, moved_fits, _⟩ := moves
    rw [endaddr, endaddr, Nat.mod_eq_of_lt fits, Nat.mod_eq_of_lt moved_fits,
      Nat.add_sub_cancel_left]
  rw [List.map_singleton, Report.relocate, ← early _ _ block, ← early _ _ late]
  rfl

/-- Every check of a record prints the moved reports. The end of a transaction checks
one assign after the other, each of which moves as a block. -/
theorem reports_pull (movable : m.Relocatable f) (warn : Bool) {pending : List Metadata}
    (blocks : ∀ n ∈ pending, MovesAsBlock f n.addr n.size) :
    w.reports warn (m.relocate f) (pending.map (Metadata.relocate f)) =
      ((w.pull f).reports warn m pending).map (Report.relocate f) := by
  classical
  unfold reports
  rw [show (m.relocate f).type = m.type from rfl]
  have range (block : MovesAsBlock f m.addr m.size) :
      (m.relocate f).addrinterval = ⟨f m.addr,
        f m.addr + (m.addrinterval.upper - m.addrinterval.lower)⟩ := by
    rw [Metadata.addrinterval_relocate block, Metadata.addrinterval_of_block block,
      Nat.add_sub_cancel_left]
  have apart (block : MovesAsBlock f m.addr m.size) (few : Set Nat) :
      Disjoint (m.relocate f).bytes few ↔ Disjoint m.bytes (Set.preimage f few) := by
    rw [Metadata.bytes_relocate block, Set.disjoint_image_left]
  cases type : m.type with
  | assign =>
    have block := movable.1 (by rw [type]; rfl)
    simp only
    rw [assignReports, assignReports, apply_ite (List.map _), range block]
    exact if_congr (and_congr (effective_pull w block) (and_congr_right fun _ => apart block _))
      rfl rfl
  | flush =>
    have block := movable.1 (by rw [type]; rfl)
    simp only
    rw [flushReports, flushReports, apply_ite (List.map _), range block]
    exact if_congr (and_congr_right fun _ => and_congr (effective_pull w block) (apart block _))
      rfl rfl
  | persist => exact persistReports_pull injective w (movable.1 (by rw [type]; rfl))
  | order => exact orderReports_pull w (movable.1 (by rw [type]; rfl)) (movable.2 type)
  | transactionEnd =>
    simp only
    rw [apply_ite (List.map _)]
    refine if_congr Iff.rfl ?_ rfl
    rw [List.flatMap_map, List.map_flatMap, List.flatMap_def, List.flatMap_def]
    exact congrArg _ (List.map_congr_left fun n member =>
      persistReports_pull injective w (blocks n member))
  | transactionAdd =>
    have block := movable.1 (by rw [type]; rfl)
    simp only
    rw [addReports, addReports, apply_ite (List.map _), range block]
    exact if_congr (and_congr_right fun _ => and_congr_right fun _ => not_congr (apart block _))
      rfl rfl
  | _ => rfl

omit injective in
/-- The assigns to check are the moved ones. -/
theorem pendingStep_pull (movable : m.Relocatable f) (pending : List Metadata) :
    w.pendingStep (m.relocate f) (pending.map (Metadata.relocate f)) =
      ((w.pull f).pendingStep m pending).map (Metadata.relocate f) := by
  classical
  unfold pendingStep
  rw [show (m.relocate f).type = m.type from rfl]
  cases type : m.type with
  | assign =>
    simp only
    rw [apply_ite (List.map _), List.map_append, List.map_singleton]
    exact if_congr (and_congr_left fun _ => effective_pull w (movable.1 (by rw [type]; rfl)))
      rfl rfl
  | transactionBegin =>
    simp only
    rw [apply_ite (List.map _)]
    rfl
  | _ => rfl

end Pull

end ByteState

section Verdicts

variable {f : Nat → Nat} (injective : Function.Injective f) (warn : Bool)

/-- The move does not change the types of the records, so a flush finds a fence behind
it as before. -/
theorem fenceAmong_relocate (records : List Metadata) :
    fenceAmong (records.map (Metadata.relocate f)) = fenceAmong records := by
  rw [fenceAmong, fenceAmong, List.any_map]
  rfl

/-- The first state is the second read through the move, and the assigns to check are
those that move as blocks. -/
structure Pulls (f : Nat → Nat) (k l : RecordState) : Prop where
  bytes : k.bytes = l.bytes.pull f
  pending : l.pending = k.pending.map (Metadata.relocate f)
  blocks : ∀ n ∈ k.pending, MovesAsBlock f n.addr n.size

include injective in
/-- One record keeps the two passes together, and what it prints in one pass is what it
prints in the other, moved. -/
theorem Pulls.step {k l : RecordState} (pulls : Pulls f k l) {m : Metadata}
    (movable : m.Relocatable f) (rest : List Metadata) :
    Pulls f (RecordState.machine warn rest m k).1
        (RecordState.machine warn (rest.map (Metadata.relocate f)) (m.relocate f) l).1 ∧
      (RecordState.machine warn (rest.map (Metadata.relocate f)) (m.relocate f) l).2 =
        (RecordState.machine warn rest m k).2.map (Report.relocate f) := by
  unfold RecordState.machine
  rw [fenceAmong_relocate, show (m.relocate f).type = m.type from rfl]
  split_ifs with skipped
  · exact ⟨pulls, rfl⟩
  · obtain ⟨bytes, pending, blocks⟩ := pulls
    refine ⟨⟨?_, ?_, fun n member => ?_⟩, ?_⟩
    · rw [RecordState.next, RecordState.next, bytes]
      exact (l.bytes.after_pull injective movable).symm
    · rw [RecordState.next, RecordState.next, bytes, pending]
      exact l.bytes.pendingStep_pull movable k.pending
    · rcases ByteState.mem_pendingStep member with old | ⟨rfl, assign⟩
      · exact blocks n old
      · exact movable.1 (by rw [assign]; rfl)
    · rw [RecordState.reports, RecordState.reports, bytes, pending]
      exact l.bytes.reports_pull injective movable warn blocks

include injective in
/-- A pass over the relocated records follows the pass over the records, and prints the
moved reports. The induction is on the records, with the two states generalized. -/
theorem Pulls.pass {records : List Metadata} (movable : ∀ m ∈ records, m.Relocatable f)
    {k l : RecordState} (pulls : Pulls f k l) :
    Pulls f (run (RecordState.machine warn) [] records k)
        (run (RecordState.machine warn) [] (records.map (Metadata.relocate f)) l) ∧
      output (RecordState.machine warn) [] (records.map (Metadata.relocate f)) l =
        (output (RecordState.machine warn) [] records k).map (Report.relocate f) := by
  induction records generalizing k l with
  | nil => exact ⟨pulls, rfl⟩
  | cons m rest ih =>
    obtain ⟨next, printed⟩ := pulls.step injective warn (movable m List.mem_cons_self) rest
    obtain ⟨final, later⟩ := ih (fun n member => movable n (List.mem_cons_of_mem m member)) next
    simp only [List.map_cons, output, run, List.append_nil, List.map_append, printed, later]
    exact ⟨final, trivial⟩

/-- A verdict does not depend on where the pools are mapped: if the addresses are moved so
that no two bytes fall together and every range of a record moves as one block, the same
checks fail, in the same order, about the moved ranges. -/
theorem relocation_moves_verdict (icl : Icl) (injective : Function.Injective f)
    (records : List Metadata) (movable : ∀ m ∈ records, m.Relocatable f) :
    verdict icl warn (records.map (Metadata.relocate f)) =
      (verdict icl warn records).relocate f := by
  obtain ⟨final, printed⟩ := Pulls.pass injective warn movable (k := .initial) (l := .initial)
    ⟨rfl, rfl, fun n member => absurd member List.not_mem_nil⟩
  rw [verdict_eq, verdict_eq, printed, final.bytes]
  rfl

/-- Two pools of 64 bytes change places. -/
def swapPools (addr : Nat) : Nat :=
  if addr < 64 then addr + 64 else if addr < 128 then addr - 64 else addr

/-- A write to each pool that is not flushed entirely. -/
def twoPools : List Metadata :=
  [{ type := .assign, addr := 8, size := 8 }, { type := .assign, addr := 80, size := 8 },
    { type := .flush, addr := 8, size := 4 }, { type := .fence },
    { type := .persist, addr := 0, size := 32, lineNum := 1 },
    { type := .order, addr := 80, size := 8, addrLate := 8, sizeLate := 4, lineNum := 2 }]

/-- The two pools change places, and so do the ranges in the reports. -/
theorem relocation_moves_verdict_two_pools :
    verdict (Segments.segments Nat Int) false twoPools =
      ⟨[.persistError [] 1 12 16, .orderError [] 2 80 88 8 12], false⟩ ∧
    verdict (Segments.segments Nat Int) false (twoPools.map (Metadata.relocate swapPools)) =
      ⟨[.persistError [] 1 76 80, .orderError [] 2 16 24 72 76], false⟩ := by
  have injective : Function.Injective swapPools := by
    intro a b same
    unfold swapPools at same
    split_ifs at same <;> omega
  refine ⟨by decide, ?_⟩
  rw [relocation_moves_verdict false _ injective twoPools (by decide)]
  decide

end Verdicts

end PMTest

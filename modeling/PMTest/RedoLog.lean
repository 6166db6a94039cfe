import Mathlib.Data.List.Basic
import PMTest.CrashImages
import PMTest.Recorder

/-!
# The redo log

The object store that comes with the tool changes several words of its pool at once with a
redo log. The entries are stored to the log and persisted, then a flag in the last of them
is set and persisted. From here on the change is made: the words are stored and persisted,
and the flag is cleared. After a crash, a log with a flag is processed again.

The functions of `redo.c` are modelled by what they do in order: the recording calls they
make and the stores, write-backs and fences. The memory is one of aligned words, each of
which a store changes at once, and a word has the address of its first byte. A pool and an
entry carry that their words are aligned.

The pool is one on persistent memory without replicas, so its `persist` and `flush` are
`obj_norep_persist` and `obj_norep_flush` over `pmem_persist` and `pmem_flush`. A pool on
other memory uses `msync` instead, which records no write-back and no fence, and one with
replicas makes every change in each of them; both are left out.
-/

namespace PMTest.RedoLog

open CrashImages

/-- The words by their addresses. -/
abbrev Memory := Nat → BitVec 64

/-- What a function does: it calls the recorder, or it uses the memory. -/
inductive Op
  | record (call : Recording)
  | instr (step : Instr Nat (BitVec 64))

/-- The trace of some operations. -/
def records (ops : List Op) : List Metadata :=
  ops.filterMap fun
    | .record call => some call.metadata
    | .instr _ => none

/-- The program of some operations. -/
def instrs (ops : List Op) : List (Instr Nat (BitVec 64)) :=
  ops.filterMap fun
    | .record _ => none
    | .instr step => some step

/-- The files that `__FILE__` names, and the lines of `PM_FLUSH` and `PM_FENCE` in the flush
and fence functions that `pmem_init` has chosen. -/
structure Build where
  redoFile : List Char
  memopsFile : List Char
  pmemFile : List Char
  flushLine : Nat
  fenceLine : Nat

/-- The pool, as far as the redo log looks at it. -/
structure Pool where
  /-- `pop->addr`, which is `pop` itself. -/
  addr : Nat
  lanesOffset : BitVec 64
  nlanes : BitVec 64
  heapOffset : BitVec 64
  heapSize : BitVec 64
  /-- The place of the field `root_offset`. -/
  rootOffset : BitVec 64
  aligned : 8 ∣ addr
  mapped : addr < 2 ^ 64

/-- A word that is to be changed, and its new content. -/
structure OperationEntry where
  ptr : Nat
  value : BitVec 64
  aligned : 8 ∣ ptr
  mapped : ptr < 2 ^ 64

/-- `OBJ_PTR_TO_OFF`. -/
def Pool.objPtrToOff (pop : Pool) (ptr : Nat) : BitVec 64 :=
  BitVec.ofNat 64 ptr - BitVec.ofNat 64 pop.addr

/-- `(uint64_t *)((uintptr_t)pop->addr + offset)`. -/
def Pool.direct (pop : Pool) (offset : BitVec 64) : Nat := (pop.addr + offset.toNat) % 2 ^ 64

/-- `sizeof(struct lane_layout)`: three sections of `LANE_SECTION_LEN` bytes. -/
def laneLayoutSize : BitVec 64 := 3 * 1024

/-- `OBJ_OFF_IS_VALID`. -/
def Pool.objOffIsValid (pop : Pool) (off : BitVec 64) : Bool :=
  (decide (pop.heapOffset ≤ off) && decide (off < pop.heapOffset + pop.heapSize)) ||
    pop.rootOffset == off ||
    (decide (pop.lanesOffset ≤ off) &&
      decide (off < pop.lanesOffset + pop.nlanes * laneLayoutSize))

section Persistence

variable (b : Build) (file : List Char)

/-- `PM_EQU` to a word. -/
def pmEqu (addr : Nat) (value : BitVec 64) (line : Nat) : List Op :=
  [.record (.assign addr 8 file line), .instr (.store addr value)]

/-- The stores between `PMTest_exclude` and `PMTest_include` of one range. -/
def excluding (addr size first last : Nat) (body : List Op) : List Op :=
  .record (.exclude addr size file first) :: (body ++ [.record (.reinclude addr size file last)])

/-- The cache lines of 64 bytes that a range meets. -/
def cacheLines (addr len : Nat) : List Nat :=
  (List.range ((addr + len + 63) / 64 - addr / 64)).map fun k => (addr / 64 + k) * 64

/-- The word is in the cache line. -/
def inLine (uptr a : Nat) : Bool := decide (uptr ≤ a ∧ a < uptr + 64)

/-- `pmem_flush`, which calls `flush_clflush`, `flush_clwb` or `flush_clflushopt`. -/
def pmemFlush (addr len : Nat) : List Op :=
  .record (.flush addr len b.pmemFile b.flushLine) ::
    ((cacheLines addr len).map fun uptr => .instr (.writeBack (inLine uptr)))

/-- `pmem_drain`: behind it the flushes have arrived, because of an `sfence` or because
`clflush` has waited for them already. -/
def pmemDrain : List Op := [.record (.fence b.pmemFile b.fenceLine), .instr .fence]

/-- `pmem_persist`, which is `pop->persist` of a pool on persistent memory without
replicas. -/
def pmemPersist (addr len : Nat) : List Op := pmemFlush b addr len ++ pmemDrain b

end Persistence

/-- `REDO_FINISH_FLAG`. -/
def redoFinishFlag : BitVec 64 := 1

/-- `REDO_FLAG_MASK`. -/
def redoFlagMask : BitVec 64 := ~~~redoFinishFlag

/-- The address of `redo[index].offset`, where the entry starts. -/
def entryAt (redo index : Nat) : Nat := redo + 16 * index

/-- The finish flag is set in the entry at this address. -/
def flagged (m : Memory) (entry : Nat) : Bool := m entry &&& redoFinishFlag ≠ 0

/-- `redo_log_nflags`. -/
def redoLogNflags (m : Memory) (redo nentries : Nat) : Nat :=
  (List.range nentries).countP fun i => flagged m (entryAt redo i)

section Log

variable (b : Build)

/-- `redo_log_store`. -/
def redoLogStore (redo index : Nat) (offset value : BitVec 64) : List Op :=
  excluding b.redoFile (entryAt redo index) 16 87 90
    (pmEqu b.redoFile (entryAt redo index) offset 88 ++
      pmEqu b.redoFile (entryAt redo index + 8) value 89)

/-- `redo_log_store_last`. -/
def redoLogStoreLast (redo index : Nat) (offset value : BitVec 64) : List Op :=
  pmEqu b.redoFile (entryAt redo index + 8) value 107 ++
    pmemPersist b redo ((index + 1) * 16) ++
    excluding b.redoFile (entryAt redo index) 8 113 116
      (pmEqu b.redoFile (entryAt redo index) (offset ||| redoFinishFlag) 114 ++
        pmemPersist b (entryAt redo index) 8)

/-- `redo_log_set_last`, which reads the offset that it sets the flag in. -/
def redoLogSetLast (m : Memory) (redo index : Nat) : List Op :=
  pmemPersist b redo ((index + 1) * 16) ++
    excluding b.redoFile (entryAt redo index) 8 133 136
      (pmEqu b.redoFile (entryAt redo index) (m (entryAt redo index) ||| redoFinishFlag) 134 ++
        pmemPersist b (entryAt redo index) 8)

variable (pop : Pool)

/-- What `redo_log_process` does for an entry without the flag. -/
def writeWord (val : Nat) (value : BitVec 64) : List Op :=
  excluding b.redoFile val 8 156 161 (pmEqu b.redoFile val value 157 ++ pmemFlush b val 8)

/-- What it does for the last entry. -/
def writeLastWord (val : Nat) (value : BitVec 64) (redo : Nat) : List Op :=
  excluding b.redoFile val 8 169 174 (pmEqu b.redoFile val value 170 ++ pmemPersist b val 8) ++
    excluding b.redoFile redo 8 176 180 (pmEqu b.redoFile redo 0 177 ++ pmemPersist b redo 8)

/-- `redo_log_process`. It reads the log while it changes the memory, and goes on until it
finds the flag. -/
def redoLogProcess : (fuel : Nat) → (m : Memory) → (redo : Nat) → Option (List Op)
  | 0, _, _ => none
  | fuel + 1, m, redo =>
    if flagged m redo then
      some (writeLastWord b (pop.direct (m redo &&& redoFlagMask)) (m (redo + 8)) redo)
    else
      let ops := writeWord b (pop.direct (m redo)) (m (redo + 8))
      (redoLogProcess fuel (exec m (instrs ops)) (redo + 16)).map (ops ++ ·)

/-- `redo_log_recover`. -/
def redoLogRecover (fuel : Nat) (m : Memory) (redo nentries : Nat) : Option (List Op) :=
  if redoLogNflags m redo nentries = 1 then redoLogProcess b pop fuel m redo else some []

/-- The two ways to put the flag into the last entry. -/
inductive Ending
  | setLast
  | storeLast

/-- `redo_log_store` for one entry after the other. -/
def storeEntries (redo : Nat) : (index : Nat) → List OperationEntry → List Op
  | _, [] => []
  | index, e :: rest =>
    redoLogStore b redo index (pop.objPtrToOff e.ptr) e.value ++ storeEntries redo (index + 1) rest

/-- The log of the entries, with the flag in the last one. -/
def storeLog (ending : Ending) (m : Memory) (redo : Nat) (front : List OperationEntry)
    (last : OperationEntry) : List Op :=
  match ending with
  | .setLast =>
    let ops := storeEntries b pop redo 0 (front ++ [last])
    ops ++ redoLogSetLast b (exec m (instrs ops)) redo front.length
  | .storeLast =>
    storeEntries b pop redo 0 front ++
      redoLogStoreLast b redo front.length (pop.objPtrToOff last.ptr) last.value

/-- What the callers of the log do: `operation_process_persistent_redo` and some of the list
functions end with `redo_log_set_last`, the other list functions with `redo_log_store_last`. -/
def redoLogCommit (ending : Ending) (fuel : Nat) (m : Memory) (redo : Nat)
    (front : List OperationEntry) (last : OperationEntry) : Option (List Op) :=
  let ops := storeLog b pop ending m redo front last
  (redoLogProcess b pop fuel (exec m (instrs ops)) redo).map (ops ++ ·)

/-- The loop of `redo_log_check`, and the check of the entry that it ends at. -/
def redoLogCheckOffsets : (fuel : Nat) → (m : Memory) → (redo : Nat) → Option Int
  | 0, _, _ => none
  | fuel + 1, m, redo =>
    if flagged m redo then
      some (if pop.objOffIsValid (m redo &&& redoFlagMask) then 0 else -1)
    else if pop.objOffIsValid (m redo) then redoLogCheckOffsets fuel m (redo + 16)
    else some (-1)

/-- `redo_log_check`. -/
def redoLogCheck (fuel : Nat) (m : Memory) (redo nentries : Nat) : Option Int :=
  let nflags := redoLogNflags m redo nentries
  if nflags > 1 then some (-1)
  else if nflags = 1 then redoLogCheckOffsets pop fuel m redo
  else some 0

end Log

section Programs

variable (b : Build) (file : List Char)

/-- No operation does nothing to the memory. -/
@[simp] theorem instrs_nil : instrs [] = [] := rfl

/-- The program of operations in a row is put together. -/
@[simp] theorem instrs_append (ops later : List Op) :
    instrs (ops ++ later) = instrs ops ++ instrs later := List.filterMap_append

/-- A call of the recorder is no step of the program. -/
@[simp] theorem instrs_record (call : Recording) (ops : List Op) :
    instrs (.record call :: ops) = instrs ops := rfl

/-- A use of the memory is one. -/
@[simp] theorem instrs_instr (step : Instr Nat (BitVec 64)) (ops : List Op) :
    instrs (.instr step :: ops) = step :: instrs ops := rfl

/-- The macro stores its word. -/
@[simp] theorem instrs_pmEqu (addr : Nat) (value : BitVec 64) (line : Nat) :
    instrs (pmEqu file addr value line) = [.store addr value] := rfl

/-- The bracket itself does not use the memory. -/
@[simp] theorem instrs_excluding (addr size first last : Nat) (body : List Op) :
    instrs (excluding file addr size first last body) = instrs body := by
  simp [excluding]

/-- The write-backs of a range. -/
def lines (addr len : Nat) : List (Instr Nat (BitVec 64)) :=
  ((cacheLines addr len).map inLine).map .writeBack

/-- A flush writes back the cache lines of its range. -/
@[simp] theorem instrs_pmemFlush (addr len : Nat) :
    instrs (pmemFlush b addr len) = lines addr len := by
  rw [pmemFlush, instrs_record, lines, instrs, List.filterMap_map, List.map_map]
  exact congrFun List.filterMap_eq_map' _

/-- A persist waits for them in addition. -/
@[simp] theorem instrs_pmemPersist (addr len : Nat) :
    instrs (pmemPersist b addr len) = lines addr len ++ [.fence] := by
  rw [pmemPersist, instrs_append, instrs_pmemFlush]
  rfl

/-- The lines of a range contain its words. -/
theorem exists_line {addr len a : Nat} (lower : addr ≤ a) (upper : a < addr + len) :
    ∃ line ∈ (cacheLines addr len).map inLine, line a = true := by
  refine ⟨inLine (a / 64 * 64), List.mem_map_of_mem ?_, ?_⟩
  · have position : a / 64 * 64 = (addr / 64 + (a / 64 - addr / 64)) * 64 := by omega
    rw [position]
    exact List.mem_map_of_mem (List.mem_range.mpr (by omega))
  · exact decide_eq_true (by omega)

/-- Write-backs store nothing. -/
@[simp] theorem stored_lines (a addr len : Nat) : stored a (lines addr len) = [] := by
  simp [lines, stored, Instr.stored?]

/-- Write-backs change nothing that is read. -/
@[simp] theorem exec_lines (m : Memory) (addr len : Nat) : exec m (lines addr len) = m :=
  funext fun a => exec_of_unstored (stored_lines a addr len)

/-- Stores to a range are written back by its lines. -/
theorem writtenBack_lines {program : List (Instr Nat (BitVec 64))} {addr len : Nat}
    (inside : ∀ a, stored a program ≠ [] → addr ≤ a ∧ a < addr + len) :
    WrittenBack (program ++ lines addr len) :=
  writtenBack_append_writeBacks _ fun a some => exists_line (inside a some).1 (inside a some).2

end Programs

end PMTest.RedoLog

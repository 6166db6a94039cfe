import Mathlib.Data.Int.Order.Basic
import Mathlib.Order.MinMax
import PMTest.Metadata

/-!
# The check of one record

Each handler below is one `VeriProc_*` function. It takes the record it is called
with and the parts of the checker's state it is given by reference, and returns
its result code, the reports it prints and the updated state. Builds differ in
whether the performance warnings are compiled in; exclusion is always compiled in.

The interval containers are a parameter. Timestamps and the transaction counter
are integers without overflow: both move by one for each record of a trace.
-/

namespace PMTest

open Intervals

/-- The interval containers of the checker: sets of addresses, and maps from
addresses to signed timestamps. -/
abbrev Icl := IntervalContainers Nat Int

/-- `numeric_limits<int>::max()`. -/
def intMax : Int := 2147483647

/-- Negative timestamps stand for a time that is only bounded from below. -/
def timestampAtleast (t : Int) : Int := if t ≥ 0 then -t else t

/-- The absolute value is the time itself. -/
def timestampExactly (t : Int) : Int := if t ≤ 0 then -t else t

/-- Timestamps that are not negative are exact. -/
def timestampIsexacttime (t : Int) : Bool := decide (t ≥ 0)

/-- The local variables of one verification. -/
structure VeriState (icl : Icl) where
  excludeInfo : icl.SetOf
  persistInfo : icl.SetOf
  transactionAddInfo : icl.SetOf
  orderInfo : icl.MapOf
  transactionPersistInfo : List Ptr
  timestamp : Int
  transactionCount : Int

/-- The values the variables start with. -/
def VeriState.initial (icl : Icl) : VeriState icl where
  excludeInfo := icl.emptySet
  persistInfo := icl.emptySet
  transactionAddInfo := icl.emptySet
  orderInfo := icl.emptyMap
  transactionPersistInfo := []
  timestamp := 1
  transactionCount := 0

/-- A handler's result code, printed reports and updated state. -/
structure Handled (icl : Icl) where
  code : Int
  reports : List Report
  state : VeriState icl

variable {icl : Icl}

/-- `VeriProc_Assign`. The record's address is stored for the check at the end
of the transaction. -/
def veriProcAssign (cur : Metadata) (address : Ptr) (s : VeriState icl) : Handled icl :=
  if cur.size > 0 then
    if (icl.find s.excludeInfo cur.addrinterval).isSome then ⟨-2, [], s⟩
    else
      let s := { s with
        persistInfo := icl.add s.persistInfo cur.addrinterval
        orderInfo := icl.assign s.orderInfo cur.addrinterval (timestampAtleast s.timestamp) }
      if s.transactionCount > 0 then
        let s := { s with transactionPersistInfo := s.transactionPersistInfo ++ [address] }
        if (icl.find s.transactionAddInfo cur.addrinterval).isNone then
          ⟨-1, [.assignError cur.filenameTemp cur.lineNum
            cur.addrinterval.lower cur.addrinterval.upper], s⟩
        else ⟨0, [], s⟩
      else ⟨0, [], s⟩
  else ⟨0, [], s⟩

/-- An assign without a size, or of a range that meets the excluded set, has no
effect and prints nothing. -/
theorem assign_ignored (cur : Metadata) (address : Ptr) (s : VeriState icl)
    (ignored : ¬ (0 < cur.size ∧ icl.find s.excludeInfo cur.addrinterval = none)) :
    (veriProcAssign cur address s).state = s ∧ (veriProcAssign cur address s).reports = [] := by
  unfold veriProcAssign
  split_ifs with sized excluded <;> simp_all

/-- An assign with a size that meets no excluded range marks its range, and inside a
transaction it is stored, and reported if no logged range meets it. -/
theorem assign_effective (cur : Metadata) (address : Ptr) (s : VeriState icl)
    (sized : 0 < cur.size) (included : icl.find s.excludeInfo cur.addrinterval = none) :
    (veriProcAssign cur address s).state = { s with
      persistInfo := icl.add s.persistInfo cur.addrinterval
      orderInfo := icl.assign s.orderInfo cur.addrinterval (timestampAtleast s.timestamp)
      transactionPersistInfo :=
        if 0 < s.transactionCount then s.transactionPersistInfo ++ [address]
        else s.transactionPersistInfo } ∧
    (veriProcAssign cur address s).reports =
      if 0 < s.transactionCount ∧ icl.find s.transactionAddInfo cur.addrinterval = none then
        [.assignError cur.filenameTemp cur.lineNum cur.addrinterval.lower cur.addrinterval.upper]
      else [] := by
  unfold veriProcAssign
  simp only [included, Option.isSome_none, Bool.false_eq_true, if_false, gt_iff_lt, sized, if_true,
    Option.isNone_iff_eq_none]
  split_ifs <;> simp_all

/-- An assign stores at most its own address for the end of the transaction. -/
theorem assign_stores (cur : Metadata) (address : Ptr) (s : VeriState icl) :
    ∀ p ∈ (veriProcAssign cur address s).state.transactionPersistInfo,
      p ∈ s.transactionPersistInfo ∨ p = address := by
  intro p member
  by_cases effective : 0 < cur.size ∧ icl.find s.excludeInfo cur.addrinterval = none
  · rw [(assign_effective cur address s effective.1 effective.2).1] at member
    dsimp only at member
    split_ifs at member
    · simpa using member
    · exact .inl member
  · rw [(assign_ignored cur address s effective).1] at member
    exact .inl member

/-- `VeriProc_Flush`. The warning build leaves the persist set alone when the
lookup fails, and the plain build subtracts without a lookup. -/
def veriProcFlush (warn : Bool) (cur : Metadata) (s : VeriState icl) : Handled icl :=
  if cur.size > 0 then
    if (icl.find s.excludeInfo cur.addrinterval).isSome then ⟨-2, [], s⟩
    else
      let (reports, persistInfo) :=
        if warn then
          if (icl.find s.persistInfo cur.addrinterval).isNone then
            ([.flushWarning cur.filenameTemp cur.lineNum
              cur.addrinterval.lower cur.addrinterval.upper], s.persistInfo)
          else ([], icl.subtract s.persistInfo cur.addrinterval)
        else ([], icl.subtract s.persistInfo cur.addrinterval)
      ⟨0, reports, { s with
        persistInfo := persistInfo
        orderInfo := icl.assign s.orderInfo cur.addrinterval (timestampExactly s.timestamp) }⟩
  else ⟨0, [], s⟩

/-- A flush without a size, or of a range that meets the excluded set, has no
effect and prints nothing. -/
theorem flush_ignored (warn : Bool) (cur : Metadata) (s : VeriState icl)
    (ignored : ¬ (0 < cur.size ∧ icl.find s.excludeInfo cur.addrinterval = none)) :
    (veriProcFlush warn cur s).state = s ∧ (veriProcFlush warn cur s).reports = [] := by
  unfold veriProcFlush
  split_ifs with sized excluded <;> simp_all

/-- A flush with a size that meets no excluded range stamps its range and removes it
from the persist set, where the warning build does so only after a successful lookup. -/
theorem flush_effective (warn : Bool) (cur : Metadata) (s : VeriState icl)
    (sized : 0 < cur.size) (included : icl.find s.excludeInfo cur.addrinterval = none) :
    (veriProcFlush warn cur s).state = { s with
      persistInfo :=
        if warn = true ∧ icl.find s.persistInfo cur.addrinterval = none then s.persistInfo
        else icl.subtract s.persistInfo cur.addrinterval
      orderInfo := icl.assign s.orderInfo cur.addrinterval (timestampExactly s.timestamp) } ∧
    (veriProcFlush warn cur s).reports =
      if warn = true ∧ icl.find s.persistInfo cur.addrinterval = none then
        [.flushWarning cur.filenameTemp cur.lineNum cur.addrinterval.lower cur.addrinterval.upper]
      else [] := by
  unfold veriProcFlush
  simp only [included, Option.isSome_none, Bool.false_eq_true, if_false, gt_iff_lt, sized, if_true,
    Option.isNone_iff_eq_none]
  split_ifs <;> simp_all

/-- `VeriProc_Fence`. -/
def veriProcFence (s : VeriState icl) : VeriState icl :=
  { s with timestamp := s.timestamp + 1 }

/-- `VeriProc_Persist`. The printed range is the part of the first unpersisted
run that lies in the queried range. -/
def veriProcPersist (cur : Metadata) (excludeInfo persistInfo : icl.SetOf) :
    Int × List Report :=
  if cur.size > 0 then
    if (icl.find excludeInfo cur.addrinterval).isSome then (-2, [])
    else
      match icl.find persistInfo cur.addrinterval with
      | some unpersisted =>
          let addrinterval := cur.addrinterval.inter unpersisted
          (-1, [.persistError cur.filenameTemp cur.lineNum addrinterval.lower addrinterval.upper])
      | none => (0, [])
  else (0, [])

/-- The loop over the early segments. An inexact timestamp ends it at once with
the largest integer. -/
def earlyMax : Int → List (RightOpen Nat × Int) → Int
  | early, [] => early
  | early, segment :: rest =>
      if timestampIsexacttime segment.2 then earlyMax (max early segment.2) rest else intMax

/-- The loop over the late segments. -/
def lateMin : Int → List (RightOpen Nat × Int) → Int
  | late, [] => late
  | late, segment :: rest => lateMin (min late (timestampExactly segment.2)) rest

/-- A value up to the largest integer is reached by the early loop exactly when
some segment is inexact, or the start or some segment reaches it. -/
theorem le_earlyMax_iff (bound early : Int) (segments : List (RightOpen Nat × Int))
    (small : bound ≤ intMax) :
    bound ≤ earlyMax early segments ↔ (∃ segment ∈ segments, segment.2 < 0) ∨
      bound ≤ early ∨ ∃ segment ∈ segments, bound ≤ segment.2 := by
  induction segments generalizing early with
  | nil => simp [earlyMax]
  | cons segment rest ih =>
    simp only [earlyMax, timestampIsexacttime, decide_eq_true_eq]
    split_ifs with exact
    · have notNegative : ¬ segment.2 < 0 := not_lt.mpr exact
      simp only [ih, le_max_iff, List.mem_cons, exists_eq_or_imp, notNegative, false_or, or_assoc]
    · have negative : segment.2 < 0 := not_le.mp exact
      simp [small, negative]

/-- The late loop is bounded by the start and by the absolute value of each segment. -/
theorem lateMin_le_iff (late bound : Int) (segments : List (RightOpen Nat × Int)) :
    lateMin late segments ≤ bound ↔
      late ≤ bound ∨ ∃ segment ∈ segments, timestampExactly segment.2 ≤ bound := by
  induction segments generalizing late with
  | nil => simp [lateMin]
  | cons segment rest ih =>
    simp only [lateMin, ih, min_le_iff, List.mem_cons, exists_eq_or_imp, or_assoc]

/-- `VeriProc_Order`. -/
def veriProcOrder (cur : Metadata) (excludeInfo : icl.SetOf) (orderInfo : icl.MapOf) :
    Int × List Report :=
  if cur.size > 0 ∧ cur.sizeLate > 0 then
    if (icl.find excludeInfo cur.addrinterval).isSome then (-2, [])
    else if (icl.find excludeInfo cur.addrintervalLate).isSome then (-2, [])
    else if icl.within cur.addrinterval orderInfo ∧ icl.within cur.addrintervalLate orderInfo then
      let early := earlyMax 0 (icl.restrict cur.addrinterval orderInfo)
      let late := lateMin intMax (icl.restrict cur.addrintervalLate orderInfo)
      if early ≥ late then
        (-1, [.orderError cur.filenameTemp cur.lineNum cur.addr (endaddr cur.addr cur.size)
          cur.addrLate (endaddr cur.addrLate cur.sizeLate)])
      else (0, [])
    else (-1, [.orderUnassigned cur.filenameTemp cur.lineNum])
  else (0, [])

/-- `VeriProc_TransactionBegin`. Only an outermost begin drops the stored assigns. -/
def veriProcTransactionBegin (s : VeriState icl) : VeriState icl :=
  let s := if s.transactionCount = 0 then { s with transactionPersistInfo := [] } else s
  { s with transactionCount := s.transactionCount + 1 }

/-- `VeriProc_TransactionAdd`. -/
def veriProcTransactionAdd (warn : Bool) (cur : Metadata) (s : VeriState icl) :
    List Report × VeriState icl :=
  if s.transactionCount > 0 then
    if cur.size > 0 then
      let reports :=
        if warn then
          if (icl.find s.transactionAddInfo cur.addrinterval).isSome then
            [.transactionAddWarning cur.filenameTemp cur.lineNum
              cur.addrinterval.lower cur.addrinterval.upper]
          else []
        else []
      (reports, { s with
        transactionAddInfo := icl.add s.transactionAddInfo cur.addrinterval })
    else ([], s)
  else ([], s)

/-- `VeriProc_Exclude`. -/
def veriProcExclude (cur : Metadata) (s : VeriState icl) : VeriState icl :=
  if cur.size > 0 then { s with excludeInfo := icl.add s.excludeInfo cur.addrinterval } else s

/-- `VeriProc_Include`. -/
def veriProcInclude (cur : Metadata) (s : VeriState icl) : VeriState icl :=
  if cur.size > 0 then { s with excludeInfo := icl.subtract s.excludeInfo cur.addrinterval } else s

end PMTest

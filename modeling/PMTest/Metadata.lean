import Mathlib.Algebra.Ring.Nat
import PMTest.Intervals

/-!
# Trace records and printed reports

A record describes one operation or query of the tested program. Addresses and
sizes are machine words; the end of an address range is computed modulo the word
size, so a range that would pass the last address denotes no byte at all.

A report carries what its message prints. The file name is cut at its terminator
and at the fixed buffer length before it is printed.
-/

namespace PMTest

open Intervals

/-- The operation a record stands for. Commits and barriers are recorded but
never processed; the delimiter and the ending mark separate the kernel's stream. -/
inductive MetadataType
  | assign | flush | commit | barrier | fence
  | persist | order
  | transactionDelim | ending
  | transactionBegin | transactionEnd | transactionAdd
  | exclude | reinclude
  deriving DecidableEq, Repr

/-- `FILENAME_LEN`. -/
def filenameLen : Nat := 48

/-- One trace record. A recorder leaves the fields that its type does not use
unset, and no check of that type reads them. -/
structure Metadata where
  type : MetadataType
  addr : Nat := 0
  size : Nat := 0
  addrLate : Nat := 0
  sizeLate : Nat := 0
  lineNum : Nat := 0
  fileName : List Char := []
  deriving DecidableEq, Repr

/-- Records are passed by address; the address is the identity of a record. -/
abbrev Ptr := Nat

/-- `size_t` addition. -/
def endaddr (startaddr size : Nat) : Nat := (startaddr + size) % 2 ^ 64

namespace Metadata

/-- `right_open(startaddr, endaddr)` of the record's own range. -/
def addrinterval (m : Metadata) : RightOpen Nat := ⟨m.addr, endaddr m.addr m.size⟩

/-- `right_open(startaddr, endaddr)` of the range that an order query expects late. -/
def addrintervalLate (m : Metadata) : RightOpen Nat := ⟨m.addrLate, endaddr m.addrLate m.sizeLate⟩

/-- The bytes of the record's range. -/
def bytes (m : Metadata) : Set Nat := m.addrinterval.elements

/-- The bytes of the late range. -/
def bytesLate (m : Metadata) : Set Nat := m.addrintervalLate.elements

/-- The null-terminated copy of the file name that the messages print. -/
def filenameTemp (m : Metadata) : List Char :=
  (m.fileName.takeWhile (· ≠ '\x00')).take filenameLen

/-- A range that stays inside the address space holds the bytes from its address
up to its address plus size. -/
theorem mem_bytes_of_fits (m : Metadata) (fits : m.addr + m.size < 2 ^ 64) (b : Nat) :
    b ∈ m.bytes ↔ m.addr ≤ b ∧ b < m.addr + m.size := by
  simp only [bytes, addrinterval, RightOpen.mem_elements, endaddr, Nat.mod_eq_of_lt fits]

/-- A range of size zero holds no byte. -/
theorem bytes_eq_empty (m : Metadata) (unsized : m.size = 0) : m.bytes = ∅ := by
  ext b
  have wrapped : m.addr % 2 ^ 64 ≤ m.addr := Nat.mod_le _ _
  simp only [bytes, addrinterval, RightOpen.mem_elements, endaddr, unsized, Nat.add_zero,
    Set.mem_empty_iff_false, iff_false]
  omega

/-- The record is an assign or a flush. -/
def IsOperation (m : Metadata) : Prop := m.type = .assign ∨ m.type = .flush

instance (m : Metadata) : Decidable m.IsOperation := inferInstanceAs (Decidable (_ ∨ _))

/-- A range that holds a byte has a size. -/
theorem sized_of_mem {m : Metadata} {b : Nat} (inside : b ∈ m.bytes) : 0 < m.size := by
  by_contra unsized
  rw [m.bytes_eq_empty (by omega)] at inside
  exact inside

end Metadata

/-- What a check prints, with the values its message shows. -/
inductive Report
  | assignError (file : List Char) (line lower upper : Nat)
  | flushWarning (file : List Char) (line lower upper : Nat)
  | persistError (file : List Char) (line lower upper : Nat)
  | orderError (file : List Char) (line lower upper lowerLate upperLate : Nat)
  | orderUnassigned (file : List Char) (line : Nat)
  | transactionAddWarning (file : List Char) (line lower upper : Nat)
  deriving DecidableEq, Repr

namespace Report

/-- `%lx`. -/
def hex (n : Nat) : String := "0x" ++ String.ofList (Nat.toDigits 16 n)

/-- `[0x%lx, 0x%lx)`. -/
def showRange (lower upper : Nat) : String := "[" ++ hex lower ++ ", " ++ hex upper ++ ")"

/-- The colored tag in front of a message and its source position. -/
def showHead (color tag : String) (file : List Char) (line : Nat) : String :=
  color ++ tag ++ "\x1B[0m" ++ String.ofList file ++ ":" ++ toString line ++ ": "

/-- The printed line. -/
def text : Report → String
  | assignError file line lower upper =>
      showHead "\x1B[31m" "ASSIGN ERROR: " file line ++ "Address range " ++
        showRange lower upper ++ " is not TransactionAdded before modified.\n"
  | flushWarning file line lower upper =>
      showHead "\x1B[33m" "FLUSH WARNING: " file line ++ "Address range " ++
        showRange lower upper ++ " is not modified, no need to flush.\n"
  | persistError file line lower upper =>
      showHead "\x1B[31m" "PERSIST ERROR: " file line ++ "Address range " ++
        showRange lower upper ++ " not persisted.\n"
  | orderError file line lower upper lowerLate upperLate =>
      showHead "\x1B[31m" "ORDER ERROR: " file line ++ "Address range " ++
        showRange lower upper ++ " not before " ++ showRange lowerLate upperLate ++ ".\n"
  | orderUnassigned file line =>
      showHead "\x1B[31m" "ORDER ERROR: " file line ++
        "Queried address range not yet assigned.\n"
  | transactionAddWarning file line lower upper =>
      showHead "\x1B[33m" "TRANSACTIONADD WARNING: " file line ++ "Address range " ++
        showRange lower upper ++ " overlaps with previously TransactionAdded addresses.\n"

/-- An ASSIGN ERROR. -/
def isAssignError : Report → Bool
  | assignError .. => true
  | _ => false

/-- A FLUSH WARNING. -/
def isFlushWarning : Report → Bool
  | flushWarning .. => true
  | _ => false

/-- A PERSIST ERROR. -/
def isPersistError : Report → Bool
  | persistError .. => true
  | _ => false

/-- An ORDER ERROR, with either of its two messages. -/
def isOrderError : Report → Bool
  | orderError .. => true
  | orderUnassigned .. => true
  | _ => false

/-- A TRANSACTIONADD WARNING. -/
def isTransactionAddWarning : Report → Bool
  | transactionAddWarning .. => true
  | _ => false

/-- A warning of either kind. -/
def isWarning (report : Report) : Bool := report.isFlushWarning || report.isTransactionAddWarning

end Report

/-- One printed report. `processed` is the record whose turn in the replay
printed it, `checked` the record the message is about. They differ only for the
assigns that a transaction end checks again. -/
structure Line where
  processed : Ptr
  checked : Ptr
  report : Report
  deriving DecidableEq, Repr

/-- A trace: record addresses in program order and the records they point to.
Every recorder allocates its own record, so no address occurs twice. -/
structure Trace where
  memory : Ptr → Metadata
  veriptr : List Ptr
  distinct : veriptr.Nodup

namespace Trace

/-- The records in program order. -/
def records (t : Trace) : List Metadata := t.veriptr.map t.memory

/-- The trace of the given records, allocated one after the other. -/
def ofRecords (records : List Metadata) : Trace where
  memory p := records.getD p { type := .ending }
  veriptr := List.range records.length
  distinct := List.nodup_range

/-- The trace without the records that are not kept. -/
def keep (t : Trace) (kept : Ptr → Bool) : Trace where
  memory := t.memory
  veriptr := t.veriptr.filter kept
  distinct := t.distinct.filter kept

/-- The trace without one record. -/
def without (t : Trace) (p : Ptr) : Trace := t.keep fun q => q ≠ p

end Trace

end PMTest

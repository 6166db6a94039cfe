import PMTest.RecordPass
import PMTest.Recorder

/-!
# Fields that a recorder leaves unset

A recorder allocates its record without clearing it, and the recorders of the kernel
module build theirs on the stack. The fields that a recorder does not set hold whatever
was there before. A fence has no range, and an assign has no late range, so these
fields reach the checker as they are.

Nothing that is printed depends on them. The state of the checker stays the same, and
the assigns that wait for the end of their transaction agree in the fields they set.
-/

namespace PMTest

open Lookahead

section Stores

variable (unset : Metadata)

/-- The stores that every recorder makes into its record. -/
def setMetadata (type : MetadataType) (fileName : List Char) (lineNum : Nat) : Metadata :=
  { unset with
    type := type
    lineNum := lineNum
    fileName := strncpy (fileName.drop (fileOffset fileName)) filenameLen }

/-- The stores of a recorder with a range. -/
def setMetadataRange (type : MetadataType) (addr size : Nat) (fileName : List Char)
    (lineNum : Nat) : Metadata :=
  { setMetadata unset type fileName lineNum with
    addr := addr
    size := size % 2 ^ 32 }

/-- The stores of a recorder with two ranges. -/
def setMetadataRanges (type : MetadataType) (addr size addrLate sizeLate : Nat)
    (fileName : List Char) (lineNum : Nat) : Metadata :=
  { setMetadataRange unset type addr size fileName lineNum with
    addrLate := addrLate
    sizeLate := sizeLate % 2 ^ 32 }

/-- The record that a call makes out of the memory it was given for it. -/
def Recording.stores : Recording → Metadata
  | assign addr size file line => setMetadataRange unset .assign addr size file line
  | flush addr size file line => setMetadataRange unset .flush addr size file line
  | commit file line => setMetadata unset .commit file line
  | barrier file line => setMetadata unset .barrier file line
  | fence file line => setMetadata unset .fence file line
  | persist addr size file line => setMetadataRange unset .persist addr size file line
  | order addr size addrLate sizeLate file line =>
      setMetadataRanges unset .order addr size addrLate sizeLate file line
  | transactionBegin file line => setMetadata unset .transactionBegin file line
  | transactionEnd file line => setMetadata unset .transactionEnd file line
  | transactionAdd addr size file line => setMetadataRange unset .transactionAdd addr size file line
  | exclude addr size file line => setMetadataRange unset .exclude addr size file line
  | reinclude addr size file line => setMetadataRange unset .reinclude addr size file line

end Stores

/-- The recorders of this type set a range. -/
def MetadataType.hasRange : MetadataType → Bool
  | assign | flush | persist | order | transactionAdd | exclude | reinclude => true
  | _ => false

/-- Two records of one type that agree in the fields its recorder sets. -/
structure Metadata.SetAlike (m n : Metadata) : Prop where
  type : n.type = m.type
  lineNum : n.lineNum = m.lineNum
  fileName : n.fileName = m.fileName
  range : m.type.hasRange = true → n.addr = m.addr ∧ n.size = m.size
  late : m.type = .order → n.addrLate = m.addrLate ∧ n.sizeLate = m.sizeLate

/-- Whatever the memory held, the record is as if it had been cleared before. -/
theorem Recording.setAlike_stores (recording : Recording) (unset : Metadata) :
    (recording.stores unset).SetAlike recording.metadata := by
  cases recording with
  | order addr size addrLate sizeLate file line =>
    exact ⟨rfl, rfl, rfl, fun _ => ⟨rfl, rfl⟩, fun _ => ⟨rfl, rfl⟩⟩
  | assign | flush | persist | transactionAdd | exclude | reinclude =>
    exact ⟨rfl, rfl, rfl, fun _ => ⟨rfl, rfl⟩, fun impossible => by cases impossible⟩
  | commit | barrier | fence | transactionBegin | transactionEnd =>
    exact ⟨rfl, rfl, rfl, (fun impossible => by cases impossible),
      fun impossible => by cases impossible⟩

namespace Metadata.SetAlike

variable {m n : Metadata} (alike : m.SetAlike n) (v : ByteState)

include alike

/-- Records of a type with a range agree in its interval. -/
theorem addrinterval (ranged : m.type.hasRange = true) : n.addrinterval = m.addrinterval := by
  obtain ⟨addr, size⟩ := alike.range ranged
  rw [Metadata.addrinterval, Metadata.addrinterval, addr, size]

/-- Records that are set alike cover the same bytes. -/
theorem bytes (ranged : m.type.hasRange = true) : n.bytes = m.bytes := by
  rw [Metadata.bytes, Metadata.bytes, alike.addrinterval ranged]

/-- Order queries agree in the bytes of their late range. -/
theorem bytesLate (order : m.type = .order) : n.bytesLate = m.bytesLate := by
  obtain ⟨addr, size⟩ := alike.late order
  rw [Metadata.bytesLate, Metadata.bytesLate, Metadata.addrintervalLate, Metadata.addrintervalLate,
    addr, size]

/-- The file that a report names is always set. -/
theorem filenameTemp : n.filenameTemp = m.filenameTemp := by
  rw [Metadata.filenameTemp, Metadata.filenameTemp, alike.fileName]

/-- Whether a record is skipped depends on its range. -/
theorem effective_iff (ranged : m.type.hasRange = true) : v.Effective n ↔ v.Effective m := by
  rw [ByteState.Effective, ByteState.Effective, alike.bytes ranged, (alike.range ranged).2]

/-- Only records with a range touch bytes. -/
theorem touches_iff {type : MetadataType} (ranged : type.hasRange = true) (b : Nat) :
    v.Touches type n b ↔ v.Touches type m b := by
  rw [ByteState.Touches, ByteState.Touches, alike.type]
  refine and_congr_right fun same => ?_
  rw [alike.bytes (by rw [same]; exact ranged)]

/-- The state behind both is the same. The records of a type without a range leave the
bytes alone, and the others agree in their ranges. -/
theorem after : v.after n = v.after m := by
  classical
  have assign := alike.touches_iff v (show MetadataType.assign.hasRange = true from rfl)
  have flush := alike.touches_iff v (show MetadataType.flush.hasRange = true from rfl)
  apply ByteState.ext
  · rw [ByteState.after_excluded, ByteState.after_excluded, excludeStep, excludeStep, alike.type]
    cases type : m.type with
    | exclude | reinclude => simp only [alike.bytes (by rw [type]; rfl)]
    | _ => rfl
  · ext b
    rw [ByteState.mem_after_dirty, ByteState.mem_after_dirty, assign, flush]
  · ext b
    rw [ByteState.mem_after_added, ByteState.mem_after_added, alike.type]
    refine or_congr_right (and_congr_right fun add => ?_)
    rw [alike.bytes (by rw [add]; rfl)]
  · funext b
    rw [ByteState.after_stamp, ByteState.after_stamp]
    exact if_congr (assign b) rfl (if_congr (flush b) rfl rfl)
  · rfl
  · rw [ByteState.after_time, ByteState.after_time, alike.type]
  · rw [ByteState.after_depth, ByteState.after_depth, depthStep, depthStep, alike.type]

/-- A persist check of both prints the same. -/
theorem persistReports (ranged : m.type.hasRange = true) :
    v.persistReports n = v.persistReports m := by
  classical
  rw [ByteState.persistReports, ByteState.persistReports, alike.bytes ranged,
    alike.addrinterval ranged, alike.filenameTemp, alike.lineNum]
  exact if_congr (alike.effective_iff v ranged) rfl rfl

end Metadata.SetAlike

/-- Two lists of assigns that wait for the end of the transaction. -/
def PendingAlike : List Metadata → List Metadata → Prop :=
  List.Forall₂ fun m n => m.SetAlike n ∧ m.type = .assign

namespace PendingAlike

variable {pending pending' : List Metadata} (pairs : PendingAlike pending pending') (v : ByteState)

include pairs

/-- The checks of all waiting assigns at the end of a transaction print the same. -/
theorem persistReports : pending'.flatMap v.persistReports = pending.flatMap v.persistReports := by
  induction pairs with
  | nil => rfl
  | cons pair _ ih =>
    obtain ⟨alike, assign⟩ := pair
    rw [List.flatMap_cons, List.flatMap_cons, ih, alike.persistReports v (by rw [assign]; rfl)]

/-- Both records have the same effect on the waiting assigns: each list gets its own one
of them, or is cleared. -/
theorem pendingStep {m n : Metadata} (alike : m.SetAlike n) :
    PendingAlike (v.pendingStep m pending) (v.pendingStep n pending') := by
  classical
  unfold ByteState.pendingStep
  rw [alike.type]
  cases type : m.type with
  | assign =>
    have effective := alike.effective_iff v (by rw [type]; rfl)
    simp only [effective]
    split_ifs
    · exact List.rel_append pairs (.cons ⟨alike, type⟩ .nil)
    · exact pairs
  | transactionBegin =>
    simp only
    split_ifs
    · exact .nil
    · exact pairs
  | _ => exact pairs

/-- Every check prints the same. The type decides which fields a check reads, and these
are fields that the recorder of the type has set. -/
theorem reports {m n : Metadata} (alike : m.SetAlike n) (warn : Bool) :
    v.reports warn n pending' = v.reports warn m pending := by
  classical
  unfold ByteState.reports
  rw [alike.type]
  have file := alike.filenameTemp
  have line := alike.lineNum
  cases type : m.type with
  | assign =>
    have ranged : m.type.hasRange = true := by rw [type]; rfl
    simp only [ByteState.assignReports, alike.effective_iff v ranged, alike.bytes ranged,
      alike.addrinterval ranged, file, line]
  | flush =>
    have ranged : m.type.hasRange = true := by rw [type]; rfl
    simp only [ByteState.flushReports, alike.effective_iff v ranged, alike.bytes ranged,
      alike.addrinterval ranged, file, line]
  | persist => exact alike.persistReports v (by rw [type]; rfl)
  | order =>
    have ranged : m.type.hasRange = true := by rw [type]; rfl
    obtain ⟨addr, size⟩ := alike.range ranged
    obtain ⟨addrLate, sizeLate⟩ := alike.late type
    have queried : v.Queried n ↔ v.Queried m := by
      simp only [ByteState.Queried, alike.bytes ranged, alike.bytesLate type, size, sizeLate]
    have stamped : v.Stamped n ↔ v.Stamped m := by
      simp only [ByteState.Stamped, alike.bytes ranged, alike.bytesLate type]
    have unordered : v.Unordered n ↔ v.Unordered m := by
      simp only [ByteState.Unordered, alike.bytes ranged, alike.bytesLate type]
    rw [ByteState.orderReports, ByteState.orderReports, file, line, addr, size, addrLate, sizeLate]
    exact if_congr queried (if_congr stamped (if_congr unordered rfl rfl) rfl) rfl
  | transactionEnd => simp only [pairs.persistReports v]
  | transactionAdd =>
    have ranged : m.type.hasRange = true := by rw [type]; rfl
    simp only [ByteState.addReports, (alike.range ranged).2, alike.bytes ranged,
      alike.addrinterval ranged, file, line]
  | _ => rfl

end PendingAlike

section Verdicts

variable (icl : Icl) (warn : Bool)

/-- A flush looks for fences behind it by their types alone. -/
theorem fenceAmong_alike {records records' : List Metadata}
    (pairs : List.Forall₂ Metadata.SetAlike records records') :
    fenceAmong records' = fenceAmong records := by
  induction pairs with
  | nil => rfl
  | cons alike _ ih =>
    simp only [fenceAmong, List.any_cons, alike.type] at ih ⊢
    rw [ih]

/-- Traces whose records agree in the fields that were set have one verdict. The two
passes run side by side, with the same bytes and with waiting assigns that agree. -/
theorem verdict_alike {records records' : List Metadata}
    (pairs : List.Forall₂ Metadata.SetAlike records records') :
    verdict icl warn records' = verdict icl warn records := by
  have passes := simulate_pass (RecordState.machine warn) (RecordState.machine warn)
    Metadata.SetAlike
    (fun _ k l => l.bytes = k.bytes ∧ PendingAlike k.pending l.pending)
    (@concatenates_eq Report) [] [] ?_ pairs .initial .initial ⟨rfl, .nil⟩
  · obtain ⟨⟨bytes, _⟩, printed⟩ := passes
    rw [verdict_eq, verdict_eq, bytes, printed]
  · rintro m rest n rest' k ⟨_, pending'⟩ alike later ⟨rfl, pairs⟩
    rw [List.append_nil, List.append_nil]
    unfold RecordState.machine
    rw [alike.type, fenceAmong_alike later]
    split_ifs
    · exact ⟨⟨rfl, pairs⟩, rfl⟩
    · exact ⟨⟨alike.after k.bytes, pairs.pendingStep k.bytes alike⟩,
        (pairs.reports k.bytes alike warn).symm⟩

/-- What the memory of the records held before they were recorded does not matter: the
fields that the recorders leave unset have no influence on what is printed. -/
theorem unset_fields_ignored (calls : List (Metadata × Recording)) :
    verdict icl warn (calls.map fun call => call.2.stores call.1) =
      verdict icl warn (calls.map fun call => call.2.metadata) := by
  symm
  apply verdict_alike
  rw [List.forall₂_map_left_iff, List.forall₂_map_right_iff, List.forall₂_same]
  exact fun call _ => call.2.setAlike_stores call.1

end Verdicts

end PMTest

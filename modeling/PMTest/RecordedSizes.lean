import PMTest.PersistVerdict
import PMTest.Recorder
import PMTest.Segments

/-!
# Sizes on their way to the checker

The recording calls take sizes of type `size_t`, and a record keeps them as
`unsigned int`. The checker rebuilds its ranges from the records, so it sees a size
modulo `2 ^ 32`; a size that is a multiple of this is seen as zero, and a range of
size zero is skipped.

A write that is never flushed is reported by a query on a byte of it if the query
and the write still share a byte after both were cut. Otherwise the write is lost,
or the query does not ask about it.
-/

namespace PMTest

/-- The trace that some recording calls leave behind, made with tracking on. -/
def recordedTrace (calls : List Recording) : Option (List Metadata) := do
  let s ← Recorder.cInitVeri 1
  let s ← Transitions.run Recorder.step s (.pmtestStart :: calls.map .create)
  s.traces[0]?

/-- With tracking on, every call adds its record. -/
theorem ledger_create (calls : List Recording) :
    ledger (.pmtestStart :: calls.map .create) =
      { tracking := true, closed := [], current := calls.map Recording.metadata } := by
  induction calls using List.reverseRecOn with
  | nil => rfl
  | append_singleton past recording ih =>
    rw [List.map_append, ← List.cons_append, List.map_singleton, ledger_concat, ih, Ledger.step,
      if_pos rfl, List.map_append, List.map_singleton]

/-- The trace holds one record for every call, in the order of the calls. Nothing is
sent, so the calls are in time and the recorder's trace is that of its ledger. -/
theorem recordedTrace_eq (calls : List Recording) :
    recordedTrace calls = some (calls.map Recording.metadata) := by
  have timely : InTime 1 (.pmtestStart :: calls.map .create) := by
    rintro past recording rest split _
    have unsent : Call.sendTrace ∉ past := by
      intro member
      have among : Call.sendTrace ∈ Call.pmtestStart :: calls.map .create :=
        split ▸ List.mem_append_left _ member
      simp at among
    rw [sends, List.count_eq_zero.mpr unsent]
    exact Nat.one_pos
  obtain ⟨last, ran⟩ := run_of_inTime rfl timely
  have contents := (follows_run rfl ran).2.traces 0 Nat.one_pos
  rw [ledger_create] at contents
  have unfolded : recordedTrace calls = (Transitions.run Recorder.step _
      (.pmtestStart :: calls.map .create)).bind fun s => s.traces[0]? := rfl
  rw [unfolded, ran]
  exact contents

/-- A write and a query of some size, inside of the address space, that share a byte. -/
structure Overlapping (a n q m : Nat) : Prop where
  sized : 0 < n
  fits : a + n < 2 ^ 64
  querySized : 0 < m
  queryFits : q + m < 2 ^ 64
  shared : ∃ b, (a ≤ b ∧ b < a + n) ∧ q ≤ b ∧ b < q + m

/-- Whatever else is recorded, but for exclusions and for flushes behind the write,
the query prints an error. -/
def AlwaysReported (icl : Icl) (warn : Bool) (a n q m : Nat) : Prop :=
  ∀ (before between after : List Recording) (file file' : List Char) (line line' : Nat),
    let calls := before ++ .assign a n file line :: (between ++ .persist q m file' line' :: after)
    (∀ recording ∈ calls, recording.metadata.type ≠ .exclude) →
    (∀ recording ∈ between ++ after, recording.metadata.type ≠ .flush) →
    ∀ t : Trace, recordedTrace calls = some t.records →
    ∀ cur, t.veriptr[before.length + (between.length + 1)]? = some cur →
    ∃ printed ∈ printedBy icl warn t cur, printed.report.isPersistError = true

/-- The bytes of a recorded range. -/
theorem mem_bytes_newMetadataRange {type : MetadataType} {addr size : Nat} {file : List Char}
    {line : Nat} (fits : addr + size < 2 ^ 64) (b : Nat) :
    b ∈ (newMetadataRange type addr size file line).bytes ↔
      addr ≤ b ∧ b < addr + size % 2 ^ 32 := by
  have smaller : size % 2 ^ 32 ≤ size := Nat.mod_le size _
  have inside : (newMetadataRange type addr size file line).addr +
      (newMetadataRange type addr size file line).size < 2 ^ 64 := by
    simp only [newMetadataRange]
    omega
  exact Metadata.mem_bytes_of_fits _ inside b

section Verdict

variable (icl : Icl) (warn : Bool) {a n q m : Nat}

/-- A write that still shares a byte with the query is found. The shared byte is
assigned by the write and flushed by no later record, and nothing is excluded, so the
query holds an unflushed byte. -/
theorem alwaysReported_of_shared (overlapping : Overlapping a n q m)
    (kept : ∃ b, (a ≤ b ∧ b < a + n % 2 ^ 32) ∧ q ≤ b ∧ b < q + m % 2 ^ 32) :
    AlwaysReported icl warn a n q m := by
  intro before between after file file' line line' calls included unflushed t recorded cur found
  obtain ⟨b, written, asked⟩ := kept
  have records : t.records = before.map Recording.metadata ++
      newMetadataRange .assign a n file line :: (between.map Recording.metadata ++
        newMetadataRange .persist q m file' line' :: after.map Recording.metadata) := by
    rw [recordedTrace_eq, Option.some.injEq] at recorded
    rw [← recorded]
    simp [calls, Recording.metadata]
  have query : t.memory cur = newMetadataRange .persist q m file' line' := by
    have located := t.record_found found
    rw [records] at located
    simpa [List.getElem?_append] using located.symm
  have excluded (position : Nat) : excludedBefore t.records position = ∅ := by
    apply excludedBefore_eq_empty
    intro r member
    rw [recordedTrace_eq, Option.some.injEq] at recorded
    rw [← recorded] at member
    obtain ⟨recording, among, rfl⟩ := List.mem_map.mp (List.mem_of_mem_take member)
    exact included recording among
  apply (query_reports_iff icl warn t found (by rw [query]; rfl)).mpr
  rw [query, excluded]
  refine ⟨Set.disjoint_empty _, b, (mem_bytes_newMetadataRange overlapping.queryFits b).mpr asked,
    before.length, by omega, ?_, ?_⟩
  · refine ⟨newMetadataRange .assign a n file line, ?_, rfl, ?_, ?_⟩
    · simp [records]
    · exact (mem_bytes_newMetadataRange overlapping.fits b).mpr written
    · rw [excluded]
      exact Set.disjoint_empty _
  · rintro later behind below ⟨⟨r, read, flush, _⟩, _⟩
    obtain ⟨i, rfl⟩ : ∃ i, later = before.length + (i + 1) := ⟨later - before.length - 1, by omega⟩
    have inside : i < between.length := by omega
    have there : t.records[before.length + (i + 1)]? = some between[i].metadata := by
      simp [records, List.getElem?_append, inside]
    obtain rfl := Option.some.inj (there.symm.trans read)
    exact unflushed between[i] (List.mem_append_left after (List.getElem_mem inside)) flush

/-- In the shortest sequence, a reported byte belongs to both: nothing but the write is
recorded in front of the query. -/
theorem shared_of_alwaysReported (overlapping : Overlapping a n q m)
    (reported : AlwaysReported icl warn a n q m) :
    ∃ b, (a ≤ b ∧ b < a + n % 2 ^ 32) ∧ q ≤ b ∧ b < q + m % 2 ^ 32 := by
  let shortest : Trace := .ofRecords
    [newMetadataRange .assign a n [] 0, newMetadataRange .persist q m [] 0]
  have included : ∀ recording ∈ [Recording.assign a n [] 0, .persist q m [] 0],
      recording.metadata.type ≠ .exclude := by
    simp [Recording.metadata, newMetadataRange, newMetadata]
  have printed := reported [] [] [] [] [] 0 0 included (by simp) shortest (recordedTrace_eq _) 1 rfl
  have found : shortest.veriptr[1]? = some 1 := rfl
  obtain ⟨_, b, asked, position, below, ⟨r, read, _, written, _⟩, _⟩ :=
    (query_reports_iff icl warn shortest found rfl).mp printed
  obtain rfl : position = 0 := by omega
  obtain rfl : newMetadataRange .assign a n [] 0 = r := Option.some.inj read
  exact ⟨b, (mem_bytes_newMetadataRange overlapping.fits b).mp written,
    (mem_bytes_newMetadataRange overlapping.queryFits b).mp asked⟩

/-- A write that is never flushed is reported in every sequence of calls exactly when
the ranges still share a byte after their sizes were cut to 32 bits. -/
theorem unflushed_write_reported_iff (overlapping : Overlapping a n q m) :
    AlwaysReported icl warn a n q m ↔
      ∃ b, (a ≤ b ∧ b < a + n % 2 ^ 32) ∧ q ≤ b ∧ b < q + m % 2 ^ 32 :=
  ⟨shared_of_alwaysReported icl warn overlapping, alwaysReported_of_shared icl warn overlapping⟩

/-- The ranges of eight bytes at 0 and at 4 share four bytes, and their sizes are not
cut. -/
theorem unflushed_write_reported_iff_small :
    AlwaysReported (Segments.segments Nat Int) false 0 8 4 8 :=
  (unflushed_write_reported_iff (Segments.segments Nat Int) false
    ⟨by decide, by decide, by decide, by decide, 4, by decide⟩).mpr ⟨4, by decide⟩

/-- A write of `2 ^ 32` bytes is recorded with size zero. -/
theorem huge_write_unreported :
    Overlapping 0 (2 ^ 32) 0 4 ∧ ∃ records,
      recordedTrace [.assign 0 (2 ^ 32) [] 1, .persist 0 4 [] 2] = some records ∧
      records.map Metadata.size = [0, 4] ∧
      printedBy (Segments.segments Nat Int) false (.ofRecords records) 1 = [] ∧
      ¬ AlwaysReported (Segments.segments Nat Int) false 0 (2 ^ 32) 0 4 := by
  have overlapping : Overlapping 0 (2 ^ 32) 0 4 :=
    ⟨by decide, by decide, by decide, by decide, 0, by decide⟩
  refine ⟨overlapping, _, recordedTrace_eq _, by decide, by decide, fun reported => ?_⟩
  obtain ⟨b, written, _⟩ :=
    shared_of_alwaysReported (Segments.segments Nat Int) false overlapping reported
  omega

end Verdict

end PMTest

import Mathlib.Data.Fintype.EquivFin
import PMTest.PersistVerdict

/-!
# Persist checks between a flush and its fence

A flush is known to be executed only after a fence. The replay of a frame applies
a flush as soon as some fence follows it, even if a persist check stands between
the two, so such a check passes on the strength of a fence it has not seen. The
verdict of one check then depends on records behind it: without the later fence
the same check fails.

Whether this can happen to a check is decided by the records before it. It cannot
if some byte of the checked range has not been flushed since its last assign, as
the check fails in any case, nor if no byte is waiting for the fence of its flush.
-/

namespace PMTest

open Intervals Lookahead

section Checks

variable (icl : Icl) (warn : Bool)

/-- A record is checked when a position is processed: a persist query checks
itself, and the end of the outermost transaction checks each stored assign. -/
def CheckedAt (t : Trace) (position : Nat) (cur checked : Ptr) : Prop :=
  t.veriptr[position]? = some cur ∧
    (((t.memory cur).type = .persist ∧ checked = cur) ∨
      ((t.memory cur).type = .transactionEnd ∧ depthBefore t.records position = 1 ∧
        ∃ i < position, StoredAt t.records position i ∧ t.veriptr[i]? = some checked))

/-- The check prints a persist error. -/
def CheckFails (t : Trace) (cur checked : Ptr) : Prop :=
  ∃ report : Report, report.isPersistError = true ∧
    ⟨cur, checked, report⟩ ∈ (veriProc icl warn t.memory t.veriptr).stdout

/-- Both kinds of checks fail for the same reason. A query prints the reports of its own
check, and the end of a transaction prints those of the stored assigns, each under its
own address. -/
theorem check_fails_iff {t : Trace} {position : Nat} {cur checked : Ptr}
    (check : CheckedAt t position cur checked) :
    CheckFails icl warn t cur checked ↔
      Disjoint (t.memory checked).bytes (excludedBefore t.records position) ∧
        ∃ b ∈ (t.memory checked).bytes, Unflushed t.records position b := by
  obtain ⟨found, kind⟩ := check
  rw [← persist_reports_iff (summarises_found t warn found) (t.memory checked)]
  have printed (report : Report) :
      ⟨cur, checked, report⟩ ∈ (veriProc icl warn t.memory t.veriptr).stdout ↔
        ⟨cur, checked, report⟩ ∈ printedBy icl warn t cur := by
    simp [printedBy]
  have reported (report : Report) :
      ⟨cur, checked, report⟩ ∈ printedBy icl warn t cur ↔
        report ∈ (t.before warn position).persistReports (t.memory checked) := by
    rcases kind with ⟨query, rfl⟩ | ⟨ends, outermost, stored⟩
    · rw [printedBy_persist icl warn t found query]
      simp
    · have member := (mem_storedBefore t position checked).mpr stored
      rw [printedBy_end icl warn t found ends, if_pos outermost]
      simp [member]
  simp only [CheckFails, printed, reported]
  exact exists_congr fun report => and_comm

end Checks

section Past

/-- The record at the position has this type and covers the byte. -/
def CoveredAt (records : List Metadata) (type : MetadataType) (b position : Nat) : Prop :=
  ∃ m, records[position]? = some m ∧ m.type = type ∧ b ∈ m.bytes

/-- The last assign of the byte among the past records. -/
def LastAssign (past : List Metadata) (b last : Nat) : Prop :=
  LastBefore (CoveredAt past .assign b) past.length last

/-- The byte has been assigned and not flushed since. -/
def NeverFlushed (past : List Metadata) (b : Nat) : Prop :=
  ∃ last, LastAssign past b last ∧ ∀ flush, last < flush → ¬ CoveredAt past .flush b flush

/-- The byte has been flushed since its last assign, and some fence followed. -/
def Settled (past : List Metadata) (b last : Nat) : Prop :=
  ∃ flush fence, last < flush ∧ flush < fence ∧ CoveredAt past .flush b flush ∧
    FenceAt past fence

/-- The byte has been flushed since its last assign, and no fence followed. -/
def AwaitsFence (past : List Metadata) (b : Nat) : Prop :=
  ∃ last, LastAssign past b last ∧ (∃ flush, last < flush ∧ CoveredAt past .flush b flush) ∧
    ¬ Settled past b last

/-- What covers a byte in front of a position is among the records in front of it. -/
theorem coveredAt_take (records : List Metadata) (type : MetadataType) (b : Nat)
    {position i : Nat} (below : i < position) :
    CoveredAt (records.take position) type b i ↔ CoveredAt records type b i := by
  rw [CoveredAt, CoveredAt, List.getElem?_take_of_lt below]

/-- The fences in front of a position are fences among the records in front of it. -/
theorem fenceAt_take (records : List Metadata) (position i : Nat) :
    FenceAt (records.take position) i ↔ i < position ∧ FenceAt records i := by
  rw [FenceAt, FenceAt, List.getElem?_take]
  split_ifs with below <;> simp [below]

/-- A position covered by the past records lies in the past. -/
theorem lt_of_coveredAt {past : List Metadata} {type : MetadataType} {b i : Nat}
    (covered : CoveredAt past type b i) : i < past.length := by
  obtain ⟨m, found, _⟩ := covered
  exact (List.getElem?_eq_some_iff.mp found).1

/-- Without exclude records the effective operations on a byte are all that cover it. -/
theorem effectiveAt_iff_covered {records : List Metadata} {position i : Nat} (below : i < position)
    (included : ∀ m ∈ records.take position, m.type ≠ .exclude) (type : MetadataType) (b : Nat) :
    EffectiveAt records type b i ↔ CoveredAt (records.take position) type b i := by
  have earlier : ∀ m ∈ records.take i, m.type ≠ .exclude := fun m member =>
    included m (List.take_subset_take_left records below.le member)
  rw [coveredAt_take records type b below, EffectiveAt, excludedBefore_eq_empty earlier]
  simp only [Set.disjoint_empty, and_true]
  rfl

/-- A fence behind an earlier position is a past one or comes behind the check. -/
theorem fencedAfter_iff {records : List Metadata} {position i : Nat} (below : i < position)
    (check : ¬ FenceAt records position) :
    FencedAfter records i ↔
      (∃ fence, i < fence ∧ FenceAt (records.take position) fence) ∨
        FencedAfter records position := by
  simp only [fenceAt_take]
  constructor
  · rintro ⟨fence, after, fenced⟩
    rcases Nat.lt_trichotomy fence position with before | rfl | behind
    · exact .inl ⟨fence, after, before, fenced⟩
    · exact absurd fenced check
    · exact .inr ⟨fence, behind, fenced⟩
  · rintro (⟨fence, after, _, fenced⟩ | ⟨fence, behind, fenced⟩)
    · exact ⟨fence, after, fenced⟩
    · exact ⟨fence, by omega, fenced⟩

/-- In front of a check a byte is unflushed if no flush came since its last assign, or
if it awaits a fence that the trace does not have.

Both sides speak about the last assign of the byte. A flush behind it counts if a fence
follows the flush, and such a fence stands in front of the check or behind it. -/
theorem unflushed_iff {records : List Metadata} {position : Nat}
    (bound : position ≤ records.length) (check : ¬ FenceAt records position)
    (included : ∀ m ∈ records.take position, m.type ≠ .exclude) (b : Nat) :
    Unflushed records position b ↔ NeverFlushed (records.take position) b ∨
      (AwaitsFence (records.take position) b ∧ ¬ FencedAfter records position) := by
  have length : (records.take position).length = position := List.length_take_of_le bound
  have assigned (last : Nat) : LastBefore (AssignedAt records b) position last ↔
      LastAssign (records.take position) b last := by
    rw [LastAssign, length]
    exact lastBefore_congr (fun i below => effectiveAt_iff_covered below included .assign b) last
  have flushed {i : Nat} (below : i < position) : FlushedAt records b i ↔
      CoveredAt (records.take position) .flush b i ∧ FencedAfter records i :=
    and_congr_left fun _ => effectiveAt_iff_covered below included .flush b
  rw [Unflushed, pending_iff_last]
  constructor
  · rintro ⟨last, assign, unflushed⟩
    have past := (assigned last).mp assign
    by_cases flush : ∃ i, last < i ∧ CoveredAt (records.take position) .flush b i
    · refine .inr ⟨⟨last, past, flush, ?_⟩, ?_⟩
      · rintro ⟨i, fence, after, behind, covered, fenced⟩
        have below : i < position := length ▸ lt_of_coveredAt covered
        exact unflushed i after below ((flushed below).mpr
          ⟨covered, (fencedAfter_iff below check).mpr (.inl ⟨fence, behind, fenced⟩)⟩)
      · intro later
        obtain ⟨i, after, covered⟩ := flush
        have below : i < position := length ▸ lt_of_coveredAt covered
        exact unflushed i after below
          ((flushed below).mpr ⟨covered, (fencedAfter_iff below check).mpr (.inr later)⟩)
    · exact .inl ⟨last, past, fun i after covered => flush ⟨i, after, covered⟩⟩
  · rintro (⟨last, past, unflushed⟩ | ⟨⟨last, past, _, unsettled⟩, unfenced⟩)
    · exact ⟨last, (assigned last).mpr past, fun i after below flush =>
        unflushed i after ((flushed below).mp flush).1⟩
    · refine ⟨last, (assigned last).mpr past, fun i after below flush => ?_⟩
      obtain ⟨covered, fenced⟩ := (flushed below).mp flush
      rcases (fencedAfter_iff below check).mp fenced with ⟨fence, behind, found⟩ | later
      · exact unsettled ⟨i, fence, after, behind, covered, found⟩
      · exact unfenced later

end Past

section Extension

/-- The second trace is the first one with records appended. -/
structure Extends (t longer : Trace) : Prop where
  appended : t.veriptr <+: longer.veriptr
  kept : ∀ p ∈ t.veriptr, longer.memory p = t.memory p

variable {t longer : Trace} {position : Nat}

/-- The records of the first trace come first in the second one. -/
theorem Extends.records (extension : Extends t longer) : t.records <+: longer.records := by
  obtain ⟨more, split⟩ := extension.appended
  refine ⟨more.map longer.memory, ?_⟩
  rw [Trace.records, Trace.records, ← split, List.map_append,
    List.map_congr_left extension.kept]

/-- Both traces have the same records in front of a position of the first. -/
theorem Extends.take_eq (extension : Extends t longer) (bound : position ≤ t.records.length) :
    longer.records.take position = t.records.take position := by
  obtain ⟨more, split⟩ := extension.records
  rw [← split, List.take_append_of_le_length bound]

/-- Whether an assign is stored in front of a position depends on the records
before the position. -/
theorem storedAt_congr {records others : List Metadata} {i : Nat} (below : i < position)
    (same : others.take position = records.take position) :
    StoredAt others position i ↔ StoredAt records position i := by
  have cut {j : Nat} (before : j ≤ position) : others.take j = records.take j := by
    rw [← Nat.min_eq_left before, ← List.take_take, same, List.take_take]
  have read {j : Nat} (before : j < position) : others[j]? = records[j]? := by
    rw [← List.getElem?_take_of_lt before, same, List.getElem?_take_of_lt before]
  have depth {j : Nat} (before : j ≤ position) : depthBefore others j = depthBefore records j := by
    rw [depthBefore, depthBefore, cut before]
  refine and_congr ?_ ?_
  · rw [TransactionAssign, TransactionAssign, read below, depth below.le, excludedBefore,
      excludedBefore, cut below.le]
  · refine forall_congr' fun j => imp_congr_right fun _ => forall_congr' fun before => ?_
    rw [OutermostBegin, OutermostBegin, read before, depth before.le]

/-- Appended records leave the check of a record in place. What is stored at the end of
a transaction depends on the records in front of it alone. -/
theorem Extends.checkedAt (extension : Extends t longer) {cur checked : Ptr}
    (check : CheckedAt t position cur checked) :
    CheckedAt longer position cur checked ∧ longer.memory checked = t.memory checked := by
  obtain ⟨found, kind⟩ := check
  have bound : position < t.veriptr.length := (List.getElem?_eq_some_iff.mp found).1
  have past : longer.records.take position = t.records.take position :=
    extension.take_eq (by rw [Trace.records, List.length_map]; exact bound.le)
  have read {i : Nat} {p : Ptr} (inside : i < t.veriptr.length) (located : t.veriptr[i]? = some p) :
      longer.veriptr[i]? = some p := by
    obtain ⟨more, split⟩ := extension.appended
    rw [← split, List.getElem?_append_left inside, located]
  have kept := extension.kept cur (List.mem_of_getElem? found)
  rcases kind with ⟨query, rfl⟩ | ⟨ends, outermost, i, below, stored, located⟩
  · exact ⟨⟨read bound found, .inl ⟨kept ▸ query, rfl⟩⟩, kept⟩
  · refine ⟨⟨read bound found, .inr ⟨kept ▸ ends, ?_, i, below, ?_, ?_⟩⟩, ?_⟩
    · rw [depthBefore, past]
      exact outermost
    · exact (storedAt_congr below past).mpr stored
    · exact read (below.trans bound) located
    · exact extension.kept checked (List.mem_of_getElem? located)

/-- Every trace can be extended by a fence, at an address that it does not use. -/
theorem exists_extends_fenced (t : Trace) (below : position < t.records.length) :
    ∃ longer, Extends t longer ∧ FencedAfter longer.records position := by
  obtain ⟨fresh, absent⟩ := Infinite.exists_notMem_finset t.veriptr.toFinset
  have unused : fresh ∉ t.veriptr := fun member => absent (List.mem_toFinset.mpr member)
  let longer : Trace :=
    { memory := Function.update t.memory fresh { type := .fence }
      veriptr := t.veriptr ++ [fresh]
      distinct := t.distinct.append (List.nodup_singleton fresh)
        (List.disjoint_singleton.mpr unused) }
  have kept : ∀ p ∈ t.veriptr, longer.memory p = t.memory p := by
    intro p member
    have different : p ≠ fresh := fun same => unused (same ▸ member)
    exact Function.update_of_ne different _ _
  refine ⟨longer, ⟨⟨[fresh], rfl⟩, kept⟩, t.records.length, below, { type := .fence }, ?_, rfl⟩
  have split : longer.records = t.records ++ [{ type := .fence }] := by
    rw [Trace.records, List.map_append, List.map_congr_left kept, List.map_singleton]
    simp [longer, Trace.records]
  rw [split, List.getElem?_append_right (le_refl _), Nat.sub_self]
  rfl

end Extension

section Soundness

variable (icl : Icl) (warn : Bool)

/-- A check without exclusions fails because of a byte never flushed since its
last assign, or of one that awaits a fence the trace does not have. -/
theorem check_fails_iff_past {t : Trace} {position : Nat} {cur checked : Ptr}
    (check : CheckedAt t position cur checked)
    (included : ∀ m ∈ t.records.take position, m.type ≠ .exclude) :
    CheckFails icl warn t cur checked ↔ ∃ b ∈ (t.memory checked).bytes,
      NeverFlushed (t.records.take position) b ∨
        (AwaitsFence (t.records.take position) b ∧ ¬ FencedAfter t.records position) := by
  have found := t.record_found check.1
  have bound : position ≤ t.records.length := (List.getElem?_eq_some_iff.mp found).1.le
  have unfenced : ¬ FenceAt t.records position := by
    rintro ⟨m, same, fence⟩
    obtain rfl : t.memory cur = m := Option.some.inj (found.symm.trans same)
    rcases check.2 with ⟨query, _⟩ | ⟨ends, _⟩ <;> simp_all
  rw [check_fails_iff icl warn check, excludedBefore_eq_empty included]
  simp only [Set.disjoint_empty, true_and, unflushed_iff bound unfenced included]

/-- After appending records the check reads the same past. -/
theorem check_fails_iff_extended {t longer : Trace} {position : Nat} {cur checked : Ptr}
    (extension : Extends t longer) (check : CheckedAt t position cur checked)
    (included : ∀ m ∈ t.records.take position, m.type ≠ .exclude) :
    CheckFails icl warn longer cur checked ↔ ∃ b ∈ (t.memory checked).bytes,
      NeverFlushed (t.records.take position) b ∨
        (AwaitsFence (t.records.take position) b ∧ ¬ FencedAfter longer.records position) := by
  have bound := (List.getElem?_eq_some_iff.mp (t.record_found check.1)).1.le
  have past := extension.take_eq bound
  obtain ⟨checkLonger, same⟩ := extension.checkedAt check
  have fails := check_fails_iff_past icl warn checkLonger (by rw [past]; exact included)
  rwa [past, same] at fails

/-- A persist check is sound, and no appended record turns its error into a pass,
exactly when some byte of its range was not flushed since its last assign or no
byte of it awaits the fence of its flush.

Proof: with a fence behind the check the first part decides, as an awaiting byte
passes unnoticed unless another byte fails. Without one the second part decides,
as an appended fence removes the awaiting bytes from the error. -/
theorem persist_check_sound_iff (t : Trace) (position : Nat) (cur checked : Ptr)
    (check : CheckedAt t position cur checked) (included : ∀ m ∈ t.records, m.type ≠ .exclude) :
    ((¬ CheckFails icl warn t cur checked → ∀ b ∈ (t.memory checked).bytes, ∀ last,
        LastAssign (t.records.take position) b last → Settled (t.records.take position) b last) ∧
      ∀ longer, Extends t longer → CheckFails icl warn t cur checked →
        CheckFails icl warn longer cur checked) ↔
    (∃ b ∈ (t.memory checked).bytes, NeverFlushed (t.records.take position) b) ∨
      ∀ b ∈ (t.memory checked).bytes, ¬ AwaitsFence (t.records.take position) b := by
  have past : ∀ m ∈ t.records.take position, m.type ≠ .exclude := fun m member =>
    included m (List.mem_of_mem_take member)
  have below : position < t.records.length :=
    (List.getElem?_eq_some_iff.mp (t.record_found check.1)).1
  have fails := check_fails_iff_past icl warn check past
  constructor
  · rintro ⟨sound, stable⟩
    by_cases fenced : FencedAfter t.records position
    · by_cases failed : CheckFails icl warn t cur checked
      · obtain ⟨b, member, never | awaits⟩ := fails.mp failed
        · exact .inl ⟨b, member, never⟩
        · exact absurd fenced awaits.2
      · apply Or.inr
        rintro b member ⟨last, assign, _, unsettled⟩
        exact unsettled (sound failed b member last assign)
    · by_cases failed : CheckFails icl warn t cur checked
      · obtain ⟨longer, extension, later⟩ := exists_extends_fenced t below
        obtain ⟨b, member, never | awaits⟩ :=
          (check_fails_iff_extended icl warn extension check past).mp
            (stable longer extension failed)
        · exact .inl ⟨b, member, never⟩
        · exact absurd later awaits.2
      · exact .inr fun b member awaits => failed (fails.mpr ⟨b, member, .inr ⟨awaits, fenced⟩⟩)
  · intro condition
    refine ⟨fun passed b member last assign => ?_, fun longer extension failed => ?_⟩
    · have flushed : ∀ b ∈ (t.memory checked).bytes, ¬ NeverFlushed (t.records.take position) b :=
        fun b member never => passed (fails.mpr ⟨b, member, .inl never⟩)
      have settled := condition.resolve_left fun ⟨b, member, never⟩ => flushed b member never
      by_contra unsettled
      refine settled b member ⟨last, assign, ?_, unsettled⟩
      by_contra unflushed
      exact flushed b member ⟨last, assign, fun flush after covered =>
        unflushed ⟨flush, after, covered⟩⟩
    · apply (check_fails_iff_extended icl warn extension check past).mpr
      rcases condition with ⟨b, member, never⟩ | settled
      · exact ⟨b, member, .inl never⟩
      · obtain ⟨b, member, never | awaits⟩ := fails.mp failed
        · exact ⟨b, member, .inl never⟩
        · exact absurd awaits.1 (settled b member)

/-- The check stands between the flush and its fence. -/
def queryBeforeFence : Trace := .ofRecords
  [{ type := .assign, addr := 0, size := 4 }, { type := .flush, addr := 0, size := 4 },
    { type := .persist, addr := 0, size := 4 }, { type := .fence }]

/-- The records of `queryBeforeFence` without the fence. -/
def queryWithoutFence : Trace := .ofRecords
  [{ type := .assign, addr := 0, size := 4 }, { type := .flush, addr := 0, size := 4 },
    { type := .persist, addr := 0, size := 4 }]

/-- The check passes although its bytes await their fence, and it fails in the
trace that the fence is appended to. -/
theorem query_before_fence_passes :
    (∀ m ∈ queryBeforeFence.records, m.type ≠ .exclude) ∧ CheckedAt queryBeforeFence 2 2 2 ∧
    ¬ CheckFails (Segments.segments Nat Int) false queryBeforeFence 2 2 ∧
    (∃ b ∈ (queryBeforeFence.memory 2).bytes, ∃ last,
      LastAssign (queryBeforeFence.records.take 2) b last ∧
        ¬ Settled (queryBeforeFence.records.take 2) b last) ∧
    Extends queryWithoutFence queryBeforeFence ∧
    CheckFails (Segments.segments Nat Int) false queryWithoutFence 2 2 := by
  have silent : (veriProc (Segments.segments Nat Int) false queryBeforeFence.memory
      queryBeforeFence.veriptr).stdout = [] := by decide
  refine ⟨by decide, ⟨rfl, .inl ⟨rfl, rfl⟩⟩, ?_, ⟨0, ⟨Nat.le_refl 0, by decide⟩, 0, ?_, ?_⟩,
    ⟨⟨[3], rfl⟩, by decide⟩, .persistError [] 0 0 4, rfl, by decide⟩
  · rintro ⟨report, _, member⟩
    rw [silent] at member
    exact List.not_mem_nil member
  · refine ⟨by decide, ⟨_, rfl, rfl, Nat.le_refl 0, by decide⟩, ?_⟩
    rintro later after before ⟨m, found, assign, _⟩
    obtain rfl : later = 1 := by
      have : later < 2 := before
      omega
    exact absurd (Option.some.inj found ▸ assign) (by decide)
  · rintro ⟨flush, fence, after, behind, _, m, found, _⟩
    have below : fence < 2 := (List.getElem?_eq_some_iff.mp found).1
    omega

/-- The fence stands in front of the check. -/
def queryAfterFence : Trace := .ofRecords
  [{ type := .assign, addr := 0, size := 4 }, { type := .flush, addr := 0, size := 4 },
    { type := .fence }, { type := .persist, addr := 0, size := 4 }]

/-- Behind the fence no byte awaits one, and the passed check is right. -/
theorem persist_check_sound_after_fence :
    (∀ b ∈ (queryAfterFence.memory 3).bytes, ¬ AwaitsFence (queryAfterFence.records.take 3) b) ∧
    (¬ CheckFails (Segments.segments Nat Int) false queryAfterFence 3 3 →
      ∀ b ∈ (queryAfterFence.memory 3).bytes, ∀ last,
        LastAssign (queryAfterFence.records.take 3) b last →
          Settled (queryAfterFence.records.take 3) b last) := by
  have settled : ∀ b ∈ (queryAfterFence.memory 3).bytes,
      ¬ AwaitsFence (queryAfterFence.records.take 3) b := by
    rintro b member ⟨last, ⟨below, ⟨m, found, assign, _⟩, _⟩, _, unsettled⟩
    obtain rfl : last = 0 := by
      have : last < 3 := below
      by_contra behind
      obtain rfl | rfl : last = 1 ∨ last = 2 := by omega
      · exact absurd (Option.some.inj found ▸ assign) (by decide)
      · exact absurd (Option.some.inj found ▸ assign) (by decide)
    exact unsettled ⟨1, 2, by decide, by decide, ⟨_, rfl, rfl, member⟩, _, rfl, rfl⟩
  exact ⟨settled, ((persist_check_sound_iff (Segments.segments Nat Int) false queryAfterFence 3 3 3
    ⟨rfl, .inl ⟨rfl, rfl⟩⟩ (by decide)).mpr (.inr settled)).1⟩

end Soundness

end PMTest

import PMTest.Agreement
import PMTest.Segments

/-!
# More flushes and fences

A programmer answers a report with another flush or another fence. Such a record never
makes an ASSIGN or a PERSIST ERROR appear. The dirty bytes of the longer trace are among
those of the shorter one, and all that decides about a check besides is the same.

An ORDER query may fail after a flush was added, since a flush moves its bytes to a later
section. A fence that another fence follows moves no operation behind a later one. The
sections of the shorter trace are those of the longer one with some of them joined, so
every comparison that succeeds there succeeds here.
-/

namespace PMTest

open Lookahead

section Added

/-- The second trace is the first with more flushes and fences. -/
inductive SyncAdded : List Metadata → List Metadata → Prop
  | nil : SyncAdded [] []
  | same (m : Metadata) {few many : List Metadata} (added : SyncAdded few many) :
      SyncAdded (m :: few) (m :: many)
  | sync {m : Metadata} {few many : List Metadata} (type : m.type = .flush ∨ m.type = .fence)
      (added : SyncAdded few many) : SyncAdded few (m :: many)

/-- The second trace is the first with more fences, each in front of one that was there. -/
inductive FencesAdded : List Metadata → List Metadata → Prop
  | nil : FencesAdded [] []
  | same (m : Metadata) {few many : List Metadata} (added : FencesAdded few many) :
      FencesAdded (m :: few) (m :: many)
  | fence {m : Metadata} {few many : List Metadata} (type : m.type = .fence)
      (followed : fenceAmong few = true) (added : FencesAdded few many) :
      FencesAdded few (m :: many)

variable {few many : List Metadata}

/-- A fence that was there is still there. -/
theorem SyncAdded.still_fenced (added : SyncAdded few many) (fenced : fenceAmong few = true) :
    fenceAmong many = true := by
  induction added with
  | nil => exact fenced
  | same m _ ih =>
    simp only [fenceAmong, List.any_cons, Bool.or_eq_true] at fenced ih ⊢
    exact fenced.imp_right ih
  | sync _ _ ih =>
    simp only [fenceAmong, List.any_cons, Bool.or_eq_true] at ih ⊢
    exact .inr (ih fenced)

/-- The nesting of transactions is the same, since flushes and fences leave it alone. -/
theorem SyncAdded.depth (added : SyncAdded few many) (start : Int) :
    many.foldl depthStep start = few.foldl depthStep start := by
  induction added generalizing start with
  | nil => rfl
  | same m _ ih => exact ih _
  | @sync m few many type _ ih =>
    have kept : depthStep start m = start := by
      rcases type with type | type <;> rw [depthStep, type]
    rw [List.foldl_cons, kept, ih]

/-- Added flushes and fences leave the message about unmatched transactions as it is. -/
theorem SyncAdded.unmatched (added : SyncAdded few many) (icl : Icl) (warn : Bool) :
    (verdict icl warn many).unmatched = (verdict icl warn few).unmatched := by
  rw [verdict_eq, verdict_eq]
  simp only [(run_counters warn [] _ _).2, added.depth]

/-- Fences are a kind of synchronisation. -/
theorem FencesAdded.syncAdded (added : FencesAdded few many) : SyncAdded few many := by
  induction added with
  | nil => exact .nil
  | same m _ ih => exact .same m ih
  | fence type _ _ ih => exact .sync (.inr type) ih

/-- A new fence stands in front of one that was there, so a flush finds a fence ahead in
both traces or in none. -/
theorem FencesAdded.fenceAmong_eq (added : FencesAdded few many) :
    fenceAmong few = fenceAmong many := by
  induction added with
  | nil => rfl
  | same m _ ih =>
    simp only [fenceAmong, List.any_cons] at ih ⊢
    rw [ih]
  | @fence m few many type followed _ _ =>
    rw [followed]
    simp [fenceAmong, type]

/-- The longer trace has at least as many fences. -/
theorem FencesAdded.fencesAmong_le (added : FencesAdded few many) :
    fencesAmong few ≤ fencesAmong many := by
  induction added with
  | nil => exact le_refl _
  | same m _ ih =>
    rw [fencesAmong_cons, fencesAmong_cons]
    omega
  | fence _ _ _ ih =>
    rw [fencesAmong_cons]
    omega

end Added

section Blames

/-- The report without the range that a persist check found. -/
def Report.withoutRange : Report → Report
  | .persistError file line _ _ => .persistError file line 0 0
  | report => report

/-- Which checks failed, the ORDER queries apart: the reports without the ranges of the
persist checks. -/
def blames (reports : List Report) : List Report :=
  (reports.filter fun report => !report.isOrderError).map Report.withoutRange

/-- The failed checks of two parts of a trace are put together. -/
theorem blames_append (first second : List Report) :
    blames (first ++ second) = blames first ++ blames second := by
  rw [blames, List.filter_append, List.map_append]
  rfl

/-- Order queries do not count here. -/
theorem blames_orderReports (v : ByteState) (m : Metadata) : blames (v.orderReports m) = [] := by
  unfold ByteState.orderReports
  split_ifs <;> rfl

end Blames

namespace ByteState

/-- The first state has fewer dirty bytes than the second, and they do not differ in
anything else that a check reads, order queries apart. -/
structure Cleaner (w v : ByteState) : Prop where
  excluded : w.excluded = v.excluded
  added : w.added = v.added
  depth : w.depth = v.depth
  dirty : w.dirty ⊆ v.dirty

namespace Cleaner

variable {w v : ByteState} {m : Metadata}

/-- Which bytes a record touches depends on the exclusions, which are the same. -/
theorem touches_iff (cleaner : w.Cleaner v) (type : MetadataType) (b : Nat) :
    w.Touches type m b ↔ v.Touches type m b := by
  rw [Touches, Touches, cleaner.excluded]

/-- A record takes effect in both states or in neither. -/
theorem effective_iff (cleaner : w.Cleaner v) : w.Effective m ↔ v.Effective m := by
  rw [Effective, Effective, cleaner.excluded]

/-- A record that counts in both traces keeps the first state cleaner: it touches the
same bytes in both. -/
theorem after (cleaner : w.Cleaner v) : (w.after m).Cleaner (v.after m) := by
  refine ⟨?_, ?_, ?_, ?_⟩
  · rw [after_excluded, after_excluded, cleaner.excluded]
  · ext b
    rw [mem_after_added, mem_after_added, cleaner.added, cleaner.depth]
  · rw [after_depth, after_depth, cleaner.depth]
  · intro b member
    rw [mem_after_dirty, cleaner.touches_iff, cleaner.touches_iff] at member
    exact member.imp_right fun ⟨dirty, unflushed⟩ => ⟨cleaner.dirty dirty, unflushed⟩

/-- A flush or a fence that counts in the longer trace only can but clean bytes. -/
theorem sync (cleaner : w.Cleaner v) (type : m.type = .flush ∨ m.type = .fence) :
    (w.after m).Cleaner v := by
  have unassigned : m.type ≠ .assign := by rcases type with type | type <;> simp [type]
  refine ⟨?_, ?_, ?_, ?_⟩
  · rw [after_excluded, ← cleaner.excluded, excludeStep]
    rcases type with type | type <;> simp [type]
  · ext b
    rw [mem_after_added, ← cleaner.added]
    rcases type with type | type <;> simp [type]
  · rw [after_depth, ← cleaner.depth, depthStep]
    rcases type with type | type <;> simp [type]
  · intro b member
    rcases (mem_after_dirty w m b).mp member with touches | ⟨dirty, _⟩
    · exact absurd touches.1 unassigned
    · exact cleaner.dirty dirty

/-- A persist check that fails with fewer dirty bytes fails with more of them, perhaps
about a longer range. -/
theorem persistReports (cleaner : w.Cleaner v) (m : Metadata) :
    (blames (w.persistReports m)).Sublist (blames (v.persistReports m)) := by
  rcases w.persistReports_cases m with ⟨run, lowest, reports, included⟩ | ⟨silent, _⟩
  · rcases v.persistReports_cases m with ⟨other, _, others, _⟩ | ⟨_, clean⟩
    · rw [reports, others]
      exact .refl _
    · obtain ⟨b, inside, _⟩ := lowest.meets
      obtain ⟨member, dirty⟩ := lowest.run.inside inside
      rw [cleaner.excluded] at included
      exact absurd (cleaner.dirty dirty) (Set.disjoint_left.mp (clean included) member)
  · rw [silent]
    exact List.nil_sublist _

/-- The checks at the end of a transaction fail for fewer assigns in the cleaner state. -/
theorem pendingReports (cleaner : w.Cleaner v) (pending : List Metadata) :
    (blames (pending.flatMap w.persistReports)).Sublist
      (blames (pending.flatMap v.persistReports)) := by
  induction pending with
  | nil => exact .refl _
  | cons m rest ih =>
    rw [List.flatMap_cons, List.flatMap_cons, blames_append, blames_append]
    exact (cleaner.persistReports m).append ih

/-- What the longer trace gets reported for a record, the shorter one does. Only the
persist checks read the dirty bytes; what the others read is the same in both states. -/
theorem reports (cleaner : w.Cleaner v) (m : Metadata) (pending : List Metadata) :
    (blames (w.reports false m pending)).Sublist (blames (v.reports false m pending)) := by
  classical
  unfold ByteState.reports
  cases m.type with
  | assign =>
    have same : w.assignReports m = v.assignReports m := by
      rw [assignReports, assignReports, cleaner.added, cleaner.depth]
      exact if_congr (and_congr_left fun _ => cleaner.effective_iff) rfl rfl
    simp only [same, List.Sublist.refl]
  | persist => exact cleaner.persistReports m
  | order => simp only [blames_orderReports, List.Sublist.refl]
  | transactionEnd =>
    simp only [cleaner.depth]
    split_ifs
    · exact cleaner.pendingReports pending
    · exact .refl _
  | flush | transactionAdd => simp [flushReports, addReports]
  | _ => exact .refl _

/-- The assigns to check are the same in both states. -/
theorem pendingStep (cleaner : w.Cleaner v) (m : Metadata) (pending : List Metadata) :
    w.pendingStep m pending = v.pendingStep m pending := by
  classical
  unfold ByteState.pendingStep
  cases m.type with
  | assign =>
    simp only [cleaner.depth]
    exact if_congr (and_congr_left fun _ => cleaner.effective_iff) rfl rfl
  | transactionBegin => simp only [cleaner.depth]
  | _ => rfl

end Cleaner

end ByteState

section Persistence

variable {few many : List Metadata} {k l : RecordState}

/-- A record of both traces. A flush that counts in the shorter one has a fence behind it
in the longer one too. -/
theorem SyncAdded.step (added : SyncAdded few many) (cleaner : l.bytes.Cleaner k.bytes)
    (pending : l.pending = k.pending) (m : Metadata) :
    ((RecordState.machine false many m l).1.bytes.Cleaner
        (RecordState.machine false few m k).1.bytes ∧
      (RecordState.machine false many m l).1.pending =
        (RecordState.machine false few m k).1.pending) ∧
    (blames (RecordState.machine false many m l).2).Sublist
      (blames (RecordState.machine false few m k).2) := by
  unfold RecordState.machine
  split_ifs with skipped skips skips
  · exact ⟨⟨cleaner, pending⟩, .refl _⟩
  · have unfenced : fenceAmong few = false := by
      rw [← Bool.not_eq_true]
      intro fenced
      rw [added.still_fenced fenced] at skipped
      exact absurd skipped.2 (by decide)
    exact absurd ⟨skipped.1, unfenced⟩ skips
  · refine ⟨⟨cleaner.sync (.inl skips.1), ?_⟩, ?_⟩
    · simp only [RecordState.next, ByteState.pendingStep, skips.1, pending]
    · simp [RecordState.reports, ByteState.reports, skips.1, ByteState.flushReports, blames]
  · refine ⟨⟨cleaner.after, ?_⟩, ?_⟩
    · rw [RecordState.next, RecordState.next, pending]
      exact cleaner.pendingStep m _
    · rw [RecordState.reports, RecordState.reports, pending]
      exact cleaner.reports m _

/-- A flush or a fence of the longer trace alone prints nothing. -/
theorem sync_step (cleaner : l.bytes.Cleaner k.bytes) (later : List Metadata) {m : Metadata}
    (type : m.type = .flush ∨ m.type = .fence) :
    (RecordState.machine false later m l).1.bytes.Cleaner k.bytes ∧
      (RecordState.machine false later m l).1.pending = l.pending ∧
      (RecordState.machine false later m l).2 = [] := by
  unfold RecordState.machine
  split_ifs
  · exact ⟨cleaner, rfl, rfl⟩
  · refine ⟨cleaner.sync type, ?_, ?_⟩
    · rcases type with type | type <;> simp [RecordState.next, ByteState.pendingStep, type]
    · rcases type with type | type <;>
        simp [RecordState.reports, ByteState.reports, ByteState.flushReports, type]

/-- The passes over both traces, by induction on how the second was made from the first.
The invariant is that its state is cleaner and the same assigns wait. -/
theorem SyncAdded.pass (added : SyncAdded few many) (cleaner : l.bytes.Cleaner k.bytes)
    (pending : l.pending = k.pending) :
    (blames (output (RecordState.machine false) [] many l)).Sublist
      (blames (output (RecordState.machine false) [] few k)) := by
  induction added generalizing k l with
  | nil => exact .refl _
  | same m added ih =>
    obtain ⟨⟨cleaner, pending⟩, printed⟩ := added.step cleaner pending m
    simp only [output, List.append_nil, blames_append]
    exact printed.append (ih cleaner pending)
  | @sync m few many type added ih =>
    obtain ⟨cleaner, kept, silent⟩ := sync_step cleaner many type
    simp only [output, List.append_nil, silent, List.nil_append]
    exact ih cleaner (kept.trans pending)

/-- More flushes and fences never make an ASSIGN ERROR or a PERSIST ERROR appear: the
failed checks of the longer trace are failed checks of the shorter one, in this order. Nor
do they change the message about unmatched transactions. -/
theorem synchronisation_fails_no_check (icl : Icl) (added : SyncAdded few many) :
    (blames (verdict icl false many).reports).Sublist (blames (verdict icl false few).reports) ∧
      (verdict icl false many).unmatched = (verdict icl false few).unmatched := by
  refine ⟨?_, added.unmatched icl false⟩
  rw [verdict_eq, verdict_eq]
  exact added.pass ⟨rfl, rfl, rfl, subset_rfl⟩ rfl

/-- A write that is not flushed, and the same write with a flush and a fence. -/
def unflushedWrite : List Metadata :=
  [{ type := .transactionBegin }, { type := .assign, addr := 0, size := 4, lineNum := 1 },
    { type := .assign, addr := 8, size := 4, lineNum := 2 }, { type := .transactionEnd }]

/-- The records of `unflushedWrite` with a flush and a fence. -/
def flushedWrite : List Metadata :=
  [{ type := .transactionBegin }, { type := .assign, addr := 0, size := 4, lineNum := 1 },
    { type := .flush, addr := 0, size := 4 }, { type := .fence },
    { type := .assign, addr := 8, size := 4, lineNum := 2 }, { type := .transactionEnd }]

/-- The flush removes the persist error of the first write, and no check fails anew. -/
theorem synchronisation_fails_no_check_flushed_write :
    (verdict (Segments.segments Nat Int) false unflushedWrite).reports.length = 4 ∧
    (verdict (Segments.segments Nat Int) false flushedWrite).reports.length = 3 ∧
    (blames (verdict (Segments.segments Nat Int) false flushedWrite).reports).Sublist
      (blames (verdict (Segments.segments Nat Int) false unflushedWrite).reports) := by
  have added : SyncAdded unflushedWrite flushedWrite :=
    .same _ (.same _ (.sync (.inl rfl) (.sync (.inr rfl) (.same _ (.same _ .nil)))))
  exact ⟨by decide, by decide, (synchronisation_fails_no_check _ added).1⟩

end Persistence

namespace ByteState

section Joined

variable {number : Nat → Nat} {v w : ByteState} {m : Metadata}

/-- A number for the sections behind a time: all get the number of that time, or the one
that follows it. -/
def extend (number : Nat → Nat) (time gap k : Nat) : Nat :=
  if k ≤ time then number k else number time + gap

/-- An extension of an order of sections keeps the order. -/
theorem extend_monotone (mono : Monotone number) (time gap : Nat) :
    Monotone (extend number time gap) := by
  intro first second order
  unfold extend
  split_ifs with early late
  · exact mono order
  · exact (mono early).trans (Nat.le_add_right ..)
  · omega
  · exact le_refl _

/-- No stamp is later than the current section. -/
def Reached (w : ByteState) : Prop := ∀ b stamp, w.stamp b = some stamp → stamp.time ≤ w.time

/-- A record stamps bytes with the current section and never goes back to an earlier
one. -/
theorem Reached.after (reached : w.Reached) (m : Metadata) : (w.after m).Reached := by
  intro b stamp found
  have later : w.time ≤ (w.after m).time := by
    rw [after_time]
    split_ifs <;> omega
  rw [after_stamp] at found
  split_ifs at found with assigned flushed
  · obtain rfl := Option.some.inj found
    exact later
  · obtain rfl := Option.some.inj found
    exact later
  · exact (reached b stamp found).trans later

/-- The numbers behind the current section do not matter. -/
theorem renumber_extend (reached : w.Reached) (gap : Nat) :
    w.renumber (extend number w.time gap) = w.renumber number := by
  have kept (stamp : Stamp) (early : stamp.time ≤ w.time) :
      stamp.renumber (extend number w.time gap) = stamp.renumber number := by
    cases stamp with
    | atLeast time => exact congrArg Stamp.atLeast (if_pos early)
    | exactly time => exact congrArg Stamp.exactly (if_pos early)
  have stamps (b : Nat) : (w.stamp b).map (Stamp.renumber (extend number w.time gap)) =
      (w.stamp b).map (Stamp.renumber number) := by
    cases found : w.stamp b with
    | none => rfl
    | some stamp => exact congrArg some (kept stamp (reached b stamp found))
  have now : extend number w.time gap w.time = number w.time := if_pos (le_refl _)
  simp only [renumber, stamps, now]

/-- The second state is the first with sections joined. -/
structure Joined (w v : ByteState) : Prop where
  numbers : ∃ number, Monotone number ∧ v = w.renumber number
  reached : w.Reached

/-- The passes start in the same state, with the sections numbered as they are. -/
theorem Joined.initial : initial.Joined initial := by
  refine ⟨⟨id, monotone_id, ?_⟩, fun b stamp found => ?_⟩
  · simp [ByteState.initial, renumber]
  · simp [ByteState.initial] at found

/-- A record of both traces keeps the sections joined. A fence of both begins a new
section in both, whose number follows that of the section before. -/
theorem Joined.after (joined : w.Joined v) (m : Metadata) : (w.after m).Joined (v.after m) := by
  obtain ⟨⟨number, mono, rfl⟩, reached⟩ := joined
  refine ⟨⟨_, extend_monotone mono w.time 1, ?_⟩, reached.after m⟩
  rw [← renumber_extend reached 1]
  refine after_renumber fun _ => ?_
  simp [extend]

/-- A fence of the longer trace alone begins one there, which gets the number of the
section that it splits. -/
theorem Joined.fence (joined : w.Joined v) (type : m.type = .fence) (cleared : v.stored = []) :
    (w.after m).Joined v := by
  obtain ⟨⟨number, mono, rfl⟩, reached⟩ := joined
  refine ⟨⟨_, extend_monotone mono w.time 0, ?_⟩, reached.after m⟩
  have quiet : w.after m = { w with time := w.time + 1 } := by
    rw [ByteState.after, next_quiet _ _ _ (by simp [type]) (by simp [type])]
    have stored : w.stored = [] := cleared
    simp [type, excludeStep, depthStep, stored]
  rw [quiet, ← renumber_extend reached 0]
  simp [renumber, extend]

/-- With sections joined an order query fails if it failed before. Its conditions ask
for a stamp that is not exact, or for an early time that is not before a late one, and
joining sections keeps the order of times. -/
theorem orderReports_joined (mono : Monotone number) (small : w.Small)
    (renumbered : (w.renumber number).Small) (m : Metadata) :
    (w.orderReports m).Sublist ((w.renumber number).orderReports m) := by
  have stamped : (w.renumber number).Stamped m ↔ w.Stamped m := by
    simp only [Stamped, renumber, Option.isSome_map]
  have unordered (failed : w.Unordered m) : (w.renumber number).Unordered m := by
    rw [unordered_iff_of_small small] at failed
    rw [unordered_iff_of_small renumbered]
    rcases failed with ⟨e, inside, time, found⟩ |
      ⟨e, inside, l, late, first, second, found, last, le⟩
    · exact .inl ⟨e, inside, number time, by simp [renumber, found, Stamp.renumber]⟩
    · refine .inr ⟨e, inside, l, late, first.renumber number, second.renumber number, ?_, ?_, ?_⟩
      · simp [renumber, found]
      · simp [renumber, last]
      · simpa using mono le
  unfold orderReports
  by_cases queried : w.Queried m
  · rw [if_pos queried, if_pos (show (w.renumber number).Queried m from queried)]
    by_cases known : w.Stamped m
    · rw [if_pos known, if_pos (stamped.mpr known)]
      by_cases failed : w.Unordered m
      · rw [if_pos failed, if_pos (unordered failed)]
      · rw [if_neg failed]
        exact List.nil_sublist _
    · rw [if_neg known, if_neg (mt stamped.mp known)]
  · rw [if_neg queried]
    exact List.nil_sublist _

/-- Only reports of order queries can be missing in the longer trace. -/
theorem Joined.reports (joined : w.Joined v) (small : w.Small) (renumbered : v.Small)
    (warn : Bool) (m : Metadata) (pending : List Metadata) :
    (w.reports warn m pending).Sublist (v.reports warn m pending) ∧
      (m.type ≠ .order → w.reports warn m pending = v.reports warn m pending) := by
  obtain ⟨⟨number, mono, rfl⟩, _⟩ := joined
  unfold ByteState.reports
  cases m.type with
  | order => exact ⟨orderReports_joined mono small renumbered m, fun other => absurd rfl other⟩
  | _ => exact ⟨.refl _, fun _ => rfl⟩

end Joined

end ByteState

section Ordering

variable (warn : Bool) {few many : List Metadata} {k l : RecordState}

/-- The states of the two passes in front of what is left of the traces. The numbers of
all fences bound the exact times. -/
structure Condensed (bound : Nat) (few many : List Metadata) (k l : RecordState) : Prop where
  joined : l.bytes.Joined k.bytes
  cleared : k.bytes.stored = []
  pending : l.pending = k.pending
  timely : ∃ fences ≤ bound, Timely fences few k.bytes
  timely_many : Timely bound many l.bytes

/-- A record of both traces is skipped in both or in neither. Times stay small on both
sides, so a report that the longer trace gets is one of the shorter. -/
theorem Condensed.same {bound : Nat} {m : Metadata}
    (condensed : Condensed bound (m :: few) (m :: many) k l)
    (fenced : fenceAmong few = fenceAmong many) (small : (bound : Int) < intMax) :
    Condensed bound few many (RecordState.machine warn few m k).1
        (RecordState.machine warn many m l).1 ∧
      (RecordState.machine warn many m l).2.Sublist (RecordState.machine warn few m k).2 ∧
      (m.type ≠ .order →
        (RecordState.machine warn many m l).2 = (RecordState.machine warn few m k).2) := by
  obtain ⟨joined, cleared, pending, ⟨fences, le, timely⟩, timely_many⟩ := condensed
  unfold RecordState.machine
  rw [← fenced]
  split_ifs with skipped
  · exact ⟨⟨joined, cleared, pending, ⟨fences, le, timely.skip⟩, timely_many.skip⟩, .refl _,
      fun _ => rfl⟩
  · have kept : l.bytes.pendingStep m k.pending = k.bytes.pendingStep m k.pending := by
      obtain ⟨⟨number, _, same⟩, _⟩ := joined
      rw [same]
      rfl
    have counts : ¬ (m.type = .flush ∧ fenceAmong many = false) := by rwa [← fenced]
    refine ⟨⟨joined.after m, rfl, ?_, ⟨fences, le, timely.after skipped⟩,
      timely_many.after counts⟩, ?_⟩
    · rw [RecordState.next, RecordState.next, pending]
      exact kept
    · rw [RecordState.reports, RecordState.reports, pending]
      exact joined.reports (timely_many.small small) (timely.small (by omega)) warn m _

/-- A fence of the longer trace alone. -/
theorem Condensed.fence {bound : Nat} {m : Metadata} (type : m.type = .fence)
    (condensed : Condensed bound few (m :: many) k l) :
    Condensed bound few many k (RecordState.machine warn many m l).1 ∧
      (RecordState.machine warn many m l).2 = [] := by
  obtain ⟨joined, cleared, pending, timely, timely_many⟩ := condensed
  have counts : ¬ (m.type = .flush ∧ fenceAmong many = false) := by simp [type]
  rw [RecordState.machine, if_neg counts]
  refine ⟨⟨joined.fence type cleared, cleared, ?_, timely, timely_many.after counts⟩, ?_⟩
  · rw [← pending]
    simp [RecordState.next, ByteState.pendingStep, type]
  · simp [RecordState.reports, ByteState.reports, type]

/-- Reports of order queries are order errors. -/
theorem filter_reports_order (v : ByteState) {m : Metadata} (order : m.type = .order)
    (pending : List Metadata) :
    (v.reports warn m pending).filter (fun report => !report.isOrderError) = [] := by
  simp only [ByteState.reports, order, ByteState.orderReports]
  split_ifs <;> rfl

/-- The passes over both traces, by induction on how the second was made from the first.
A record of both prints the same unless it is an order query, and a new fence prints
nothing. -/
theorem FencesAdded.pass {bound : Nat} (added : FencesAdded few many)
    (small : (bound : Int) < intMax) (condensed : Condensed bound few many k l) :
    (output (RecordState.machine warn) [] many l).Sublist
        (output (RecordState.machine warn) [] few k) ∧
      (output (RecordState.machine warn) [] many l).filter (fun report => !report.isOrderError) =
        (output (RecordState.machine warn) [] few k).filter fun report => !report.isOrderError := by
  induction added generalizing k l with
  | nil => exact ⟨.refl _, rfl⟩
  | @same m few many added ih =>
    obtain ⟨condensed', fewer, equal⟩ := condensed.same warn added.fenceAmong_eq small
    obtain ⟨rest, others⟩ := ih condensed'
    simp only [output, List.append_nil, List.filter_append, others]
    refine ⟨fewer.append rest, congrArg (· ++ _) ?_⟩
    by_cases order : m.type = .order
    · have counts (later : List Metadata) (s : RecordState) :
          RecordState.machine warn later m s = (s.next m, s.reports warn m) :=
        RecordState.machine_of_ne_flush warn later s (by simp [order])
      rw [counts, counts, RecordState.reports, RecordState.reports,
        filter_reports_order warn _ order, filter_reports_order warn _ order]
    · rw [equal order]
  | fence type followed added ih =>
    obtain ⟨condensed', silent⟩ := condensed.fence warn type
    simp only [output, List.append_nil, silent, List.nil_append]
    exact ih condensed'

/-- More fences in front of fences only remove ORDER ERRORs. All other reports are the
same, and so is the message about unmatched transactions. -/
theorem fences_only_remove_order_errors (icl : Icl) (added : FencesAdded few many)
    (small : (fencesAmong many : Int) < intMax) :
    (verdict icl warn many).reports.Sublist (verdict icl warn few).reports ∧
      (verdict icl warn many).reports.filter (fun report => !report.isOrderError) =
        (verdict icl warn few).reports.filter (fun report => !report.isOrderError) ∧
      (verdict icl warn many).unmatched = (verdict icl warn few).unmatched := by
  have condensed : Condensed (fencesAmong many) few many .initial .initial :=
    ⟨.initial, rfl, rfl, ⟨_, added.fencesAmong_le, Timely.initial few⟩, Timely.initial many⟩
  obtain ⟨fewer, others⟩ := added.pass warn small condensed
  refine ⟨?_, ?_, added.syncAdded.unmatched icl warn⟩
  · rwa [verdict_eq, verdict_eq]
  · rwa [verdict_eq, verdict_eq]

/-- Two writes with a fence behind them, and with another fence between them. -/
def joinedWrites : List Metadata :=
  [{ type := .assign, addr := 0, size := 4 }, { type := .flush, addr := 0, size := 4 },
    { type := .assign, addr := 8, size := 4 },
    { type := .order, addr := 0, size := 4, addrLate := 8, sizeLate := 4 }, { type := .fence }]

/-- The two writes with another fence between them. -/
def fencedWrites : List Metadata :=
  [{ type := .assign, addr := 0, size := 4 }, { type := .flush, addr := 0, size := 4 },
    { type := .fence }, { type := .assign, addr := 8, size := 4 },
    { type := .order, addr := 0, size := 4, addrLate := 8, sizeLate := 4 }, { type := .fence }]

/-- The fence between the writes puts them into different sections, and the order error
is gone. -/
theorem fences_only_remove_order_errors_fenced_writes :
    (verdict (Segments.segments Nat Int) false joinedWrites).reports.length = 1 ∧
    (verdict (Segments.segments Nat Int) false fencedWrites).reports = [] ∧
    (verdict (Segments.segments Nat Int) false fencedWrites).reports.Sublist
      (verdict (Segments.segments Nat Int) false joinedWrites).reports := by
  have added : FencesAdded joinedWrites fencedWrites :=
    .same _ (.same _ (.fence rfl rfl (.same _ (.same _ (.same _ .nil)))))
  exact ⟨by decide, by decide, (fences_only_remove_order_errors false _ added (by decide)).1⟩

end Ordering

end PMTest

import PMTest.Agreement
import PMTest.Segments

/-!
# Code between an exclude and an include

An annotated library takes a range out of the checks, works on it, and puts it back. The
redo log of the persistent memory library does so around each of its writes. Between the
two records the checker passes over all writes, flushes and queries that meet the range.

So the bracket is a way to write a trace without these records, and nothing of it is left
behind the include: the verdict is that of the trace without the bracket and without what
it hides. The range must not have been excluded before, since the include would then put
back more than the exclude took away, and no transaction may end inside, since the checks
of its end depend on what is excluded at that time.
-/

namespace PMTest

open Intervals Lookahead

section Hiding

/-- The two ranges have a byte in common. -/
def meets (i j : RightOpen Nat) : Bool := decide ((i.inter j).lower < (i.inter j).upper)

/-- Ranges meet when they are not disjoint. -/
theorem meets_eq_true (i j : RightOpen Nat) :
    meets i j = true ↔ ¬ Disjoint i.elements j.elements := by
  rw [meets, decide_eq_true_iff, RightOpen.inter_nonempty_iff, Set.not_disjoint_iff]

/-- The test for a common byte fails exactly when the two intervals are disjoint. -/
theorem meets_eq_false (i j : RightOpen Nat) :
    meets i j = false ↔ Disjoint i.elements j.elements := by
  rw [← Bool.not_eq_true, meets_eq_true, not_not]

namespace Metadata

/-- The checker passes over the record while the range is excluded. -/
def hiddenBy (range : RightOpen Nat) (m : Metadata) : Bool :=
  match m.type with
  | .assign | .flush | .persist => meets m.addrinterval range
  | .order => meets m.addrinterval range || meets m.addrintervalLate range
  | _ => false

/-- The record ends no transaction and does not change whether the range is excluded. -/
def Bracketed (range : RightOpen Nat) (m : Metadata) : Prop :=
  m.type ≠ .transactionEnd ∧
    (m.type = .exclude ∨ m.type = .reinclude → meets m.addrinterval range = false)

instance (range : RightOpen Nat) (m : Metadata) : Decidable (m.Bracketed range) :=
  inferInstanceAs (Decidable (_ ∧ _))

end Metadata

end Hiding

namespace ByteState

/-- The state with a range excluded in addition. -/
def hide (range : RightOpen Nat) (v : ByteState) : ByteState :=
  { v with excluded := v.excluded ∪ range.elements }

section Hide

variable {range : RightOpen Nat} {v : ByteState} {m : Metadata}

/-- Bytes outside the range are excluded as before. -/
theorem disjoint_hide {bytes : Set Nat} (apart : Disjoint bytes range.elements) :
    Disjoint bytes (v.hide range).excluded ↔ Disjoint bytes v.excluded := by
  rw [hide, Set.disjoint_union_right, and_iff_left apart]

/-- A record apart from the range touches the same bytes. -/
theorem touches_hide (apart : Disjoint m.bytes range.elements) (type : MetadataType) (b : Nat) :
    (v.hide range).Touches type m b ↔ v.Touches type m b :=
  and_congr_right fun _ => and_congr_right fun _ => disjoint_hide apart

/-- A record apart from the hidden range takes effect in both states or in neither. -/
theorem effective_hide (apart : Disjoint m.bytes range.elements) :
    (v.hide range).Effective m ↔ v.Effective m := and_congr_right fun _ => disjoint_hide apart

/-- A record that is shown touches the same bytes. -/
theorem touches_hide_of_shown (shown : m.hiddenBy range = false) {type : MetadataType}
    (operation : type = .assign ∨ type = .flush) (b : Nat) :
    (v.hide range).Touches type m b ↔ v.Touches type m b := by
  by_cases same : m.type = type
  · refine touches_hide ((meets_eq_false ..).mp ?_) type b
    rw [Metadata.hiddenBy, same] at shown
    rcases operation with rfl | rfl <;> exact shown
  · exact iff_of_false (fun touches => same touches.1) fun touches => same touches.1

/-- A record that is shown has the same effect. An include inside the bracket concerns
other bytes, so it does not open the range again. -/
theorem after_hide (shown : m.hiddenBy range = false) (bracketed : m.Bracketed range) :
    (v.hide range).after m = (v.after m).hide range := by
  classical
  have assign := @touches_hide_of_shown range v m shown .assign (.inl rfl)
  have flush := @touches_hide_of_shown range v m shown .flush (.inr rfl)
  apply ByteState.ext
  · rw [after_excluded, hide, hide, after_excluded, excludeStep, excludeStep]
    cases type : m.type with
    | exclude => exact Set.union_right_comm _ _ _
    | reinclude =>
      have apart : Disjoint range.elements m.bytes :=
        ((meets_eq_false ..).mp (bracketed.2 (.inr type))).symm
      exact Set.union_sdiff_distrib.trans (congrArg _ apart.sdiff_eq_left)
    | _ => rfl
  · ext b
    change b ∈ ((v.hide range).after m).dirty ↔ b ∈ (v.after m).dirty
    rw [mem_after_dirty, mem_after_dirty, assign, flush]
    rfl
  · rfl
  · funext b
    change ((v.hide range).after m).stamp b = (v.after m).stamp b
    rw [after_stamp, after_stamp]
    exact if_congr (assign b) rfl (if_congr (flush b) rfl rfl)
  · rfl
  · rfl
  · rfl

/-- A record that is shown waits for the end of its transaction in both states or in
neither. -/
theorem pendingStep_hide (shown : m.hiddenBy range = false) (pending : List Metadata) :
    (v.hide range).pendingStep m pending = v.pendingStep m pending := by
  classical
  unfold pendingStep
  cases type : m.type with
  | assign =>
    rw [Metadata.hiddenBy, type] at shown
    have apart := (meets_eq_false ..).mp shown
    exact if_congr (and_congr_left fun _ => effective_hide apart) rfl rfl
  | _ => rfl

/-- A record that is shown gets the same reports, type by type: the ranges that its
check reads lie apart from the hidden one. -/
theorem reports_hide (shown : m.hiddenBy range = false) (bracketed : m.Bracketed range)
    (warn : Bool) (pending : List Metadata) :
    (v.hide range).reports warn m pending = v.reports warn m pending := by
  classical
  unfold reports
  cases type : m.type with
  | assign =>
    rw [Metadata.hiddenBy, type] at shown
    have apart := (meets_eq_false ..).mp shown
    exact if_congr (and_congr_left fun _ => effective_hide apart) rfl rfl
  | flush =>
    rw [Metadata.hiddenBy, type] at shown
    have apart := (meets_eq_false ..).mp shown
    exact if_congr (and_congr_right fun _ => and_congr_left fun _ => effective_hide apart) rfl rfl
  | persist =>
    rw [Metadata.hiddenBy, type] at shown
    have apart := (meets_eq_false ..).mp shown
    exact persistReports_congr (disjoint_hide apart) fun _ _ => Iff.rfl
  | order =>
    rw [Metadata.hiddenBy, type] at shown
    obtain ⟨early, late⟩ := Bool.or_eq_false_iff.mp shown
    exact orderReports_congr (disjoint_hide ((meets_eq_false ..).mp early))
      (disjoint_hide ((meets_eq_false ..).mp late)) (fun _ _ => rfl) fun _ _ => rfl
  | transactionEnd => exact absurd type bracketed.1
  | _ => rfl

/-- A record that meets the range does not take effect. -/
theorem not_effective_hide (meeting : meets m.addrinterval range = true) :
    ¬ Disjoint m.bytes (v.hide range).excluded := fun apart =>
  (meets_eq_true ..).mp meeting (apart.mono_right Set.subset_union_right)

/-- A record that is hidden changes nothing. Assigns and flushes are skipped, and
queries change no state anyway. -/
theorem after_hidden (hidden : m.hiddenBy range = true) (cleared : v.stored = []) :
    (v.hide range).after m = v.hide range := by
  have same : ({ (v.hide range).next (fun _ => m) 0 with stored := [] } : ByteState) =
      { v.hide range with stored := [] } := by
    unfold Metadata.hiddenBy at hidden
    cases type : m.type with
    | assign | flush =>
      rw [type] at hidden
      have ignored : ¬ (v.hide range).Effective m := fun effective =>
        not_effective_hide hidden effective.2
      rw [next_ineffective _ (by simp [Metadata.IsOperation, type]) ignored]
    | persist | order =>
      rw [next_quiet _ _ _ (by simp [type]) (by simp [type])]
      simp [type, excludeStep, depthStep]
    | _ => simp [type] at hidden
  rw [after, same]
  ext <;> simp [hide, cleared]

/-- A hidden record gets no report and is not checked later. Every check begins with the
test of the exclusions. -/
theorem silent_hidden (hidden : m.hiddenBy range = true) (warn : Bool) (pending : List Metadata) :
    (v.hide range).reports warn m pending = [] ∧
      (v.hide range).pendingStep m pending = pending := by
  unfold reports pendingStep
  unfold Metadata.hiddenBy at hidden
  cases type : m.type with
  | assign =>
    rw [type] at hidden
    have ignored : ¬ (v.hide range).Effective m := fun effective =>
      not_effective_hide hidden effective.2
    simp [assignReports, ignored]
  | flush =>
    rw [type] at hidden
    have ignored : ¬ (v.hide range).Effective m := fun effective =>
      not_effective_hide hidden effective.2
    simp [flushReports, ignored]
  | persist =>
    rw [type] at hidden
    have ignored : ¬ (v.hide range).Effective m := fun effective =>
      not_effective_hide hidden effective.2
    simp [persistReports, ignored]
  | order =>
    rw [type] at hidden
    have ignored : ¬ (v.hide range).Queried m := by
      rintro ⟨_, early, late⟩
      rcases Bool.or_eq_true_iff.mp hidden with meeting | meeting
      · exact not_effective_hide meeting early
      · exact (meets_eq_true ..).mp meeting (late.mono_right Set.subset_union_right)
    simp [orderReports, ignored]
  | _ => simp [type] at hidden

end Hide

end ByteState

section Pass

/-- No fence is hidden, so flushes find the same fences ahead. -/
theorem fenceAmong_filter (range : RightOpen Nat) (records : List Metadata) :
    fenceAmong (records.filter fun m => !m.hiddenBy range) = fenceAmong records := by
  induction records with
  | nil => rfl
  | cons m rest ih =>
    cases hidden : m.hiddenBy range with
    | true =>
      have other : m.type ≠ .fence := by
        rintro fence
        simp [Metadata.hiddenBy, fence] at hidden
      rw [List.filter_cons_of_neg (by simp [hidden]), ih]
      simp [fenceAmong, other]
    | false =>
      rw [List.filter_cons_of_pos (by simp [hidden])]
      simp only [fenceAmong, List.any_cons] at ih ⊢
      rw [ih]

variable (warn : Bool) {range : RightOpen Nat} {k l : RecordState} {m : Metadata}

/-- What one record does to the excluded bytes, skipped or not. -/
theorem machine_excluded (later : List Metadata) (m : Metadata) (k : RecordState) :
    (RecordState.machine warn later m k).1.bytes.excluded = excludeStep k.bytes.excluded m := by
  unfold RecordState.machine
  split_ifs with skipped
  · rw [excludeStep, skipped.1]
  · rfl

/-- Behind some records the excluded bytes are those of their excludes and includes. -/
theorem run_excluded (later records : List Metadata) (k : RecordState) :
    (run (RecordState.machine warn) later records k).bytes.excluded =
      records.foldl excludeStep k.bytes.excluded := by
  induction records generalizing k with
  | nil => rfl
  | cons m rest ih => rw [run, ih, machine_excluded, List.foldl_cons]

/-- The byte state keeps no addresses. -/
theorem run_cleared (later records : List Metadata) (cleared : k.bytes.stored = []) :
    (run (RecordState.machine warn) later records k).bytes.stored = [] := by
  induction records generalizing k with
  | nil => exact cleared
  | cons m rest ih =>
    apply ih
    unfold RecordState.machine
    split_ifs
    · exact cleared
    · rfl

/-- Records do not notice what comes later, as long as a fence is found in both cases or in
neither. -/
theorem run_ahead {later later' : List Metadata} (ahead : fenceAmong later = fenceAmong later')
    (records : List Metadata) (k : RecordState) :
    run (RecordState.machine warn) later records k =
        run (RecordState.machine warn) later' records k ∧
      output (RecordState.machine warn) later records k =
        output (RecordState.machine warn) later' records k := by
  apply simulate_same _ _ Eq concatenates_eq later later' _ records _ _ rfl
  rintro m rest k _ rfl
  have same := RecordState.machine_congr warn m k fun _ => show
      fenceAmong (rest ++ later) = fenceAmong (rest ++ later') by
    rw [fenceAmong_append, fenceAmong_append, ahead]
  rw [same]
  exact ⟨rfl, rfl⟩

/-- The states inside the bracket and in the trace without it: they differ in the
exclusion of the range, which was not excluded before. -/
structure Hides (range : RightOpen Nat) (k l : RecordState) : Prop where
  bytes : l.bytes = k.bytes.hide range
  pending : l.pending = k.pending
  cleared : k.bytes.stored = []
  apart : Disjoint k.bytes.excluded range.elements

/-- A record that is hidden does nothing. -/
theorem Hides.hidden (hides : Hides range k l) (hidden : m.hiddenBy range = true)
    (later : List Metadata) : RecordState.machine warn later m l = (l, []) := by
  obtain ⟨bytes, pending⟩ := l
  obtain ⟨rfl, _, cleared, _⟩ := hides
  unfold RecordState.machine
  split_ifs
  · rfl
  · obtain ⟨silent, unchanged⟩ := ByteState.silent_hidden (v := k.bytes) hidden warn pending
    rw [RecordState.next, RecordState.reports, silent, unchanged,
      ByteState.after_hidden hidden cleared]

/-- A record that is shown does the same as in the trace without the bracket. -/
theorem Hides.shown (hides : Hides range k l) (shown : m.hiddenBy range = false)
    (bracketed : m.Bracketed range) {later later' : List Metadata}
    (ahead : fenceAmong later = fenceAmong later') :
    Hides range (RecordState.machine warn later' m k).1 (RecordState.machine warn later m l).1 ∧
      (RecordState.machine warn later m l).2 = (RecordState.machine warn later' m k).2 := by
  obtain ⟨bytes, pending⟩ := l
  obtain ⟨rfl, rfl, cleared, apart⟩ := hides
  unfold RecordState.machine
  rw [ahead]
  split_ifs
  · exact ⟨⟨rfl, rfl, cleared, apart⟩, rfl⟩
  · refine ⟨⟨ByteState.after_hide shown bracketed, ByteState.pendingStep_hide shown _, rfl, ?_⟩,
      ByteState.reports_hide shown bracketed warn _⟩
    rw [RecordState.next, ByteState.after_excluded, excludeStep]
    cases type : m.type with
    | exclude =>
      have outside := (meets_eq_false ..).mp (bracketed.2 (.inl type))
      exact apart.union_left outside
    | reinclude => exact apart.mono_left Set.sdiff_subset
    | _ => exact apart

/-- The records between the exclude and the include. The induction is on them; a hidden
one is left out on one side, and a shown one does the same on both. -/
theorem Hides.pass {body : List Metadata} (bracketed : ∀ m ∈ body, m.Bracketed range)
    {later later' : List Metadata} (ahead : fenceAmong later = fenceAmong later')
    (hides : Hides range k l) :
    Hides range (run (RecordState.machine warn) later'
        (body.filter fun m => !m.hiddenBy range) k) (run (RecordState.machine warn) later body l) ∧
      output (RecordState.machine warn) later body l =
        output (RecordState.machine warn) later' (body.filter fun m => !m.hiddenBy range) k := by
  induction body generalizing k l with
  | nil => exact ⟨hides, rfl⟩
  | cons m rest ih =>
    have tail := fun n member => bracketed n (List.mem_cons_of_mem m member)
    cases hidden : m.hiddenBy range with
    | true =>
      rw [List.filter_cons_of_neg (by simp [hidden]), run, output, hides.hidden warn hidden,
        List.nil_append]
      exact ih tail hides
    | false =>
      have fences : fenceAmong (rest ++ later) =
          fenceAmong ((rest.filter fun m => !m.hiddenBy range) ++ later') := by
        rw [fenceAmong_append, fenceAmong_append, ahead, fenceAmong_filter]
      obtain ⟨next, printed⟩ :=
        hides.shown warn hidden (bracketed m List.mem_cons_self) fences
      obtain ⟨final, others⟩ := ih tail next
      rw [List.filter_cons_of_pos (by simp [hidden]), run, run, output, output, printed, others]
      exact ⟨final, rfl⟩

/-- The exclude opens the bracket: behind it the range is excluded in addition. -/
theorem hides_behind_exclude {opening : Metadata} (exclude : opening.type = .exclude)
    (later : List Metadata) (cleared : k.bytes.stored = [])
    (apart : Disjoint k.bytes.excluded opening.bytes) :
    Hides opening.addrinterval k (RecordState.machine warn later opening k).1 ∧
      (RecordState.machine warn later opening k).2 = [] := by
  rw [RecordState.machine_of_ne_flush warn later k (by simp [exclude])]
  refine ⟨⟨?_, ?_, cleared, apart⟩, ?_⟩
  · rw [RecordState.next, ByteState.after, ByteState.next_quiet _ _ _ (by simp [exclude])
      (by simp [exclude])]
    simp [exclude, excludeStep, depthStep, ByteState.hide, cleared, Metadata.bytes]
  · simp [RecordState.next, ByteState.pendingStep, exclude]
  · simp [RecordState.reports, ByteState.reports, exclude]

/-- The include closes it, and nothing of it is left, because the range was not excluded
before the bracket. -/
theorem Hides.behind_include (hides : Hides range k l) {closing : Metadata}
    (reinclude : closing.type = .reinclude) (same : closing.addrinterval = range)
    (later : List Metadata) : RecordState.machine warn later closing l = (k, []) := by
  obtain ⟨bytes, pending⟩ := l
  obtain ⟨rfl, rfl, cleared, apart⟩ := hides
  have restored : (k.bytes.excluded ∪ range.elements) \ closing.bytes = k.bytes.excluded := by
    rw [Metadata.bytes, same, Set.union_sdiff_right, apart.sdiff_eq_left]
  have unchanged : (k.bytes.hide range).after closing = k.bytes := by
    rw [ByteState.after, ByteState.next_quiet _ _ _ (by simp [reinclude]) (by simp [reinclude])]
    ext <;> simp [reinclude, excludeStep, depthStep, ByteState.hide, cleared, restored]
  rw [RecordState.machine_of_ne_flush warn later _ (by simp [reinclude]), RecordState.next,
    unchanged]
  simp [RecordState.reports, ByteState.reports, ByteState.pendingStep, reinclude]

end Pass

section Verdicts

/-- In a trace that has excluded none of the bytes, the records are as good as the shown
ones. -/
def Erases (bytes : Set Nat) (records shown : List Metadata) : Prop :=
  ∀ (icl : Icl) (warn : Bool) (front rest : List Metadata),
    Disjoint (front.foldl excludeStep ∅) bytes →
      verdict icl warn (front ++ (records ++ rest)) = verdict icl warn (front ++ (shown ++ rest))

/-- Records are as good as themselves. -/
theorem Erases.refl (bytes : Set Nat) (records : List Metadata) : Erases bytes records records :=
  fun _ _ _ _ _ => rfl

/-- If more bytes are required not to be excluded, the records still are. -/
theorem Erases.mono {bytes more : Set Nat} {records shown : List Metadata}
    (erases : Erases bytes records shown) (less : bytes ⊆ more) : Erases more records shown :=
  fun icl warn front rest fresh => erases icl warn front rest (fresh.mono_right less)

/-- Only excludes and includes change the excluded bytes. -/
theorem foldl_excludeStep_quiet {records : List Metadata}
    (quiet : ∀ m ∈ records, m.type ≠ .exclude ∧ m.type ≠ .reinclude) (excluded : Set Nat) :
    records.foldl excludeStep excluded = excluded := by
  induction records with
  | nil => rfl
  | cons m rest ih =>
    have same : excludeStep excluded m = excluded := by
      obtain ⟨exclude, reinclude⟩ := quiet m List.mem_cons_self
      unfold excludeStep
      split
      · contradiction
      · contradiction
      · rfl
    rw [List.foldl_cons, same]
    exact ih fun m member => quiet m (List.mem_cons_of_mem _ member)

/-- Parts of a trace can be replaced one after the other. The second one is replaced
behind the shown records of the first, which must not exclude anything. -/
theorem Erases.append {bytes : Set Nat} {first second shown other : List Metadata}
    (before : Erases bytes first shown) (behind : Erases bytes second other)
    (quiet : ∀ m ∈ shown, m.type ≠ .exclude ∧ m.type ≠ .reinclude) :
    Erases bytes (first ++ second) (shown ++ other) := by
  intro icl warn front rest fresh
  have still : Disjoint ((front ++ shown).foldl excludeStep ∅) bytes := by
    rwa [List.foldl_append, foldl_excludeStep_quiet quiet]
  rw [List.append_assoc, before icl warn front _ fresh, ← List.append_assoc,
    behind icl warn (front ++ shown) rest still, List.append_assoc, List.append_assoc]

/-- A bracket shows the records in it that do not meet its range.

The trace is cut into the part in front of the bracket, the records in it and the part
behind. The first part finds the same fences ahead in both traces, the second is the
pass of hidden and shown records, and behind the include the two states are equal. -/
theorem erases_bracket {opening closing : Metadata} (exclude : opening.type = .exclude)
    (reinclude : closing.type = .reinclude) (same : closing.addrinterval = opening.addrinterval)
    {body : List Metadata} (bracketed : ∀ m ∈ body, m.Bracketed opening.addrinterval) :
    Erases opening.bytes (opening :: (body ++ [closing]))
      (body.filter fun m => !m.hiddenBy opening.addrinterval) := by
  intro icl warn front rest fresh
  have whole : opening :: (body ++ [closing]) ++ rest = opening :: (body ++ closing :: rest) := by
    simp
  have behind : fenceAmong (closing :: rest) = fenceAmong rest := by
    simp [fenceAmong, reinclude]
  have ahead : fenceAmong (opening :: (body ++ closing :: rest)) =
      fenceAmong ((body.filter fun m => !m.hiddenBy opening.addrinterval) ++ rest) := by
    have first : fenceAmong (opening :: (body ++ closing :: rest)) =
        fenceAmong (body ++ closing :: rest) := by simp [fenceAmong, exclude]
    rw [first, fenceAmong_append, fenceAmong_append, behind, fenceAmong_filter]
  obtain ⟨reached, printed⟩ := run_ahead warn ahead front .initial
  obtain ⟨hides, silent⟩ := hides_behind_exclude warn exclude (body ++ closing :: rest)
    (run_cleared warn ((body.filter fun m => !m.hiddenBy opening.addrinterval) ++ rest) front
      (k := .initial) rfl) (by rw [run_excluded]; exact fresh)
  obtain ⟨hides, others⟩ := hides.pass warn bracketed behind
  have closed := hides.behind_include warn reinclude same rest
  rw [whole, verdict_eq, verdict_eq]
  simp only [run_append, output_append, List.append_nil, reached, printed, run, output, silent,
    List.nil_append, others, closed]

variable (icl : Icl) (warn : Bool)

/-- A trace with a bracket has the verdict of the trace without the bracket and without
the records in it that meet its range. -/
theorem bracket_erases_hidden_records (front body rest : List Metadata)
    {opening closing : Metadata} (exclude : opening.type = .exclude)
    (reinclude : closing.type = .reinclude) (same : closing.addrinterval = opening.addrinterval)
    (fresh : Disjoint (front.foldl excludeStep ∅) opening.bytes)
    (bracketed : ∀ m ∈ body, m.Bracketed opening.addrinterval) :
    verdict icl warn (front ++ opening :: (body ++ closing :: rest)) =
      verdict icl warn (front ++ ((body.filter fun m => !m.hiddenBy opening.addrinterval) ++
        rest)) := by
  have erased := erases_bracket exclude reinclude same bracketed icl warn front rest fresh
  rwa [List.cons_append, List.append_assoc] at erased

/-- A log entry that is written inside a bracket, and a write behind it. -/
def hiddenEntry : List Metadata :=
  [{ type := .transactionBegin }] ++ { type := .exclude, addr := 0, size := 16 } ::
    ([{ type := .assign, addr := 0, size := 8 }, { type := .assign, addr := 8, size := 8 }] ++
      { type := .reinclude, addr := 0, size := 16 } ::
        [{ type := .assign, addr := 64, size := 8, lineNum := 1 },
          { type := .transactionEnd, lineNum := 2 }])

/-- The trace of `hiddenEntry` without its bracket and the entry inside. -/
def withoutEntry : List Metadata :=
  [{ type := .transactionBegin }, { type := .assign, addr := 64, size := 8, lineNum := 1 },
    { type := .transactionEnd, lineNum := 2 }]

/-- The entry inside the bracket leaves no mark on the verdict, which still has the two
errors about the write behind it. -/
theorem bracket_erases_hidden_records_entry :
    verdict (Segments.segments Nat Int) false hiddenEntry =
        verdict (Segments.segments Nat Int) false withoutEntry ∧
      (verdict (Segments.segments Nat Int) false hiddenEntry).reports.length = 2 := by
  refine ⟨?_, by decide⟩
  exact bracket_erases_hidden_records _ false [{ type := .transactionBegin }] _ _ rfl rfl rfl
    (by simp [excludeStep]) (by decide)

end Verdicts

end PMTest

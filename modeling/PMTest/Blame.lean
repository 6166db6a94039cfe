import Mathlib.Data.List.Nodup
import Mathlib.Data.List.Perm.Subperm
import PMTest.Placement

/-!
# No message is printed twice

A record is checked in its own turn. An assign inside a transaction is checked once more
when the outermost transaction ends. Its address stays in the list of stored addresses
behind that end, and stray ends may follow, but the list is not read again before a begin
outside of every transaction has emptied it: the depth can only come back from zero to one
by such a begin.

So there is at most one message about a record from its own turn, and an assign can get one
PERSIST ERROR besides. The output is no longer than the trace and its assigns.
-/

namespace PMTest

open Lookahead

/-- The record that a line is about, and whether its message is an ASSIGN ERROR. -/
def Line.blame (line : Line) : Ptr × Bool := (line.checked, line.report.isAssignError)

section Step

variable {warn : Bool} {memory : Ptr → Metadata} {cur : Ptr} {v : ByteState}

/-- The lines of a record's own turn, and which of them are ASSIGN ERRORs. -/
theorem own_blames {reports : List Report} (single : reports.length ≤ 1) {flag : Bool}
    (kind : ∀ report ∈ reports, report.isAssignError = flag) (checked : Ptr) :
    (reports.map (Line.mk cur checked)).map Line.blame = [] ∨
      (reports.map (Line.mk cur checked)).map Line.blame = [(checked, flag)] := by
  match reports, single with
  | [], _ => exact .inl rfl
  | [report], _ =>
    refine .inr ?_
    rw [List.map_singleton, List.map_singleton, Line.blame]
    simp only [kind report List.mem_cons_self]

/-- The checks at the end of the outermost transaction print a line for some of the stored
addresses, in their order. -/
theorem recheck_blames (cur : Ptr) (v : ByteState) (memory : Ptr → Metadata) (stored : List Ptr) :
    ((stored.flatMap fun p => (v.persistReports (memory p)).map (Line.mk cur p)).map
      Line.blame).Sublist (stored.map fun p => (p, false)) := by
  induction stored with
  | nil => exact .refl _
  | cons p rest ih =>
    obtain ⟨single, persist⟩ := v.persistReports_single (memory p)
    rw [List.flatMap_cons, List.map_append, List.map_cons]
    have kind : ∀ report ∈ v.persistReports (memory p), report.isAssignError = false := by
      intro report member
      obtain ⟨lower, upper, rfl⟩ := persist report member
      rfl
    rcases own_blames single kind p with silent | blamed
    · rw [silent, List.nil_append]
      exact ih.cons _
    · rw [blamed]
      exact ih.cons_cons _

/-- A turn that is not such an end prints at most one line, about its own record. There
is one case for each type of record. -/
theorem lines_blames (warn : Bool) (memory : Ptr → Metadata) (cur : Ptr) (v : ByteState) :
    ((memory cur).type = .transactionEnd ∧ v.depth = 1 ∧
      ((v.lines warn memory cur).map Line.blame).Sublist (v.stored.map fun p => (p, false))) ∨
    ((v.lines warn memory cur).map Line.blame).Sublist
      [(cur, decide ((memory cur).type = .assign))] := by
  have listed {reports : List Report} (single : reports.length ≤ 1)
      (kind : ∀ report ∈ reports,
        report.isAssignError = decide ((memory cur).type = .assign)) :
      ((reports.map (Line.mk cur cur)).map Line.blame).Sublist
        [(cur, decide ((memory cur).type = .assign))] := by
    rcases own_blames single kind cur with silent | blamed
    · rw [silent]
      exact List.nil_sublist _
    · rw [blamed]
  unfold ByteState.lines
  cases type : (memory cur).type with
  | assign =>
    rw [type] at listed
    apply Or.inr (listed _ _) <;> unfold ByteState.assignReports <;> split_ifs <;>
      simp [Report.isAssignError]
  | flush =>
    rw [type] at listed
    apply Or.inr (listed _ _) <;> unfold ByteState.flushReports <;> split_ifs <;>
      simp [Report.isAssignError]
  | persist =>
    rw [type] at listed
    obtain ⟨single, persist⟩ := v.persistReports_single (memory cur)
    refine .inr (listed single fun report member => ?_)
    obtain ⟨lower, upper, rfl⟩ := persist report member
    rfl
  | order =>
    rw [type] at listed
    apply Or.inr (listed _ _) <;> unfold ByteState.orderReports <;> split_ifs <;>
      simp [Report.isAssignError]
  | transactionAdd =>
    rw [type] at listed
    apply Or.inr (listed _ _) <;> unfold ByteState.addReports <;> split_ifs <;>
      simp [Report.isAssignError]
  | transactionEnd =>
    by_cases outermost : v.depth - 1 = 0
    · refine .inl ⟨rfl, by omega, ?_⟩
      rw [if_pos outermost]
      exact recheck_blames cur v memory v.stored
    · rw [if_neg outermost]
      exact .inr (List.nil_sublist _)
  | _ => exact .inr (List.nil_sublist _)

/-- The stored addresses stay distinct. -/
theorem next_stored_nodup (distinct : v.stored.Nodup) (fresh : cur ∉ v.stored) :
    (v.next memory cur).stored.Nodup := by
  simp only [ByteState.next]
  cases (memory cur).type with
  | assign =>
    simp only
    split_ifs
    · rw [← List.concat_eq_append]
      exact distinct.concat fresh
    · exact distinct
  | transactionBegin =>
    simp only
    split_ifs
    · exact List.nodup_nil
    · exact distinct
  | _ => exact distinct

/-- An address that is stored inside a transaction was stored inside of it before, or is
the address of an assign. A begin that leads into a transaction from outside has none. -/
theorem stored_inside {p : Ptr} (member : p ∈ (v.next memory cur).stored)
    (inside : 0 < (v.next memory cur).depth) :
    (p ∈ v.stored ∧ 0 < v.depth) ∨ (p = cur ∧ (memory cur).type = .assign) := by
  rcases (ByteState.mem_next_stored memory cur v p).mp member with ⟨old, kept⟩ | ⟨rfl, assign, _⟩
  · refine .inl ⟨old, ?_⟩
    change 0 < depthStep v.depth (memory cur) at inside
    rw [depthStep] at inside
    split at inside
    · rename_i begins
      have nonzero : v.depth ≠ 0 := fun zero => kept ⟨begins, zero⟩
      omega
    · omega
    · exact inside
  · exact .inr ⟨rfl, assign⟩

end Step

section Pass

variable (warn : Bool) (memory : Ptr → Metadata)

/-- What a line may be about: a record that is still to come, or an assign that is stored
in an open transaction. -/
def Blamable (items : List Ptr) (v : ByteState) (key : Ptr × Bool) : Prop :=
  (key.1 ∈ items ∧ (key.2 = true → (memory key.1).type = .assign)) ∨
    (key.1 ∈ v.stored ∧ key.2 = false ∧ 0 < v.depth)

variable {warn memory}

/-- The turn of a record that is not skipped, and the turns behind it.

A later line is about a later record, or about an assign that is stored in an open
transaction behind this turn. So it could repeat a line of this turn only if that one is
about a stored assign; but behind the end that prints such lines no transaction is open. -/
theorem blames_cons {cur : Ptr} {rest : List Ptr} {v : ByteState} {later : List (Ptr × Bool)}
    (distinct : (cur :: rest).Nodup) (stored : v.stored.Nodup)
    (apart : ∀ p ∈ v.stored, p ∉ cur :: rest) (nodup : later.Nodup)
    (blamable : ∀ key ∈ later, Blamable memory rest (v.next memory cur) key) :
    ((v.lines warn memory cur).map Line.blame ++ later).Nodup ∧
      ∀ key ∈ (v.lines warn memory cur).map Line.blame ++ later,
        Blamable memory (cur :: rest) v key := by
  obtain ⟨fresh, _⟩ := List.nodup_cons.mp distinct
  -- what comes later is not about the records of this turn
  have behind : ∀ key ∈ later, Blamable memory (cur :: rest) v key ∧
      (key.1 = cur → key.2 = false ∧ (memory cur).type = .assign) := by
    intro key member
    rcases blamable key member with ⟨ahead, kind⟩ | ⟨held, kind, inside⟩
    · refine ⟨.inl ⟨List.mem_cons_of_mem cur ahead, kind⟩, fun same => ?_⟩
      exact absurd (same ▸ ahead) fresh
    · rcases stored_inside held inside with ⟨old, inside⟩ | ⟨same, assign⟩
      · refine ⟨.inr ⟨old, kind, inside⟩, fun same => ?_⟩
        exact absurd (same ▸ List.mem_cons_self) (apart _ old)
      · refine ⟨.inl ⟨same ▸ List.mem_cons_self, fun true_kind => ?_⟩, fun _ => ⟨kind, assign⟩⟩
        rw [kind] at true_kind
        cases true_kind
  rcases lines_blames warn memory cur v with ⟨ends, depth, printed⟩ | printed
  · -- the end of the outermost transaction, behind which nothing is open
    have outside : (v.next memory cur).depth = 0 := by
      change depthStep v.depth (memory cur) = 0
      rw [depthStep, ends, depth]
      rfl
    have keys : (v.stored.map fun p => (p, false)).Nodup :=
      stored.map fun p q same => (Prod.mk.inj same).1
    refine ⟨List.nodup_append.mpr ⟨printed.nodup keys, nodup, ?_⟩, ?_⟩
    · rintro key here other there rfl
      obtain ⟨p, held, rfl⟩ := List.mem_map.mp (printed.subset here)
      rcases blamable _ there with ⟨ahead, _⟩ | ⟨_, _, inside⟩
      · exact apart p held (List.mem_cons_of_mem cur ahead)
      · omega
    · intro key member
      rcases List.mem_append.mp member with here | there
      · obtain ⟨p, held, rfl⟩ := List.mem_map.mp (printed.subset here)
        exact .inr ⟨held, rfl, by omega⟩
      · exact (behind key there).1
  · refine ⟨List.nodup_append.mpr ⟨printed.nodup (List.nodup_singleton _), nodup, ?_⟩, ?_⟩
    · rintro key here other there rfl
      obtain rfl := List.mem_singleton.mp (printed.subset here)
      obtain ⟨kind, assign⟩ := (behind _ there).2 rfl
      simp [assign] at kind
    · intro key member
      rcases List.mem_append.mp member with here | there
      · obtain rfl := List.mem_singleton.mp (printed.subset here)
        exact .inl ⟨List.mem_cons_self, of_decide_eq_true⟩
      · exact (behind key there).1

variable (warn memory) in
/-- Along a pass no line is about the same record and of the same kind as another one,
and every line is about something blamable at its start. The induction is on the
records, with the state generalized. -/
theorem blames_pass {items : List Ptr} (distinct : items.Nodup) {v : ByteState}
    (stored : v.stored.Nodup) (apart : ∀ p ∈ v.stored, p ∉ items) :
    ((output (ByteState.machine warn memory) [] items v).map Line.blame).Nodup ∧
      ∀ key ∈ (output (ByteState.machine warn memory) [] items v).map Line.blame,
        Blamable memory items v key := by
  induction items generalizing v with
  | nil => exact ⟨List.nodup_nil, fun key member => absurd member List.not_mem_nil⟩
  | cons cur rest ih =>
    obtain ⟨fresh, others⟩ := List.nodup_cons.mp distinct
    have unstored : cur ∉ v.stored := fun held => apart cur held List.mem_cons_self
    rw [output, List.append_nil, List.map_append]
    unfold ByteState.machine
    split_ifs with skipped
    · obtain ⟨nodup, blamable⟩ := ih others stored fun p held ahead =>
        apart p held (List.mem_cons_of_mem cur ahead)
      refine ⟨nodup, fun key member => ?_⟩
      rcases blamable key member with ⟨ahead, kind⟩ | held
      · exact .inl ⟨List.mem_cons_of_mem cur ahead, kind⟩
      · exact .inr held
    · have kept (p : Ptr) (held : p ∈ (v.next memory cur).stored) : p ∉ rest := by
        rcases (ByteState.mem_next_stored memory cur v p).mp held with ⟨old, _⟩ | ⟨rfl, _⟩
        · exact fun ahead => apart p old (List.mem_cons_of_mem cur ahead)
        · exact fresh
      obtain ⟨nodup, blamable⟩ := ih others (next_stored_nodup stored unstored) kept
      exact blames_cons distinct stored apart nodup blamable

end Pass

/-- No two messages are about one record and of one kind, where the kinds are ASSIGN ERRORs
and all others, so the output has at most one line for each record and one more for each
assign. -/
theorem no_message_repeated (icl : Icl) (warn : Bool) (t : Trace) :
    ((veriProc icl warn t.memory t.veriptr).stdout.map Line.blame).Nodup ∧
      (veriProc icl warn t.memory t.veriptr).stdout.length ≤
        t.records.length + t.records.countP fun m => m.type = .assign := by
  rw [(veriProc_refines icl warn t).1]
  obtain ⟨nodup, blamable⟩ := blames_pass warn t.memory t.distinct (v := .initial)
    List.nodup_nil fun p member => absurd member List.not_mem_nil
  refine ⟨nodup, ?_⟩
  have among : (output (ByteState.machine warn t.memory) [] t.veriptr .initial).map Line.blame ⊆
      t.veriptr.map (fun p => (p, false)) ++
        (t.veriptr.filter fun p => (t.memory p).type = .assign).map fun p => (p, true) := by
    rintro ⟨p, kind⟩ member
    rcases blamable _ member with ⟨read, assign⟩ | ⟨impossible, _⟩
    · cases kind with
      | false => exact List.mem_append_left _ (List.mem_map.mpr ⟨p, read, rfl⟩)
      | true =>
        have kept : p ∈ t.veriptr.filter fun p => (t.memory p).type = .assign :=
          List.mem_filter.mpr ⟨read, decide_eq_true (assign rfl)⟩
        exact List.mem_append_right _ (List.mem_map.mpr ⟨p, kept, rfl⟩)
    · exact absurd impossible List.not_mem_nil
  have bounded := (List.subperm_of_subset nodup among).length_le
  rw [List.length_map, List.length_append, List.length_map, List.length_map,
    ← List.countP_eq_length_filter] at bounded
  rwa [Trace.records, List.length_map, List.countP_map]

end PMTest

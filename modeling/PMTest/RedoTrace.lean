import PMTest.Brackets
import PMTest.RedoRecovery
import PMTest.Segments

/-!
# What the checker sees of a redo log

The functions of the redo log exclude the words that they store to and put them back
afterwards. Of a whole commit the checker is left with the flush of the log and the four
fences. There is one exception: `redo_log_store_last` stores the value of the last entry
outside of any bracket, so this store is checked like one of the program under test.
-/

namespace PMTest.RedoLog

open Intervals CrashImages

section Records

variable (b : Build) (file : List Char)

/-- The records of operations in a row are put together. -/
@[simp] theorem records_append (ops later : List Op) :
    records (ops ++ later) = records ops ++ records later := List.filterMap_append

/-- A store through the macro is recorded as one assign of a word. -/
@[simp] theorem records_pmEqu (addr : Nat) (value : BitVec 64) (line : Nat) :
    records (pmEqu file addr value line) = [newMetadataRange .assign addr 8 file line] := rfl

/-- A flush is recorded once for its whole range, however many cache lines are written
back. -/
@[simp] theorem records_pmemFlush (addr len : Nat) :
    records (pmemFlush b addr len) =
      [newMetadataRange .flush addr len b.pmemFile b.flushLine] := by
  have silent : records ((cacheLines addr len).map
      fun uptr => Op.instr (.writeBack (inLine uptr))) = [] := by
    rw [records, List.filterMap_map, List.filterMap_eq_nil_iff]
    exact fun _ _ => rfl
  exact congrArg (_ :: ·) silent

/-- A persist is recorded as a flush and a fence. -/
@[simp] theorem records_pmemPersist (addr len : Nat) :
    records (pmemPersist b addr len) =
      [newMetadataRange .flush addr len b.pmemFile b.flushLine,
        newMetadata .fence b.pmemFile b.fenceLine] := by
  rw [pmemPersist, records_append, records_pmemFlush]
  rfl

/-- The records of a bracket stand between its exclude and its include. -/
theorem records_excluding (addr size first last : Nat) (body : List Op) :
    records (excluding file addr size first last body) =
      newMetadataRange .exclude addr size file first ::
        (records body ++ [newMetadataRange .reinclude addr size file last]) := by
  have whole : records (excluding file addr size first last body) =
      newMetadataRange .exclude addr size file first ::
        records (body ++ [.record (.reinclude addr size file last)]) := rfl
  rw [whole, records_append]
  rfl

end Records

section Brackets

variable {b : Build} {file : List Char} {addr size first last a : Nat} {body : List Op}

/-- A range that stays inside the address space. -/
theorem addrinterval_newMetadataRange (type : MetadataType) (line : Nat) (small : size < 2 ^ 32)
    (low : addr + size < 2 ^ 64) :
    (newMetadataRange type addr size file line).addrinterval = ⟨addr, addr + size⟩ := by
  simp only [Metadata.addrinterval, newMetadataRange, endaddr, Nat.mod_eq_of_lt small,
    Nat.mod_eq_of_lt low]

/-- The bracket of a range hides the stores and the flushes of its words. -/
theorem hiddenBy_word {type : MetadataType} (operation : type = .assign ∨ type = .flush)
    (line : Nat) (lower : addr ≤ a) (upper : a + 8 ≤ addr + size) (low : addr + size < 2 ^ 64) :
    (newMetadataRange type a 8 file line).hiddenBy ⟨addr, addr + size⟩ = true := by
  have common : meets (newMetadataRange type a 8 file line).addrinterval ⟨addr, addr + size⟩ =
      true := by
    rw [addrinterval_newMetadataRange type line (by decide) (by omega), meets_eq_true,
      Set.not_disjoint_iff]
    refine ⟨a, ?_, ?_⟩ <;> rw [RightOpen.mem_elements] <;> constructor <;> simp only <;> omega
  rcases operation with rfl | rfl <;> exact common

/-- What a bracket of the redo log shows: the records inside of it that do not meet its
range. They are assigns, flushes and fences, so none of them opens the range. -/
theorem erases_excluding (small : size < 2 ^ 32) (low : addr + size < 2 ^ 64)
    (plain : ∀ m ∈ records body, m.type = .assign ∨ m.type = .flush ∨ m.type = .fence) :
    Erases (RightOpen.elements ⟨addr, addr + size⟩)
      (records (excluding file addr size first last body))
      ((records body).filter fun m => !m.hiddenBy ⟨addr, addr + size⟩) := by
  have opened : (newMetadataRange .exclude addr size file first).addrinterval =
      ⟨addr, addr + size⟩ := addrinterval_newMetadataRange _ _ small low
  have closed : (newMetadataRange .reinclude addr size file last).addrinterval =
      ⟨addr, addr + size⟩ := addrinterval_newMetadataRange _ _ small low
  have bracketed (m : Metadata) (member : m ∈ records body) :
      m.Bracketed (newMetadataRange .exclude addr size file first).addrinterval := by
    constructor <;> rcases plain m member with type | type | type <;> simp [type]
  have erased := erases_bracket rfl rfl (closed.trans opened.symm) bracketed
  rw [Metadata.bytes, opened] at erased
  rwa [records_excluding]

/-- An entry of the log is stored, and nothing of it is seen. -/
theorem erases_redoLogStore (redo index : Nat) (offset value : BitVec 64)
    (low : entryAt redo index + 16 < 2 ^ 64) :
    Erases (RightOpen.elements ⟨entryAt redo index, entryAt redo index + 16⟩)
      (records (redoLogStore b redo index offset value)) [] := by
  have erased : Erases _ (records (redoLogStore b redo index offset value)) _ :=
    erases_excluding (by decide) low (by simp [newMetadataRange, newMetadata])
  rwa [records_append, records_pmEqu, records_pmEqu, List.filter_append, List.filter_singleton,
    List.filter_singleton, hiddenBy_word (.inl rfl) 88 le_rfl (by omega) low,
    hiddenBy_word (.inl rfl) 89 (by omega) (by omega) low] at erased

/-- A word is stored and flushed, and nothing of it is seen. -/
theorem erases_flushed (line : Nat) (value : BitVec 64) (low : addr + 8 < 2 ^ 64) :
    Erases (RightOpen.elements ⟨addr, addr + 8⟩)
      (records (excluding file addr 8 first last
        (pmEqu file addr value line ++ pmemFlush b addr 8))) [] := by
  have erased : Erases _ (records (excluding file addr 8 first last
      (pmEqu file addr value line ++ pmemFlush b addr 8))) _ :=
    erases_excluding (by decide) low (by simp [newMetadataRange, newMetadata])
  rwa [records_append, records_pmEqu, records_pmemFlush, List.filter_append, List.filter_singleton,
    List.filter_singleton, hiddenBy_word (.inl rfl) line le_rfl le_rfl low,
    hiddenBy_word (.inr rfl) b.flushLine le_rfl le_rfl low] at erased

/-- A word is stored and persisted: the fence is left. -/
theorem erases_persisted (line : Nat) (value : BitVec 64) (low : addr + 8 < 2 ^ 64) :
    Erases (RightOpen.elements ⟨addr, addr + 8⟩)
      (records (excluding file addr 8 first last
        (pmEqu file addr value line ++ pmemPersist b addr 8)))
      [newMetadata .fence b.pmemFile b.fenceLine] := by
  have erased : Erases _ (records (excluding file addr 8 first last
      (pmEqu file addr value line ++ pmemPersist b addr 8))) _ :=
    erases_excluding (by decide) low (by simp [newMetadataRange, newMetadata])
  rwa [records_append, records_pmEqu, records_pmemPersist, List.filter_append,
    List.filter_singleton, List.filter_cons, hiddenBy_word (.inl rfl) line le_rfl le_rfl low,
    hiddenBy_word (.inr rfl) b.flushLine le_rfl le_rfl low] at erased

end Brackets

section Commits

variable {b : Build} {pop : Pool} {redo nentries fuel index : Nat} {last : OperationEntry}
  {front entries named : List OperationEntry} {m : Memory} {ending : Ending}

/-- The bytes of the log and of the words that are changed. -/
def touched (redo nentries : Nat) (entries : List OperationEntry) : Set Nat :=
  { x | InLog redo nentries x ∨ ∃ e ∈ entries, e.ptr ≤ x ∧ x < e.ptr + 8 }

/-- The bytes of an entry belong to the log. -/
theorem entry_subset_touched {size : Nat} (inside : index < nentries) (short : size ≤ 16) :
    RightOpen.elements ⟨entryAt redo index, entryAt redo index + size⟩ ⊆
      touched redo nentries named := by
  intro x member
  obtain ⟨lower, upper⟩ := RightOpen.mem_elements.mp member
  simp only [entryAt] at lower upper
  exact .inl ⟨by omega, by omega⟩

/-- The bytes of a word that an entry names are changed. -/
theorem word_subset_touched {e : OperationEntry} (member : e ∈ named) :
    RightOpen.elements ⟨e.ptr, e.ptr + 8⟩ ⊆ touched redo nentries named :=
  fun _ inside => .inr ⟨e, member, RightOpen.mem_elements.mp inside⟩

/-- The records of the log that are not hidden. -/
def visibleLog (b : Build) (ending : Ending) (redo : Nat) (front : List OperationEntry) :
    List Metadata :=
  let persist := [newMetadataRange .flush redo ((front.length + 1) * 16) b.pmemFile b.flushLine,
    newMetadata .fence b.pmemFile b.fenceLine, newMetadata .fence b.pmemFile b.fenceLine]
  match ending with
  | .setLast => persist
  | .storeLast =>
    newMetadataRange .assign (entryAt redo front.length + 8) 8 b.redoFile 107 :: persist

/-- The records of a whole commit that are not hidden. -/
def visible (b : Build) (ending : Ending) (redo : Nat) (front : List OperationEntry) :
    List Metadata :=
  visibleLog b ending redo front ++
    [newMetadata .fence b.pmemFile b.fenceLine, newMetadata .fence b.pmemFile b.fenceLine]

/-- No entry that is stored to the log is seen, by induction on the entries. -/
theorem erases_storeEntries (low : redo + 16 * nentries < 2 ^ 64)
    (room : index + entries.length ≤ nentries) :
    Erases (touched redo nentries named) (records (storeEntries b pop redo index entries)) [] := by
  induction entries generalizing index with
  | nil => exact Erases.refl _ _
  | cons e rest ih =>
    rw [List.length_cons] at room
    have first : Erases (touched redo nentries named)
        (records (redoLogStore b redo index (pop.objPtrToOff e.ptr) e.value)) [] := by
      refine (erases_redoLogStore redo index _ _ ?_).mono (entry_subset_touched (by omega) le_rfl)
      simp only [entryAt]
      omega
    rw [storeEntries, records_append]
    exact first.append (ih (by omega)) (by simp)

/-- Of the whole log, the flush and two fences are seen. With `redo_log_store_last` the
store of the last value is seen too, which stands in front of the flush and in no
bracket. -/
theorem erases_storeLog (low : redo + 16 * nentries < 2 ^ 64) (room : front.length + 1 ≤ nentries) :
    Erases (touched redo nentries named) (records (storeLog b pop ending m redo front last))
      (visibleLog b ending redo front) := by
  have inLow : entryAt redo front.length + 8 < 2 ^ 64 := by
    simp only [entryAt]
    omega
  have flag (first last line : Nat) (value : BitVec 64) :
      Erases (touched redo nentries named)
        (records (excluding b.redoFile (entryAt redo front.length) 8 first last
          (pmEqu b.redoFile (entryAt redo front.length) value line ++
            pmemPersist b (entryAt redo front.length) 8)))
        [newMetadata .fence b.pmemFile b.fenceLine] :=
    (erases_persisted line value inLow).mono (entry_subset_touched room (by decide))
  cases ending with
  | setLast =>
    have stores : Erases (touched redo nentries named)
        (records (storeEntries b pop redo 0 (front ++ [last]))) [] :=
      erases_storeEntries low (by simpa using room)
    rw [storeLog, redoLogSetLast, records_append, records_append, records_pmemPersist]
    exact stores.append ((Erases.refl _ _).append (flag _ _ _ _)
      (by simp [newMetadataRange, newMetadata])) (by simp)
  | storeLast =>
    have stores : Erases (touched redo nentries named)
        (records (storeEntries b pop redo 0 front)) [] :=
      erases_storeEntries low (by omega)
    rw [storeLog, redoLogStoreLast, records_append, records_append, records_append, records_pmEqu,
      records_pmemPersist]
    exact stores.append ((Erases.refl _ _).append (flag _ _ _ _)
      (by simp [newMetadataRange, newMetadata])) (by simp)

/-- Of the words that are written, only the fences are seen: that behind the last word
and that behind the cleared flag. -/
theorem erases_processed (low : redo + 16 * nentries < 2 ^ 64)
    (room : front.length + 1 ≤ nentries) (words : ∀ e ∈ front ++ [last], e.ptr + 8 < 2 ^ 64) :
    Erases (touched redo nentries (front ++ [last]))
      (records (front.flatMap (fun e => writeWord b e.ptr e.value) ++
        writeLastWord b last.ptr last.value (entryAt redo front.length)))
      [newMetadata .fence b.pmemFile b.fenceLine, newMetadata .fence b.pmemFile b.fenceLine] := by
  have earlier (some : List OperationEntry) (among : some ⊆ front ++ [last]) :
      Erases (touched redo nentries (front ++ [last]))
        (records (some.flatMap fun e => writeWord b e.ptr e.value)) [] := by
    induction some with
    | nil => exact Erases.refl _ _
    | cons e rest ih =>
      have member : e ∈ front ++ [last] := among List.mem_cons_self
      have first : Erases (touched redo nentries (front ++ [last]))
          (records (writeWord b e.ptr e.value)) [] := by
        rw [writeWord]
        exact (erases_flushed 157 e.value (words e member)).mono (word_subset_touched member)
      rw [List.flatMap_cons, records_append]
      exact first.append (ih fun x later => among (List.mem_cons_of_mem e later)) (by simp)
  have member : last ∈ front ++ [last] := List.mem_append_right front (List.mem_singleton_self last)
  have latest : Erases (touched redo nentries (front ++ [last]))
      (records (excluding b.redoFile last.ptr 8 169 174
        (pmEqu b.redoFile last.ptr last.value 170 ++ pmemPersist b last.ptr 8)))
      [newMetadata .fence b.pmemFile b.fenceLine] :=
    (erases_persisted 170 last.value (words last member)).mono (word_subset_touched member)
  have cleared : Erases (touched redo nentries (front ++ [last]))
      (records (excluding b.redoFile (entryAt redo front.length) 8 176 180
        (pmEqu b.redoFile (entryAt redo front.length) 0 177 ++
          pmemPersist b (entryAt redo front.length) 8)))
      [newMetadata .fence b.pmemFile b.fenceLine] := by
    refine (erases_persisted 177 0 ?_).mono (entry_subset_touched room (by decide))
    simp only [entryAt]
    omega
  rw [records_append, writeLastWord, records_append]
  exact (earlier front (List.subset_append_left front [last])).append
    (latest.append cleared (by simp [newMetadata])) (by simp)

/-- Wherever a commit stands in a trace, the verdict is that of the trace with only the
flush of the log and the fences of the commit, and with the store of the last value if
it was made by `redo_log_store_last`.

The commit is the log that is stored and the words that are written, both of which may
be replaced by what is seen of them, as long as their bytes are not excluded in front of
the commit. -/
theorem redo_log_commit_is_hidden (b : Build) (pop : Pool) (ending : Ending)
    (placed : Placed redo nentries (front ++ [last])) (idle : Idle redo nentries m m)
    (enough : front.length < fuel) (low : redo + 16 * nentries < 2 ^ 64)
    (words : ∀ e ∈ front ++ [last], e.ptr + 8 < 2 ^ 64) {ops : List Op}
    (committed : redoLogCommit b pop ending fuel m redo front last = some ops)
    (icl : Icl) (warn : Bool) (before after : List Metadata)
    (fresh : Disjoint (before.foldl excludeStep ∅) (touched redo nentries (front ++ [last]))) :
    verdict icl warn (before ++ (records ops ++ after)) =
      verdict icl warn (before ++ (visible b ending redo front ++ after)) := by
  rw [redoLogCommit_eq b pop ending placed idle enough, Option.some.injEq] at committed
  subst committed
  have quiet : ∀ m ∈ visibleLog b ending redo front, m.type ≠ .exclude ∧ m.type ≠ .reinclude := by
    cases ending <;> simp [visibleLog, newMetadataRange, newMetadata]
  rw [records_append]
  exact (erases_storeLog low placed.room).append (erases_processed low placed.room words) quiet
    icl warn before after fresh

/-- Inside a transaction the last value is reported, and nothing else. -/
theorem redo_log_commit_is_hidden_two_words :
    ∃ ops, redoLogCommit ⟨[], [], [], 0, 0⟩ smallPool .storeLast 2 (fun _ => 0) 4096
        smallEntries.1 smallEntries.2 = some ops ∧
      (verdict (Segments.segments Nat Int) false ([{ type := .transactionBegin }] ++
        (records ops ++ [{ type := .transactionEnd }]))).reports =
          [.assignError [] 107 4120 4128] := by
  have committed := redoLogCommit_eq ⟨[], [], [], 0, 0⟩ smallPool .storeLast placed_small idle_small
    (Nat.lt_succ_self 1)
  refine ⟨_, committed, ?_⟩
  rw [redo_log_commit_is_hidden _ _ _ placed_small idle_small (Nat.lt_succ_self 1) (by decide)
    (by decide) committed _ _ _ _ (by simp [excludeStep])]
  decide

end Commits

end PMTest.RedoLog

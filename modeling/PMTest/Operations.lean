import PMTest.RedoRecovery

/-!
# Operations on several words

An operation context collects changes of words: a word is set, or some bits of it are
cleared or set. A second change of a word goes into the entry of the first one, where a
second set is ignored. `operation_process` then writes the entries that belong to the pool,
a single one directly and several through the redo log, and after them the transient ones.

Unless a word is set that was changed before, the entries do what the changes would have
done one after the other, and what they do to the pool a crash leaves all of or nothing of.
-/

namespace PMTest.RedoLog

open CrashImages

/-- `operation_type`. -/
inductive OperationType
  | set
  | and
  | or
  deriving DecidableEq

/-- `operation_entry_type`. -/
inductive OperationEntryType
  | persistent
  | transient

/-- The entries of both types. -/
structure OperationContext where
  persistent : List OperationEntry
  transient : List OperationEntry

/-- `operation_init`. -/
def operationInit : OperationContext := ⟨[], []⟩

/-- `operation_perform`. -/
def operationPerform (field value : BitVec 64) : OperationType → BitVec 64
  | .and => field &&& value
  | .or => field ||| value
  | .set => field

section Adding

/-- A new entry, which reads the word if only some bits are changed. -/
def newEntry (m : Memory) (e : OperationEntry) (type : OperationType) : OperationEntry :=
  match type with
  | .set => e
  | _ => { e with value := operationPerform (m e.ptr) e.value type }

/-- The loop of `operation_add_typed_entry`. -/
def addToEntries (m : Memory) (e : OperationEntry) (type : OperationType) :
    List OperationEntry → List OperationEntry
  | [] => [newEntry m e type]
  | x :: rest =>
    if x.ptr = e.ptr then { x with value := operationPerform x.value e.value type } :: rest
    else x :: addToEntries m e type rest

/-- `operation_add_typed_entry`. -/
def operationAddTypedEntry (m : Memory) (ctx : OperationContext) (e : OperationEntry)
    (type : OperationType) : OperationEntryType → OperationContext
  | .persistent => { ctx with persistent := addToEntries m e type ctx.persistent }
  | .transient => { ctx with transient := addToEntries m e type ctx.transient }

/-- `OBJ_PTR_IS_VALID`. -/
def Pool.objPtrIsValid (pop : Pool) (ptr : Nat) : Bool := pop.objOffIsValid (pop.objPtrToOff ptr)

/-- `operation_add_entry`. -/
def operationAddEntry (pop : Pool) (m : Memory) (ctx : OperationContext)
    (op : OperationEntry × OperationType) : OperationContext :=
  operationAddTypedEntry m ctx op.1 op.2
    (if pop.objPtrIsValid op.1.ptr then .persistent else .transient)

/-- `operation_add_entries`. -/
def operationAddEntries (pop : Pool) (m : Memory) (ctx : OperationContext)
    (ops : List (OperationEntry × OperationType)) : OperationContext :=
  ops.foldl (operationAddEntry pop m) ctx

end Adding

section Processing

variable (b : Build) (pop : Pool) (fuel : Nat) (m : Memory) (redo : Nat)

/-- `operation_process_persistent_redo`. -/
def operationProcessPersistentRedo (entries : List OperationEntry) : Option (List Op) :=
  let stores := storeEntries b pop redo 0 entries
  let ops := stores ++ redoLogSetLast b (exec m (instrs stores)) redo (entries.length - 1)
  (redoLogProcess b pop fuel (exec m (instrs ops)) redo).map (ops ++ ·)

/-- The part of `operation_process` for the persistent entries. -/
def processPersistent : List OperationEntry → Option (List Op)
  | [] => some []
  | [e] =>
    some (excluding b.memopsFile e.ptr 8 188 194
      (pmEqu b.memopsFile e.ptr e.value 190 ++ pmemPersist b e.ptr 8))
  | entries => operationProcessPersistentRedo b pop fuel m redo entries

/-- The loop of `operation_process` over the transient entries. -/
def processTransient (entries : List OperationEntry) : List Op :=
  entries.flatMap fun e =>
    excluding b.memopsFile e.ptr 8 201 203 (pmEqu b.memopsFile e.ptr e.value 202)

/-- `operation_process`. -/
def operationProcess (ctx : OperationContext) : Option (List Op) :=
  (processPersistent b pop fuel m redo ctx.persistent).map
    (· ++ processTransient b ctx.transient)

end Processing

section Meaning

/-- The change is made at once. -/
def performNow (m : Memory) (op : OperationEntry × OperationType) : Memory :=
  Function.update m op.1.ptr (newEntry m op.1 op.2).value

/-- The changes are made one after the other. -/
def performAll (m : Memory) (ops : List (OperationEntry × OperationType)) : Memory :=
  ops.foldl performNow m

/-- No word is set that was changed before. -/
def SetsFirst (ops : List (OperationEntry × OperationType)) : Prop :=
  ops.Pairwise fun earlier later => later.2 = .set → earlier.1.ptr ≠ later.1.ptr

variable {m base : Memory} {e : OperationEntry} {type : OperationType} {a : Nat} {v : BitVec 64}
  {entries later : List OperationEntry}

/-- The entry names the word that was given. -/
@[simp] theorem newEntry_ptr : (newEntry m e type).ptr = e.ptr := by
  cases type <;> rfl

/-- A new entry depends on the memory through its own word alone. -/
theorem newEntry_congr (same : m e.ptr = base e.ptr) :
    newEntry m e type = newEntry base e type := by
  cases type with
  | set => rfl
  | and | or => simp only [newEntry, same]

/-- Only a set ignores the old content. -/
theorem newEntry_value (bits : type ≠ .set) :
    (newEntry m e type).value = operationPerform (m e.ptr) e.value type := by
  cases type with
  | set => exact absurd rfl bits
  | and | or => rfl

/-- A word that no entry names can be changed before or after them. -/
theorem changed_update (unnamed : ¬ Named entries a) :
    changed (Function.update m a v) entries = Function.update (changed m entries) a v := by
  funext x
  by_cases here : x = a
  · rw [here, changed_of_not_named unnamed, Function.update_self, Function.update_self]
  · rw [Function.update_of_ne here]
    exact changed_congr fun _ => Function.update_of_ne here v m

/-- A change of a word that no entry names can be made before or after the entries. -/
theorem performNow_changed (unnamed : ¬ Named later e.ptr) :
    changed (performNow m (e, type)) later = performNow (changed m later) (e, type) := by
  rw [performNow, changed_update unnamed, performNow]
  rw [newEntry_congr (changed_of_not_named unnamed).symm]

/-- Adding a change to the entries has the effect of making it behind them.

The induction is on the entries. If one of them names the word, the change is merged
into its value, and this is no set, because no word is set that was changed before;
later entries name other words. Otherwise the new entry stands behind all others and
reads the word as it was. -/
theorem changed_addToEntries (distinct : (entries.map OperationEntry.ptr).Nodup)
    (first : type = .set → ¬ Named entries e.ptr) (unread : base e.ptr = m e.ptr) :
    changed base (addToEntries m e type entries) = performNow (changed base entries) (e, type) := by
  induction entries generalizing base with
  | nil =>
    rw [addToEntries, changed_cons, newEntry_ptr, newEntry_congr unread.symm]
    rfl
  | cons x rest ih =>
    rw [List.map_cons, List.nodup_cons] at distinct
    by_cases here : x.ptr = e.ptr
    · have bits : type ≠ .set := fun set => first set ⟨x, List.mem_cons_self, here⟩
      have unnamed : ¬ Named rest e.ptr := by
        rintro ⟨other, member, ptr⟩
        exact distinct.1 (List.mem_map.mpr ⟨other, member, ptr.trans here.symm⟩)
      rw [addToEntries, if_pos here, changed_cons, changed_cons]
      simp only [here, changed_update unnamed, performNow, newEntry_value bits,
        Function.update_self, Function.update_idem]
    · rw [addToEntries, if_neg here, changed_cons, changed_cons]
      refine ih distinct.2 (fun set => ?_) ?_
      · rintro ⟨other, member, ptr⟩
        exact first set ⟨other, List.mem_cons_of_mem x member, ptr⟩
      · rwa [Function.update_of_ne (Ne.symm here)]

-- a second set of a word is lost
example (first second : BitVec 64) :
    (addToEntries m ⟨8, second, by decide, by decide⟩ .set
      [⟨8, first, by decide, by decide⟩]).map OperationEntry.value = [first] := rfl

/-- Adding a change names its word and no other new one. -/
theorem named_addToEntries (named : Named (addToEntries m e type entries) a) :
    a = e.ptr ∨ Named entries a := by
  induction entries with
  | nil =>
    obtain ⟨x, member, rfl⟩ := named
    rw [addToEntries, List.mem_singleton] at member
    exact .inl (member ▸ newEntry_ptr)
  | cons x rest ih =>
    obtain ⟨y, member, rfl⟩ := named
    rw [addToEntries] at member
    split_ifs at member with here
    · rcases List.mem_cons.mp member with rfl | later
      · exact .inl here
      · exact .inr ⟨y, List.mem_cons_of_mem x later, rfl⟩
    · rcases List.mem_cons.mp member with rfl | later
      · exact .inr ⟨y, List.mem_cons_self, rfl⟩
      · rcases ih ⟨y, later, rfl⟩ with new | ⟨z, old, same⟩
        · exact .inl new
        · exact .inr ⟨z, List.mem_cons_of_mem x old, same⟩

/-- Adding a change keeps the entries apart: a word that has an entry gets no second
one. -/
theorem nodup_addToEntries (distinct : (entries.map OperationEntry.ptr).Nodup) :
    ((addToEntries m e type entries).map OperationEntry.ptr).Nodup := by
  induction entries with
  | nil => exact List.nodup_singleton _
  | cons x rest ih =>
    rw [List.map_cons, List.nodup_cons] at distinct
    rw [addToEntries]
    split_ifs with here
    · rw [List.map_cons, List.nodup_cons]
      exact distinct
    · rw [List.map_cons, List.nodup_cons]
      refine ⟨fun member => ?_, ih distinct.2⟩
      rcases named_addToEntries (List.mem_map.mp member) with new | old
      · exact here new
      · exact distinct.1 (List.mem_map.mpr old)

end Meaning

section Contexts

variable {pop : Pool} {m : Memory} {ctx : OperationContext} {op : OperationEntry × OperationType}
  {ops : List (OperationEntry × OperationType)} {a : Nat}

/-- The context stands for the changes that were added to it. -/
structure Collected (pop : Pool) (m : Memory) (ops : List (OperationEntry × OperationType))
    (ctx : OperationContext) : Prop where
  persistent : (ctx.persistent.map OperationEntry.ptr).Nodup
  transient : (ctx.transient.map OperationEntry.ptr).Nodup
  inPool : ∀ a, Named ctx.persistent a → pop.objPtrIsValid a = true
  outside : ∀ a, Named ctx.transient a → pop.objPtrIsValid a = false
  named : ∀ a, Named ctx.persistent a ∨ Named ctx.transient a → Named (ops.map Prod.fst) a
  meaning : changed (changed m ctx.persistent) ctx.transient = performAll m ops

/-- One more change names one more word. -/
theorem named_concat :
    Named ((ops ++ [op]).map Prod.fst) a ↔ Named (ops.map Prod.fst) a ∨ a = op.1.ptr := by
  simp only [Named, List.map_append, List.map_cons, List.map_nil, List.mem_append,
    List.mem_singleton, or_and_right, exists_or, exists_eq_left, eq_comm]

/-- Adding one more change keeps what the context stands for. The change goes to the
persistent entries if its word is valid in the pool, and to the transient ones
otherwise. The entries of the other type name other words, so the order between the two
does not matter. -/
theorem Collected.add (collected : Collected pop m ops ctx)
    (first : op.2 = .set → ¬ Named (ops.map Prod.fst) op.1.ptr) :
    Collected pop m (ops ++ [op]) (operationAddEntry pop m ctx op) := by
  obtain ⟨e, type⟩ := op
  obtain ⟨persistent, transient, inPool, outside, named, meaning⟩ := collected
  have performed : performAll m (ops ++ [(e, type)]) = performNow (performAll m ops) (e, type) :=
    List.foldl_append
  by_cases valid : pop.objPtrIsValid e.ptr = true
  · have unnamed : ¬ Named ctx.transient e.ptr := fun there =>
      Bool.false_ne_true ((outside _ there).symm.trans valid)
    rw [operationAddEntry, if_pos valid, operationAddTypedEntry]
    refine ⟨nodup_addToEntries persistent, transient, fun a there => ?_, outside, fun a there => ?_,
      ?_⟩
    · rcases named_addToEntries there with rfl | old
      · exact valid
      · exact inPool a old
    · rw [named_concat]
      rcases there with added | old
      · exact (named_addToEntries added).symm.imp_left fun old => named a (.inl old)
      · exact .inl (named a (.inr old))
    · rw [performed, ← meaning, changed_addToEntries persistent
        (fun set there => first set (named _ (.inl there))) rfl, performNow_changed unnamed]
  · have unnamed : ¬ Named ctx.persistent e.ptr := fun there => valid (inPool _ there)
    rw [operationAddEntry, if_neg valid, operationAddTypedEntry]
    refine ⟨persistent, nodup_addToEntries transient, inPool, fun a there => ?_, fun a there => ?_,
      ?_⟩
    · rcases named_addToEntries there with rfl | old
      · exact Bool.not_eq_true _ ▸ valid
      · exact outside a old
    · rw [named_concat]
      rcases there with old | added
      · exact .inl (named a (.inl old))
      · exact (named_addToEntries added).symm.imp_left fun old => named a (.inr old)
    · rw [performed, ← meaning]
      exact changed_addToEntries transient (fun set there => first set (named _ (.inr there)))
        (changed_of_not_named unnamed)

/-- Entries that are collected do what the changes do one after the other. The induction
is from the last change, which is no set of a word that was changed before. -/
theorem collected_of_setsFirst (pop : Pool) (m : Memory) (sets : SetsFirst ops) :
    Collected pop m ops (operationAddEntries pop m operationInit ops) := by
  induction ops using List.reverseRecOn with
  | nil =>
    have none (a : Nat) : ¬ Named [] a := fun ⟨_, member, _⟩ => absurd member List.not_mem_nil
    exact ⟨List.nodup_nil, List.nodup_nil, fun a there => absurd there (none a),
      fun a there => absurd there (none a), fun a there => (there.elim (none a) (none a)).elim, rfl⟩
  | append_singleton past op ih =>
    obtain ⟨earlier, _, apart⟩ := List.pairwise_append.mp sets
    rw [operationAddEntries, List.foldl_append]
    refine (ih earlier).add ?_
    rintro set ⟨e, member, same⟩
    obtain ⟨other, before, rfl⟩ := List.mem_map.mp member
    exact apart other before op (List.mem_singleton_self op) set same

end Contexts

section Crashes

variable {b : Build} {pop : Pool} {redo nentries fuel : Nat} {m image next : Memory}
  {entries : List OperationEntry}

/-- Without a flag the recovery does nothing, and cannot be interrupted: its program is
empty. -/
theorem Idle.recover (idle : Idle redo nentries m image)
    (history : Interrupted b pop fuel redo nentries image next) :
    next = image ∧ redoLogRecover b pop fuel next redo nentries = some [] := by
  induction history with
  | never => exact ⟨rfl, idle.skip b pop fuel⟩
  | again started crash _ ih =>
    obtain rfl := Option.some.inj (started.symm.trans (idle.skip b pop fuel))
    obtain rfl := crash.eq_of_nil
    exact ih idle

/-- A word outside the log can be changed. -/
theorem Idle.update (idle : Idle redo nentries m image) {a : Nat} (v : BitVec 64)
    (outside : ¬ InLog redo nentries a) :
    Idle redo nentries (Function.update m a v) (Function.update image a v) := by
  refine ⟨fun i bound => ?_, fun x apart => ?_⟩
  · have elsewhere : entryAt redo i ≠ a := by
      rintro rfl
      exact outside (inLog_entryAt bound).1
    rw [flagged, Function.update_of_ne elsewhere]
    exact idle.unflagged i bound
  · by_cases here : x = a
    · rw [here, Function.update_self, Function.update_self]
    · rw [Function.update_of_ne here, Function.update_of_ne here]
      exact idle.data x apart

/-- With several entries, the redo log is used as by the other callers. -/
theorem operationProcessPersistentRedo_eq (front : List OperationEntry) (last : OperationEntry) :
    operationProcessPersistentRedo b pop fuel m redo (front ++ [last]) =
      redoLogCommit b pop .setLast fuel m redo front last := by
  have index : (front ++ [last]).length - 1 = front.length := by simp
  rw [operationProcessPersistentRedo, index]
  rfl

/-- The persistent entries are written, and a crash leaves all or nothing of them.

Without entries there is nothing to write. A single entry is one word, which a crash
leaves as it was or as it is to be, and the log is not used. Several entries are a
commit through the redo log. -/
theorem processPersistent_atomic (placed : Placed redo nentries entries)
    (idle : Idle redo nentries m m) (enough : entries.length ≤ fuel) :
    ∃ ops, processPersistent b pop fuel m redo entries = some ops ∧ Settles (instrs ops) ∧
      Idle redo nentries (changed m entries) (exec m (instrs ops)) ∧
      ∀ image next, CrashesTo m (instrs ops) image →
        Interrupted b pop fuel redo nentries image next →
        ∃ recovery, redoLogRecover b pop fuel next redo nentries = some recovery ∧
          (Idle redo nentries m (exec next (instrs recovery)) ∨
            Idle redo nentries (changed m entries) (exec next (instrs recovery))) := by
  match entries with
  | [] =>
    refine ⟨[], rfl, fun _ => rfl, idle, fun image next crash history => ?_⟩
    obtain rfl := crash.eq_of_nil
    obtain ⟨rfl, recovers⟩ := idle.recover history
    exact ⟨[], recovers, .inl idle⟩
  | [e] =>
    have written := idle.update e.value (placed.apart e List.mem_cons_self)
    have program : instrs (excluding b.memopsFile e.ptr 8 188 194
        (pmEqu b.memopsFile e.ptr e.value 190 ++ pmemPersist b e.ptr 8)) =
          word e.ptr e.value ++ [.fence] := by simp [word]
    refine ⟨_, rfl, ?_, ?_, fun image next crash history => ?_⟩
    · rw [program]
      exact writtenBack_word.settles
    · rw [program, exec_append, exec_word]
      exact written
    · rw [program] at crash
      rcases crashesTo_word crash with rfl | rfl
      · obtain ⟨rfl, recovers⟩ := idle.recover history
        exact ⟨[], recovers, .inl idle⟩
      · obtain ⟨rfl, recovers⟩ := written.recover history
        exact ⟨[], recovers, .inr written⟩
  | e :: second :: rest =>
    obtain ⟨front, last, whole⟩ : ∃ front last, e :: second :: rest = front ++ [last] :=
      ⟨_, _, (List.dropLast_concat_getLast (List.cons_ne_nil e (second :: rest))).symm⟩
    have process : processPersistent b pop fuel m redo (e :: second :: rest) =
        redoLogCommit b pop .setLast fuel m redo front last :=
      (congrArg (operationProcessPersistentRedo b pop fuel m redo) whole).trans
        (operationProcessPersistentRedo_eq front last)
    rw [process]
    rw [whole] at placed enough ⊢
    have room : front.length < fuel := by
      rwa [List.length_append, List.length_singleton] at enough
    obtain ⟨ops, ran, settles, final, crashes⟩ :=
      commit_recoverable b pop .setLast placed idle room
    refine ⟨ops, ran, settles, final, fun image next crash history => ?_⟩
    obtain ⟨recovery, recovers, outcome, _⟩ :=
      ((crashes image crash).interrupted placed room history).recover (b := b) placed room
    exact ⟨recovery, recovers, outcome⟩

/-- The transient entries are stored, and nothing waits for them. -/
theorem instrs_processTransient :
    instrs (processTransient b entries) = entries.map fun e => .store e.ptr e.value := by
  induction entries with
  | nil => rfl
  | cons e rest ih =>
    rw [processTransient, List.flatMap_cons, instrs_append, instrs_excluding, instrs_pmEqu]
    exact congrArg (Instr.store e.ptr e.value :: ·) ih

/-- Words that no transient entry names are not stored. -/
theorem stored_processTransient {a : Nat} (unnamed : ¬ Named entries a) :
    stored a (instrs (processTransient b entries)) = [] := by
  rw [instrs_processTransient, stored, List.filterMap_map, List.filterMap_eq_nil_iff]
  exact fun e member => if_neg fun here => unnamed ⟨e, member, here⟩

/-- The transient entries make their changes. -/
theorem exec_processTransient :
    exec m (instrs (processTransient b entries)) = changed m entries := by
  rw [instrs_processTransient, exec, List.foldl_map]
  rfl

/-- Two words of a pool are changed, one of them twice, and a word outside. -/
def smallOps : List (OperationEntry × OperationType) :=
  [(smallEntry 1024 7, .set), (smallEntry 8 1, .set), (smallEntry 1025 240, .or),
    (smallEntry 1024 3, .and)]

end Crashes

end PMTest.RedoLog

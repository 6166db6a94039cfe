import Mathlib.Data.List.Nodup
import PMTest.RedoLog

/-!
# Crashes of a redo log

Wherever a commit is interrupted, the log that a crash leaves is in one of three
situations. It has no flag and the words are the old ones, it is complete and only words
that it names have changed, or it has no flag and all words are the new ones. Processing a
complete log again leads to the same words, so a crash of the recovery changes nothing.
-/

namespace PMTest.RedoLog

open CrashImages

section Offsets

variable (pop : Pool) (e : OperationEntry)

/-- The offset of a word is aligned too, so it leaves the flag free. -/
theorem objPtrToOff_and_flag : pop.objPtrToOff e.ptr &&& redoFinishFlag = 0 := by
  obtain ⟨base, baseEq⟩ := pop.aligned
  obtain ⟨word, wordEq⟩ := e.aligned
  have mapped := pop.mapped
  have even : (pop.objPtrToOff e.ptr).toNat % 2 = 0 := by
    simp only [Pool.objPtrToOff, BitVec.toNat_sub, BitVec.toNat_ofNat]
    omega
  apply BitVec.eq_of_toNat_eq
  rw [BitVec.toNat_and]
  exact (Nat.and_one_is_mod _).trans even

/-- The address of an offset is the address that it was made from. Both fit into 64
bits, so the subtraction does not wrap around. -/
theorem direct_objPtrToOff : pop.direct (pop.objPtrToOff e.ptr) = e.ptr := by
  have base := pop.mapped
  have word := e.mapped
  simp only [Pool.direct, Pool.objPtrToOff, BitVec.toNat_sub, BitVec.toNat_ofNat]
  omega

variable {offset : BitVec 64}

/-- A flag that was set can be seen. -/
theorem or_flag_and_flag : (offset ||| redoFinishFlag) &&& redoFinishFlag ≠ 0 := by
  intro none
  have bit := congrArg (BitVec.getLsbD · 0) none
  simp [redoFinishFlag] at bit

/-- The mask takes the flag off again, if the offset leaves its bit free. The words are
compared bit by bit. -/
theorem or_flag_and_mask (free : offset &&& redoFinishFlag = 0) :
    (offset ||| redoFinishFlag) &&& redoFlagMask = offset := by
  rw [redoFlagMask]
  generalize redoFinishFlag = flag at free ⊢
  apply BitVec.eq_of_getLsbD_eq
  intro i bound
  have bit := congrArg (BitVec.getLsbD · i) free
  simp only [BitVec.getLsbD_and, BitVec.getLsbD_or, BitVec.getLsbD_not, bound, decide_true,
    Bool.true_and] at bit ⊢
  cases set : flag.getLsbD i with
  | false => simp
  | true => simpa [set] using bit

end Offsets

section Changes

/-- The memory with all entries written. -/
def changed (m : Memory) (entries : List OperationEntry) : Memory :=
  entries.foldl (fun m e => Function.update m e.ptr e.value) m

/-- The word is named by an entry. -/
def Named (entries : List OperationEntry) (a : Nat) : Prop := ∃ e ∈ entries, e.ptr = a

variable {m image : Memory} {entries : List OperationEntry} {a : Nat}

/-- The first entry is written first. -/
theorem changed_cons (e : OperationEntry) (rest : List OperationEntry) :
    changed m (e :: rest) = changed (Function.update m e.ptr e.value) rest := rfl

/-- The new content of a word does not depend on the old one, if an entry names it. The
last such entry decides, so the induction is on the entries with the two memories
generalized. -/
theorem changed_congr (same : ¬ Named entries a → m a = image a) :
    changed m entries a = changed image entries a := by
  induction entries generalizing m image with
  | nil => exact same fun ⟨_, member, _⟩ => absurd member List.not_mem_nil
  | cons e rest ih =>
    rw [changed_cons, changed_cons]
    refine ih fun unnamed => ?_
    by_cases here : e.ptr = a
    · rw [here, Function.update_self, Function.update_self]
    · rw [Function.update_of_ne (Ne.symm here), Function.update_of_ne (Ne.symm here)]
      refine same ?_
      rintro ⟨other, member, ptr⟩
      rcases List.mem_cons.mp member with rfl | later
      · exact here ptr
      · exact unnamed ⟨other, later, ptr⟩

/-- A word that no entry names keeps its content. -/
theorem changed_of_not_named (unnamed : ¬ Named entries a) : changed m entries a = m a := by
  induction entries generalizing m with
  | nil => rfl
  | cons e rest ih =>
    have elsewhere : a ≠ e.ptr := fun same => unnamed ⟨e, List.mem_cons_self, same.symm⟩
    have later : ¬ Named rest a := fun ⟨other, member, ptr⟩ =>
      unnamed ⟨other, List.mem_cons_of_mem e member, ptr⟩
    exact (ih later).trans (Function.update_of_ne elsewhere _ _)

end Changes

section Words

/-- A word is stored and written back. -/
def word (addr : Nat) (value : BitVec 64) : List (Instr Nat (BitVec 64)) :=
  [.store addr value] ++ lines addr 8

variable {m image : Memory} {entries : List OperationEntry} {addr a : Nat} {value : BitVec 64}

/-- The word gets one value, and no other word gets any. -/
theorem stored_word : stored a (word addr value) = if addr = a then [value] else [] := by
  rw [word, stored_append, stored_lines, List.append_nil]
  by_cases here : addr = a <;> simp [stored, Instr.stored?, here]

/-- The store is executed; write-backs do not change what is read. -/
@[simp] theorem exec_word : exec m (word addr value) = Function.update m addr value :=
  exec_lines _ addr 8

/-- The cache lines that are written back are those of the word. -/
theorem writtenBack_word : WrittenBack (word addr value) := by
  refine writtenBack_lines fun a some => ?_
  have here : addr = a := by
    by_contra elsewhere
    exact some (by simp [stored, Instr.stored?, elsewhere])
  omega

/-- The words that `redo_log_process` writes. -/
theorem instrs_writeWord (b : Build) (addr : Nat) (value : BitVec 64) :
    instrs (writeWord b addr value) = word addr value := by
  simp [writeWord, word]

/-- Behind the last word there is a fence, and then the flag is cleared in the same way. -/
theorem instrs_writeLastWord (b : Build) (addr : Nat) (value : BitVec 64) (redo : Nat) :
    instrs (writeLastWord b addr value redo) =
      word addr value ++ [.fence] ++ (word redo 0 ++ [.fence]) := by
  simp [writeLastWord, word]

/-- A crash leaves the word as it was or as it is now. No other word was stored, so the
whole memory is the old or the new one. -/
theorem crashesTo_word (crash : CrashesTo m (word addr value ++ [.fence]) image) :
    image = m ∨ image = Function.update m addr value := by
  have content (a : Nat) : image a = m a ∨ (addr = a ∧ image a = value) := by
    rcases crash.value a with old | new
    · exact .inl old
    · rw [stored_append, stored_word] at new
      split_ifs at new with here
      · exact .inr ⟨here, by simpa [stored, Instr.stored?] using new⟩
      · simp [stored, Instr.stored?] at new
  rcases content addr with old | ⟨_, new⟩
  · refine .inl (funext fun a => ?_)
    rcases content a with same | ⟨rfl, _⟩
    · exact same
    · exact old
  · refine .inr (funext fun a => ?_)
    by_cases here : a = addr
    · rw [here, new, Function.update_self]
    · rw [Function.update_of_ne here]
      exact (content a).resolve_right fun there => here there.1.symm

/-- All entries are written, one after the other. -/
def words (entries : List OperationEntry) : List (Instr Nat (BitVec 64)) :=
  entries.flatMap fun e => word e.ptr e.value

/-- Writing the words one after the other is the change of the memory. -/
theorem exec_words : exec m (words entries) = changed m entries := by
  induction entries generalizing m with
  | nil => rfl
  | cons e rest ih =>
    rw [words, List.flatMap_cons, exec_append, exec_word]
    exact ih

/-- No value is stored in a word that no entry names. -/
theorem stored_words (unnamed : ¬ Named entries a) : stored a (words entries) = [] := by
  induction entries with
  | nil => rfl
  | cons e rest ih =>
    have elsewhere : e.ptr ≠ a := fun same => unnamed ⟨e, List.mem_cons_self, same⟩
    rw [words, List.flatMap_cons, stored_append, stored_word, if_neg elsewhere, List.nil_append]
    exact ih fun ⟨other, member, ptr⟩ => unnamed ⟨other, List.mem_cons_of_mem e member, ptr⟩

/-- All words are written back, each behind its store. -/
theorem writtenBack_words : WrittenBack (words entries) := by
  induction entries with
  | nil => exact fun _ => rfl
  | cons e rest ih => exact writtenBack_word.append ih

end Words

section Situations

/-- The word belongs to the log. -/
def InLog (redo nentries a : Nat) : Prop := redo ≤ a ∧ a < redo + 16 * nentries

instance (redo nentries a : Nat) : Decidable (InLog redo nentries a) :=
  inferInstanceAs (Decidable (_ ∧ _))

/-- The log has room for the entries, and they name words outside. -/
structure Placed (redo nentries : Nat) (entries : List OperationEntry) : Prop where
  aligned : 8 ∣ redo
  fits : entries.length ≤ nentries
  apart : ∀ e ∈ entries, ¬ InLog redo nentries e.ptr

/-- No flag is set, and outside the log the words are those of the memory. -/
structure Idle (redo nentries : Nat) (m image : Memory) : Prop where
  unflagged : ∀ i < nentries, flagged image (entryAt redo i) = false
  data : ∀ a, ¬ InLog redo nentries a → image a = m a

/-- An entry stands in the log, its offset as given. -/
structure Holds (image : Memory) (entry : Nat) (offset value : BitVec 64) : Prop where
  offset : image entry = offset
  value : image (entry + 8) = value

/-- The entries stand in the log, the last one with the flag. -/
structure Logged (pop : Pool) (redo : Nat) (front : List OperationEntry) (last : OperationEntry)
    (image : Memory) : Prop where
  earlier : ∀ i e, front[i]? = some e →
    Holds image (entryAt redo i) (pop.objPtrToOff e.ptr) e.value
  latest : Holds image (entryAt redo front.length) (pop.objPtrToOff last.ptr ||| redoFinishFlag)
    last.value

/-- The log is complete, and only words that it names have changed. -/
structure Committed (pop : Pool) (redo nentries : Nat) (front : List OperationEntry)
    (last : OperationEntry) (m image : Memory) : Prop where
  logged : Logged pop redo front last image
  unflagged : ∀ i < nentries, i ≠ front.length → flagged image (entryAt redo i) = false
  data : ∀ a, ¬ InLog redo nentries a → ¬ Named (front ++ [last]) a → image a = m a

variable {b : Build} {pop : Pool} {redo nentries fuel : Nat} {e last : OperationEntry}
  {front rest : List OperationEntry} {m image next : Memory}

/-- An entry without the flag has its bit free. -/
theorem flagged_eq_false {entry : Nat} :
    flagged m entry = false ↔ m entry &&& redoFinishFlag = 0 := by
  simp [flagged]

/-- The two words of an entry belong to the log. -/
theorem inLog_entryAt {i : Nat} (bound : i < nentries) :
    InLog redo nentries (entryAt redo i) ∧ InLog redo nentries (entryAt redo i + 8) := by
  simp only [InLog, entryAt]
  omega

/-- There is room for the last entry behind the others. -/
theorem Placed.room (placed : Placed redo nentries (front ++ [last])) :
    front.length + 1 ≤ nentries := by
  simpa using placed.fits

/-- The words are outside the part of the log that is used. -/
theorem Placed.apart_used (placed : Placed redo nentries (front ++ [last])) :
    ∀ e ∈ front ++ [last], ¬ InLog redo (front.length + 1) e.ptr := by
  rintro e member ⟨lower, upper⟩
  have room := placed.room
  exact placed.apart e member ⟨lower, by omega⟩

/-- The log without its first entry begins sixteen bytes further on. -/
theorem entryAt_succ (i : Nat) : entryAt redo (i + 1) = entryAt (redo + 16) i := by
  simp only [entryAt]
  omega

/-- The log is what its own words are, so a change of other words leaves it complete. -/
theorem Logged.congr (logged : Logged pop redo front last m)
    (same : ∀ a, InLog redo (front.length + 1) a → image a = m a) :
    Logged pop redo front last image := by
  have holds {i : Nat} {offset value : BitVec 64} (bound : i < front.length + 1)
      (held : Holds m (entryAt redo i) offset value) : Holds image (entryAt redo i) offset value :=
    ⟨(same _ (inLog_entryAt bound).1).trans held.offset,
      (same _ (inLog_entryAt bound).2).trans held.value⟩
  refine ⟨fun i e found => holds ?_ (logged.earlier i e found),
    holds (Nat.lt_succ_self _) logged.latest⟩
  exact Nat.lt_succ_of_lt (List.getElem?_eq_some_iff.mp found).1

/-- Behind its first entry stands a complete log of the other entries. -/
theorem Logged.tail (logged : Logged pop redo (e :: rest) last m) :
    Logged pop (redo + 16) rest last m := by
  refine ⟨fun i other found => ?_, ?_⟩
  · rw [← entryAt_succ]
    exact logged.earlier (i + 1) other found
  · rw [← entryAt_succ]
    exact logged.latest

/-- When only the last entry is left, its flag is found. -/
theorem Logged.flagged_last (logged : Logged pop redo [] last m) : flagged m redo = true := by
  simp only [flagged, decide_eq_true_eq]
  exact logged.latest.offset ▸ or_flag_and_flag

/-- Without the flag its offset is the offset of the word that it names. -/
theorem Logged.masked_last (logged : Logged pop redo [] last m) :
    m redo &&& redoFlagMask = pop.objPtrToOff last.ptr :=
  logged.latest.offset ▸ or_flag_and_mask (objPtrToOff_and_flag pop last)

/-- An entry in front of the last one has no flag, so the loop goes on. -/
theorem Logged.unflagged_first (logged : Logged pop redo (e :: rest) last m) :
    ¬ flagged m redo = true := by
  rw [Bool.not_eq_true, flagged_eq_false]
  exact (logged.earlier 0 e rfl).offset ▸ objPtrToOff_and_flag pop e

/-- Processing a complete log writes its entries in their order.

The induction is on the entries in front of the last one. The first entry has no flag,
so its word is written, and this word lies outside the log. The rest of the log is then
as complete as before, one entry further on, with one less of the fuel. -/
theorem redoLogProcess_eq (logged : Logged pop redo front last m)
    (apart : ∀ e ∈ front ++ [last], ¬ InLog redo (front.length + 1) e.ptr)
    (enough : front.length < fuel) :
    redoLogProcess b pop fuel m redo =
      some (front.flatMap (fun e => writeWord b e.ptr e.value) ++
        writeLastWord b last.ptr last.value (entryAt redo front.length)) := by
  induction front generalizing fuel m redo with
  | nil =>
    obtain ⟨fuel, rfl⟩ : ∃ less, fuel = less + 1 := ⟨fuel - 1, by omega⟩
    rw [redoLogProcess, if_pos logged.flagged_last, logged.masked_last, direct_objPtrToOff]
    exact congrArg (fun v => some (writeLastWord b last.ptr v redo)) logged.latest.value
  | cons e rest ih =>
    obtain ⟨fuel, rfl⟩ : ∃ less, fuel = less + 1 := ⟨fuel - 1, by omega⟩
    obtain ⟨offset, value⟩ := logged.earlier 0 e rfl
    have direct : pop.direct (m redo) = e.ptr := offset ▸ direct_objPtrToOff pop e
    have kept (a : Nat) (inside : InLog redo (rest.length + 2) a) :
        Function.update m e.ptr e.value a = m a := by
      refine Function.update_of_ne ?_ _ _
      rintro rfl
      exact apart e List.mem_cons_self inside
    have below : Logged pop (redo + 16) rest last (Function.update m e.ptr e.value) :=
      (logged.congr kept).tail
    have aside (other : OperationEntry) (member : other ∈ rest ++ [last]) :
        ¬ InLog (redo + 16) (rest.length + 1) other.ptr := fun inside =>
      apart other (List.mem_cons_of_mem e member) (by
        simp only [InLog, List.length_cons] at inside ⊢
        omega)
    have later := ih below aside (Nat.lt_of_succ_lt_succ enough)
    rw [redoLogProcess, if_neg logged.unflagged_first, direct,
      show m (redo + 8) = e.value from value]
    simp only [instrs_writeWord, exec_word, later, Option.map_some, List.flatMap_cons,
      List.length_cons, entryAt_succ, List.append_assoc]

/-- The program of a processed log: all words are written, then the flag is cleared. -/
theorem instrs_processed :
    instrs (front.flatMap (fun e => writeWord b e.ptr e.value) ++
        writeLastWord b last.ptr last.value (entryAt redo front.length)) =
      words (front ++ [last]) ++ [.fence] ++ (word (entryAt redo front.length) 0 ++ [.fence]) := by
  have earlier : instrs (front.flatMap fun e => writeWord b e.ptr e.value) = words front := by
    induction front with
    | nil => rfl
    | cons e rest ih =>
      rw [List.flatMap_cons, instrs_append, instrs_writeWord, ih]
      rfl
  have latest : words (front ++ [last]) = words front ++ word last.ptr last.value := by
    simp [words]
  rw [instrs_append, earlier, instrs_writeLastWord, latest]
  simp only [List.append_assoc]

/-- The offsets of the entries stand at different places. -/
theorem entryAt_injective {i j : Nat} (same : entryAt redo i = entryAt redo j) : i = j := by
  simp only [entryAt] at same
  omega

/-- No entry of a log begins where the value of another one stands. -/
theorem entryAt_ne_value (i j : Nat) : entryAt redo i ≠ entryAt redo j + 8 := by
  simp only [entryAt]
  omega

/-- A complete log stays complete while the words that it names change. -/
theorem Committed.agree (placed : Placed redo nentries (front ++ [last]))
    (committed : Committed pop redo nentries front last m image)
    (same : ∀ a, ¬ Named (front ++ [last]) a → next a = image a) :
    Committed pop redo nentries front last m next := by
  have inside (a : Nat) (member : InLog redo nentries a) : next a = image a := by
    refine same a ?_
    rintro ⟨e, entry, rfl⟩
    exact placed.apart e entry member
  have fits := placed.room
  refine ⟨committed.logged.congr fun a ⟨lower, upper⟩ => inside a ⟨lower, by omega⟩,
    fun i bound other => ?_, fun a outside unnamed => ?_⟩
  · rw [flagged, inside _ (inLog_entryAt bound).1]
    exact committed.unflagged i bound other
  · exact (same a unnamed).trans (committed.data a outside unnamed)

/-- When all words are written and the flag is cleared, the change is made. A word
outside the log has the content that the entries give it, or that of the memory before. -/
theorem Committed.cleared (placed : Placed redo nentries (front ++ [last]))
    (committed : Committed pop redo nentries front last m image) :
    Idle redo nentries (changed m (front ++ [last]))
      (Function.update (changed image (front ++ [last])) (entryAt redo front.length) 0) := by
  have written := committed.agree placed fun a unnamed => changed_of_not_named (m := image) unnamed
  have fits := placed.room
  refine ⟨fun i bound => ?_, fun a outside => ?_⟩
  · by_cases here : i = front.length
    · rw [here, flagged_eq_false, Function.update_self]
      rfl
    · rw [flagged, Function.update_of_ne fun same => here (entryAt_injective same)]
      exact written.unflagged i bound here
  · have elsewhere : a ≠ entryAt redo front.length := by
      rintro rfl
      exact outside (inLog_entryAt fits).1
    rw [Function.update_of_ne elsewhere]
    exact changed_congr fun unnamed => committed.data a outside unnamed

/-- Processing a complete log makes the change, and a crash of it leaves the log
complete or the change made.

The words are persisted before the flag is cleared. A crash in front of that fence has
changed words that the log names, and the log is still there to name them. A crash
behind it finds all words written, and the flag either as before or cleared. -/
theorem Committed.process (placed : Placed redo nentries (front ++ [last]))
    (committed : Committed pop redo nentries front last m image) (enough : front.length < fuel) :
    ∃ ops, redoLogProcess b pop fuel image redo = some ops ∧ Settles (instrs ops) ∧
      Idle redo nentries (changed m (front ++ [last])) (exec image (instrs ops)) ∧
      ∀ next, CrashesTo image (instrs ops) next →
        Committed pop redo nentries front last m next ∨
          Idle redo nentries (changed m (front ++ [last])) next := by
  refine ⟨_, redoLogProcess_eq committed.logged placed.apart_used enough, ?_, ?_, ?_⟩
  · rw [instrs_processed]
    exact writtenBack_words.settles.append writtenBack_word.settles
  · rw [instrs_processed]
    simpa [exec_words] using committed.cleared placed
  · intro next crash
    rw [instrs_processed] at crash
    rcases crash.append writtenBack_words.settles with early | late
    · refine .inl (committed.agree placed fun a unnamed => ?_)
      refine (early.value a).resolve_right ?_
      rw [stored_append, stored_words unnamed]
      exact List.not_mem_nil
    · rw [exec_append, exec_words] at late
      rcases crashesTo_word late with rfl | rfl
      · exact .inl (committed.agree placed fun a unnamed => changed_of_not_named unnamed)
      · exact .inr (committed.cleared placed)

end Situations

section Stores

variable {b : Build} {pop : Pool} {redo index a i : Nat} {e last : OperationEntry}
  {entries front : List OperationEntry} {m : Memory} {v : BitVec 64} {ending : Ending}

/-- An entry is stored without any write-back. -/
theorem instrs_redoLogStore (offset value : BitVec 64) :
    instrs (redoLogStore b redo index offset value) =
      [.store (entryAt redo index) offset, .store (entryAt redo index + 8) value] := by
  simp [redoLogStore]

/-- What `redo_log_store` stores: the offset and the value of an entry, each at its
place. The induction is on the entries, for every index of the first one. -/
theorem mem_stored_storeEntries
    (member : v ∈ stored a (instrs (storeEntries b pop redo index entries))) :
    ∃ i e, entries[i]? = some e ∧ (a = entryAt redo (index + i) ∧ v = pop.objPtrToOff e.ptr ∨
      a = entryAt redo (index + i) + 8 ∧ v = e.value) := by
  induction entries generalizing index with
  | nil => exact absurd member List.not_mem_nil
  | cons e rest ih =>
    rw [storeEntries, instrs_append, instrs_redoLogStore, stored_append, List.mem_append] at member
    rcases member with here | later
    · refine ⟨0, e, rfl, ?_⟩
      simp only [stored, Instr.stored?, List.filterMap_cons, List.filterMap_nil] at here
      split_ifs at here with offset value value <;> simp_all
    · obtain ⟨i, other, found, place⟩ := ih later
      refine ⟨i + 1, other, found, ?_⟩
      rwa [show index + (i + 1) = index + 1 + i by omega]

/-- An entry that was stored stands in the log. The stores of later entries go to later
places and leave it alone. -/
theorem holds_storeEntries (found : entries[i]? = some e) :
    Holds (exec m (instrs (storeEntries b pop redo index entries))) (entryAt redo (index + i))
      (pop.objPtrToOff e.ptr) e.value := by
  induction entries generalizing index i m with
  | nil => simp at found
  | cons first rest ih =>
    rw [storeEntries, instrs_append, exec_append, instrs_redoLogStore]
    cases i with
    | zero =>
      obtain rfl : first = e := by simpa using found
      have untouched {a : Nat} (front : a < entryAt redo (index + 1)) :
          stored a (instrs (storeEntries b pop redo (index + 1) rest)) = [] := by
        refine List.eq_nil_iff_forall_not_mem.mpr fun v member => ?_
        obtain ⟨i, _, _, ⟨place, _⟩ | ⟨place, _⟩⟩ := mem_stored_storeEntries member <;>
          simp only [entryAt] at place front <;> omega
      constructor
      · rw [exec_of_unstored (untouched (by simp only [entryAt]; omega))]
        simp [Instr.apply]
      · rw [exec_of_unstored (untouched (by simp only [entryAt]; omega))]
        simp [Instr.apply]
    | succ i =>
      rw [show index + (i + 1) = index + 1 + i by omega]
      exact ih (by simpa using found)

/-- A log that is filled from its beginning holds the offset and the value of each
entry. -/
theorem holds_entry (b : Build) (pop : Pool) (redo : Nat) (m : Memory)
    (found : entries[i]? = some e) :
    Holds (exec m (instrs (storeEntries b pop redo 0 entries))) (entryAt redo i)
      (pop.objPtrToOff e.ptr) e.value := by
  have holds : Holds (exec m (instrs (storeEntries b pop redo 0 entries))) (entryAt redo (0 + i))
      (pop.objPtrToOff e.ptr) e.value := holds_storeEntries found
  rwa [Nat.zero_add] at holds

/-- The stores of a log in front of the first persist. -/
def logStores (b : Build) (pop : Pool) (ending : Ending) (redo : Nat)
    (front : List OperationEntry) (last : OperationEntry) : List (Instr Nat (BitVec 64)) :=
  match ending with
  | .setLast => instrs (storeEntries b pop redo 0 (front ++ [last]))
  | .storeLast =>
    instrs (storeEntries b pop redo 0 front) ++
      [.store (entryAt redo front.length + 8) last.value]

/-- With both endings, the stores are persisted, and then the flag with the last offset. -/
theorem instrs_storeLog :
    instrs (storeLog b pop ending m redo front last) =
      logStores b pop ending redo front last ++ lines redo ((front.length + 1) * 16) ++ [.fence] ++
        (word (entryAt redo front.length) (pop.objPtrToOff last.ptr ||| redoFinishFlag) ++
          [.fence]) := by
  cases ending with
  | setLast =>
    have latest := holds_entry b pop redo m (List.getElem?_concat_length (l := front) (a := last))
    rw [storeLog]
    simp only [redoLogSetLast, latest.offset]
    simp [logStores, word]
  | storeLast => simp [storeLog, redoLogStoreLast, logStores, word]

/-- The stores stay in the log and set no flag: offsets of aligned words have the bit
free, and values stand at other places. -/
theorem mem_stored_logStores (member : v ∈ stored a (logStores b pop ending redo front last)) :
    InLog redo (front.length + 1) a ∧ ∀ i, a = entryAt redo i → v &&& redoFinishFlag = 0 := by
  have entry {entries : List OperationEntry} (short : entries.length ≤ front.length + 1)
      (stores : v ∈ stored a (instrs (storeEntries b pop redo 0 entries))) :
      InLog redo (front.length + 1) a ∧ ∀ i, a = entryAt redo i → v &&& redoFinishFlag = 0 := by
    obtain ⟨i, e, found, place⟩ := mem_stored_storeEntries stores
    have bound := (List.getElem?_eq_some_iff.mp found).1
    rw [Nat.zero_add] at place
    rcases place with ⟨rfl, rfl⟩ | ⟨rfl, rfl⟩
    · exact ⟨(inLog_entryAt (by omega)).1, fun _ _ => objPtrToOff_and_flag pop e⟩
    · exact ⟨(inLog_entryAt (by omega)).2, fun j same => absurd same.symm (entryAt_ne_value j i)⟩
  cases ending with
  | setLast => exact entry (by simp) member
  | storeLast =>
    rw [logStores, stored_append, List.mem_append] at member
    rcases member with earlier | latest
    · exact entry (Nat.le_succ _) earlier
    · have here : entryAt redo front.length + 8 = a := by
        by_contra elsewhere
        simp [stored, Instr.stored?, elsewhere] at latest
      subst here
      exact ⟨(inLog_entryAt (Nat.lt_succ_self _)).2,
        fun j same => absurd same.symm (entryAt_ne_value j _)⟩

/-- Behind the stores of a commit, all of the log but the last offset stands there. With
one ending the last offset has been stored too, without its flag, and with the other it
has not been stored at all. -/
theorem holds_logStores (b : Build) (pop : Pool) (ending : Ending) (redo : Nat)
    (front : List OperationEntry) (last : OperationEntry) (m : Memory) :
    (∀ i e, front[i]? = some e → Holds (exec m (logStores b pop ending redo front last))
      (entryAt redo i) (pop.objPtrToOff e.ptr) e.value) ∧
    exec m (logStores b pop ending redo front last) (entryAt redo front.length + 8) =
      last.value := by
  cases ending with
  | setLast =>
    refine ⟨fun i e found => holds_entry b pop redo m ?_,
      (holds_entry b pop redo m List.getElem?_concat_length).value⟩
    rwa [List.getElem?_append_left (List.getElem?_eq_some_iff.mp found).1]
  | storeLast =>
    simp only [logStores, exec_append, exec_cons, exec_nil, Instr.apply]
    refine ⟨fun i e found => ?_, Function.update_self _ _ _⟩
    obtain ⟨offset, value⟩ := holds_entry b pop redo m found
    have bound := (List.getElem?_eq_some_iff.mp found).1
    constructor
    · rwa [Function.update_of_ne (entryAt_ne_value i _)]
    · rwa [Function.update_of_ne (by simp only [entryAt]; omega)]

end Stores

section Commits

variable {b : Build} {pop : Pool} {redo nentries fuel : Nat} {last : OperationEntry}
  {front : List OperationEntry} {m image next : Memory} {ending : Ending}

/-- What a crash can leave of a commit: nothing has happened, the log is complete, or
the change is made and the log empty again. -/
def Recoverable (pop : Pool) (redo nentries : Nat) (front : List OperationEntry)
    (last : OperationEntry) (m image : Memory) : Prop :=
  Idle redo nentries m image ∨ Committed pop redo nentries front last m image ∨
    Idle redo nentries (changed m (front ++ [last])) image

/-- As long as the log is only stored, nothing has happened, whichever of the stores
have arrived. -/
theorem idle_of_logStores (placed : Placed redo nentries (front ++ [last]))
    (idle : Idle redo nentries m m)
    (stores : ∀ a, image a = m a ∨ image a ∈ stored a (logStores b pop ending redo front last)) :
    Idle redo nentries m image := by
  have fits := placed.room
  refine ⟨fun i bound => ?_, fun a outside => (stores a).resolve_right fun member => ?_⟩
  · rw [flagged_eq_false]
    rcases stores (entryAt redo i) with old | new
    · rw [old]
      exact flagged_eq_false.mp (idle.unflagged i bound)
    · exact (mem_stored_logStores new).2 i rfl
  · obtain ⟨lower, upper⟩ := (mem_stored_logStores member).1
    exact outside ⟨lower, by omega⟩

/-- The flag makes the log complete. It is set in the last offset, which is none of the
places that the earlier stores have filled. -/
theorem committed_of_logStores (placed : Placed redo nentries (front ++ [last]))
    (idle : Idle redo nentries m m) :
    Committed pop redo nentries front last m
      (Function.update (exec m (logStores b pop ending redo front last))
        (entryAt redo front.length) (pop.objPtrToOff last.ptr ||| redoFinishFlag)) := by
  have fits := placed.room
  have stored : Idle redo nentries m (exec m (logStores b pop ending redo front last)) :=
    idle_of_logStores placed idle (exec_value m _)
  obtain ⟨earlier, value⟩ := holds_logStores b pop ending redo front last m
  refine ⟨⟨fun i e found => ?_, ?_, ?_⟩, fun i bound other => ?_, fun a outside unnamed => ?_⟩
  · have bound := (List.getElem?_eq_some_iff.mp found).1
    obtain ⟨offset, content⟩ := earlier i e found
    constructor
    · rwa [Function.update_of_ne fun same => bound.ne (entryAt_injective same)]
    · rwa [Function.update_of_ne (entryAt_ne_value _ i).symm]
  · exact Function.update_self _ _ _
  · rwa [Function.update_of_ne (entryAt_ne_value _ _).symm]
  · rw [flagged, Function.update_of_ne fun same => other (entryAt_injective same)]
    exact stored.unflagged i bound
  · have elsewhere : a ≠ entryAt redo front.length := by
      rintro rfl
      exact outside (inLog_entryAt fits).1
    rw [Function.update_of_ne elsewhere]
    exact stored.data a outside

/-- The stores of the log are persisted in front of the flag, because the range of the
first persist covers all of them. -/
theorem settles_logStores : Settles (logStores b pop ending redo front last ++
    lines redo ((front.length + 1) * 16) ++ [.fence]) := by
  refine (writtenBack_lines fun a some => ?_).settles
  obtain ⟨v, member⟩ := List.exists_mem_of_ne_nil _ some
  obtain ⟨lower, upper⟩ := (mem_stored_logStores member).1
  exact ⟨lower, by omega⟩

/-- While the log is stored, a crash leaves nothing of the change or a complete log. In
front of the first fence only stores of the log can have arrived; behind it the flag is
the only word that is not settled. -/
theorem crashesTo_storeLog (placed : Placed redo nentries (front ++ [last]))
    (idle : Idle redo nentries m m)
    (crash : CrashesTo m (instrs (storeLog b pop ending m redo front last)) image) :
    Idle redo nentries m image ∨ Committed pop redo nentries front last m image := by
  rw [instrs_storeLog] at crash
  rcases crash.append settles_logStores with early | late
  · have content (a : Nat) :
        image a = m a ∨ image a ∈ stored a (logStores b pop ending redo front last) := by
      simpa [stored, Instr.stored?, lines] using early.value a
    exact .inl (idle_of_logStores placed idle content)
  · simp only [exec_append, exec_lines, exec_cons, Instr.apply_fence, exec_nil] at late
    rcases crashesTo_word late with rfl | rfl
    · exact .inl (idle_of_logStores placed idle (exec_value m _))
    · exact .inr (committed_of_logStores placed idle)

/-- Behind the stores of the log, the last of which is the flag, the log is complete. -/
theorem committed_storeLog (b : Build) (pop : Pool) (ending : Ending)
    (placed : Placed redo nentries (front ++ [last])) (idle : Idle redo nentries m m) :
    Committed pop redo nentries front last m
      (exec m (instrs (storeLog b pop ending m redo front last))) := by
  rw [instrs_storeLog]
  simpa using committed_of_logStores placed idle

/-- A commit is the stores of its log, followed by the stores of the words that the log
names: processing the log finds the entries that were stored. -/
theorem redoLogCommit_eq (b : Build) (pop : Pool) (ending : Ending)
    (placed : Placed redo nentries (front ++ [last])) (idle : Idle redo nentries m m)
    (enough : front.length < fuel) :
    redoLogCommit b pop ending fuel m redo front last =
      some (storeLog b pop ending m redo front last ++
        (front.flatMap (fun e => writeWord b e.ptr e.value) ++
          writeLastWord b last.ptr last.value (entryAt redo front.length))) := by
  rw [redoLogCommit]
  simp only [redoLogProcess_eq (committed_storeLog b pop ending placed idle).logged
    placed.apart_used enough, Option.map_some]

/-- A commit makes the change, and a crash of it can be recovered. A crash comes while
the log is stored, which leaves nothing or a complete log, or while a complete log is
processed. -/
theorem commit_recoverable (b : Build) (pop : Pool) (ending : Ending)
    (placed : Placed redo nentries (front ++ [last])) (idle : Idle redo nentries m m)
    (enough : front.length < fuel) :
    ∃ ops, redoLogCommit b pop ending fuel m redo front last = some ops ∧ Settles (instrs ops) ∧
      Idle redo nentries (changed m (front ++ [last])) (exec m (instrs ops)) ∧
      ∀ image, CrashesTo m (instrs ops) image →
        Recoverable pop redo nentries front last m image := by
  have complete := committed_storeLog b pop ending placed idle
  have settled : Settles (instrs (storeLog b pop ending m redo front last)) := by
    rw [instrs_storeLog]
    exact settles_logStores.append writtenBack_word.settles
  obtain ⟨ops, ran, settles, final, interrupted⟩ := complete.process (b := b) placed enough
  refine ⟨storeLog b pop ending m redo front last ++ ops, ?_, ?_, ?_, fun image crash => ?_⟩
  · rw [redoLogCommit]
    simp only [ran, Option.map_some]
  · rw [instrs_append]
    exact settled.append settles
  · rwa [instrs_append, exec_append]
  · rw [instrs_append] at crash
    rcases crash.append settled with early | late
    · rcases crashesTo_storeLog placed idle early with nothing | logged
      · exact .inl nothing
      · exact .inr (.inl logged)
    · exact .inr (interrupted image late)

end Commits

section Recovery

variable {b : Build} {pop : Pool} {redo nentries fuel : Nat} {last : OperationEntry}
  {front : List OperationEntry} {m image next : Memory} {ending : Ending}

/-- Without a change under way no flag is counted. -/
theorem Idle.nflags (idle : Idle redo nentries m image) :
    redoLogNflags image redo nentries = 0 := by
  rw [redoLogNflags, List.countP_eq_zero]
  intro i member
  rw [idle.unflagged i (List.mem_range.mp member)]
  exact Bool.false_ne_true

/-- Without a flag there is nothing to recover. -/
theorem Idle.skip (idle : Idle redo nentries m image) (b : Build) (pop : Pool) (fuel : Nat) :
    redoLogRecover b pop fuel image redo nentries = some [] := by
  rw [redoLogRecover, idle.nflags, if_neg Nat.zero_ne_one]

/-- A complete log has exactly one flag, that of its last entry. -/
theorem Committed.nflags (placed : Placed redo nentries (front ++ [last]))
    (committed : Committed pop redo nentries front last m image) :
    redoLogNflags image redo nentries = 1 := by
  have fits := placed.room
  have only : ∀ i ∈ List.range nentries,
      flagged image (entryAt redo i) = true ↔ (i == front.length) = true := by
    intro i member
    rw [beq_iff_eq]
    constructor
    · intro set
      by_contra other
      rw [committed.unflagged i (List.mem_range.mp member) other] at set
      exact Bool.false_ne_true set
    · rintro rfl
      simp only [flagged, decide_eq_true_eq, committed.logged.latest.offset]
      exact or_flag_and_flag
  rw [redoLogNflags, List.countP_congr only]
  exact List.count_eq_one_of_mem List.nodup_range (List.mem_range.mpr fits)

/-- The recovery of what a crash can leave ends, with nothing or all of the change, and
a crash of it can be recovered again. Without a flag it does nothing, and with one it
processes the complete log. -/
theorem Recoverable.recover (placed : Placed redo nentries (front ++ [last]))
    (recoverable : Recoverable pop redo nentries front last m image)
    (enough : front.length < fuel) :
    ∃ ops, redoLogRecover b pop fuel image redo nentries = some ops ∧
      (Idle redo nentries m (exec image (instrs ops)) ∨
        Idle redo nentries (changed m (front ++ [last])) (exec image (instrs ops))) ∧
      ∀ next, CrashesTo image (instrs ops) next →
        Recoverable pop redo nentries front last m next := by
  rcases recoverable with nothing | logged | all
  · refine ⟨[], nothing.skip b pop fuel, .inl nothing, fun next crash => ?_⟩
    rw [crash.eq_of_nil]
    exact .inl nothing
  · obtain ⟨ops, ran, _, final, interrupted⟩ := logged.process (b := b) placed enough
    refine ⟨ops, ?_, .inr final, fun next crash => .inr (interrupted next crash)⟩
    rwa [redoLogRecover, logged.nflags placed, if_pos rfl]
  · refine ⟨[], all.skip b pop fuel, .inr all, fun next crash => ?_⟩
    rw [crash.eq_of_nil]
    exact .inr (.inr all)

/-- The recovery is started some times, and each time a crash comes before its end. -/
inductive Interrupted (b : Build) (pop : Pool) (fuel redo nentries : Nat) : Memory → Memory → Prop
  | never (image : Memory) : Interrupted b pop fuel redo nentries image image
  | again {image next final : Memory} {ops : List Op}
      (started : redoLogRecover b pop fuel image redo nentries = some ops)
      (crash : CrashesTo image (instrs ops) next)
      (later : Interrupted b pop fuel redo nentries next final) :
      Interrupted b pop fuel redo nentries image final

/-- However often the recovery is interrupted, it can be started again: by induction on
the interruptions, each of which leaves something that can be recovered. -/
theorem Recoverable.interrupted (placed : Placed redo nentries (front ++ [last]))
    (enough : front.length < fuel) (history : Interrupted b pop fuel redo nentries image next)
    (recoverable : Recoverable pop redo nentries front last m image) :
    Recoverable pop redo nentries front last m next := by
  induction history with
  | never => exact recoverable
  | again started crash _ ih =>
    obtain ⟨ops, ran, _, interrupted⟩ := recoverable.recover (b := b) placed enough
    obtain rfl := Option.some.inj (started.symm.trans ran)
    exact ih (interrupted _ crash)

/-- A commit through the redo log makes all of its changes. When it is cut off by a
crash, and the recovery as often as one likes too, then the next recovery ends, and the
words outside the log are either all as before the commit or all as behind it.

What a crash of the commit leaves is recoverable, interrupted recoveries keep it so, and
the last recovery comes to its end. -/
theorem redo_log_commit_is_atomic (b : Build) (pop : Pool) (ending : Ending)
    (placed : Placed redo nentries (front ++ [last])) (idle : Idle redo nentries m m)
    (enough : front.length < fuel) :
    ∃ ops, redoLogCommit b pop ending fuel m redo front last = some ops ∧
      Idle redo nentries (changed m (front ++ [last])) (exec m (instrs ops)) ∧
      ∀ image next, CrashesTo m (instrs ops) image →
        Interrupted b pop fuel redo nentries image next →
        ∃ recovery, redoLogRecover b pop fuel next redo nentries = some recovery ∧
          (Idle redo nentries m (exec next (instrs recovery)) ∨
            Idle redo nentries (changed m (front ++ [last])) (exec next (instrs recovery))) := by
  obtain ⟨ops, ran, _, final, crashes⟩ := commit_recoverable b pop ending placed idle enough
  refine ⟨ops, ran, final, fun image next crash history => ?_⟩
  obtain ⟨recovery, recovers, outcome, _⟩ :=
    ((crashes image crash).interrupted placed enough history).recover (b := b) placed enough
  exact ⟨recovery, recovers, outcome⟩

/-- Two words that are changed from zero, and a log in front of them. -/
def smallPool : Pool where
  addr := 4096
  lanesOffset := 0
  nlanes := 1
  heapOffset := 3072
  heapSize := 4096
  rootOffset := 0
  aligned := by decide
  mapped := by decide

/-- An entry for one of the first words. -/
def smallEntry (index : BitVec 11) (value : BitVec 64) : OperationEntry where
  ptr := 8 * index.toNat
  value := value
  aligned := Nat.dvd_mul_right 8 index.toNat
  mapped := by
    have bound := index.isLt
    omega

/-- The entries that change the two words. -/
def smallEntries : List OperationEntry × OperationEntry :=
  ([smallEntry 1024 7], smallEntry 1025 9)

/-- The two small entries fit into the log, and their words lie outside of it. -/
theorem placed_small : Placed 4096 10 (smallEntries.1 ++ [smallEntries.2]) :=
  ⟨by decide, by decide, by decide⟩

/-- An empty memory has no flag. -/
theorem idle_small : Idle 4096 10 (fun _ => 0) (fun _ => 0) :=
  ⟨fun _ _ => flagged_eq_false.mpr BitVec.zero_and, fun _ _ => rfl⟩

/-- The commit of the two words ends and makes both changes. -/
theorem redo_log_commit_is_atomic_two_words :
    ∃ ops, redoLogCommit ⟨[], [], [], 0, 0⟩ smallPool .storeLast 2 (fun _ => 0) 4096
        smallEntries.1 smallEntries.2 = some ops ∧
      exec (fun _ => 0) (instrs ops) 8192 = 7 ∧ exec (fun _ => 0) (instrs ops) 8200 = 9 := by
  obtain ⟨ops, ran, final, _⟩ := redo_log_commit_is_atomic ⟨[], [], [], 0, 0⟩ smallPool .storeLast
    placed_small idle_small (Nat.lt_succ_self 1)
  exact ⟨ops, ran, final.data 8192 (by decide), final.data 8200 (by decide)⟩

/-- The offsets of a complete log are found valid, if those of its entries are. The loop
of the check goes through the entries as the one that processes them does. -/
theorem Logged.check (logged : Logged pop redo front last image)
    (valid : ∀ e ∈ front ++ [last], pop.objOffIsValid (pop.objPtrToOff e.ptr) = true)
    (enough : front.length < fuel) : redoLogCheckOffsets pop fuel image redo = some 0 := by
  induction front generalizing fuel redo with
  | nil =>
    obtain ⟨fuel, rfl⟩ : ∃ less, fuel = less + 1 := ⟨fuel - 1, by omega⟩
    rw [redoLogCheckOffsets, if_pos logged.flagged_last, logged.masked_last,
      if_pos (valid last (by simp))]
  | cons e rest ih =>
    obtain ⟨fuel, rfl⟩ : ∃ less, fuel = less + 1 := ⟨fuel - 1, by omega⟩
    rw [redoLogCheckOffsets, if_neg logged.unflagged_first,
      if_pos ((logged.earlier 0 e rfl).offset ▸ valid e List.mem_cons_self)]
    exact ih logged.tail (fun other member => valid other (List.mem_cons_of_mem e member))
      (Nat.lt_of_succ_lt_succ enough)

/-- Whatever a crash leaves of a commit or of a recovery passes the check of the log: it has
at most one flag, and the offsets up to the flag are valid. -/
theorem redo_log_check_accepts_crashes (b : Build) (pop : Pool) (ending : Ending)
    (placed : Placed redo nentries (front ++ [last])) (idle : Idle redo nentries m m)
    (valid : ∀ e ∈ front ++ [last], pop.objOffIsValid (pop.objPtrToOff e.ptr) = true)
    (enough : front.length < fuel) {ops : List Op}
    (committed : redoLogCommit b pop ending fuel m redo front last = some ops)
    (crash : CrashesTo m (instrs ops) image)
    (history : Interrupted b pop fuel redo nentries image next) :
    redoLogNflags next redo nentries < 2 ∧ redoLogCheck pop fuel next redo nentries = some 0 := by
  obtain ⟨_, ran, _, _, crashes⟩ := commit_recoverable b pop ending placed idle enough
  obtain rfl := Option.some.inj (committed.symm.trans ran)
  have skip {base : Memory} (idle : Idle redo nentries base next) :
      redoLogNflags next redo nentries < 2 ∧ redoLogCheck pop fuel next redo nentries = some 0 := by
    rw [redoLogCheck, idle.nflags]
    exact ⟨by omega, rfl⟩
  rcases (crashes image crash).interrupted placed enough history with nothing | logged | all
  · exact skip nothing
  · rw [redoLogCheck, logged.nflags placed]
    exact ⟨by omega, logged.logged.check valid enough⟩
  · exact skip all

/-- A crash right behind the flag leaves a complete log, which passes the check. -/
theorem redo_log_check_accepts_crashes_two_words :
    ∃ ops image, redoLogCommit ⟨[], [], [], 0, 0⟩ smallPool .setLast 2 (fun _ => 0) 4096
        smallEntries.1 smallEntries.2 = some ops ∧
      CrashesTo (fun _ => 0) (instrs ops) image ∧ redoLogNflags image 4096 10 = 1 ∧
      redoLogCheck smallPool 2 image 4096 10 = some 0 := by
  have ran := redoLogCommit_eq ⟨[], [], [], 0, 0⟩ smallPool .setLast placed_small idle_small
    (Nat.lt_succ_self 1)
  have complete := committed_storeLog ⟨[], [], [], 0, 0⟩ smallPool .setLast placed_small idle_small
  have crash := (crashesTo_exec (fun _ => 0) (instrs (storeLog ⟨[], [], [], 0, 0⟩ smallPool .setLast
    (fun _ => 0) 4096 smallEntries.1 smallEntries.2))).extend (instrs
      (smallEntries.1.flatMap (fun e => writeWord ⟨[], [], [], 0, 0⟩ e.ptr e.value) ++
        writeLastWord ⟨[], [], [], 0, 0⟩ smallEntries.2.ptr smallEntries.2.value
          (entryAt 4096 smallEntries.1.length)))
  rw [← instrs_append] at crash
  have accepted := redo_log_check_accepts_crashes _ _ _ placed_small idle_small (by decide)
    (Nat.lt_succ_self 1) ran crash (.never _)
  exact ⟨_, _, ran, crash, complete.nflags placed_small, accepted.2⟩

end Recovery

end PMTest.RedoLog

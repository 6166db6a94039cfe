import Mathlib.Logic.Function.Basic
import PMTest.Handlers
import PMTest.Lookahead

/-!
# Verification of a trace, and its single in-order pass

`veriProc` scans the trace for fences. At each fence it replays the records since
the previous one, and after the scan it replays the tail, where a flush has no
effect. The two replays go through two copies of one switch. A transaction end
rewrites the type of stored assign records in memory while the scan goes on.

`inOrder` reads the records once, from the left, with the types they had before
the run, and skips a flush that no fence follows. The two agree on everything
that is printed and on the final variables. Every record the scan has not reached
is still unchanged in memory, because only records that were already replayed are
stored for rewriting and no record occurs twice. For the same reason the variables
in front of each record are those of the in-order pass at its position.
-/

namespace PMTest

open Intervals Lookahead

/-- The records in memory, the local variables and the lines printed so far. -/
structure Replay (icl : Icl) where
  memory : Ptr → Metadata
  state : VeriState icl
  stdout : List Line

/-- A finished verification. The last message goes to the error stream. -/
structure Outcome (icl : Icl) extends Replay icl where
  transactionEndError : Bool

section Loops

variable {icl : Icl}

namespace Replay

/-- A handler called for one record returns: its reports are on the output and
the variables are updated. -/
def handled (r : Replay icl) (cur : Ptr) (reports : List Report) (state : VeriState icl) :
    Replay icl :=
  { r with state := state, stdout := r.stdout ++ reports.map (Line.mk cur cur) }

/-- One iteration of the loop in `VeriProc_TransactionEnd`: the stored record
becomes a persist query and is checked at once. -/
def recheck (cur : Ptr) (r : Replay icl) (stored : Ptr) : Replay icl :=
  let memory := Function.update r.memory stored { r.memory stored with type := .persist }
  { r with
    memory := memory
    stdout := r.stdout ++
      (veriProcPersist (memory stored) r.state.excludeInfo r.state.persistInfo).2.map
        (Line.mk cur stored) }

end Replay

/-- `VeriProc_TransactionEnd`. -/
def veriProcTransactionEnd (cur : Ptr) (r : Replay icl) : Replay icl :=
  let r := { r with
    state := { r.state with transactionCount := r.state.transactionCount - 1 } }
  if r.state.transactionCount = 0 then
    r.state.transactionPersistInfo.foldl (Replay.recheck cur) r
  else r

/-- The switch of the replay of a frame that ends in a fence. -/
def frameSwitch (warn : Bool) (r : Replay icl) (cur : Ptr) : Replay icl :=
  match (r.memory cur).type with
  | .assign =>
      let h := veriProcAssign (r.memory cur) cur r.state
      r.handled cur h.reports h.state
  | .flush =>
      let h := veriProcFlush warn (r.memory cur) r.state
      r.handled cur h.reports h.state
  | .fence => r.handled cur [] (veriProcFence r.state)
  | .persist =>
      r.handled cur (veriProcPersist (r.memory cur) r.state.excludeInfo r.state.persistInfo).2
        r.state
  | .order =>
      r.handled cur (veriProcOrder (r.memory cur) r.state.excludeInfo r.state.orderInfo).2 r.state
  | .transactionBegin => r.handled cur [] (veriProcTransactionBegin r.state)
  | .transactionEnd => veriProcTransactionEnd cur r
  | .transactionAdd =>
      let h := veriProcTransactionAdd warn (r.memory cur) r.state
      r.handled cur h.1 h.2
  | .exclude => r.handled cur [] (veriProcExclude (r.memory cur) r.state)
  | .reinclude => r.handled cur [] (veriProcInclude (r.memory cur) r.state)
  | .commit | .barrier | .transactionDelim | .ending => r

/-- The switch of the replay of the tail. -/
def tailSwitch (warn : Bool) (r : Replay icl) (cur : Ptr) : Replay icl :=
  match (r.memory cur).type with
  | .assign =>
      let h := veriProcAssign (r.memory cur) cur r.state
      r.handled cur h.reports h.state
  | .flush => r
  | .fence => r.handled cur [] (veriProcFence r.state)
  | .persist =>
      r.handled cur (veriProcPersist (r.memory cur) r.state.excludeInfo r.state.persistInfo).2
        r.state
  | .order =>
      r.handled cur (veriProcOrder (r.memory cur) r.state.excludeInfo r.state.orderInfo).2 r.state
  | .transactionBegin => r.handled cur [] (veriProcTransactionBegin r.state)
  | .transactionEnd => veriProcTransactionEnd cur r
  | .transactionAdd =>
      let h := veriProcTransactionAdd warn (r.memory cur) r.state
      r.handled cur h.1 h.2
  | .exclude => r.handled cur [] (veriProcExclude (r.memory cur) r.state)
  | .reinclude => r.handled cur [] (veriProcInclude (r.memory cur) r.state)
  | .commit | .barrier | .transactionDelim | .ending => r

/-- `for (int i = prev; i != cur; i++)` over one of the switches. The indices
stay inside the vector, so the default address is never read. -/
def replayRange (switch : Replay icl → Ptr → Replay icl) (veriptr : List Ptr) (prev cur : Nat)
    (r : Replay icl) : Replay icl :=
  (List.range' prev (cur - prev)).foldl (fun r i => switch r (veriptr.getD i 0)) r

/-- One iteration of the scan: a fence replays the records since `prev`, and the
fence itself opens the next frame. -/
def scanStep (warn : Bool) (veriptr : List Ptr) (scan : Nat × Replay icl) (cur : Nat) :
    Nat × Replay icl :=
  if (scan.2.memory (veriptr.getD cur 0)).type = .fence then
    (cur, replayRange (frameSwitch warn) veriptr scan.1 cur scan.2)
  else scan

/-- `PMTest::VeriProc`. -/
def veriProc (icl : Icl) (warn : Bool) (memory : Ptr → Metadata) (veriptr : List Ptr) :
    Outcome icl :=
  let scan := (List.range veriptr.length).foldl (scanStep warn veriptr)
    (0, ⟨memory, VeriState.initial icl, []⟩)
  let r := replayRange (tailSwitch warn) veriptr scan.1 veriptr.length scan.2
  { r with transactionEndError := decide (r.state.transactionCount > 0) }

end Loops

section InOrder

variable {icl : Icl}

/-- Some record of the list is a fence. -/
def hasFence (memory : Ptr → Metadata) (later : List Ptr) : Bool :=
  later.any fun p => (memory p).type = .fence

/-- The lines a transaction end prints for its stored assigns. -/
def recheckLines (memory : Ptr → Metadata) (cur : Ptr) (s : VeriState icl) : List Line :=
  s.transactionPersistInfo.flatMap fun stored =>
    (veriProcPersist (memory stored) s.excludeInfo s.persistInfo).2.map (Line.mk cur stored)

/-- Process one record by its type, leaving memory alone. -/
def process (warn : Bool) (memory : Ptr → Metadata) (cur : Ptr) (s : VeriState icl) :
    VeriState icl × List Line :=
  match (memory cur).type with
  | .assign =>
      let h := veriProcAssign (memory cur) cur s
      (h.state, h.reports.map (Line.mk cur cur))
  | .flush =>
      let h := veriProcFlush warn (memory cur) s
      (h.state, h.reports.map (Line.mk cur cur))
  | .fence => (veriProcFence s, [])
  | .persist =>
      (s, (veriProcPersist (memory cur) s.excludeInfo s.persistInfo).2.map (Line.mk cur cur))
  | .order =>
      (s, (veriProcOrder (memory cur) s.excludeInfo s.orderInfo).2.map (Line.mk cur cur))
  | .transactionBegin => (veriProcTransactionBegin s, [])
  | .transactionEnd =>
      let s := { s with transactionCount := s.transactionCount - 1 }
      (s, if s.transactionCount = 0 then recheckLines memory cur s else [])
  | .transactionAdd =>
      let h := veriProcTransactionAdd warn (memory cur) s
      (h.2, h.1.map (Line.mk cur cur))
  | .exclude => (veriProcExclude (memory cur) s, [])
  | .reinclude => (veriProcInclude (memory cur) s, [])
  | .commit | .barrier | .transactionDelim | .ending => (s, [])

/-- The in-order machine: a flush that no fence follows is skipped, every other
record is processed once. -/
def inOrder (icl : Icl) (warn : Bool) (memory : Ptr → Metadata) :
    Machine Ptr (VeriState icl) Line := fun later cur s =>
  if (memory cur).type = .flush ∧ hasFence memory later = false then (s, [])
  else process warn memory cur s

/-- One fold over the positions of a trace. It processes every record once, with
the type it had before the run, and skips a flush that no later fence follows. -/
def onePass (icl : Icl) (warn : Bool) (t : Trace) : VeriState icl × List Line :=
  (List.range t.veriptr.length).foldl (fun pass i =>
    let cur := t.veriptr.getD i 0
    if (t.memory cur).type = .flush ∧ hasFence t.memory (t.veriptr.drop (i + 1)) = false then pass
    else
      let processed := process warn t.memory cur pass.1
      (processed.1, pass.2 ++ processed.2)) (VeriState.initial icl, [])

/-- Memory during the replay: records outside `done` are untouched, all others
differ at most in their type, and only replayed records are stored. -/
structure Tracks (memory : Ptr → Metadata) (done : List Ptr) (r : Replay icl) : Prop where
  untouched : ∀ p, p ∉ done → r.memory p = memory p
  retyped : ∀ p, { r.memory p with type := (memory p).type } = memory p
  stored : ∀ p ∈ r.state.transactionPersistInfo, p ∈ done

/-- More records count as replayed. -/
theorem Tracks.wider {memory : Ptr → Metadata} {done : List Ptr} {r : Replay icl}
    (tracks : Tracks memory done r) (more : List Ptr) : Tracks memory (done ++ more) r where
  untouched p absent := tracks.untouched p fun member => absent (List.mem_append_left more member)
  retyped := tracks.retyped
  stored p member := List.mem_append_left more (tracks.stored p member)

/-- A persist check does not read the type of its record. -/
theorem persist_ignores_type {memory : Ptr → Metadata} {done : List Ptr} {r : Replay icl}
    (tracks : Tracks memory done r) (p : Ptr) (type : MetadataType)
    (excludeInfo persistInfo : icl.SetOf) :
    veriProcPersist { r.memory p with type := type } excludeInfo persistInfo =
      veriProcPersist (memory p) excludeInfo persistInfo := by
  rw [← tracks.retyped p]
  rfl

/-- Rewriting and checking the stored records prints what checking the original
records prints. Each rewrite hits a record already replayed and changes nothing
but its type, so the later checks of the loop still read the original data. -/
theorem recheck_loop {memory : Ptr → Metadata} {done : List Ptr} (cur : Ptr)
    (stored : List Ptr) (r : Replay icl) (tracks : Tracks memory done r)
    (replayed : ∀ p ∈ stored, p ∈ done) :
    (stored.foldl (Replay.recheck cur) r).state = r.state ∧
    (stored.foldl (Replay.recheck cur) r).stdout = r.stdout ++
      (stored.flatMap fun p =>
        (veriProcPersist (memory p) r.state.excludeInfo r.state.persistInfo).2.map
          (Line.mk cur p)) ∧
    Tracks memory done (stored.foldl (Replay.recheck cur) r) := by
  induction stored generalizing r with
  | nil => exact ⟨rfl, by simp, tracks⟩
  | cons p rest ih =>
    have next : Tracks memory done (r.recheck cur p) := by
      refine ⟨?_, ?_, tracks.stored⟩
      · intro q fresh
        have different : q ≠ p := fun same => fresh (same ▸ replayed p (by simp))
        simp only [Replay.recheck, Function.update_of_ne different]
        exact tracks.untouched q fresh
      · intro q
        by_cases same : q = p
        · subst same
          simp only [Replay.recheck, Function.update_self]
          exact tracks.retyped q
        · simp only [Replay.recheck, Function.update_of_ne same]
          exact tracks.retyped q
    obtain ⟨state, stdout, kept⟩ := ih (r.recheck cur p) next
      (fun q member => replayed q (by simp [member]))
    refine ⟨state, ?_, kept⟩
    rw [List.foldl_cons, stdout]
    simp [Replay.recheck, persist_ignores_type tracks]

/-- One turn of the frame switch on a record not replayed before performs the
in-order step and prints its lines. The case split follows the switch; only the
assign stores its own address, and only the transaction end writes to memory. -/
theorem frame_switch_processes {memory : Ptr → Metadata} {done : List Ptr} (warn : Bool)
    (r : Replay icl) (cur : Ptr) (tracks : Tracks memory done r) (fresh : cur ∉ done) :
    (frameSwitch warn r cur).state = (process warn memory cur r.state).1 ∧
    (frameSwitch warn r cur).stdout = r.stdout ++ (process warn memory cur r.state).2 ∧
    Tracks memory (done ++ [cur]) (frameSwitch warn r cur) := by
  have same : r.memory cur = memory cur := tracks.untouched cur fresh
  have keeps (reports : List Report) (state : VeriState icl)
      (stored : ∀ p ∈ state.transactionPersistInfo, p ∈ done ++ [cur]) :
      Tracks memory (done ++ [cur]) (r.handled cur reports state) :=
    ⟨(tracks.wider [cur]).untouched, tracks.retyped, stored⟩
  have older : ∀ p ∈ r.state.transactionPersistInfo, p ∈ done ++ [cur] :=
    (tracks.wider [cur]).stored
  unfold frameSwitch process
  rw [same]
  cases (memory cur).type with
  | assign =>
    refine ⟨rfl, rfl, keeps _ _ ?_⟩
    intro p member
    rcases assign_stores (memory cur) cur r.state p member with before | rfl
    · exact older p before
    · simp
  | flush =>
    refine ⟨rfl, rfl, keeps _ _ ?_⟩
    unfold veriProcFlush
    split_ifs <;> exact older
  | fence => exact ⟨rfl, by simp [Replay.handled], keeps _ _ older⟩
  | persist => exact ⟨rfl, rfl, keeps _ _ older⟩
  | order => exact ⟨rfl, rfl, keeps _ _ older⟩
  | transactionBegin =>
    refine ⟨rfl, by simp [Replay.handled], keeps _ _ ?_⟩
    unfold veriProcTransactionBegin
    split_ifs
    · simp
    · exact older
  | transactionEnd =>
    have counted : Tracks memory done
        { r with state := { r.state with transactionCount := r.state.transactionCount - 1 } } :=
      ⟨tracks.untouched, tracks.retyped, tracks.stored⟩
    simp only [veriProcTransactionEnd]
    split_ifs with outermost
    · obtain ⟨state, stdout, kept⟩ := recheck_loop cur r.state.transactionPersistInfo _ counted
        tracks.stored
      exact ⟨state, stdout, kept.wider [cur]⟩
    · exact ⟨rfl, by simp, counted.wider [cur]⟩
  | transactionAdd =>
    refine ⟨rfl, rfl, keeps _ _ ?_⟩
    unfold veriProcTransactionAdd
    split_ifs <;> exact older
  | exclude =>
    refine ⟨rfl, by simp [Replay.handled], keeps _ _ ?_⟩
    unfold veriProcExclude
    split_ifs <;> exact older
  | reinclude =>
    refine ⟨rfl, by simp [Replay.handled], keeps _ _ ?_⟩
    unfold veriProcInclude
    split_ifs <;> exact older
  | commit | barrier | transactionDelim | ending =>
    exact ⟨rfl, by simp, tracks.wider [cur]⟩

/-- The two copies of the switch differ at flushes only. -/
theorem tail_switch_eq (warn : Bool) (r : Replay icl) (cur : Ptr)
    (other : (r.memory cur).type ≠ .flush) : tailSwitch warn r cur = frameSwitch warn r cur := by
  unfold tailSwitch frameSwitch
  split <;> simp_all

/-- The index loop visits the addresses between the two indices in order. -/
theorem replayRange_eq (switch : Replay icl → Ptr → Replay icl) (veriptr : List Ptr)
    (prev cur : Nat) (r : Replay icl) (bound : cur ≤ veriptr.length) :
    replayRange switch veriptr prev cur r = ((veriptr.take cur).drop prev).foldl switch r := by
  have visited : (List.range' prev (cur - prev)).map (fun i => veriptr.getD i 0) =
      (veriptr.take cur).drop prev := by
    apply List.ext_getElem
    · simp only [List.length_map, List.length_range', List.length_drop, List.length_take]
      omega
    · intro i left right
      simp only [List.length_drop, List.length_take] at right
      have inside : prev + i < veriptr.length := by omega
      simp [List.getElem?_eq_getElem inside]
  rw [replayRange, ← visited, List.foldl_map]

/-- A replay of distinct records runs the in-order machine, when its switch skips
exactly the flushes that no later fence follows. -/
theorem replay_runs {memory : Ptr → Metadata} (warn : Bool)
    (switch : Replay icl → Ptr → Replay icl) (later frame done : List Ptr) (r : Replay icl)
    (tracks : Tracks memory done r) (distinct : (done ++ frame).Nodup)
    (agrees : ∀ first cur rest (r : Replay icl), frame = first ++ cur :: rest →
      r.memory cur = memory cur → switch r cur =
        if (memory cur).type = .flush ∧ hasFence memory (rest ++ later) = false then r
        else frameSwitch warn r cur) :
    (frame.foldl switch r).state = run (inOrder icl warn memory) later frame r.state ∧
    (frame.foldl switch r).stdout = r.stdout ++
      output (inOrder icl warn memory) later frame r.state ∧
    Tracks memory (done ++ frame) (frame.foldl switch r) := by
  induction frame generalizing done r with
  | nil => exact ⟨rfl, by simp [output], by simpa using tracks⟩
  | cons cur rest ih =>
    have fresh : cur ∉ done := by
      have apart := (List.nodup_append.mp distinct).2.2
      exact fun member => apart cur member cur (by simp) rfl
    have restAgrees := fun first next after (r : Replay icl)
        (split : rest = first ++ next :: after) =>
      agrees (cur :: first) next after r (by simp [split])
    have now := agrees [] cur rest r rfl (tracks.untouched cur fresh)
    have restDistinct : (done ++ [cur] ++ rest).Nodup := by simpa using distinct
    rw [List.foldl_cons, now]
    simp only [run, output]
    by_cases skipped : (memory cur).type = .flush ∧ hasFence memory (rest ++ later) = false
    · have step : inOrder icl warn memory (rest ++ later) cur r.state = (r.state, []) := by
        simp only [inOrder, if_pos skipped]
      obtain ⟨state, stdout, kept⟩ := ih (done ++ [cur]) r (tracks.wider [cur])
        restDistinct restAgrees
      rw [if_pos skipped, step]
      exact ⟨state, by simpa using stdout, by simpa using kept⟩
    · obtain ⟨state, stdout, kept⟩ := frame_switch_processes warn r cur tracks fresh
      have step : inOrder icl warn memory (rest ++ later) cur r.state =
          process warn memory cur r.state := by
        simp only [inOrder, if_neg skipped]
      obtain ⟨finalState, finalStdout, finalKept⟩ :=
        ih (done ++ [cur]) (frameSwitch warn r cur) kept restDistinct restAgrees
      rw [if_neg skipped, step, ← state]
      refine ⟨finalState, ?_, by simpa using finalKept⟩
      rw [finalStdout, stdout, List.append_assoc]

/-- In front of index `cur` of the scan: everything before `prev` has been
replayed in order, and no fence stands strictly between `prev` and `cur`. -/
structure ScanAt (warn : Bool) (memory : Ptr → Metadata) (veriptr : List Ptr) (cur : Nat)
    (scan : Nat × Replay icl) : Prop where
  bound : scan.1 ≤ cur
  state : scan.2.state = run (inOrder icl warn memory) (veriptr.drop scan.1)
    (veriptr.take scan.1) (VeriState.initial icl)
  stdout : scan.2.stdout = output (inOrder icl warn memory) (veriptr.drop scan.1)
    (veriptr.take scan.1) (VeriState.initial icl)
  tracks : Tracks memory (veriptr.take scan.1) scan.2
  unfenced : ∀ i p, scan.1 < i → i < cur → veriptr[i]? = some p → (memory p).type ≠ .fence

/-- A record does not occur in front of its index. -/
theorem fresh_at {veriptr : List Ptr} (distinct : veriptr.Nodup) {prev cur : Nat}
    (bound : cur < veriptr.length) (order : prev ≤ cur) : veriptr[cur] ∉ veriptr.take prev := by
  intro earlier
  have later : veriptr[cur] ∈ veriptr.drop cur := by
    rw [List.drop_eq_getElem_cons bound]
    exact List.mem_cons_self
  exact List.disjoint_take_drop distinct order earlier later

/-- The records from one index on are those up to a second index and the rest. -/
theorem drop_split (veriptr : List Ptr) {prev upto : Nat} (order : prev ≤ upto)
    (bound : upto ≤ veriptr.length) :
    (veriptr.take upto).drop prev ++ veriptr.drop upto = veriptr.drop prev := by
  have whole := congrArg (List.drop prev) (List.take_append_drop upto veriptr)
  rwa [List.drop_append_of_le_length (by simpa using ⟨order, order.trans bound⟩)] at whole

/-- Replaying from `prev` up to an index extends the in-order pass to that index. -/
theorem replay_extends {memory : Ptr → Metadata} (warn : Bool) (veriptr : List Ptr)
    (distinct : veriptr.Nodup) (switch : Replay icl → Ptr → Replay icl) (upto cur : Nat)
    (scan : Nat × Replay icl) (at_cur : ScanAt warn memory veriptr cur scan)
    (order : scan.1 ≤ upto) (bound : upto ≤ veriptr.length)
    (agrees : ∀ first p rest (r : Replay icl),
      (veriptr.take upto).drop scan.1 = first ++ p :: rest → r.memory p = memory p →
        switch r p =
          if (memory p).type = .flush ∧ hasFence memory (rest ++ veriptr.drop upto) = false then r
          else frameSwitch warn r p) :
    (replayRange switch veriptr scan.1 upto scan.2).state =
      run (inOrder icl warn memory) (veriptr.drop upto) (veriptr.take upto)
        (VeriState.initial icl) ∧
    (replayRange switch veriptr scan.1 upto scan.2).stdout =
      output (inOrder icl warn memory) (veriptr.drop upto) (veriptr.take upto)
        (VeriState.initial icl) ∧
    Tracks memory (veriptr.take upto) (replayRange switch veriptr scan.1 upto scan.2) := by
  have parts : veriptr.take scan.1 ++ (veriptr.take upto).drop scan.1 = veriptr.take upto := by
    have shorter : (veriptr.take upto).take scan.1 = veriptr.take scan.1 := by
      rw [List.take_take, Nat.min_eq_left order]
    rw [← shorter, List.take_append_drop]
  have ahead := drop_split veriptr order bound
  have pieces : (veriptr.take scan.1 ++ (veriptr.take upto).drop scan.1).Nodup := by
    rw [parts]
    exact distinct.sublist (List.take_sublist upto veriptr)
  obtain ⟨state, stdout, tracks⟩ := replay_runs warn switch (veriptr.drop upto)
    ((veriptr.take upto).drop scan.1) (veriptr.take scan.1) scan.2 at_cur.tracks pieces agrees
  rw [parts] at tracks
  rw [replayRange_eq switch veriptr scan.1 upto scan.2 bound]
  refine ⟨?_, ?_, tracks⟩
  · rw [state, at_cur.state]
    conv_rhs => rw [← parts, run_append, ahead]
  · rw [stdout, at_cur.stdout, at_cur.state]
    conv_rhs => rw [← parts, output_append, ahead]

/-- One iteration of the scan keeps its invariant. A fence at the index fences
every flush of the replayed frame; any other record leaves the frame open. -/
theorem scan_step {memory : Ptr → Metadata} (warn : Bool) (veriptr : List Ptr)
    (distinct : veriptr.Nodup) (cur : Nat) (scan : Nat × Replay icl)
    (bound : cur < veriptr.length) (at_cur : ScanAt warn memory veriptr cur scan) :
    ScanAt warn memory veriptr (cur + 1) (scanStep warn veriptr scan cur) := by
  have found : veriptr[cur]? = some veriptr[cur] := List.getElem?_eq_getElem bound
  have read : veriptr.getD cur 0 = veriptr[cur] := by simp [found]
  have original := at_cur.tracks.untouched _ (fresh_at distinct bound at_cur.bound)
  unfold scanStep
  rw [read, original]
  split_ifs with fence
  · have fenced (rest : List Ptr) : hasFence memory (rest ++ veriptr.drop cur) = true := by
      rw [List.drop_eq_getElem_cons bound]
      simp only [hasFence, List.any_append, List.any_cons, fence, decide_true, Bool.true_or,
        Bool.or_true]
    obtain ⟨state, stdout, tracks⟩ := replay_extends warn veriptr distinct (frameSwitch warn) cur
      cur scan at_cur at_cur.bound bound.le (fun _ _ rest _ _ _ => by simp [fenced rest])
    exact ⟨Nat.le_succ cur, state, stdout, tracks, fun i p after before => by omega⟩
  · refine ⟨at_cur.bound.trans (Nat.le_succ cur), at_cur.state, at_cur.stdout, at_cur.tracks, ?_⟩
    intro i p after before member
    rcases Nat.lt_succ_iff_lt_or_eq.mp before with earlier | rfl
    · exact at_cur.unfenced i p after earlier member
    · rw [found, Option.some.injEq] at member
      exact member ▸ fence

/-- The scan is where it should be in front of every record, by induction on the number
of records scanned. -/
theorem scan_invariant (icl : Icl) {memory : Ptr → Metadata} (warn : Bool) (veriptr : List Ptr)
    (distinct : veriptr.Nodup) (cur : Nat) (bound : cur ≤ veriptr.length) :
    ScanAt warn memory veriptr cur ((List.range cur).foldl (scanStep warn veriptr)
      (0, ⟨memory, VeriState.initial icl, []⟩)) := by
  induction cur with
  | zero =>
    exact ⟨le_refl 0, rfl, rfl, ⟨fun _ _ => rfl, fun _ => rfl, by simp [VeriState.initial]⟩,
      by simp⟩
  | succ cur ih =>
    rw [List.range_succ, List.foldl_append]
    exact scan_step warn veriptr distinct cur _ bound (ih (Nat.le_of_succ_le bound))

/-- The replay of the tail skips every flush. None of them is fenced, because the
only fence the tail can hold is its first record. -/
theorem tail_agrees {memory : Ptr → Metadata} (warn : Bool) (veriptr : List Ptr)
    (scan : Nat × Replay icl) (at_end : ScanAt warn memory veriptr veriptr.length scan)
    (first : List Ptr) (p : Ptr) (rest : List Ptr) (r : Replay icl)
    (split : veriptr.drop scan.1 = first ++ p :: rest) (same : r.memory p = memory p) :
    tailSwitch warn r p =
      if (memory p).type = .flush ∧ hasFence memory rest = false then r
      else frameSwitch warn r p := by
  by_cases flush : (memory p).type = .flush
  · have unfenced : hasFence memory rest = false := by
      simp only [hasFence, List.any_eq_false, decide_eq_true_eq]
      intro q member
      obtain ⟨i, bound, rfl⟩ := List.mem_iff_getElem.mp member
      have located : veriptr[scan.1 + (first.length + 1 + i)]? = some rest[i] := by
        rw [← List.getElem?_drop, split, List.getElem?_append_right (by omega)]
        have offset : first.length + 1 + i - first.length = i + 1 := by omega
        rw [offset, List.getElem?_cons_succ, List.getElem?_eq_getElem bound]
      have inside := (List.getElem?_eq_some_iff.mp located).1
      exact at_end.unfenced _ _ (by omega) inside located
    rw [if_pos ⟨flush, unfenced⟩]
    simp only [tailSwitch, same, flush]
  · rw [if_neg (fun both => flush both.1)]
    exact tail_switch_eq warn r p (by rwa [same])

/-- The two-level replay prints the lines of the in-order pass over the original
records, in the same order, and ends with the same variables. The records keep
everything but their type. -/
theorem replay_eq_in_order (icl : Icl) (warn : Bool) (t : Trace) :
    (veriProc icl warn t.memory t.veriptr).stdout =
      output (inOrder icl warn t.memory) [] t.veriptr (VeriState.initial icl) ∧
    (veriProc icl warn t.memory t.veriptr).state =
      run (inOrder icl warn t.memory) [] t.veriptr (VeriState.initial icl) ∧
    ∀ p, { (veriProc icl warn t.memory t.veriptr).memory p with type := (t.memory p).type } =
      t.memory p := by
  have at_end : ScanAt warn t.memory t.veriptr t.veriptr.length _ :=
    scan_invariant icl warn t.veriptr t.distinct t.veriptr.length (le_refl _)
  obtain ⟨state, stdout, tracks⟩ := replay_extends warn t.veriptr t.distinct (tailSwitch warn)
    t.veriptr.length t.veriptr.length _ at_end at_end.bound (le_refl _)
    (fun first p rest r split same => by
      rw [List.take_length] at split
      rw [List.drop_length, List.append_nil]
      exact tail_agrees warn t.veriptr _ at_end first p rest r split same)
  rw [List.take_length, List.drop_length] at state stdout
  exact ⟨stdout, state, tracks.retyped⟩

/-- The fold over the positions is the in-order pass. -/
theorem onePass_eq (icl : Icl) (warn : Bool) (t : Trace) :
    onePass icl warn t = (run (inOrder icl warn t.memory) [] t.veriptr (VeriState.initial icl),
      output (inOrder icl warn t.memory) [] t.veriptr (VeriState.initial icl)) := by
  have folded := foldl_positions (inOrder icl warn t.memory) t.veriptr 0 (VeriState.initial icl)
    t.veriptr.length (le_refl _)
  rw [stateAt_length, List.take_length, List.drop_length] at folded
  rw [← folded, onePass]
  congr 1
  funext pass i
  unfold inOrder
  dsimp only
  split_ifs
  · simp
  · rfl

/-- The frame loop, the tail loop and the rewriting of types together print the
lines of one left-to-right fold over the original records, in the same order, and
end with the same variables and the same message about unmatched transactions. -/
theorem frame_loop_eq_one_pass (icl : Icl) (warn : Bool) (t : Trace) :
    (veriProc icl warn t.memory t.veriptr).stdout = (onePass icl warn t).2 ∧
    (veriProc icl warn t.memory t.veriptr).state = (onePass icl warn t).1 ∧
    (veriProc icl warn t.memory t.veriptr).transactionEndError =
      decide ((onePass icl warn t).1.transactionCount > 0) ∧
    ∀ p, { (veriProc icl warn t.memory t.veriptr).memory p with type := (t.memory p).type } =
      t.memory p := by
  obtain ⟨stdout, state, retyped⟩ := replay_eq_in_order icl warn t
  rw [onePass_eq]
  refine ⟨stdout, state, ?_, retyped⟩
  rw [← state]
  rfl

end InOrder

section Visited

variable (icl : Icl) (warn : Bool) (memory : Ptr → Metadata) (veriptr : List Ptr)

/-- The scan in front of an index: the start of the open frame and the replay so far. -/
def scanned (cur : Nat) : Nat × Replay icl :=
  (List.range cur).foldl (scanStep warn veriptr) (0, ⟨memory, VeriState.initial icl, []⟩)

/-- The variables when `veriProc` is about to process the record at an index, or
is done with the last one. The record is in a frame that a fence has just ended,
or in the tail. -/
inductive VisitedAt : Nat → VeriState icl → Prop
  | frame (cur upto : Nat) (bound : cur < veriptr.length)
      (fence : ((scanned icl warn memory veriptr cur).2.memory (veriptr.getD cur 0)).type = .fence)
      (opened : (scanned icl warn memory veriptr cur).1 ≤ upto) (inside : upto ≤ cur) :
      VisitedAt upto (replayRange (frameSwitch warn) veriptr (scanned icl warn memory veriptr cur).1
        upto (scanned icl warn memory veriptr cur).2).state
  | tail (upto : Nat) (opened : (scanned icl warn memory veriptr veriptr.length).1 ≤ upto)
      (inside : upto ≤ veriptr.length) :
      VisitedAt upto (replayRange (tailSwitch warn) veriptr
        (scanned icl warn memory veriptr veriptr.length).1 upto
        (scanned icl warn memory veriptr veriptr.length).2).state

/-- The variables of the in-order pass in front of a position. -/
abbrev variablesAt (t : Trace) (position : Nat) : VeriState icl :=
  stateAt (inOrder icl warn t.memory) t.veriptr (VeriState.initial icl) position

variable {icl warn}

/-- The variables in front of a record are those of the in-order pass. Either loop
replays the records of its part as the in-order pass does: in front of a fence no flush
is skipped, and behind the last one every flush is. -/
theorem VisitedAt.eq_variablesAt {t : Trace} {position : Nat} {s : VeriState icl}
    (visited : VisitedAt icl warn t.memory t.veriptr position s) :
    position ≤ t.veriptr.length ∧ s = variablesAt icl warn t position := by
  cases visited with
  | frame cur _ bound fence opened inside =>
    have at_cur : ScanAt warn t.memory t.veriptr cur (scanned icl warn t.memory t.veriptr cur) :=
      scan_invariant icl warn t.veriptr t.distinct cur bound.le
    have found : t.veriptr.getD cur 0 = t.veriptr[cur] := by simp [bound]
    have fenceHere : (t.memory t.veriptr[cur]).type = .fence := by
      have original :=
        at_cur.tracks.untouched t.veriptr[cur] (fresh_at t.distinct bound at_cur.bound)
      rwa [found, original] at fence
    have ahead : t.veriptr[cur] ∈ t.veriptr.drop position := by
      rw [List.mem_drop_iff_getElem]
      exact ⟨cur - position, by omega, by congr 1; omega⟩
    have fenced (rest : List Ptr) : hasFence t.memory (rest ++ t.veriptr.drop position) = true := by
      apply List.any_eq_true.mpr
      exact ⟨_, List.mem_append_right rest ahead, by simpa using fenceHere⟩
    have upper : position ≤ t.veriptr.length := inside.trans bound.le
    exact ⟨upper, (replay_extends warn t.veriptr t.distinct (frameSwitch warn) position cur _ at_cur
      opened upper fun _ _ rest _ _ _ => by simp [fenced rest]).1⟩
  | tail _ opened inside =>
    have at_end : ScanAt warn t.memory t.veriptr t.veriptr.length
        (scanned icl warn t.memory t.veriptr t.veriptr.length) :=
      scan_invariant icl warn t.veriptr t.distinct t.veriptr.length le_rfl
    refine ⟨inside, (replay_extends warn t.veriptr t.distinct (tailSwitch warn) position
      t.veriptr.length _ at_end opened inside fun first p rest r split same => ?_).1⟩
    apply tail_agrees warn t.veriptr _ at_end first p _ r _ same
    rw [← drop_split t.veriptr opened inside, split, List.append_assoc, List.cons_append]

/-- The scan has ended the frame of every record in front of its open frame. -/
theorem visitedAt_of_lt_scanned (t : Trace) {cur : Nat} (bound : cur ≤ t.veriptr.length)
    {position : Nat} (closed : position < (scanned icl warn t.memory t.veriptr cur).1) :
    ∃ s, VisitedAt icl warn t.memory t.veriptr position s := by
  induction cur with
  | zero => exact absurd closed (Nat.not_lt_zero position)
  | succ cur ih =>
    have unrolled : scanned icl warn t.memory t.veriptr (cur + 1) =
        scanStep warn t.veriptr (scanned icl warn t.memory t.veriptr cur) cur := by
      simp only [scanned, List.range_succ, List.foldl_append, List.foldl_cons, List.foldl_nil]
    rw [unrolled, scanStep] at closed
    split_ifs at closed with fence
    · by_cases opened : (scanned icl warn t.memory t.veriptr cur).1 ≤ position
      · exact ⟨_, .frame cur position bound fence opened closed.le⟩
      · exact ih (Nat.le_of_succ_le bound) (Nat.lt_of_not_le opened)
    · exact ih (Nat.le_of_succ_le bound) closed

variable (icl warn) in
/-- `veriProc` comes to every position, with the variables of the in-order pass. -/
theorem visitedAt_iff (t : Trace) (position : Nat) (s : VeriState icl) :
    VisitedAt icl warn t.memory t.veriptr position s ↔
      position ≤ t.veriptr.length ∧ s = variablesAt icl warn t position := by
  constructor
  · exact VisitedAt.eq_variablesAt
  · rintro ⟨bound, rfl⟩
    have reached : ∃ s, VisitedAt icl warn t.memory t.veriptr position s := by
      by_cases opened : (scanned icl warn t.memory t.veriptr t.veriptr.length).1 ≤ position
      · exact ⟨_, .tail position opened bound⟩
      · exact visitedAt_of_lt_scanned t le_rfl (Nat.lt_of_not_le opened)
    obtain ⟨s, visited⟩ := reached
    exact visited.eq_variablesAt.2 ▸ visited

end Visited

end PMTest

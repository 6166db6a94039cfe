import PMTest.Barrier

/-!
# What a program that uses the pool relies on

A program with one thread passes traces to the pool and looks at the pool from
outside. What it needs to know is which traces are checked when: a check is one step
of a worker, no trace is checked that was not passed, and none twice if the passed
traces are different. Once no worker has anything to check and the program passes no
further traces, nothing is checked any more, also while the instance is destroyed.
-/

namespace PMTest

open Transitions Gather

/-- The client is in no call but the destructor. -/
def ClientPc.leaving {τ : Type*} : ClientPc τ → Bool
  | outside | term _ _ | destroyed => true
  | _ => false

namespace Pool

section Checks

variable {ι τ : Type*} {N id : Nat} {s : Pool ι τ} {job : Job τ}

/-- A job that is being checked was submitted and has not been checked before. -/
theorem Accounted.checking_le (accounted : s.Accounted N) (inside : id < N)
    (before : s.worker id = .verify job) :
    (job ::ₘ (s.verified.map Prod.snd : Multiset (Job τ))) ≤ s.submitted := by
  have held : job ∈ (gather N (WorkerPc.checking ∘ s.worker) : Multiset (Job τ)) := by
    simp only [Multiset.mem_coe, gather, List.mem_flatMap, List.mem_range]
    exact ⟨id, inside, by simp [before, WorkerPc.checking]⟩
  rw [accounted.submitted, ← Multiset.singleton_add, add_assoc]
  exact (add_le_add_left (Multiset.singleton_le.mpr held) _).trans (Multiset.le_add_left _ _)

/-- A job is checked in one step of its worker, and no other step checks anything. The
cases are the moves; in all of them but one the worker holds no trace that it is about
to check. -/
theorem Moves.verified [DecidableEq ι] {a : PoolAction ι τ} {next : Pool ι τ}
    (move : s.Moves N a next) :
    (next.verified = s.verified ∧ ∀ id job, a = .worker id → s.worker id ≠ .verify job) ∨
      ∃ id job, a = .worker id ∧ id < N ∧ s.worker id = .verify job ∧
        next.verified = s.verified ++ [(id, job)] := by
  cases move with
  | @worker id next inside move =>
    cases move with
    | verify job before => exact Or.inr ⟨id, job, rfl, inside, before, rfl⟩
    | test before tested =>
      refine Or.inl ⟨rfl, ?_⟩
      rintro _ job ⟨rfl⟩ here
      rw [before] at here
      subst here
      cases tested
    | acquire before =>
      refine Or.inl ⟨rfl, ?_⟩
      rintro _ job ⟨rfl⟩ here
      rcases before with before | before <;> simp [here] at before
    | wait before | exit before | report before | pass before | take _ _ before
    | store _ before =>
      refine Or.inl ⟨rfl, ?_⟩
      rintro _ job ⟨rfl⟩ here
      simp [here] at before
  | client move =>
    refine Or.inl ⟨?_, ?_⟩
    · cases move <;> rfl
    · rintro id job ⟨⟩
  | _ =>
    refine Or.inl ⟨rfl, ?_⟩
    rintro id job ⟨⟩

/-- The step of a worker that has a trace in hand checks this trace. -/
theorem verified_of_step [DecidableEq ι] {next : Pool ι τ} (before : s.worker id = .verify job)
    (taken : s.step N (.worker id) = some next) :
    id < N ∧ next.verified = s.verified ++ [(id, job)] := by
  rcases (step_moves taken).verified with ⟨_, other⟩ | ⟨_, found, here, inside, now, added⟩
  · exact absurd before (other id job rfl)
  · obtain rfl := PoolAction.worker.inj here
    rw [before] at now
    obtain rfl := WorkerPc.verify.inj now
    exact ⟨inside, added⟩

end Checks

section Inputs

variable {τ : Type*} {N : Nat} {s s₀ : Pool Unit τ} {actions : List (PoolAction Unit τ)}

/-- The traces of a longer run are those of the run and of its last action. -/
theorem passedInputs_concat (actions : List (PoolAction Unit τ)) (a : PoolAction Unit τ) :
    passedInputs (actions ++ [a]) = passedInputs actions ++ passedInputs [a] :=
  List.filterMap_append ..

/-- The traces that have been checked, in the order of the checks. -/
def checkedInputs (s : Pool Unit τ) : List τ := s.verified.map fun entry => entry.2.input

/-- Only traces that were passed are checked, and of different traces none twice. The
accounts say so for the jobs, and the jobs carry the traces that were passed, in their
order. -/
theorem checks_of_run (positive : 0 < N) (constructed : s₀.Constructed N)
    (ran : run (step N) s₀ actions = some s) (distinct : (passedInputs actions).Nodup) :
    (∀ input ∈ s.checkedInputs, input ∈ passedInputs actions) ∧
    ∀ id < N, ∀ job, s.worker id = .verify job →
      job.input ∈ passedInputs actions ∧ job.input ∉ s.checkedInputs := by
  obtain ⟨accounted, _, inputs⟩ := accounted_of_run positive constructed ran
  have pushed : (s.submitted.map Job.input).Sublist (passedInputs actions) := by
    rw [← inputs]
    exact List.sublist_append_left _ _
  have jobs : s.checkedInputs = (s.verified.map Prod.snd).map Job.input := by
    rw [checkedInputs, List.map_map]
    rfl
  constructor
  · intro input member
    rw [jobs] at member
    obtain ⟨job, verified, rfl⟩ := List.mem_map.mp member
    have submitted : job ∈ (s.submitted : Multiset (Job τ)) := by
      rw [accounted.submitted]
      exact Multiset.mem_add.mpr (Or.inr (Multiset.mem_coe.mpr verified))
    exact pushed.subset (List.mem_map_of_mem submitted)
  · intro id inside job before
    have below := accounted.checking_le inside before
    have submitted : job ∈ s.submitted := Multiset.mem_of_le below (Multiset.mem_cons_self _ _)
    refine ⟨pushed.subset (List.mem_map_of_mem submitted), ?_⟩
    have apart := Multiset.nodup_of_le (Multiset.map_le_map (f := Job.input) below)
      (Multiset.coe_nodup.mpr (pushed.nodup distinct))
    rw [Multiset.map_cons, Multiset.nodup_cons] at apart
    rw [jobs]
    exact apart.1

/-- The client passes nothing more, and no worker has anything to check. -/
structure Emptied (N : Nat) (s : Pool Unit τ) : Prop where
  leaving : (s.client ()).leaving = true
  queue : ∀ i < N, s.veriQueue i = []
  checking : ∀ i < N, (s.worker i).checking = []

/-- No step of the destructor leads into another call. -/
theorem Control.leaving {pc later : ClientPc τ} (control : s.Control N pc later)
    (leaving : pc.leaving = true) : later.leaving = true := by
  cases control <;> first | rfl | cases leaving

/-- A pool without anything to check stays so until the client makes another call. A
worker whose queue is empty takes nothing from it, and a client outside of all calls
pushes nothing. -/
theorem Emptied.step (emptied : s.Emptied N) {action : PoolAction Unit τ} {moved : Pool Unit τ}
    (taken : s.step N action = some moved) (leaves : ∀ input, action ≠ .execVeri () input)
    (ends : ∀ output, action ≠ .getVeri () output) : moved.Emptied N := by
  obtain ⟨leaving, queue, checking⟩ := emptied
  have move := step_moves taken
  cases move with
  | @worker id _ inside move =>
    refine ⟨?_, fun i below => ?_, fun i below => ?_⟩
    · rw [move.frame.1]
      exact leaving
    · by_cases mover : i = id
      · subst mover
        cases move with
        | take job rest before found =>
          rw [queue i below] at found
          cases found
        | _ => exact queue i below
      · rw [(move.others mover).2.1]
        exact queue i below
    · by_cases mover : i = id
      · subst mover
        have hand := checking i below
        cases move with
        | take job rest before found =>
          rw [queue i below] at found
          cases found
        | test before tested =>
          rw [before] at hand
          simp [tested.hands.1, hand]
        | _ => simp [WorkerPc.checking]
      · rw [(move.others mover).1]
        exact checking i below
  | client move =>
    cases move with
    | go before control =>
      rw [before] at leaving
      exact ⟨by simpa using control.leaving leaving, queue, checking⟩
    | terminate before => exact ⟨by simp [ClientPc.leaving], queue, checking⟩
    | spawn before | initTerm before | initGet before | initCompleted before | assign before
    | lock before | push before | unlock before | store before | signal before | clearGet before
    | clearCompleted before =>
      rw [before] at leaving
      cases leaving
  | execVeri => exact absurd rfl (leaves _)
  | getVeri => exact absurd rfl (ends _)
  | termVeri before => exact ⟨by simp [ClientPc.leaving], queue, checking⟩

/-- In a pool without anything to check, every trace that was passed has been checked
once. Of the places that account for a job, the queues, the hands of the workers and the
client have none left. -/
theorem Emptied.checkedInputs (positive : 0 < N) (constructed : s₀.Constructed N)
    (ran : run (Pool.step N) s₀ actions = some s) (emptied : s.Emptied N) :
    s.checkedInputs.Perm (passedInputs actions) := by
  obtain ⟨accounted, _, inputs⟩ := accounted_of_run positive constructed ran
  have queues : gather N s.veriQueue = [] := gather_eq_nil_iff.mpr emptied.queue
  have hands : gather N (WorkerPc.checking ∘ s.worker) = [] :=
    gather_eq_nil_iff.mpr emptied.checking
  have submitted := accounted.submitted
  rw [queues, hands, Multiset.coe_nil, zero_add, zero_add] at submitted
  have nothing : (s.client ()).toPush = [] := by
    have leaving := emptied.leaving
    cases pc : s.client () with
    | outside | term | destroyed => rfl
    | _ =>
      rw [pc] at leaving
      cases leaving
  rw [nothing, List.append_nil] at inputs
  have jobs := (Multiset.coe_eq_coe.mp submitted).symm.map Job.input
  rw [inputs, List.map_map] at jobs
  exact jobs

end Inputs

end Pool

end PMTest

import Mathlib.Data.List.Induction

/-!
# Runs of an interleaved system

A system is a function from a state and an action to the state after it, which
has no value when the action is not enabled. Several threads are interleaved by
letting an action name the thread that moves, so a list of actions is a schedule
and a run from a state is the result of one schedule.

A state is reached from another if some schedule leads there, for which it is
enough to complete the rounds of every loop one by one.

An invariant may speak of the actions taken so far. It holds after every run when
it holds at the start and every step keeps it; if only the steps that meet a
condition keep it, it holds after every run along which the condition is met.
Those are the runs of the system that is restricted to the condition.

A system may also follow a function on abstract states, for as long as these stay
within a bound.
-/

namespace PMTest.Transitions

variable {σ α : Type*} (step : σ → α → Option σ)

/-- The state after a schedule, if every action is enabled when its turn comes. -/
def run : σ → List α → Option σ
  | s, [] => some s
  | s, a :: rest => (step s a).bind fun next => run next rest

/-- No action leads nowhere else. -/
@[simp] theorem run_nil (s : σ) : run step s [] = some s := rfl

/-- A run of two schedules in sequence passes through the state between them. -/
theorem run_append (s : σ) (first second : List α) :
    run step s (first ++ second) = (run step s first).bind fun next => run step next second := by
  induction first generalizing s with
  | nil => rfl
  | cons a rest ih =>
    simp only [List.cons_append, run, Option.bind_assoc]
    exact congrArg _ (funext ih)

/-- Two runs in sequence form one run. -/
theorem run_trans {s middle last : σ} {first second : List α}
    (before : run step s first = some middle) (after : run step middle second = some last) :
    run step s (first ++ second) = some last := by
  rw [run_append, before]
  exact after

/-- The last action of a run is taken in the state that the others lead to. -/
theorem run_concat {s last : σ} {past : List α} {a : α} :
    run step s (past ++ [a]) = some last ↔
      ∃ middle, run step s past = some middle ∧ step middle a = some last := by
  simp only [run_append, run, Option.bind_eq_some_iff]
  simp

section Reaches

/-- Some schedule leads from one state to the other. -/
def Reaches (s t : σ) : Prop := ∃ actions, run step s actions = some t

variable {step} {s t u : σ}

/-- What is reached from a reached state is reached. -/
theorem Reaches.trans (first : Reaches step s t) (second : Reaches step t u) :
    Reaches step s u := by
  obtain ⟨before, ran⟩ := first
  obtain ⟨after, runs⟩ := second
  exact ⟨before ++ after, run_trans step ran runs⟩

/-- A loop whose rounds can each be completed can be completed, by induction on the
number of its rounds. -/
theorem reaches_rounds (round : Nat → σ → Prop) (n : Nat)
    (advance : ∀ i < n, ∀ s, round i s → ∃ t, Reaches step s t ∧ round (i + 1) t)
    (start : round 0 s) : ∃ t, Reaches step s t ∧ round n t := by
  induction n with
  | zero => exact ⟨s, ⟨[], rfl⟩, start⟩
  | succ n ih =>
    obtain ⟨middle, before, reached⟩ := ih fun i below => advance i (Nat.lt_succ_of_lt below)
    obtain ⟨last, after, done⟩ := advance n (Nat.lt_succ_self n) middle reached
    exact ⟨last, before.trans after, done⟩

/-- Every state reaches itself. -/
theorem Reaches.refl (s : σ) : Reaches step s s := ⟨[], rfl⟩

/-- One step reaches the next state. -/
theorem Reaches.single {a : α} (taken : step s a = some t) : Reaches step s t :=
  ⟨[a], by simp [run, taken]⟩

/-- A goal is reached when every state that misses it has a step which meets the goal or
goes to a state of a smaller rank. The induction is on the rank, with the state
generalized. -/
theorem reaches_of_rank (inv goal : σ → Prop) (rank : σ → Nat)
    (advance : ∀ s, inv s → ¬ goal s → ∃ a next, step s a = some next ∧ inv next ∧
      (goal next ∨ rank next < rank s))
    (start : inv s) : ∃ t, Reaches step s t ∧ inv t ∧ goal t := by
  induction bound : rank s using Nat.strongRecOn generalizing s with
  | ind n ih =>
    by_cases met : goal s
    · exact ⟨s, .refl s, start, met⟩
    · obtain ⟨a, next, taken, kept, here | smaller⟩ := advance s start met
      · exact ⟨next, .single taken, kept, here⟩
      · obtain ⟨t, reached, done⟩ := ih (rank next) (bound ▸ smaller) kept rfl
        exact ⟨t, (Reaches.single taken).trans reached, done⟩

end Reaches

section Along

variable (cond : σ → α → Prop)

/-- Every action of a schedule meets the condition in the state it is taken in. -/
def Along : σ → List α → Prop
  | _, [] => True
  | s, a :: rest => cond s a ∧ (step s a).elim True fun next => Along next rest

instance Along.decidable [∀ s a, Decidable (cond s a)] :
    ∀ (s : σ) (actions : List α), Decidable (Along step cond s actions)
  | _, [] => inferInstanceAs (Decidable True)
  | s, a :: rest => by
    unfold Along
    cases step s a with
    | none => exact inferInstanceAs (Decidable (_ ∧ True))
    | some next =>
      have := Along.decidable next rest
      exact inferInstanceAs (Decidable (_ ∧ Along step cond next rest))

variable {step cond} {s₀ s : σ} {past : List α} {a : α}

/-- A schedule with one more action meets the condition when the others do and the
last one meets it where they lead. -/
theorem along_concat (ran : run step s₀ past = some s) :
    Along step cond s₀ (past ++ [a]) ↔ Along step cond s₀ past ∧ cond s a := by
  induction past generalizing s₀ with
  | nil =>
    obtain rfl : s₀ = s := Option.some.inj ran
    cases taken : step s₀ a <;> simp [Along, taken]
  | cons first rest ih =>
    simp only [run, Option.bind_eq_some_iff] at ran
    obtain ⟨next, moved, later⟩ := ran
    simp only [List.cons_append, Along, moved, Option.elim_some, ih later, and_assoc]

/-- A schedule that meets a condition meets every weaker one. -/
theorem Along.imp {weaker : σ → α → Prop} {actions : List α} (met : Along step cond s₀ actions)
    (implied : ∀ s a, cond s a → weaker s a) : Along step weaker s₀ actions := by
  induction actions generalizing s₀ with
  | nil => trivial
  | cons a rest ih =>
    obtain ⟨here, later⟩ := met
    refine ⟨implied s₀ a here, ?_⟩
    cases taken : step s₀ a with
    | none => trivial
    | some next => exact ih (by rwa [taken] at later)

/-- A condition is met along two schedules in sequence when it is met along each. -/
theorem Along.append {first second : List α} (ran : run step s₀ first = some s)
    (before : Along step cond s₀ first) (after : Along step cond s second) :
    Along step cond s₀ (first ++ second) := by
  induction first generalizing s₀ with
  | nil =>
    obtain rfl : s₀ = s := Option.some.inj ran
    exact after
  | cons a rest ih =>
    simp only [run, Option.bind_eq_some_iff] at ran
    obtain ⟨next, taken, later⟩ := ran
    obtain ⟨here, further⟩ := before
    rw [taken] at further
    exact ⟨here, by rw [taken]; exact ih later further⟩

/-- A condition that all actions of the schedule meet in every state is met. -/
theorem along_of_forall {actions : List α} (met : ∀ s, ∀ a ∈ actions, cond s a) (s : σ) :
    Along step cond s actions := by
  induction actions generalizing s with
  | nil => trivial
  | cons a rest ih =>
    refine ⟨met s a List.mem_cons_self, ?_⟩
    cases step s a with
    | none => trivial
    | some next => exact ih (fun s b member => met s b (List.mem_cons_of_mem a member)) next

/-- What holds at the start and is kept by every step that meets the condition
holds after every run along which the condition is met. -/
theorem run_guarded (inv : List α → σ → Prop) (start : inv [] s₀)
    (kept : ∀ past s a next, inv past s → cond s a → step s a = some next →
      inv (past ++ [a]) next)
    {actions : List α} (ran : run step s₀ actions = some s)
    (met : Along step cond s₀ actions) : inv actions s := by
  induction actions using List.reverseRecOn generalizing s with
  | nil =>
    rw [run_nil, Option.some.injEq] at ran
    exact ran ▸ start
  | append_singleton past a ih =>
    obtain ⟨middle, before, last⟩ := (run_concat step).mp ran
    obtain ⟨earlier, here⟩ := (along_concat before).mp met
    exact kept past middle a s (ih before earlier) here last

/-- What holds at the start and is kept by every step holds after every run. -/
theorem run_history (inv : List α → σ → Prop) (start : inv [] s₀)
    (kept : ∀ past s a next, inv past s → step s a = some next → inv (past ++ [a]) next)
    {actions : List α} (ran : run step s₀ actions = some s) : inv actions s :=
  have met : Along step (fun _ _ => True) s₀ actions := along_of_forall (fun _ _ _ => trivial) s₀
  run_guarded inv start (fun past s a next before _ => kept past s a next before) ran met

/-- The rule for invariants of the state alone. -/
theorem run_invariant (inv : σ → Prop) (start : inv s₀)
    (kept : ∀ s a next, inv s → step s a = some next → inv next)
    {actions : List α} (ran : run step s₀ actions = some s) : inv s :=
  run_history (fun _ => inv) start (fun _ s a next => kept s a next) ran

/-- Along a run whose actions meet a guard, let exactly the steps that meet the
condition keep a property, and let no other step ever restore it. Then it holds
after the run exactly when the condition is met along the run. -/
theorem run_exact_guarded {guard : σ → α → Prop} (inv good : List α → σ → Prop)
    (start : inv [] s₀) (startGood : good [] s₀)
    (kept : ∀ past s a next, inv past s → guard s a → step s a = some next →
      inv (past ++ [a]) next)
    (exactly : ∀ past s a next, inv past s → guard s a → step s a = some next →
      (good (past ++ [a]) next ↔ good past s ∧ cond s a))
    {actions : List α} (ran : run step s₀ actions = some s)
    (met : Along step guard s₀ actions) : good actions s ↔ Along step cond s₀ actions := by
  induction actions using List.reverseRecOn generalizing s with
  | nil =>
    rw [run_nil, Option.some.injEq] at ran
    exact iff_of_true (ran ▸ startGood) trivial
  | append_singleton past a ih =>
    obtain ⟨middle, before, last⟩ := (run_concat step).mp ran
    obtain ⟨earlier, here⟩ := (along_concat before).mp met
    rw [along_concat before, ← ih before earlier]
    exact exactly past middle a s (run_guarded inv start kept before earlier) here last

/-- The rule for runs without a guard. -/
theorem run_exact (inv good : List α → σ → Prop) (start : inv [] s₀) (startGood : good [] s₀)
    (kept : ∀ past s a next, inv past s → step s a = some next → inv (past ++ [a]) next)
    (exactly : ∀ past s a next, inv past s → step s a = some next →
      (good (past ++ [a]) next ↔ good past s ∧ cond s a))
    {actions : List α} (ran : run step s₀ actions = some s) :
    good actions s ↔ Along step cond s₀ actions :=
  have met : Along step (fun _ _ => True) s₀ actions := along_of_forall (fun _ _ _ => trivial) s₀
  run_exact_guarded inv good start startGood
    (fun past s a next before _ => kept past s a next before)
    (fun past s a next before _ => exactly past s a next before) ran met

end Along

section Simulation

variable {τ : Type*} {step}

/-- A system follows a function on abstract states as long as these stay bounded:
its actions are enabled, and its states stay related to the abstract ones. -/
theorem run_follows (abstract : τ → α → τ) (related : σ → τ → Prop) (bounded : τ → Prop)
    (advance : ∀ s t a, related s t → bounded (abstract t a) →
      ∃ next, step s a = some next ∧ related next (abstract t a))
    (actions : List α) {s : σ} {t : τ} (start : related s t)
    (within : ∀ k ≤ actions.length, bounded ((actions.take k).foldl abstract t)) :
    ∃ last, run step s actions = some last ∧ related last (actions.foldl abstract t) := by
  induction actions generalizing s t with
  | nil => exact ⟨s, rfl, start⟩
  | cons a rest ih =>
    obtain ⟨next, moved, kept⟩ := advance s t a start (within 1 (by simp))
    obtain ⟨last, ran, final⟩ := ih kept fun k below => within (k + 1) (by simpa using below)
    exact ⟨last, by rw [run, moved]; exact ran, final⟩

end Simulation

section Restrict

variable (cond : σ → α → Prop) [∀ s a, Decidable (cond s a)]

/-- The system without the actions that do not meet a condition. -/
def restrict (s : σ) (a : α) : Option σ := if cond s a then step s a else none

variable {step cond}

/-- The runs of a restricted system are the runs along which the condition is met. -/
theorem run_restrict {s last : σ} {actions : List α} :
    run (restrict step cond) s actions = some last ↔
      run step s actions = some last ∧ Along step cond s actions := by
  induction actions generalizing s with
  | nil => simp [Along]
  | cons a rest ih =>
    by_cases met : cond s a
    · cases taken : step s a with
      | none => simp [run, restrict, met, taken]
      | some next => simp [run, restrict, met, taken, Along, ih]
    · simp [run, restrict, met, Along]

/-- What the restricted system reaches, the system reaches. -/
theorem Reaches.of_restrict {s t : σ} (reached : Reaches (restrict step cond) s t) :
    Reaches step s t := by
  obtain ⟨actions, ran⟩ := reached
  exact ⟨actions, (run_restrict.mp ran).1⟩

/-- What a restricted system reaches is reached along a schedule that meets the
condition and every weaker one. -/
theorem Reaches.along {s t : σ} {weaker : σ → α → Prop} (reached : Reaches (restrict step cond) s t)
    (implied : ∀ s a, cond s a → weaker s a) :
    ∃ actions, run step s actions = some t ∧ Along step weaker s actions := by
  obtain ⟨actions, ran⟩ := reached
  obtain ⟨ran, met⟩ := run_restrict.mp ran
  exact ⟨actions, ran, met.imp implied⟩

end Restrict

end PMTest.Transitions

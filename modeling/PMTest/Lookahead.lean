import Mathlib.Data.List.Forall2

/-!
# Left-to-right passes with look-ahead

A machine reads a list once from the left. At each item it sees the items still
to come, updates its state and emits a list of outputs. The outputs of a pass
are the concatenated outputs of its steps.

A pass over a concatenation splits into two passes; the first one still sees the
second part ahead of it. `stateAt` is the state in front of a position. It
starts at the initial state and every position performs one step, which is the
induction principle for invariants and, for two machines reading one list, for
simulations.

A simulation relates the states of two passes and the outputs they emit, where the
relation between outputs may be any that concatenation keeps.
-/

namespace PMTest.Lookahead

variable {α σ τ ω : Type*}

/-- One step: the items still to come, the item read and the state before it
give the state after it and the outputs. -/
abbrev Machine (α σ ω : Type*) := List α → α → σ → σ × List ω

section Pass

variable (step : Machine α σ ω)

/-- The state after reading the items, when `later` follows them. -/
def run (later : List α) : List α → σ → σ
  | [], s => s
  | x :: rest, s => run later rest (step (rest ++ later) x s).1

/-- The outputs emitted while reading the items, when `later` follows them. -/
def output (later : List α) : List α → σ → List ω
  | [], _ => []
  | x :: rest, s =>
      (step (rest ++ later) x s).2 ++ output later rest (step (rest ++ later) x s).1

/-- A pass over two lists reads the first one with the second one still to come. -/
theorem run_append (later first second : List α) (s : σ) :
    run step later (first ++ second) s =
      run step later second (run step (second ++ later) first s) := by
  induction first generalizing s with
  | nil => rfl
  | cons x rest ih => simp only [List.cons_append, run, ih, List.append_assoc]

/-- A pass over two lists emits the outputs of the first one and then those of the
second, from the state in between. -/
theorem output_append (later first second : List α) (s : σ) :
    output step later (first ++ second) s =
      output step (second ++ later) first s ++
        output step later second (run step (second ++ later) first s) := by
  induction first generalizing s with
  | nil => rfl
  | cons x rest ih => simp only [List.cons_append, output, run, ih, List.append_assoc]

/-- The state in front of a position of a complete pass. -/
def stateAt (items : List α) (s : σ) (position : Nat) : σ :=
  run step (items.drop position) (items.take position) s

/-- In front of the first position nothing has been read. -/
@[simp] theorem stateAt_zero (items : List α) (s : σ) : stateAt step items s 0 = s := rfl

/-- Behind the last position everything has. -/
theorem stateAt_length (items : List α) (s : σ) :
    stateAt step items s items.length = run step [] items s := by
  simp [stateAt]

/-- Crossing a position performs its step, with the items behind it ahead. -/
theorem stateAt_succ (items : List α) (s : σ) (position : Nat) (x : α)
    (found : items[position]? = some x) :
    stateAt step items s (position + 1) =
      (step (items.drop (position + 1)) x (stateAt step items s position)).1 := by
  obtain ⟨bound, rfl⟩ := List.getElem?_eq_some_iff.mp found
  have ahead : items.drop position = items[position] :: items.drop (position + 1) :=
    List.drop_eq_getElem_cons bound
  rw [stateAt, List.take_add_one, found, Option.toList_some, run_append, stateAt, ahead]
  simp only [run, List.nil_append, List.singleton_append]

/-- A fold over the positions that performs their steps one after the other is the
pass: it ends in the final state with all outputs collected. -/
theorem foldl_positions (items : List α) (fallback : α) (s : σ) (position : Nat)
    (bound : position ≤ items.length) :
    (List.range position).foldl (fun pass i =>
        ((step (items.drop (i + 1)) (items.getD i fallback) pass.1).1,
          pass.2 ++ (step (items.drop (i + 1)) (items.getD i fallback) pass.1).2)) (s, []) =
      (stateAt step items s position,
        output step (items.drop position) (items.take position) s) := by
  induction position with
  | zero => rfl
  | succ position ih =>
    have found : items[position]? = some items[position] := List.getElem?_eq_getElem bound
    have read : items.getD position fallback = items[position] := by simp [found]
    have ahead : items.drop position = items[position] :: items.drop (position + 1) :=
      List.drop_eq_getElem_cons bound
    rw [List.range_succ, List.foldl_append, ih (Nat.le_of_succ_le bound), List.foldl_cons,
      List.foldl_nil, read, stateAt_succ step items s position _ found]
    refine Prod.ext rfl ?_
    dsimp only
    rw [List.take_add_one, found, Option.toList_some, output_append, stateAt, ahead]
    simp only [output, List.nil_append, List.singleton_append, List.append_nil]

/-- A property of positions and states that holds initially and is kept by each
step holds in front of every position. -/
theorem stateAt_induction (items : List α) (s : σ) (holds : Nat → σ → Prop)
    (start : holds 0 s)
    (next : ∀ position x t, items[position]? = some x → holds position t →
      holds (position + 1) (step (items.drop (position + 1)) x t).1) :
    ∀ position ≤ items.length, holds position (stateAt step items s position) := by
  intro position
  induction position with
  | zero => exact fun _ => start
  | succ position ih =>
    intro bound
    have found : items[position]? = some items[position] :=
      List.getElem?_eq_getElem bound
    rw [stateAt_succ step items s position _ found]
    exact next position _ _ found (ih (Nat.le_of_succ_le bound))

/-- Outputs carry the item they were emitted for as a key. The key of an output
of a pass is one of the items read. -/
theorem key_mem_of_mem_output (key : ω → α)
    (keyed : ∀ later x s, ∀ emitted ∈ (step later x s).2, key emitted = x)
    (later items : List α) (s : σ) :
    ∀ emitted ∈ output step later items s, key emitted ∈ items := by
  induction items generalizing s with
  | nil => simp [output]
  | cons x rest ih =>
    intro emitted member
    cases List.mem_append.mp member with
    | inl now =>
      rw [keyed _ _ _ emitted now]
      exact List.mem_cons_self
    | inr after => exact List.mem_cons_of_mem x (ih _ emitted after)

/-- With distinct items, the outputs keyed by an item are those of its own step.

The list is cut at the position of the item. The outputs of the two outer parts have
keys among their own items, which the item is not, so the filter removes them; those of
its own step it keeps. -/
theorem output_filter_key [DecidableEq α] (key : ω → α)
    (keyed : ∀ later x s, ∀ emitted ∈ (step later x s).2, key emitted = x)
    (items : List α) (distinct : items.Nodup) (s : σ) (position : Nat) (x : α)
    (found : items[position]? = some x) :
    (output step [] items s).filter (fun emitted => key emitted = x) =
      (step (items.drop (position + 1)) x (stateAt step items s position)).2 := by
  have ahead : items.drop position = x :: items.drop (position + 1) := by
    obtain ⟨bound, rfl⟩ := List.getElem?_eq_some_iff.mp found
    exact List.drop_eq_getElem_cons bound
  have parts : items.take position ++ x :: items.drop (position + 1) = items := by
    rw [← ahead, List.take_append_drop]
  have apart := distinct
  rw [← parts, List.nodup_append, List.nodup_cons] at apart
  obtain ⟨_, ⟨notAfter, _⟩, notBefore⟩ := apart
  have before : (output step (x :: items.drop (position + 1))
      (items.take position) s).filter (fun emitted => key emitted = x) = [] := by
    apply List.filter_eq_nil_iff.mpr
    intro emitted member same
    exact notBefore _ (key_mem_of_mem_output step key keyed _ _ _ emitted member) _
      List.mem_cons_self (of_decide_eq_true same)
  have after (t : σ) : (output step [] (items.drop (position + 1)) t).filter
      (fun emitted => key emitted = x) = [] := by
    apply List.filter_eq_nil_iff.mpr
    intro emitted member same
    rw [← of_decide_eq_true same] at notAfter
    exact notAfter (key_mem_of_mem_output step key keyed _ _ _ emitted member)
  have here (t : σ) : (step (items.drop (position + 1)) x t).2.filter
      (fun emitted => key emitted = x) =
        (step (items.drop (position + 1)) x t).2 :=
    List.filter_eq_self.mpr fun emitted member => decide_eq_true (keyed _ _ _ emitted member)
  conv_lhs => rw [← parts]
  rw [output_append, List.append_nil, List.filter_append, before, List.nil_append]
  simp only [output, List.filter_append, List.append_nil, here, after]
  rw [stateAt, ahead]

end Pass

section Simulation

variable {β ψ : Type*}

/-- A relation between outputs that holds of two passes when it holds of their steps. -/
structure Concatenates (agree : List ω → List ψ → Prop) : Prop where
  nil : agree [] []
  append : ∀ {xs ys zs ws}, agree xs ys → agree zs ws → agree (xs ++ zs) (ys ++ ws)

/-- Equal outputs can be put together. -/
theorem concatenates_eq : Concatenates (@Eq (List ω)) :=
  ⟨rfl, fun first second => by rw [first, second]⟩

/-- Outputs that agree up to their order can be put together. -/
theorem concatenates_perm : Concatenates (@List.Perm ω) := ⟨.nil, List.Perm.append⟩

/-- Outputs of which one is the kept part of the other can be put together. -/
theorem concatenates_filter (kept : ω → Bool) :
    Concatenates fun xs ys : List ω => xs.filter kept = ys :=
  ⟨rfl, fun first second => by rw [List.filter_append, first, second]⟩

/-- Outputs that agree under two readings can be put together. -/
theorem concatenates_map {ρ : Type*} (f : ω → ρ) (g : ψ → ρ) :
    Concatenates fun xs ys => xs.map f = ys.map g :=
  ⟨rfl, fun first second => by rw [List.map_append, List.map_append, first, second]⟩

variable (first : Machine α σ ω) (second : Machine β τ ψ) {agree : List ω → List ψ → Prop}

/-- Two machines read lists of paired items, with any items behind them. The relation
between their states may speak of the items still to be read. If each step keeps the
states related and the outputs in agreement, so do the passes, by induction on the
pairs. -/
theorem simulate_pass (paired : α → β → Prop) (related : List α → σ → τ → Prop)
    (concatenates : Concatenates agree) (later : List α) (later' : List β)
    (matched : ∀ x rest y rest' s t, paired x y → List.Forall₂ paired rest rest' →
      related (x :: rest) s t →
      related rest (first (rest ++ later) x s).1 (second (rest' ++ later') y t).1 ∧
        agree (first (rest ++ later) x s).2 (second (rest' ++ later') y t).2)
    {items : List α} {items' : List β} (pairs : List.Forall₂ paired items items') (s : σ) (t : τ)
    (start : related items s t) :
    related [] (run first later items s) (run second later' items' t) ∧
      agree (output first later items s) (output second later' items' t) := by
  induction pairs generalizing s t with
  | nil => exact ⟨start, concatenates.nil⟩
  | cons pair pairs ih =>
    obtain ⟨next, emitted⟩ := matched _ _ _ _ s t pair pairs start
    obtain ⟨final, rest⟩ := ih _ _ next
    exact ⟨final, concatenates.append emitted rest⟩

/-- The rule for two machines that read one list. -/
theorem simulate_same (first : Machine α σ ω) (second : Machine α τ ψ) (related : σ → τ → Prop)
    (concatenates : Concatenates agree) (later later' : List α)
    (matched : ∀ x rest s t, related s t →
      related (first (rest ++ later) x s).1 (second (rest ++ later') x t).1 ∧
        agree (first (rest ++ later) x s).2 (second (rest ++ later') x t).2)
    (items : List α) (s : σ) (t : τ) (start : related s t) :
    related (run first later items s) (run second later' items t) ∧
      agree (output first later items s) (output second later' items t) := by
  apply simulate_pass first second Eq (fun _ => related) concatenates later later' _
    (List.forall₂_eq_eq_eq ▸ rfl) s t start
  rintro x rest y rest' s t rfl pairs relation
  obtain rfl : rest = rest' := by rwa [List.forall₂_eq_eq_eq] at pairs
  exact matched x rest s t relation

end Simulation

section Erasure

variable (first : Machine α σ ω) (second : Machine α τ ω) (kept : α → Bool)

/-- Where a retained item of a list stands after the other items are erased. -/
theorem filter_position (items : List α) (position : Nat) (x : α)
    (found : items[position]? = some x) (retained : kept x = true) :
    (items.filter kept)[((items.take position).filter kept).length]? = some x ∧
    (items.filter kept).drop (((items.take position).filter kept).length + 1) =
      (items.drop (position + 1)).filter kept := by
  have ahead : items.drop position = x :: items.drop (position + 1) := by
    obtain ⟨bound, rfl⟩ := List.getElem?_eq_some_iff.mp found
    exact List.drop_eq_getElem_cons bound
  have parts : items.filter kept = (items.take position).filter kept ++
      x :: (items.drop (position + 1)).filter kept := by
    rw [← List.filter_cons_of_pos retained, ← ahead, ← List.filter_append,
      List.take_append_drop]
  rw [parts]
  refine ⟨?_, ?_⟩
  · rw [List.getElem?_append_right (Nat.le_refl _), Nat.sub_self, List.getElem?_cons_zero]
  · rw [List.drop_append, List.drop_of_length_le (Nat.le_succ _), List.nil_append,
      Nat.add_sub_cancel_left, List.drop_succ_cons, List.drop_zero]

/-- One machine reads a list and the other what is left of it after an erasure. If
retained items keep the states related and erased items do so on the first side alone,
the states are related in front of every position.

Induct on the position. The second machine has read as many items as were retained, and
moves on at retained items only. -/
theorem simulate_erased (related : Nat → σ → τ → Prop) (items : List α)
    (matched : ∀ position x s t, items[position]? = some x → kept x = true → related position s t →
      related (position + 1) (first (items.drop (position + 1)) x s).1
        (second ((items.drop (position + 1)).filter kept) x t).1)
    (erased : ∀ position x s t, items[position]? = some x → kept x = false → related position s t →
      related (position + 1) (first (items.drop (position + 1)) x s).1 t)
    (s : σ) (t : τ) (start : related 0 s t) (position : Nat) (bound : position ≤ items.length) :
    related position (stateAt first items s position)
      (stateAt second (items.filter kept) t ((items.take position).filter kept).length) := by
  induction position with
  | zero => simpa using start
  | succ position ih =>
    have before := ih (Nat.le_of_succ_le bound)
    have found : items[position]? = some items[position] := List.getElem?_eq_getElem bound
    rw [stateAt_succ first items s position _ found, List.take_add_one, found, Option.toList_some,
      List.filter_append, List.length_append]
    cases retained : kept items[position] with
    | true =>
      obtain ⟨located, rest⟩ := filter_position kept items position _ found retained
      rw [List.filter_singleton, retained, cond_true, List.length_singleton,
        stateAt_succ second _ t _ _ located, rest]
      exact matched position _ _ _ found retained before
    | false =>
      rw [List.filter_singleton, retained, cond_false, List.length_nil, Nat.add_zero]
      exact erased position _ _ _ found retained before

end Erasure

section Last

/-- The last position before a bound at which a property holds. -/
def LastBefore (holds : Nat → Prop) (bound position : Nat) : Prop :=
  position < bound ∧ holds position ∧ ∀ later, position < later → later < bound → ¬ holds later

/-- No position lies before zero. -/
theorem not_lastBefore_zero (holds : Nat → Prop) (position : Nat) :
    ¬ LastBefore holds 0 position := fun last => Nat.not_lt_zero position last.1

/-- Moving the bound past a position makes it the last one if the property holds
there, and changes nothing otherwise. -/
theorem lastBefore_succ (holds : Nat → Prop) (bound position : Nat) :
    LastBefore holds (bound + 1) position ↔
      (holds bound ∧ position = bound) ∨ (¬ holds bound ∧ LastBefore holds bound position) := by
  constructor
  · rintro ⟨below, held, last⟩
    rcases Nat.lt_succ_iff_lt_or_eq.mp below with earlier | rfl
    · exact .inr ⟨last bound earlier (Nat.lt_succ_self bound),
        earlier, held, fun later after before => last later after (by omega)⟩
    · exact .inl ⟨held, rfl⟩
  · rintro (⟨held, rfl⟩ | ⟨unheld, below, held, last⟩)
    · exact ⟨Nat.lt_succ_self _, held, fun later after before => by omega⟩
    · refine ⟨by omega, held, fun later after before => ?_⟩
      rcases Nat.lt_succ_iff_lt_or_eq.mp before with earlier | rfl
      · exact last later after earlier
      · exact unheld

/-- A last position exists as soon as there is one at all. -/
theorem exists_lastBefore (holds : Nat → Prop) (bound : Nat) :
    (∃ position, LastBefore holds bound position) ↔ ∃ position < bound, holds position := by
  constructor
  · rintro ⟨position, below, held, _⟩
    exact ⟨position, below, held⟩
  · induction bound with
    | zero => exact fun ⟨position, below, _⟩ => absurd below (Nat.not_lt_zero position)
    | succ bound ih =>
      rintro ⟨position, below, held⟩
      by_cases here : holds bound
      · exact ⟨bound, (lastBefore_succ ..).mpr (.inl ⟨here, rfl⟩)⟩
      · have earlier : position < bound := by
          rcases Nat.lt_succ_iff_lt_or_eq.mp below with earlier | rfl
          · exact earlier
          · exact absurd held here
        obtain ⟨last, found⟩ := ih ⟨position, earlier, held⟩
        exact ⟨last, (lastBefore_succ ..).mpr (.inr ⟨here, found⟩)⟩

/-- The last position depends on the property below the bound only. -/
theorem lastBefore_congr {holds held : Nat → Prop} {bound : Nat}
    (same : ∀ i < bound, holds i ↔ held i) (position : Nat) :
    LastBefore holds bound position ↔ LastBefore held bound position := by
  refine and_congr_right fun below => and_congr (same position below) ?_
  refine forall_congr' fun later => imp_congr_right fun _ => forall_congr' fun before => ?_
  exact not_congr (same later before)

/-- Before a bound, a position with one property has been followed by none with
the other. -/
def Pending (opened closed : Nat → Prop) (bound : Nat) : Prop :=
  ∃ position < bound, opened position ∧
    ∀ later, position < later → later < bound → ¬ closed later

/-- Nothing is pending before the first position. -/
theorem not_pending_zero (opened closed : Nat → Prop) : ¬ Pending opened closed 0 :=
  fun ⟨position, below, _⟩ => Nat.not_lt_zero position below

/-- A position that opens makes the pair pending, and one that closes ends it. -/
theorem pending_succ (opened closed : Nat → Prop) (bound : Nat) :
    Pending opened closed (bound + 1) ↔
      opened bound ∨ (Pending opened closed bound ∧ ¬ closed bound) := by
  constructor
  · rintro ⟨position, below, held, unclosed⟩
    rcases Nat.lt_succ_iff_lt_or_eq.mp below with earlier | rfl
    · exact .inr ⟨⟨position, earlier, held, fun later after before =>
        unclosed later after (by omega)⟩, unclosed bound earlier (Nat.lt_succ_self bound)⟩
    · exact .inl held
  · rintro (held | ⟨⟨position, below, held, unclosed⟩, here⟩)
    · exact ⟨bound, Nat.lt_succ_self bound, held, fun later after before => by omega⟩
    · refine ⟨position, by omega, held, fun later after before => ?_⟩
      rcases Nat.lt_succ_iff_lt_or_eq.mp before with earlier | rfl
      · exact unclosed later after earlier
      · exact here

/-- Whether something is pending is decided behind the last position that opens. -/
theorem pending_iff_last (opened closed : Nat → Prop) (bound : Nat) :
    Pending opened closed bound ↔ ∃ last, LastBefore opened bound last ∧
      ∀ later, last < later → later < bound → ¬ closed later := by
  constructor
  · rintro ⟨position, below, held, unclosed⟩
    obtain ⟨last, found⟩ := (exists_lastBefore opened bound).mpr ⟨position, below, held⟩
    have reached : position ≤ last :=
      Nat.not_lt.mp fun before => found.2.2 position before below held
    exact ⟨last, found, fun later after before => unclosed later (by omega) before⟩
  · rintro ⟨last, ⟨below, held, _⟩, unclosed⟩
    exact ⟨last, below, held, unclosed⟩

end Last

end PMTest.Lookahead

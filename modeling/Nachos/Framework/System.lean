import Mathlib.Logic.Function.Basic

/-!
# Systems that take step after step

A system has initial states and labelled steps. `Reachable` is every state of
every run, and `Trace` keeps the run's labels; `Reachable.invariant` is the one
induction over runs that the safety proofs use. `Along` is about every step of
one run. `restrict` keeps the runs whose steps all meet a condition
on the state before the step and its label. `ofFun` is the system of a
deterministic function that may fail: `reachable_foldlM` runs it along a list
of labels, and `reachable_guarded` and `trace_guarded` along one whose steps meet
the condition.
-/

namespace Framework

/-- The initial states and the labelled steps of a system. -/
structure System (σ α : Type*) where
  init : σ → Prop
  step : σ → α → σ → Prop

namespace System

variable {σ α ε : Type*}

/-- The states of the runs of `S`. -/
inductive Reachable (S : System σ α) : σ → Prop
  | init {s : σ} (h : S.init s) : Reachable S s
  | step {s s' : σ} {a : α} (h : Reachable S s) (hs : S.step s a s') : Reachable S s'

/-- `S` has a run with the labels `as` that ends in a state. -/
inductive Trace (S : System σ α) : List α → σ → Prop
  | init {s : σ} (h : S.init s) : Trace S [] s
  | step {as : List α} {s s' : σ} {a : α} (h : Trace S as s) (hs : S.step s a s') :
    Trace S (as ++ [a]) s'

/-- What holds initially and is kept by every step holds in every reachable
state. -/
theorem Reachable.invariant {S : System σ α} {I : σ → Prop} (h₀ : ∀ s, S.init s → I s)
    (h₁ : ∀ s a s', I s → S.step s a s' → I s') {s : σ} (h : S.Reachable s) : I s := by
  induction h with
  | init h => exact h₀ _ h
  | step _ hs ih => exact h₁ _ _ _ ih hs

/-- The runs of `S` whose steps all meet `C`. -/
def restrict (S : System σ α) (C : σ → α → Prop) : System σ α where
  init := S.init
  step s a s' := C s a ∧ S.step s a s'

theorem Reachable.of_restrict {S : System σ α} {C : σ → α → Prop} {s : σ}
    (h : (S.restrict C).Reachable s) : S.Reachable s := by
  induction h with
  | init h => exact .init h
  | step _ hs ih => exact .step ih hs.2

/-- The runs of a function that may fail, from one state. -/
def ofFun (s₀ : σ) (next : σ → α → Except ε σ) : System σ α where
  init s := s = s₀
  step s a s' := next s a = .ok s'

theorem reachable_foldlM {s₀ : σ} {next : σ → α → Except ε σ} {s s' : σ} {as : List α}
    (h : (ofFun s₀ next).Reachable s) (hr : as.foldlM next s = .ok s') :
    (ofFun s₀ next).Reachable s' := by
  induction as generalizing s with
  | nil =>
    simp only [List.foldlM_nil, pure, Except.pure, Except.ok.injEq] at hr
    exact hr ▸ h
  | cons a as ih =>
    rw [List.foldlM_cons] at hr
    cases hn : next s a with
    | error e => rw [hn] at hr; cases hr
    | ok s₁ =>
      rw [hn] at hr
      exact ih (.step h hn) hr

/-- The labels of a run lead to its end. -/
theorem Trace.foldlM {s₀ : σ} {next : σ → α → Except ε σ} {C : σ → α → Prop} {s : σ} {as : List α}
    (h : ((ofFun s₀ next).restrict C).Trace as s) : as.foldlM next s₀ = .ok s := by
  induction h with
  | init h =>
    cases h
    rfl
  | step _ hs ih =>
    rw [List.foldlM_append, ih]
    exact bind_pure _ |>.trans hs.2

/-- A run that ends in a state with `p`, by evaluation. -/
theorem exists_reachable (s₀ : σ) (next : σ → α → Except ε σ) (as : List α) {p : σ → Bool}
    (h : (as.foldlM next s₀).toOption.any p = true) :
    ∃ s, (ofFun s₀ next).Reachable s ∧ p s = true := by
  cases hr : as.foldlM next s₀ with
  | error e => simp [hr, Except.toOption] at h
  | ok s =>
    rw [hr] at h
    exact ⟨s, reachable_foldlM (.init rfl) hr, h⟩

/-- Every step of the run from `s` with the labels `as` has `R`. -/
def Along (next : σ → α → Except ε σ) (R : σ → α → σ → Prop) : σ → List α → Prop
  | _, [] => True
  | s, a :: as => ∀ s', next s a = .ok s' → R s a s' ∧ Along next R s' as

theorem along_congr {s₀ : σ} {next : σ → α → Except ε σ} {R R' : σ → α → σ → Prop}
    (hR : ∀ s a s', (ofFun s₀ next).Reachable s → next s a = .ok s' → (R s a s' ↔ R' s a s'))
    (as : List α) {s : σ} (h : (ofFun s₀ next).Reachable s) :
    Along next R s as ↔ Along next R' s as := by
  induction as generalizing s with
  | nil => exact Iff.rfl
  | cons a as ih =>
    refine forall_congr' fun s' => forall_congr' fun hs => ?_
    rw [hR s a s' h hs, ih (.step h hs)]

theorem Along.last {next : σ → α → Except ε σ} {R : σ → α → σ → Prop} {as : List α} {a : α}
    {s s₁ s₂ : σ} (h : Along next R s (as ++ [a])) (hr : as.foldlM next s = .ok s₁)
    (ha : next s₁ a = .ok s₂) : R s₁ a s₂ := by
  induction as generalizing s with
  | nil =>
    cases hr
    exact (h s₂ ha).1
  | cons b as ih =>
    rw [List.foldlM_cons] at hr
    cases hn : next s b with
    | error e => rw [hn] at hr; cases hr
    | ok s' =>
      rw [hn] at hr
      exact ih (h s' hn).2 hr

/-- The last step of a run, by evaluation. -/
theorem exists_last (s₀ : σ) (next : σ → α → Except ε σ) (as : List α) (a : α) {p : σ → σ → Bool}
    (h : (as.foldlM next s₀).toOption.any (fun s => (next s a).toOption.any (p s)) = true) :
    ∃ s s', p s s' = true ∧ ∀ R, Along next R s₀ (as ++ [a]) → R s a s' := by
  cases hr : as.foldlM next s₀ with
  | error e => simp [hr, Except.toOption] at h
  | ok s =>
    cases ha : next s a with
    | error e => simp [hr, ha, Except.toOption] at h
    | ok s' => exact ⟨s, s', by simpa [hr, ha, Except.toOption] using h, fun R hR => hR.last hr ha⟩

/-- A step of a function that may fail, refused where `C` does not hold. -/
def guarded (next : σ → α → Except ε σ) (C : σ → α → Prop) [∀ s a, Decidable (C s a)] (s : σ)
    (a : α) : Option σ :=
  if C s a then (next s a).toOption else none

theorem reachable_guarded {s₀ : σ} {next : σ → α → Except ε σ} {C : σ → α → Prop}
    [∀ s a, Decidable (C s a)] {s s' : σ} (as : List α)
    (h : ((ofFun s₀ next).restrict C).Reachable s) (hr : as.foldlM (guarded next C) s = some s') :
    ((ofFun s₀ next).restrict C).Reachable s' := by
  induction as generalizing s with
  | nil =>
    simp only [List.foldlM_nil, pure, Option.some.injEq] at hr
    exact hr ▸ h
  | cons a as ih =>
    rw [List.foldlM_cons] at hr
    by_cases hc : C s a
    · cases hn : next s a with
      | error e => simp [guarded, hc, hn, Except.toOption] at hr
      | ok s₁ =>
        simp only [guarded, hc, hn, Except.toOption, ite_true, Option.bind_eq_bind,
          Option.bind_some] at hr
        exact ih (.step h ⟨hc, hn⟩) hr
    · simp [guarded, hc] at hr

/-- A run that ends in a state with `p` and whose steps meet `C`, by
evaluation. -/
theorem exists_reachable_guarded (s₀ : σ) (next : σ → α → Except ε σ) (C : σ → α → Prop)
    [∀ s a, Decidable (C s a)] (as : List α) {p : σ → Bool}
    (h : (as.foldlM (guarded next C) s₀).any p = true) :
    ∃ s, ((ofFun s₀ next).restrict C).Reachable s ∧ p s = true := by
  obtain ⟨s, hr, hp⟩ := (Option.any_eq_true _ _).mp h
  exact ⟨s, reachable_guarded as (.init rfl) hr, hp⟩

/-- A run with its labels whose steps meet `C`, by evaluation. -/
theorem trace_guarded {s₀ : σ} {next : σ → α → Except ε σ} {C : σ → α → Prop}
    [∀ s a, Decidable (C s a)] {s s' : σ} {bs : List α} (as : List α)
    (h : ((ofFun s₀ next).restrict C).Trace bs s) (hr : as.foldlM (guarded next C) s = some s') :
    ((ofFun s₀ next).restrict C).Trace (bs ++ as) s' := by
  induction as generalizing s bs with
  | nil =>
    cases hr
    rwa [List.append_nil]
  | cons a as ih =>
    rw [List.foldlM_cons] at hr
    by_cases hc : C s a
    · cases hn : next s a with
      | error e => simp [guarded, hc, hn, Except.toOption] at hr
      | ok s₁ =>
        simp only [guarded, hc, hn, Except.toOption, ite_true, Option.bind_eq_bind,
          Option.bind_some] at hr
        rw [List.append_cons]
        exact ih (.step h ⟨hc, hn⟩) hr
    · simp [guarded, hc] at hr

end System

end Framework

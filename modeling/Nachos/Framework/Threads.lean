import Mathlib.Tactic.Common
import Nachos.Framework.System

/-!
# Threads that sleep and wake each other

Any number of threads, each with its own local state, over one shared state.
A thread's step is a function that may fail; besides the shared state and its
own it may put the thread to sleep or wake another (`Effect`). A sleeping
thread's step changes nothing. `next` runs one thread for one step, so a list
of threads is an interleaving and `System.ofFun c (next exec)` has all of them.
-/

namespace Framework.Threads

variable {S L T ε : Type} [DecidableEq T]

/-- What a step does to the threads' sleep. -/
inductive Effect (T : Type)
  | go
  | sleep
  | wake (u : Option T)

/-- The shared state, each thread's own, and who is asleep. -/
structure Config (S L T : Type) where
  shared : S
  loc : T → L
  asleep : T → Bool

/-- Who is asleep after a step of `t` with an effect. -/
def Effect.apply (t : T) (asleep : T → Bool) : Effect T → T → Bool
  | .go => asleep
  | .sleep => Function.update asleep t true
  | .wake none => asleep
  | .wake (some u) => Function.update asleep u false

/-- One step of thread `t`. -/
def next (exec : T → S → L → Except ε (S × L × Effect T)) (c : Config S L T) (t : T) :
    Except ε (Config S L T) :=
  if c.asleep t then .ok c
  else match exec t c.shared (c.loc t) with
    | .error e => .error e
    | .ok (s, l, e) => .ok ⟨s, Function.update c.loc t l, e.apply t c.asleep⟩

/-- What a step of `t` does. -/
theorem next_cases {exec : T → S → L → Except ε (S × L × Effect T)} {c c' : Config S L T} {t : T}
    (h : next exec c t = .ok c') :
    (c.asleep t = true ∧ c' = c) ∨
    (c.asleep t = false ∧ ∃ s l e, exec t c.shared (c.loc t) = .ok (s, l, e) ∧
      c' = ⟨s, Function.update c.loc t l, e.apply t c.asleep⟩) := by
  unfold next at h
  split at h
  · rename_i ha
    exact .inl ⟨ha, (Except.ok.inj h).symm⟩
  · rename_i ha
    split at h <;> [cases h; skip]
    rename_i s l e he
    exact .inr ⟨by simpa using ha, s, l, e, he, (Except.ok.inj h).symm⟩

/-- A step fails only in a thread that is awake. -/
theorem next_error {exec : T → S → L → Except ε (S × L × Effect T)} {c : Config S L T} {t : T}
    {e : ε} (h : next exec c t = .error e) :
    c.asleep t = false ∧ exec t c.shared (c.loc t) = .error e := by
  unfold next at h
  split at h <;> [cases h; skip]
  rename_i ha
  split at h <;> [skip; cases h]
  rename_i e' he
  exact ⟨by simpa using ha, he.trans (congrArg _ (Except.error.inj h))⟩

end Framework.Threads

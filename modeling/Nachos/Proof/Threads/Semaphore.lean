import Mathlib.Data.Finset.Card
import Mathlib.Data.List.Nodup
import Nachos.Framework.System
import Nachos.Impl.Threads.Synch

/-!
# Semaphores over all interleavings

Any number of threads call `P` and `V`, and interrupt handlers call `V`, on
one semaphore. A thread is outside `P` (`out`), asleep in it (`blocked`), or
woken by a `V` and about to test `value` again (`ready`).

The invariant (`Inv`) relates the value, the queue and the woken threads: `V`
both wakes a waiter and increments the value, so while threads are queued
there are at least `value` woken ones. A third thread that takes the value
first only lowers it.
-/

namespace Nachos.Proof.Semaphore

open Framework

variable {T : Type} [DecidableEq T]

/-- Where a thread is in `Semaphore::P`. -/
inductive Mode
  | out
  | blocked
  | ready
  deriving DecidableEq

/-- The semaphore, the threads, and how many `P`s and `V`s have completed. -/
structure State (T : Type) where
  sem : Semaphore T
  mode : T → Mode
  ps : Nat
  vs : Nat

/-- A thread runs the body of `P` up to its return or its `Sleep`, or a thread
or an interrupt handler runs `V`. -/
inductive Act (T : Type)
  | p (t : T)
  | v

/-- `ReadyToRun` for the thread that `V` took off the queue. -/
def wake (mode : T → Mode) : Option T → T → Mode
  | none => mode
  | some u => Function.update mode u .ready

/-- Sleeping threads wake through `V` only: a `blocked` thread does not step. -/
def step (s : State T) : Act T → State T → Prop
  | .p t, s' => s.mode t ≠ .blocked ∧ ∃ sem b, s.sem.p t = .ok (sem, b) ∧
      s' = { s with
        sem := sem
        mode := Function.update s.mode t (if b then .out else .blocked)
        ps := s.ps + b.toNat }
  | .v, s' => s' = { s with sem := s.sem.v.1, mode := wake s.mode s.sem.v.2, vs := s.vs + 1 }

/-- One semaphore with initial value `initialValue`. -/
def system (T : Type) [DecidableEq T] (initialValue : Int) : System (State T) (Act T) where
  init s := s = ⟨.new initialValue, fun _ => .out, 0, 0⟩
  step := step

/-- The invariant of every run. -/
structure Inv (initialValue : Int) (s : State T) : Prop where
  nonneg : 0 ≤ s.sem.value
  count : s.sem.value = initialValue + s.vs - s.ps
  queued : ∀ t, t ∈ s.sem.queue ↔ s.mode t = .blocked
  nodup : s.sem.queue.Nodup
  woken : ∃ W : Finset T, (∀ t, t ∈ W ↔ s.mode t = .ready) ∧
    (s.sem.queue ≠ [] → s.sem.value ≤ W.card)

omit [DecidableEq T] in
theorem inv_init {v₀ : Int} (h : 0 ≤ v₀) : Inv v₀ (⟨.new v₀, fun _ => .out, 0, 0⟩ : State T) where
  nonneg := h
  count := by simp [Semaphore.new]
  queued := by simp [Semaphore.new]
  nodup := .nil
  woken := ⟨∅, by simp, fun h => absurd rfl h⟩

/-- `P` takes the value: one woken thread fewer at most, and the value is one
less. -/
theorem inv_take {v₀ : Int} {s : State T} (h : Inv v₀ s) {t : T} (ht : s.mode t ≠ .blocked)
    (hv : s.sem.value ≠ 0) :
    Inv v₀ { s with
      sem := { s.sem with value := s.sem.value - 1 }
      mode := Function.update s.mode t .out
      ps := s.ps + 1 } where
  nonneg := by have := h.nonneg; simp only; omega
  count := by have := h.count; push_cast; omega
  queued u := by
    simp only [h.queued u, Function.update_apply]
    split
    · rename_i e; subst e; simp [ht]
    · rfl
  nodup := h.nodup
  woken := by
    obtain ⟨W, hW, hc⟩ := h.woken
    refine ⟨W.erase t, fun u => ?_, fun hq => ?_⟩
    · simp only [Finset.mem_erase, hW, Function.update_apply]
      split <;> simp_all
    · have := hc hq
      have := Finset.pred_card_le_card_erase (s := W) (a := t)
      simp only
      omega

/-- `P` finds the value zero: the thread is queued. -/
theorem inv_sleep {v₀ : Int} {s : State T} (h : Inv v₀ s) {t : T} (ht : t ∉ s.sem.queue)
    (hv : s.sem.value = 0) :
    Inv v₀ { s with
      sem := { s.sem with queue := s.sem.queue ++ [t] }
      mode := Function.update s.mode t .blocked } where
  nonneg := h.nonneg
  count := h.count
  queued u := by
    simp only [List.mem_append, h.queued u, Function.update_apply]
    split
    · rename_i e; subst e; simp
    · rename_i e; simp [e]
  nodup := by
    rw [List.nodup_append]
    exact ⟨h.nodup, List.nodup_singleton t, by
      intro a ha b hb e
      rw [List.mem_singleton] at hb
      exact ht (hb ▸ e ▸ ha)⟩
  woken := by
    obtain ⟨W, hW, -⟩ := h.woken
    refine ⟨W.erase t, fun u => ?_, fun _ => ?_⟩
    · simp only [Finset.mem_erase, hW, Function.update_apply]
      split <;> simp_all
    · simp only [hv]
      exact Int.natCast_nonneg _

/-- `V`: the value is one more, and so are the woken threads if one was
queued. -/
theorem inv_v {v₀ : Int} {s : State T} (h : Inv v₀ s) :
    Inv v₀ { s with sem := s.sem.v.1, mode := wake s.mode s.sem.v.2, vs := s.vs + 1 } := by
  obtain ⟨W, hW, hc⟩ := h.woken
  have hn := h.nonneg
  have hcount := h.count
  rw [Semaphore.v_eq]
  cases hq : s.sem.queue with
  | nil =>
    have hb := h.queued
    rw [hq] at hb
    exact ⟨by simp only; omega, by push_cast; omega, hb, .nil, W, hW,
      fun h => absurd rfl h⟩
  | cons u q =>
    have hnd := h.nodup
    rw [hq, List.nodup_cons] at hnd
    have hu : s.mode u = .blocked := (h.queued u).mp (by rw [hq]; exact List.mem_cons_self)
    have huW : u ∉ W := fun hm => absurd ((hW u).mp hm) (by simp [hu])
    refine ⟨by simp only; omega, by push_cast; omega, fun t => ?_, hnd.2,
      insert u W, fun t => ?_, fun _ => ?_⟩
    · have := h.queued t
      rw [hq, List.mem_cons] at this
      simp only [List.tail_cons, List.head?_cons, wake, Function.update_apply]
      split
      · rename_i e; subst e; simp [hnd.1]
      · rename_i e; simpa [e] using this
    · simp only [List.head?_cons, wake, Finset.mem_insert, hW, Function.update_apply]
      split <;> simp_all
    · have := hc (by simp [hq])
      rw [Finset.card_insert_of_notMem huW]
      push_cast
      omega

theorem inv_step {v₀ : Int} {s s' : State T} {a : Act T} (h : Inv v₀ s) (hs : step s a s') :
    Inv v₀ s' := by
  cases a with
  | p t =>
    obtain ⟨ht, sem, b, hp, rfl⟩ := hs
    rcases Semaphore.p_cases hp with ⟨rfl, hv, rfl⟩ | ⟨rfl, hv, hq, rfl⟩
    · exact inv_take h ht hv
    · exact inv_sleep h hq hv
  | v =>
    cases hs
    exact inv_v h

end Nachos.Proof.Semaphore

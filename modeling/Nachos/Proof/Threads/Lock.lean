import Mathlib.Data.List.Nodup
import Nachos.Framework.Threads
import Nachos.Impl.Threads.Synch

/-!
# Locks: who holds one and who waits for it

`Lock.Held l f` ties a lock to its users: `f t` says whether thread `t` is
between the return of `P` in `Acquire` and the `V` of `Release` (`some _`),
and whether `lockHolder` is set to it there (`some true`). At most one thread
is. Each of the four steps of `Acquire` and `Release` changes `f` at the
current thread only.

`Lock.Queued l asleep loc w` ties the lock's queue to the sleeping threads:
those whose local state satisfies `w`, the ones at this lock's `P`.
-/

namespace Nachos.Lock

open Framework.Threads

variable {T L : Type} [DecidableEq T]

/-- At most one thread holds the lock, and the semaphore and `lockHolder` say
so. -/
structure Held (l : Lock T) (f : T → Option Bool) : Prop where
  free : (∀ t, f t = none) → l.semaphore.value = 1 ∧ l.lockHolder = none
  busy : ∀ t b, f t = some b →
    l.semaphore.value = 0 ∧ l.lockHolder = (if b then some t else none) ∧ ∀ u ≠ t, f u = none

omit [DecidableEq T] in
theorem held_new : Held (new : Lock T) fun _ => none :=
  ⟨fun _ => ⟨rfl, rfl⟩, nofun⟩

omit [DecidableEq T] in
theorem Held.unique {l : Lock T} {f : T → Option Bool} (h : Held l f) {t u : T}
    (ht : (f t).isSome) (hu : (f u).isSome) : t = u := by
  obtain ⟨b, hb⟩ := Option.isSome_iff_exists.mp hu
  by_contra hne
  rw [(h.busy u b hb).2.2 t hne] at ht
  cases ht

/-- What `semaphore->P()` does to a lock. -/
theorem acquireP_cases {l l' : Lock T} {t : T} {b : Bool} (h : l.acquireP t = .ok (l', b)) :
    (b = true ∧ l.semaphore.value ≠ 0 ∧
      l' = { l with semaphore := { l.semaphore with value := l.semaphore.value - 1 } }) ∨
    (b = false ∧ l.semaphore.value = 0 ∧ t ∉ l.semaphore.queue ∧
      l' = { l with semaphore := { l.semaphore with queue := l.semaphore.queue ++ [t] } }) := by
  obtain ⟨⟨s, b'⟩, hp, h⟩ := bind_eq_ok.mp h
  simp only [pure_eq_ok, Except.ok.injEq, Prod.mk.injEq] at h
  obtain ⟨rfl, rfl⟩ := h
  rcases Semaphore.p_cases hp with ⟨rfl, hv, rfl⟩ | ⟨rfl, hv, hq, rfl⟩
  · exact .inl ⟨rfl, hv, rfl⟩
  · exact .inr ⟨rfl, hv, hq, rfl⟩

/-- `P` does not abort for a thread that is not queued. -/
theorem acquireP_ok {l : Lock T} {t : T} (h : t ∉ l.semaphore.queue) : ∃ r, l.acquireP t = .ok r := by
  obtain ⟨r, hr⟩ := Semaphore.p_ok h
  exact ⟨_, by rw [acquireP, hr]; rfl⟩

/-- `P` returned: nobody held the lock, now `t` does. -/
theorem Held.acquire {l l' : Lock T} {f : T → Option Bool} (h : Held l f) {t : T}
    (hp : l.acquireP t = .ok (l', true)) : Held l' (Function.update f t (some false)) := by
  rcases acquireP_cases hp with ⟨-, hv, rfl⟩ | ⟨hb, -⟩ <;> [skip; cases hb]
  have hf : ∀ u, f u = none := fun u => by
    by_contra hu
    obtain ⟨b, hb⟩ := Option.ne_none_iff_exists'.mp hu
    exact hv (h.busy u b hb).1
  obtain ⟨h1, hn⟩ := h.free hf
  refine ⟨fun hu => ?_, fun u b hu => ?_⟩
  · have := hu t
    simp at this
  · simp only [Function.update_apply, hf] at hu
    split at hu <;> [skip; cases hu]
    rename_i e
    obtain rfl := Option.some.inj hu
    subst e
    exact ⟨by simp only [h1]; rfl, by simp [hn], fun w hw => by simp [hw, hf]⟩

/-- `P` slept: the holder is the same. -/
theorem Held.wait {l l' : Lock T} {f : T → Option Bool} (h : Held l f) {t : T}
    (hp : l.acquireP t = .ok (l', false)) : Held l' f := by
  rcases acquireP_cases hp with ⟨hb, -⟩ | ⟨-, -, -, rfl⟩ <;> [cases hb; skip]
  exact ⟨h.free, h.busy⟩

/-- The holder's steps change only whether `lockHolder` is set. -/
theorem Held.rehold {l : Lock T} {f : T → Option Bool} (h : Held l f) {t : T} {b : Bool}
    (ht : f t = some b) (b' : Bool) :
    Held { l with lockHolder := if b' then some t else none } (Function.update f t (some b')) := by
  obtain ⟨hv, -, hu⟩ := h.busy t b ht
  refine ⟨fun hn => ?_, fun u c hc => ?_⟩
  · have := hn t
    simp at this
  · by_cases e : u = t
    · subst e
      rw [Function.update_self, Option.some.injEq] at hc
      subst hc
      exact ⟨hv, rfl, fun w hw => by rw [Function.update_of_ne hw]; exact hu w hw⟩
    · rw [Function.update_of_ne e, hu u e] at hc
      cases hc

/-- `lockHolder = kernel->currentThread`. -/
theorem Held.set {l : Lock T} {f : T → Option Bool} (h : Held l f) {t : T}
    (ht : f t = some false) : Held (l.acquireSet t) (Function.update f t (some true)) :=
  h.rehold ht true

/-- The `ASSERT` of `Release` holds for the holder, and `lockHolder = NULL`. -/
theorem Held.check {l : Lock T} {f : T → Option Bool} (h : Held l f) {t : T}
    (ht : f t = some true) :
    l.releaseCheck t = .ok { l with lockHolder := none } ∧
      Held { l with lockHolder := none } (Function.update f t (some false)) := by
  refine ⟨?_, h.rehold ht false⟩
  unfold releaseCheck
  rw [assert_of (by simpa [isHeldBy] using (h.busy t true ht).2.1)]
  rfl

/-- `V`: the lock is free. -/
theorem Held.post {l : Lock T} {f : T → Option Bool} (h : Held l f) {t : T}
    (ht : f t = some false) : Held l.releaseV.1 (Function.update f t none) := by
  obtain ⟨hv, hl, hu⟩ := h.busy t false ht
  have hn : ∀ u, Function.update f t none u = none := fun u => by
    by_cases e : u = t
    · subst e; simp
    · rw [Function.update_of_ne e, hu u e]
  refine ⟨fun _ => ?_, fun u b hb => ?_⟩
  · simp only [releaseV, Semaphore.v_eq, hv, hl]
    exact ⟨rfl, rfl⟩
  · rw [hn u] at hb
    cases hb

/-! ## Waiting -/

/-- The queue holds, once each, the sleeping threads that wait for this lock. -/
structure Queued (l : Lock T) (asleep : T → Bool) (loc : T → L) (w : L → Bool) : Prop where
  mem : ∀ t, t ∈ l.semaphore.queue ↔ asleep t = true ∧ w (loc t) = true
  nodup : l.semaphore.queue.Nodup

variable {l l' : Lock T} {asleep : T → Bool} {loc : T → L} {w : L → Bool} {t : T} {x : L}

omit [DecidableEq T] in
theorem queued_new : Queued (new : Lock T) (fun _ => false) loc w :=
  ⟨fun _ => by simp [new, Semaphore.new], .nil⟩

omit [DecidableEq T] in
theorem Queued.not_mem (h : Queued l asleep loc w) (ht : asleep t = false) :
    t ∉ l.semaphore.queue := fun hm => by simp [(h.mem t).mp hm] at ht

/-- A thread that is awake moves on. -/
theorem Queued.move (h : Queued l asleep loc w) (ht : asleep t = false)
    (hq : l'.semaphore.queue = l.semaphore.queue) : Queued l' asleep (Function.update loc t x) w := by
  refine ⟨fun u => ?_, hq ▸ h.nodup⟩
  rw [hq, h.mem u]
  by_cases e : u = t
  · subst e; simp [ht]
  · rw [Function.update_of_ne e]

/-- A thread goes to sleep in this lock's `P`. -/
theorem Queued.sleep (h : Queued l asleep loc w) (hp : l.acquireP t = .ok (l', false))
    (hw : w x = true) :
    Queued l' (Function.update asleep t true) (Function.update loc t x) w := by
  rcases acquireP_cases hp with ⟨hb, -⟩ | ⟨-, -, hq, rfl⟩ <;> [cases hb; skip]
  refine ⟨fun u => ?_, ?_⟩
  · simp only [List.mem_append, List.mem_singleton, h.mem u]
    by_cases e : u = t
    · subst e; simp [hw]
    · simp [e]
  · simp only [List.nodup_append, List.mem_singleton, List.nodup_singleton]
    refine ⟨h.nodup, trivial, fun a ha b hb => ?_⟩
    rintro rfl
    exact hq (hb ▸ ha)

/-- A thread goes to sleep elsewhere. -/
theorem Queued.sleep_other (h : Queued l asleep loc w) (ht : asleep t = false) (hw : w x = false) :
    Queued l (Function.update asleep t true) (Function.update loc t x) w := by
  refine ⟨fun u => ?_, h.nodup⟩
  rw [h.mem u]
  by_cases e : u = t
  · subst e; simp [hw, ht]
  · simp [Function.update_of_ne e]

/-- `V` wakes the first waiter. -/
theorem Queued.post (h : Queued l asleep loc w) (ht : asleep t = false) :
    Queued l.releaseV.1 ((Effect.wake l.releaseV.2).apply t asleep) (Function.update loc t x) w := by
  simp only [releaseV, Semaphore.v_eq]
  have hnd := h.nodup
  have hm := h.mem
  cases hq : l.semaphore.queue with
  | nil =>
    rw [hq] at hm
    refine Queued.move (l := l) h ht (by simp [hq])
  | cons u q =>
    rw [hq] at hm hnd
    rw [List.nodup_cons] at hnd
    refine ⟨fun v => ?_, hnd.2⟩
    have hv := hm v
    simp only [List.mem_cons] at hv
    simp only [List.tail_cons, List.head?_cons, Effect.apply]
    by_cases e : v = u
    · subst e; simp [hnd.1]
    · simp only [e, false_or] at hv
      rw [Function.update_of_ne e, hv]
      by_cases e' : v = t
      · subst e'; simp [ht]
      · rw [Function.update_of_ne e']

/-- Another lock's `V` wakes a thread that does not wait for this one. -/
theorem Queued.post_other (h : Queued l asleep loc w) (ht : asleep t = false) {o : Option T}
    (ho : ∀ u, o = some u → w (loc u) = false) :
    Queued l ((Effect.wake o).apply t asleep) (Function.update loc t x) w := by
  cases o with
  | none => exact h.move ht rfl
  | some u =>
    refine ⟨fun v => ?_, h.nodup⟩
    rw [h.mem v]
    simp only [Effect.apply]
    by_cases e : v = u
    · subst e
      simp [ho v rfl]
    · rw [Function.update_of_ne e]
      by_cases e' : v = t
      · subst e'; simp [ht]
      · rw [Function.update_of_ne e']

omit [DecidableEq T] in
/-- The thread a `V` wakes was waiting for this lock. -/
theorem Queued.woken (h : Queued l asleep loc w) {u : T} (hu : l.releaseV.2 = some u) :
    w (loc u) = true := by
  simp only [releaseV, Semaphore.v_eq] at hu
  exact ((h.mem u).mp (List.mem_of_mem_head? (by simp [hu]))).2

end Nachos.Lock

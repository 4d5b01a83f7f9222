import Nachos.Proof.Threads.CondCalls

/-!
# Mutual exclusion, and signals that are not lost

`reachable_exclusive_lock`: one thread at a time is between the return of
`Acquire` and the call of `Release`, and `lockHolder` names it, whatever it
does there and wherever threads are switched out.

`reachable_condition`: the events of a run are a run of the abstract condition
variable, and each call has had its events when it returns. A thread that was
released is awake, or its `P` returns at once, so a signal that comes before the
waiter's `P` is not lost.
-/

namespace Nachos.Monitor

open Framework Framework.Threads

variable {T A D : Type} [DecidableEq T]
  {caller : T → D → A → Except Abort (D × List (Call A))} {d : D} {prog : T → List (List (Call A))}
  {c : State T A D}

omit [DecidableEq T] in
/-- The thread is between the return of `Acquire` and the call of `Release`:
of the lock's statements, the first of `Release` is the next it will run. -/
def inside (r : List (Stmt T A)) : Prop := status r = some true

/-- The lock excludes. -/
structure ExclusiveLock (c : State T A D) : Prop where
  one : ∀ t u, inside (c.loc t) → inside (c.loc u) → t = u
  holder : ∀ t, inside (c.loc t) → c.shared.1.lock.lockHolder = some t
  release : ∀ t r, c.loc t = .releaseCheck :: r → ∃ l, c.shared.1.lock.releaseCheck t = .ok l

/-- Every state of every run has at most one thread inside the lock; it is
`lockHolder`, and the `ASSERT` of `Release` holds. -/
theorem reachable_exclusive_lock (h : (system caller d prog).Reachable c) : ExclusiveLock c := by
  obtain ⟨v, hinv, -⟩ := reachable_condVar h
  refine ⟨fun t u ht hu => ?_, fun t ht => ?_, fun t r hc => ?_⟩
  · rw [inside] at ht hu
    exact hinv.held.unique (by simp [ht]) (by simp [hu])
  · exact (hinv.held.busy t true ht).2.1
  · exact ⟨_, (hinv.held.check (by simp [hc])).1⟩

/-- A program without statements of its own. -/
def noCaller {T : Type} (_ : T) (_ : Unit) (a : Empty) : Except Abort (Unit × List (Call Empty)) :=
  nomatch a

/-- `true` is inside, and `false` sleeps in `Acquire`. -/
theorem reachable_exclusive_lock_asleep : ∃ c,
    (system noCaller () fun _ => [[]]).Reachable c ∧
      (c.loc true = Lock.release ∧ c.asleep false = true) ∧ ExclusiveLock c := by
  obtain ⟨c, hr, hp⟩ := System.exists_reachable (initial () fun _ => [[]]) (next (record noCaller))
    [true, true, false] (p := fun c => c.loc true = Lock.release ∧ c.asleep false = true) (by decide)
  exact ⟨c, hr, of_decide_eq_true hp, reachable_exclusive_lock hr⟩

/-! ## Conditions -/

/-- The condition variable is a correct one. -/
structure CorrectCondition (caller : T → D → A → Except Abort (D × List (Call A))) (c : State T A D) :
    Prop where
  /-- The events of the run are possible. A thread that was released is not
  asleep, and its `P` returns. -/
  trace : ∃ v, (CondVar.system T (T × A × D)).Trace c.shared.2 v ∧
    (v.signaller = none → v.queue = c.shared.1.waitQueue) ∧
    ∀ t ∈ v.woken, atWait (c.loc t) = true →
      c.asleep t = false ∧ c.shared.1.waiter t = some ⟨1, []⟩
  /-- A call that returns has done what it is for: `Signal` has released the first
  of the queue, `Broadcast` all of it, and `Wait` was released once. -/
  calls : ∀ t k r, c.loc t = Call.code k ++ r → ∀ ts c', (during caller c t r).Trace ts c' →
    Returns c t k r ts c'
  /-- `Wait` returns with the lock. -/
  holds : ∀ t r, c.loc t = .deleteWaiter :: r → c.shared.1.lock.lockHolder = some t
  /-- No `ASSERT` fails; only a caller's own statement can. -/
  safe : ∀ t e, c.asleep t = false → c.shared.1.exec caller t (c.loc t) = .error e →
    ∃ a r, c.loc t = .caller a :: r ∧ caller t c.shared.1.data a = .error e

/-- Every state of every run has a correct condition variable. -/
theorem reachable_condition (h : (system caller d prog).Reachable c) :
    CorrectCondition caller c := by
  obtain ⟨v, hinv, htrace⟩ := reachable_condVar h
  refine ⟨⟨v, htrace, hinv.same, fun t ht hat => ?_⟩, fun t k r hc ts c' hr => ?_, fun t r hc => ?_,
    fun t e ha hx => ?_⟩
  · have hph := phase_of_atWait hat
    have hq : t ∉ v.queue := by simpa [hph] using (hinv.woken t).mp ht
    have ha : c.asleep t = false := by
      by_contra ha
      rcases hinv.asleepAt t (by simpa using ha) with hacq | ⟨-, hmem⟩
      · exact phase_of_atAcquire (hinv.wf t) hacq hph
      · exact hq hmem
    refine ⟨ha, ?_⟩
    rw [hinv.waiters t, hph, ha]
    simp [waiterOf, hq]
  · exact Refines.returns ⟨hinv, htrace⟩ hc hr
  · have hw := hinv.wf t
    rw [hc] at hw
    exact (hinv.held.busy t true (by simpa [hc] using hw.1.1)).2.1
  · rcases hinv.exec caller ha with ⟨m, r, e', v', hm, -⟩ | ⟨a, r, e', hc, hx'⟩
    · rw [hm] at hx
      cases hx
    · rw [hc] at hx
      simp only [Monitor.exec, hx', error_bind] at hx
      exact ⟨a, r, hc, hx'.trans (congrArg Except.error (Except.error.inj hx))⟩

/-- The threads 0 and 1 wait, and 2 is to broadcast. -/
def twoWaiters (t : Fin 3) : List (List (Call Empty)) :=
  if t.val = 2 then [[.broadcast]] else [[.wait]]

/-- Both are released when `Broadcast` returns: 1, which sleeps, and 0, which is only about
to call its `P`. -/
theorem reachable_condition_broadcast : ∃ c ts c', (system noCaller () twoWaiters).Reachable c ∧
    (during noCaller c 2 Lock.release).Trace ts c' ∧
    (c.loc 2 = Condition.broadcast ++ Lock.release ∧ c'.loc 2 = Lock.release ∧
      atWait (c.loc 0) = true ∧ c.asleep 0 = false ∧ c.asleep 1 = true) ∧
    c'.shared.2 = c.shared.2 ++ [.broadcast 2, .found 2, .signal 2 0, .found 2, .signal 2 1, .done 2] := by
  obtain ⟨c, hc, hp⟩ := System.exists_reachable (initial () twoWaiters) (next (record noCaller))
    (List.replicate 7 0 ++ List.replicate 8 1 ++ List.replicate 2 2)
    (p := fun c => decide ((c.loc 2 = Condition.broadcast ++ Lock.release ∧
        c.shared.1.waitQueue = [0, 1] ∧ atWait (c.loc 0) = true ∧ c.asleep 0 = false ∧
        c.asleep 1 = true) ∧
      ((List.replicate 12 2).foldlM (System.guarded (next (record noCaller))
        fun c' _ => c'.loc 2 ≠ Lock.release) c).any fun c' => c'.loc 2 = Lock.release)) (by decide +kernel)
  obtain ⟨⟨hl, hq, h₀, h₁, h₂⟩, hany⟩ := of_decide_eq_true hp
  obtain ⟨c', hr, hl'⟩ := (Option.any_eq_true _ _).mp hany
  have htr : (during noCaller c 2 Lock.release).Trace _ c' := System.trace_guarded _ (.init rfl) hr
  have hl' := of_decide_eq_true hl'
  obtain ⟨-, es, he, hes⟩ := ((reachable_condition hc).calls 2 .broadcast _ hl _ c' htr).does hl'
  refine ⟨c, _, c', hc, htr, ⟨hl, hl', h₀, h₁, h₂⟩, ?_⟩
  rw [he, hes, hq]
  rfl

end Nachos.Monitor

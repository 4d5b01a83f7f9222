import Nachos.Proof.Threads.Monitor

/-!
# What the calls of a condition variable do

`Inv` is about states; here a call is followed from the statement before it to the
statement behind it, through any interleaving (`during`). A call of `Signal` or
`Broadcast` has the lock all the time, so its events are known when it is made
(`Ahead`), and so are its steps. A call of `Wait` gives the lock up, and between its
first event and its last it is released once (`Waits`).
-/

namespace Nachos.Monitor

open Framework Framework.Threads

variable {T A D : Type} [DecidableEq T]
  {caller : T → D → A → Except Abort (D × List (Call A))} {c c' : State T A D} {t : T}
  {r : List (Stmt T A)}

/-- The runs from `c` in which `t` comes to `r` in the last step or not at all. -/
def during (caller : T → D → A → Except Abort (D × List (Call A))) (c : State T A D) (t : T)
    (r : List (Stmt T A)) : System (State T A D) T :=
  (System.ofFun c (next (record caller))).restrict fun c' _ => c'.loc t ≠ r

omit [DecidableEq T] in
/-- The events that release the threads `q`, in this order. -/
def released (t : T) (q : List T) : List (Event T A D) :=
  q.flatMap fun u => [.found t, .signal t u]

/-- The events from a call of `t`, which finds the queue `q`, to its return. -/
def Does (t : T) (q : List T) : Call A → List (Event T A D) → Prop
  | .wait, es => ∃ u b b', es = .wait t :: b ++ .signal u t :: b' ++ [.ret t] ∧
    ∀ w, .signal w t ∉ b ++ b'
  | .signal, es => es = released t (q.take 1)
  | .broadcast, es => es = .broadcast t :: released t q ++ [.done t]
  | .caller _, _ => True

/-- The steps that a call takes at most. `Wait` may wait for ever. -/
def bound (q : List T) : Call A → Option Nat
  | .signal => some 4
  | .broadcast => some (5 * q.length + 2)
  | .wait | .caller _ => none

/-- A call `k` of `t`, made in the state `c`, that returns to `r`, if it has returned: the
run `ts` has led to `c'`. -/
structure Returns (c : State T A D) (t : T) (k : Call A) (r : List (Stmt T A)) (ts : List T)
    (c' : State T A D) : Prop where
  does : c'.loc t = r → c'.shared.1.lock.lockHolder = some t ∧
    ∃ es, c'.shared.2 = c.shared.2 ++ es ∧ Does t c.shared.1.waitQueue k es
  soon : ∀ n ∈ bound c.shared.1.waitQueue k, ts.count t ≤ n

/-! ## A thread with the lock -/

/-- The statements `s` of a thread with the lock: what events they have, and how many
steps, when the queue is `q`. -/
inductive Ahead (t : T) : List (Stmt T A) → List T → List (Event T A D) → Nat → Prop
  | returned (q : List T) : Ahead t [] q [] 0
  | assertHeld {s q es n} (h : Ahead t s q es n) : Ahead t (.assertHeld :: s) q es (n + 1)
  | empty {s es n} (h : Ahead t s [] es n) : Ahead t (.signal :: s) [] es (n + 1)
  | found {s u q es n} (h : Ahead t (.removeFront :: s) (u :: q) es n) :
    Ahead t (.signal :: s) (u :: q) (.found t :: es) (n + 1)
  | removeFront {s u q es n} (h : Ahead t (.waiterV u :: s) q es n) :
    Ahead t (.removeFront :: s) (u :: q) es (n + 1)
  | waiterV {s u q es n} (h : Ahead t s q es n) :
    Ahead t (.waiterV u :: s) q (.signal t u :: es) (n + 1)
  | broadcast {s q es n} (h : Ahead t (.broadcastLoop :: s) q es n) :
    Ahead t (.broadcast :: s) q (.broadcast t :: es) (n + 1)
  | done {s es n} (h : Ahead t s [] es n) : Ahead t (.broadcastLoop :: s) [] (.done t :: es) (n + 1)
  | again {s u q es n} (h : Ahead t (Condition.signal ++ .broadcastLoop :: s) (u :: q) es n) :
    Ahead t (.broadcastLoop :: s) (u :: q) es (n + 1)

section
variable {s : List (Stmt T A)} {q : List T} {es : List (Event T A D)} {n : Nat}

omit [DecidableEq T] in
/-- A `Signal` that finds `u`. -/
theorem Ahead.signal {u : T} (h : Ahead t s q es n) :
    Ahead t (Condition.signal ++ s) (u :: q) (.found t :: .signal t u :: es) (n + 4) :=
  .assertHeld (.found (.removeFront (.waiterV h)))

omit [DecidableEq T] in
theorem ahead_signal (t : T) (q : List T) :
    ∃ n ≤ 4, Ahead t (Condition.signal : List (Stmt T A)) q (released t (q.take 1) : List (Event T A D)) n := by
  cases q with
  | nil => exact ⟨2, by decide, .assertHeld (.empty (.returned []))⟩
  | cons u q => exact ⟨4, le_rfl, Ahead.signal (.returned q)⟩

omit [DecidableEq T] in
/-- The loop of `Broadcast` releases the whole queue. -/
theorem ahead_broadcastLoop (t : T) (q : List T) :
    Ahead t [(.broadcastLoop : Stmt T A)] q (released t q ++ [.done t] : List (Event T A D))
      (5 * q.length + 1) := by
  induction q with
  | nil => exact .done (.returned [])
  | cons u q ih => exact .again ih.signal

omit [DecidableEq T] in
theorem ahead_broadcast (t : T) (q : List T) :
    Ahead t (Condition.broadcast : List (Stmt T A)) q
      (.broadcast t :: released t q ++ [.done t] : List (Event T A D)) (5 * q.length + 2) :=
  .broadcast (ahead_broadcastLoop t q)

omit [DecidableEq T] in
/-- Such a thread has the lock, and is at no `P`. -/
theorem Ahead.held (h : Ahead t s q es n) (hs : s ≠ []) (hw : Wf (s ++ r)) :
    status (s ++ r) = some true ∧ atAcquire (s ++ r) = false ∧ atWait (s ++ r) = false := by
  cases h with
  | returned => exact absurd rfl hs
  | assertHeld => exact ⟨hw.1, rfl, rfl⟩
  | empty | found | removeFront | waiterV | broadcast | done | again => exact ⟨hw.1.1, rfl, rfl⟩

/-- A step of it. -/
theorem Ahead.exec {m m' : Monitor T D} {r' : List (Stmt T A)} {e : Effect T}
    (h : Ahead t s m.waitQueue es n) (hs : s ≠ [])
    (hx : m.exec caller t (s ++ r) = .ok (m', r', e)) :
    ∃ s' es' n', r' = s' ++ r ∧ Ahead t s' m'.waitQueue es' n' ∧
      es = (event t m (s ++ r)).toList ++ es' ∧ n = n' + 1 := by
  generalize hq : m.waitQueue = q at h
  cases h with
  | returned => exact absurd rfl hs
  | assertHeld h =>
    obtain ⟨-, -, hx⟩ := bind_eq_ok.mp hx
    cases hx
    exact ⟨_, _, _, rfl, hq ▸ h, rfl, rfl⟩
  | empty h =>
    cases hx
    exact ⟨_, _, _, if_pos hq, hq ▸ h, by simp [event, hq], rfl⟩
  | found h =>
    cases hx
    refine ⟨_, _, _, if_neg (by simp [hq]), hq ▸ h, by simp [event, hq], rfl⟩
  | removeFront h =>
    obtain ⟨⟨u, q⟩, hr, hx⟩ := bind_eq_ok.mp hx
    rw [hq] at hr
    cases hr
    cases hx
    exact ⟨_, _, _, rfl, h, rfl, rfl⟩
  | waiterV h =>
    simp only [List.cons_append, Monitor.exec] at hx
    split at hx <;> cases hx
    exact ⟨_, _, _, rfl, hq ▸ h, rfl, rfl⟩
  | broadcast h =>
    cases hx
    exact ⟨_, _, _, rfl, hq ▸ h, rfl, rfl⟩
  | done h =>
    cases hx
    exact ⟨_, _, _, if_pos hq, hq ▸ h, by simp [event, hq], rfl⟩
  | again h =>
    cases hx
    exact ⟨_, _, _, if_neg (by simp [hq]), hq ▸ h, by simp [event, hq], rfl⟩

/-- A thread without the lock leaves the queue as it is. -/
theorem exec_outside {m m' : Monitor T D} {u : T} {l l' : List (Stmt T A)} {e : Effect T}
    (hw : Wf l) (hst : status l = none) (hx : m.exec caller u l = .ok (m', l', e)) :
    m'.waitQueue = m.waitQueue ∧ event u m l = none := by
  have hne : ∀ b, status l ≠ some b := fun b hb => by rw [hst] at hb; cases hb
  cases l with
  | nil =>
    cases hx
    exact ⟨rfl, rfl⟩
  | cons x l =>
    have hf := hw.1
    cases x with
    | acquireP =>
      obtain ⟨⟨k, b⟩, -, hx⟩ := bind_eq_ok.mp hx
      cases hx
      exact ⟨rfl, rfl⟩
    | waiterP =>
      simp only [Monitor.exec] at hx
      split at hx
      · cases hx
      · obtain ⟨⟨k, b⟩, -, hx⟩ := bind_eq_ok.mp hx
        cases hx
        exact ⟨rfl, rfl⟩
    | acquireSet | releaseV | releaseCheck => exact absurd rfl (hne _)
    | assertHeld => exact absurd hf (hne _)
    | newWaiter | enqueue | deleteWaiter | signal | removeFront | waiterV | broadcast | broadcastLoop |
      caller => exact absurd hf.1 (hne _)

/-- In any interleaving the thread goes on, and the others have no events. -/
theorem Ahead.during {v : CondVar T} {ts : List T} (h : Ahead t s c.shared.1.waitQueue es n)
    (hv : Refines c v) (hl : c.loc t = s ++ r) (hr : (during caller c t r).Trace ts c') :
    ∃ v' s' es₁ es₂ n', Refines c' v' ∧ c'.loc t = s' ++ r ∧
      Ahead t s' c'.shared.1.waitQueue es₂ n' ∧ c'.shared.2 = c.shared.2 ++ es₁ ∧
      es = es₁ ++ es₂ ∧ n = ts.count t + n' := by
  induction hr with
  | init hi =>
    cases hi
    exact ⟨v, s, [], es, n, hv, hl, h, (List.append_nil _).symm, rfl, (Nat.zero_add n).symm⟩
  | @step ts c₁ c₂ u _ hs ih =>
    obtain ⟨hne, hs⟩ := hs
    obtain ⟨v₁, s₁, es₁, es₂, n₁, hv₁, hl₁, h₁, he, rfl, rfl⟩ := ih
    have hs₁ : s₁ ≠ [] := fun h => hne (by rw [hl₁, h]; rfl)
    have hw := hv₁.inv.wf t
    rw [hl₁] at hw
    obtain ⟨hst, hacq, hwait⟩ := h₁.held hs₁ hw
    by_cases e : u = t
    · subst e
      rcases hv₁.step hs with ⟨ha, -⟩ | ⟨-, m, l, e, v₂, hx, rfl, -, hv₂⟩
      · rcases hv₁.inv.asleepAt u ha with hp | ⟨hp, -⟩
        · rw [hl₁, hacq] at hp
          cases hp
        · rw [hl₁, hwait] at hp
          cases hp
      · rw [hl₁] at hx
        obtain ⟨s₂, es₃, n₂, rfl, h₂, rfl, rfl⟩ := h₁.exec hs₁ hx
        refine ⟨v₂, s₂, es₁ ++ (event u c₁.shared.1 (s₁ ++ r)).toList, es₃, n₂, hv₂,
          Function.update_self _ _ _, h₂, ?_, (List.append_assoc _ _ _).symm, ?_⟩
        · rw [hl₁, he, List.append_assoc]
        · rw [List.count_append, List.count_singleton_self]
          omega
    · have hcount : (ts ++ [u]).count t = ts.count t := by
        rw [List.count_append, List.count_singleton, if_neg (by simpa using e), Nat.add_zero]
      rcases hv₁.step hs with ⟨-, rfl⟩ | ⟨-, m, l, e', v₂, hx, rfl, -, hv₂⟩
      · exact ⟨v₁, s₁, es₁, es₂, n₁, hv₁, hl₁, h₁, he, rfl, by rw [hcount]⟩
      · rw [← hl₁] at hst
        obtain ⟨hq, hev⟩ := exec_outside (hv₁.inv.wf u) ((hv₁.inv.held.busy t true hst).2.2 u e) hx
        refine ⟨v₂, s₁, es₁, es₂, n₁, hv₂, (Function.update_of_ne (Ne.symm e) _ _).trans hl₁, ?_, ?_,
          rfl, by rw [hcount]⟩
        · show Ahead t s₁ m.waitQueue es₂ n₁
          rw [hq]
          exact h₁
        · show c₁.shared.2 ++ _ = _
          rw [hev, he]
          exact List.append_nil _

end

/-! ## A thread in `Wait` -/

omit [DecidableEq T] in
/-- What is left of `Wait` behind the enqueue, with the lock's statements and the
waiter's `P` that are left. -/
def Inner (s : List (Stmt T A)) : Prop :=
  ∀ x ∈ s, x ∈ [.releaseCheck, .releaseV, .waiterP, .acquireP, .acquireSet]

/-- Where a thread is in a call of `Wait`, what is left of the call, and the events since
it was made. -/
inductive Waits (t : T) (queue : List T) : List (Stmt T A) → List (Event T A D) → Prop
  | begun (s₁ s : List (Stmt T A)) (h₁ : ∀ x ∈ s₁, x ∈ [.assertHeld, .newWaiter]) (hs : Inner s) :
    Waits t queue (s₁ ++ .enqueue :: (s ++ [.deleteWaiter])) []
  | queued (s : List (Stmt T A)) (b : List (Event T A D)) (hs : Inner s)
    (hb : ∀ w, .signal w t ∉ b) (hq : t ∈ queue) : Waits t queue (s ++ [.deleteWaiter]) (.wait t :: b)
  | woken (s : List (Stmt T A)) (u : T) (b b' : List (Event T A D)) (hs : Inner s)
    (hb : ∀ w, .signal w t ∉ b ++ b') (hq : t ∉ queue) :
    Waits t queue (s ++ [.deleteWaiter]) (.wait t :: b ++ .signal u t :: b')
  | returned (u : T) (b b' : List (Event T A D)) (hb : ∀ w, .signal w t ∉ b ++ b') :
    Waits t queue [] (.wait t :: b ++ .signal u t :: b' ++ [.ret t])

omit [DecidableEq T] in
theorem waits_wait (t : T) (q : List T) :
    Waits t q (Condition.wait : List (Stmt T A)) ([] : List (Event T A D)) :=
  .begun [.assertHeld, .newWaiter] [.releaseCheck, .releaseV, .waiterP, .acquireP, .acquireSet]
    (by simp) fun _ hx => hx

section
variable {v v' : CondVar T}

/-- A queued thread is released, or is still queued. -/
theorem step_queued {ev : Event T A D} (h : v.Step ev v') (hn : v.queue.Nodup) (hq : t ∈ v.queue) :
    (∃ w, ev = .signal w t ∧ t ∉ v'.queue) ∨ (∀ w, ev ≠ .signal w t) ∧ t ∈ v'.queue := by
  cases ev with
  | signal w u =>
    obtain ⟨-, q, he, rfl⟩ := h
    rw [he] at hn hq
    by_cases e : u = t
    · exact .inl ⟨w, by rw [e], e ▸ (List.nodup_cons.mp hn).1⟩
    · refine .inr ⟨fun w' hw => e (CondEvent.signal.inj hw).2, ?_⟩
      exact (List.mem_cons.mp hq).resolve_left (Ne.symm e)
  | wait u =>
    obtain ⟨-, -, -, -, rfl⟩ := h
    exact .inr ⟨nofun, List.mem_append_left _ hq⟩
  | found u =>
    obtain ⟨-, -, -, rfl⟩ := h
    exact .inr ⟨nofun, hq⟩
  | ret u =>
    obtain ⟨-, rfl⟩ := h
    exact .inr ⟨nofun, hq⟩
  | broadcast u =>
    obtain ⟨-, -, rfl⟩ := h
    exact .inr ⟨nofun, hq⟩
  | done u =>
    obtain ⟨-, -, -, rfl⟩ := h
    exact .inr ⟨nofun, hq⟩
  | other x =>
    obtain rfl := h
    exact .inr ⟨nofun, hq⟩

/-- A thread that is not queued is not released, and is queued by itself only. -/
theorem step_unqueued {ev : Event T A D} (h : v.Step ev v') (hq : t ∉ v.queue) (hw : ev ≠ .wait t) :
    (∀ w, ev ≠ .signal w t) ∧ t ∉ v'.queue := by
  cases ev with
  | signal w u =>
    obtain ⟨-, q, he, rfl⟩ := h
    rw [he, List.mem_cons, not_or] at hq
    exact ⟨fun w' hs => hq.1 (CondEvent.signal.inj hs).2.symm, hq.2⟩
  | wait u =>
    obtain ⟨-, -, -, -, rfl⟩ := h
    refine ⟨nofun, fun hm => ?_⟩
    rcases List.mem_append.mp hm with hm | hm
    · exact hq hm
    · exact hw (by rw [List.mem_singleton.mp hm])
  | found u =>
    obtain ⟨-, -, -, rfl⟩ := h
    exact ⟨nofun, hq⟩
  | ret u =>
    obtain ⟨-, rfl⟩ := h
    exact ⟨nofun, hq⟩
  | broadcast u =>
    obtain ⟨-, -, rfl⟩ := h
    exact ⟨nofun, hq⟩
  | done u =>
    obtain ⟨-, -, -, rfl⟩ := h
    exact ⟨nofun, hq⟩
  | other x =>
    obtain rfl := h
    exact ⟨nofun, hq⟩

/-- A statement on the lock or on the waiter has no event. -/
theorem exec_inner {m m' : Monitor T D} {x : Stmt T A} {l l' : List (Stmt T A)} {e : Effect T}
    (hi : x ∈ [.assertHeld, .newWaiter, .releaseCheck, .releaseV, .waiterP, .acquireP, .acquireSet])
    (hx : m.exec caller t (x :: l) = .ok (m', l', e)) :
    event t m (x :: l) = none ∧ (l' = x :: l ∨ l' = l) := by
  have hev : event t m (x :: l) = none := by
    simp only [List.mem_cons, List.not_mem_nil, or_false] at hi
    rcases hi with rfl | rfl | rfl | rfl | rfl | rfl | rfl <;> rfl
  have hd := did_exec hx
  rw [hev] at hd
  refine ⟨hev, ?_⟩
  cases hd.2 with
  | stay => exact .inl rfl
  | lock | wait | none => exact .inr rfl
  | remove | again => simp at hi

omit [DecidableEq T] in
/-- Before the enqueue the thread has the lock. -/
theorem Waits.status {q : List T} {s : List (Stmt T A)} (h : Waits t q s ([] : List (Event T A D)))
    (hs : s ≠ []) (hw : Wf (s ++ r)) : status (s ++ r) = some true := by
  generalize he : ([] : List (Event T A D)) = es at h
  cases h with
  | begun s₁ s h₁ =>
    cases s₁ with
    | nil => exact hw.1.1
    | cons x s₁ =>
      have hx := h₁ x List.mem_cons_self
      simp only [List.mem_cons, List.not_mem_nil, or_false] at hx
      rcases hx with rfl | rfl
      · exact hw.1
      · exact hw.1.1
  | returned => exact absurd rfl hs
  | queued | woken => cases he

/-- An event of another thread, or of `t` behind the enqueue. -/
theorem Waits.other {s : List (Stmt T A)} {es : List (Event T A D)} {ev : Option (Event T A D)}
    (h : Waits t v.queue s es) (hs : s ≠ []) (hf : Follows v ev v') (hn : v.queue.Nodup)
    (hev : ev ≠ some (.wait t)) (hb : es = [] → ev = none) : Waits t v'.queue s (es ++ ev.toList) := by
  cases ev with
  | none =>
    obtain rfl : v' = v := hf
    rw [Option.toList_none, List.append_nil]
    exact h
  | some ev =>
    have hf : v.Step ev v' := hf
    cases h with
    | begun => cases hb rfl
    | queued s b hi hm hq =>
      rcases step_queued hf hn hq with ⟨w, rfl, hq'⟩ | ⟨he, hq'⟩
      · exact .woken s w b [] hi (by simpa using hm) hq'
      · refine .queued s (b ++ [ev]) hi (fun w hw => ?_) hq'
        rcases List.mem_append.mp hw with hw | hw
        · exact hm w hw
        · exact he w (List.mem_singleton.mp hw).symm
    | woken s u b b' hi hm hq =>
      obtain ⟨he, hq'⟩ := step_unqueued hf hq fun e => hev (by rw [e])
      have happ : .wait t :: b ++ .signal u t :: b' ++ (some ev).toList =
          .wait t :: b ++ .signal u t :: (b' ++ [ev]) := by simp
      rw [happ]
      refine .woken s u b (b' ++ [ev]) hi (fun w hw => ?_) hq'
      rw [← List.append_assoc] at hw
      rcases List.mem_append.mp hw with hw | hw
      · exact hm w hw
      · exact he w (List.mem_singleton.mp hw).symm
    | returned => exact absurd rfl hs

/-- A step of `t` itself. -/
theorem Waits.self {m : Monitor T D} {s l : List (Stmt T A)} {es : List (Event T A D)} {e : Effect T}
    (h : Waits t v.queue s es) (hv : Refines c v) (hl : c.loc t = s ++ r) (hs : s ≠ [])
    (hx : c.shared.1.exec caller t (s ++ r) = .ok (m, l, e))
    (hf : Follows v (event t c.shared.1 (s ++ r)) v') :
    ∃ s', l = s' ++ r ∧ Waits t v'.queue s' (es ++ (event t c.shared.1 (s ++ r)).toList) := by
  -- A step without an event leaves the thread where it is, or one statement on.
  have hquiet : ∀ {x : Stmt T A} {s₁ : List (Stmt T A)}, s = x :: s₁ →
      x ∈ [.assertHeld, .newWaiter, .releaseCheck, .releaseV, .waiterP, .acquireP, .acquireSet] →
      Waits t v.queue s₁ es →
      ∃ s', l = s' ++ r ∧ Waits t v'.queue s' (es ++ (event t c.shared.1 (s ++ r)).toList) := by
    rintro x s₁ rfl hi h₁
    rw [List.cons_append] at hx hf ⊢
    obtain ⟨hev, hl'⟩ := exec_inner hi hx
    rw [hev] at hf ⊢
    obtain rfl : v' = v := hf
    rw [Option.toList_none, List.append_nil]
    rcases hl' with rfl | rfl
    · exact ⟨x :: s₁, rfl, h⟩
    · exact ⟨s₁, rfl, h₁⟩
  cases h with
  | begun s₁ s h₁ hi =>
    cases s₁ with
    | nil =>
      obtain ⟨q, -, hx⟩ := bind_eq_ok.mp hx
      cases hx
      obtain ⟨-, -, -, -, rfl⟩ := hf
      exact ⟨s ++ [.deleteWaiter], rfl,
        .queued s [] hi (by simp) (List.mem_append_right _ (List.mem_singleton_self t))⟩
    | cons x s₁ =>
      refine hquiet rfl ?_ (.begun s₁ s (fun y hy => h₁ y (List.mem_cons_of_mem x hy)) hi)
      have hx₁ := h₁ x List.mem_cons_self
      simp only [List.mem_cons, List.not_mem_nil, or_false] at hx₁ ⊢
      rcases hx₁ with rfl | rfl <;> simp
  | queued s b hi hm hq =>
    cases s with
    | nil =>
      have hp := hv.inv.lined t hq
      rw [hl] at hp
      cases hp
    | cons x s =>
      refine hquiet rfl ?_ (.queued s b (fun y hy => hi y (List.mem_cons_of_mem x hy)) hm hq)
      exact List.mem_cons_of_mem _ (List.mem_cons_of_mem _ (hi x List.mem_cons_self))
  | woken s u b b' hi hm hq =>
    cases s with
    | nil =>
      cases hx
      exact ⟨[], rfl, .returned u b b' hm⟩
    | cons x s =>
      refine hquiet rfl ?_ (.woken s u b b' (fun y hy => hi y (List.mem_cons_of_mem x hy)) hm hq)
      exact List.mem_cons_of_mem _ (List.mem_cons_of_mem _ (hi x List.mem_cons_self))
  | returned => exact absurd rfl hs

/-- The call of `Wait` in any interleaving. -/
theorem waits_during {ts : List T} (hv : Refines c v) (hl : c.loc t = Condition.wait ++ r)
    (hr : (during caller c t r).Trace ts c') :
    ∃ v' s es, Refines c' v' ∧ c'.loc t = s ++ r ∧ c'.shared.2 = c.shared.2 ++ es ∧
      Waits t v'.queue s es := by
  induction hr with
  | init hi =>
    cases hi
    exact ⟨v, Condition.wait, [], hv, hl, (List.append_nil _).symm, waits_wait t _⟩
  | @step ts c₁ c₂ u _ hs ih =>
    obtain ⟨hne, hs⟩ := hs
    obtain ⟨v₁, s, es, hv₁, hl₁, he, h₁⟩ := ih
    have hs₁ : s ≠ [] := fun h => hne (by rw [hl₁, h]; rfl)
    rcases hv₁.step hs with ⟨-, rfl⟩ | ⟨-, m, l, e, v₂, hx, rfl, hf, hv₂⟩
    · exact ⟨v₁, s, es, hv₁, hl₁, he, h₁⟩
    · by_cases e : u = t
      · subst e
        rw [hl₁] at hx hf
        obtain ⟨s₂, rfl, h₂⟩ := h₁.self hv₁ hl₁ hs₁ hx hf
        refine ⟨v₂, s₂, _, hv₂, Function.update_self _ _ _, ?_, h₂⟩
        rw [hl₁, he, List.append_assoc]
      · refine ⟨v₂, s, es ++ (event u c₁.shared.1 (c₁.loc u)).toList, hv₂,
          (Function.update_of_ne (Ne.symm e) _ _).trans hl₁, ?_, ?_⟩
        · rw [he, List.append_assoc]
        · refine h₁.other hs₁ hf hv₁.inv.nodup (fun hev => e ?_) fun hes => ?_
          · have hd := did_exec hx
            rw [hev] at hd
            exact hd.1.symm
          · subst hes
            have hst := h₁.status hs₁ (hl₁ ▸ hv₁.inv.wf t)
            rw [← hl₁] at hst
            exact (exec_outside (hv₁.inv.wf u) ((hv₁.inv.held.busy t true hst).2.2 u e) hx).2

end

/-! ## All calls -/

omit [DecidableEq T] in
/-- A call returns to a thread with the lock. -/
theorem status_call {k : Call A} (hw : Wf (k.code ++ r : List (Stmt T A))) : status r = some true := by
  cases k with
  | wait => simp_all [Call.code, Condition.wait, Lock.acquire, Lock.release]
  | signal => simp_all [Call.code, Condition.signal]
  | broadcast | caller => exact hw.1.1

/-- The events of a run are behind those before it. -/
theorem events_during {v : CondVar T} {ts : List T} (hv : Refines c v)
    (hr : (during caller c t r).Trace ts c') :
    ∃ v' es, Refines c' v' ∧ c'.shared.2 = c.shared.2 ++ es := by
  induction hr with
  | init hi =>
    cases hi
    exact ⟨v, [], hv, (List.append_nil _).symm⟩
  | @step ts c₁ c₂ u _ hs ih =>
    obtain ⟨v₁, es, hv₁, he⟩ := ih
    rcases hv₁.step hs.2 with ⟨-, rfl⟩ | ⟨-, m, l, e, v₂, -, rfl, -, hv₂⟩
    · exact ⟨v₁, es, hv₁, he⟩
    · exact ⟨v₂, es ++ (event u c₁.shared.1 (c₁.loc u)).toList, hv₂, by rw [he, List.append_assoc]⟩

/-- A call that has returned did what it is for. -/
theorem Refines.returns {v : CondVar T} {k : Call A} {ts : List T} (hv : Refines c v)
    (hl : c.loc t = k.code ++ r) (hr : (during caller c t r).Trace ts c') :
    Returns c t k r ts c' := by
  have hst : status r = some true := by
    have hw := hv.inv.wf t
    rw [hl] at hw
    exact status_call hw
  have hlock : c'.loc t = r → c'.shared.1.lock.lockHolder = some t := by
    intro hc
    obtain ⟨v', es, hv', -⟩ := events_during hv hr
    exact (hv'.inv.held.busy t true (by rw [hc]; exact hst)).2.1
  -- Nothing is left of a call that has returned.
  have hnil : ∀ {s : List (Stmt T A)}, c'.loc t = s ++ r → c'.loc t = r → s = [] := by
    intro s h₁ h₂
    exact List.append_left_eq_self.mp (h₁.symm.trans h₂)
  have hahead : ∀ {es n}, Ahead t k.code c.shared.1.waitQueue es n →
      (c'.loc t = r → c'.shared.2 = c.shared.2 ++ es) ∧ ts.count t ≤ n := by
    intro es n ha
    obtain ⟨v', s, es₁, es₂, n', -, hl', ha', he, rfl, rfl⟩ := ha.during hv hl hr
    refine ⟨fun hc => ?_, Nat.le_add_right _ _⟩
    obtain rfl := hnil hl' hc
    cases ha'
    rw [he, List.append_nil]
  cases k with
  | wait =>
    refine ⟨fun hc => ⟨hlock hc, ?_⟩, nofun⟩
    obtain ⟨v', s, es, -, hl', he, h'⟩ := waits_during hv hl hr
    obtain rfl := hnil hl' hc
    generalize hs : ([] : List (Stmt T A)) = s at h'
    cases h' with
    | begun | queued | woken => simp at hs
    | returned u b b' hm => exact ⟨_, he, u, b, b', rfl, hm⟩
  | signal =>
    obtain ⟨n, hn, ha⟩ := ahead_signal (A := A) (D := D) t c.shared.1.waitQueue
    obtain ⟨he, hcount⟩ := hahead ha
    refine ⟨fun hc => ⟨hlock hc, _, he hc, rfl⟩, ?_⟩
    intro b hb
    exact (hcount.trans hn).trans_eq (Option.some.inj hb)
  | broadcast =>
    obtain ⟨he, hcount⟩ := hahead (ahead_broadcast t c.shared.1.waitQueue)
    refine ⟨fun hc => ⟨hlock hc, _, he hc, rfl⟩, ?_⟩
    intro b hb
    exact hcount.trans_eq (Option.some.inj hb)
  | caller a =>
    refine ⟨fun hc => ⟨hlock hc, ?_⟩, nofun⟩
    obtain ⟨-, es, -, he⟩ := events_during hv hr
    exact ⟨es, he, trivial⟩

end Nachos.Monitor

import Nachos.Impl.Threads.Alarm
import Nachos.Proof.Threads.Awake
import Nachos.Proof.Threads.Level

/-!
# `Fork` and preemption

With `typeno` 1 `Fork` looks at the front of the ready queue behind its
`SetLevel(oldLevel)`. A time slice there switches to other threads, and when the
thread comes back the queue can be empty (`not_forkReads`).

A thread that yields leaves itself in the queue. So the queue is empty only if
the thread comes back from one that sleeps, as the only thread that is ready
(`reachable_forkReads`).
-/

namespace Nachos

open Framework

namespace Machine

variable {P S C D : Type} [DecidableEq P] {cb : DeviceHandlers P S C D} {m m' : Machine P S C D}
  {fs : List (Frame P S)}

/-- Behind `SetLevel`, `Fork` finds a thread in the ready queue. -/
def ForkReads (m : Machine P S C D) : Prop :=
  ∀ fs : List (Frame P S), m.stack m.current = .forkRest :: fs →
    ∃ t : P, m.world.kernel.getReadyListFront .priority = some t

/-- The thread that gets the processor from one that sleeps, if no other is
ready. -/
def handsTo (m : Machine P S C D) : Option P :=
  match m.stack m.current, m.world.kernel.sortedReadyList with
  | .sleep _ :: _, [u] => some u
  | _, _ => none

/-- No thread that was switched out in `Fork` gets the processor from one that
sleeps while no other thread is ready. -/
def Accompanied (m : Machine P S C D) (_ : Op P S C D) : Prop :=
  ∀ u ∈ m.handsTo, Frame.forkRest ∉ m.stack u

instance [DecidableEq S] (m : Machine P S C D) (op : Op P S C D) : Decidable (Accompanied m op) :=
  inferInstanceAs (Decidable (∀ u ∈ m.handsTo, Frame.forkRest ∉ m.stack u))

/-- While the running thread is in `Fork`, some thread is ready. -/
def Fronted (m : Machine P S C D) : Prop :=
  .forkRest ∈ m.stack m.current → m.world.kernel.sortedReadyList ≠ []

theorem ready_ne_nil {k k' : Kernel P} {t : P} (h : k.readyToRun .priority t = .ok k') :
    k'.sortedReadyList ≠ [] := fun hn => by
  have := (Kernel.readyToRun_perm h).length_eq
  rw [Kernel.ready, hn] at this
  cases this

theorem checkToBeDestroyed_keeps {k k' : Kernel P} (h : k.checkToBeDestroyed = .ok k') :
    k'.currentThread = k.currentThread ∧ k'.sortedReadyList = k.sortedReadyList := by
  unfold Kernel.checkToBeDestroyed at h
  split at h
  · cases h
    exact ⟨rfl, rfl⟩
  · obtain ⟨_, -, h⟩ := bind_eq_ok.mp h
    cases h
    exact ⟨rfl, rfl⟩

omit [DecidableEq P] in
theorem Fronted.forkReads (h : Fronted m) : ForkReads m := by
  intro fs hs
  obtain ⟨t, q, hq⟩ := List.exists_cons_of_ne_nil (h (by rw [hs]; exact List.mem_cons_self))
  exact ⟨t, by rw [Kernel.getReadyListFront, hq]; rfl⟩

/-- The running thread goes on with `fs`. -/
theorem fronted_goOn (h : .forkRest ∈ fs → m.world.kernel.sortedReadyList ≠ []) :
    Fronted (m.goOn m.current fs) := by
  intro hm
  refine h ?_
  rwa [show (m.goOn m.current fs).stack (m.goOn m.current fs).current = fs from
    Function.update_self ..] at hm

/-- Behind `SWITCH`. -/
theorem fronted_run {u : P} {finishing : Bool} (h : m.run u finishing fs = .ok m')
    (hu : m.world.kernel.sortedReadyList = [] →
      Frame.forkRest ∉ Function.update m.stack m.current (.resume :: fs) u) : Fronted m' := by
  obtain ⟨_, -, h⟩ := bind_eq_ok.mp h
  obtain ⟨k, hk, h⟩ := bind_eq_ok.mp h
  cases h
  obtain rfl := Kernel.run_eq (liftAbort_eq_ok.mp hk)
  exact fun hm hn => hu hn hm

theorem fronted_yield {l : IntStatus} (h : m.yield .priority l fs = .ok m')
    (hf : .forkRest ∈ fs → m.world.kernel.sortedReadyList ≠ []) : Fronted m' := by
  obtain ⟨r, -, h⟩ := bind_eq_ok.mp h
  split at h
  · cases h
    refine fronted_goOn fun hm => hf ?_
    simpa using hm
  · -- The thread that yields is in the queue.
    obtain ⟨m₁, hm₁, h⟩ := bind_eq_ok.mp h
    obtain ⟨_, -, hm₁⟩ := bind_eq_ok.mp hm₁
    obtain ⟨k, hk, hm₁⟩ := bind_eq_ok.mp hm₁
    cases hm₁
    exact fronted_run h fun hn => absurd hn (ready_ne_nil (liftAbort_eq_ok.mp hk))

/-- What handlers keep: who runs, and that a thread is ready. -/
def Keeps (t : P) (q : Prop) (w : World P S D) : Prop :=
  w.kernel.currentThread = t ∧ (q → w.kernel.sortedReadyList ≠ [])

section
variable [DecidableEq S] {t : P} {q : Prop}

theorem keeps_v {l : IntStatus} {s : S} {w w' : World P S D} (hw : Keeps t q w)
    (h : World.v .priority l s w = .ok w') : Keeps t q w' := by
  unfold World.v at h
  dsimp only at h
  split at h
  · cases h
    exact hw
  · obtain ⟨_, -, h⟩ := bind_eq_ok.mp h
    obtain ⟨k, hk, h⟩ := bind_eq_ok.mp h
    cases h
    have hk := liftAbort_eq_ok.mp hk
    exact ⟨(Kernel.currentThread_readyToRun hk).trans hw.1, fun _ => ready_ne_nil hk⟩

theorem quiet_keeps (t : P) (q : Prop) :
    Interrupt.Quiet (handlers .priority cb) (Keeps (S := S) (D := D) t q) where
  callBack _ _ _ hw := hw
  v s _ hw := ⟨(never_v hw.1 s).1, fun _ h => keeps_v hw h⟩

variable [DecidableEq C]

theorem fronted_oneTick (hi : m.int.inHandler = false) (h : oneTick .priority cb m fs = .ok m')
    (hf : .forkRest ∈ fs → m.world.kernel.sortedReadyList ≠ []) : Fronted m' := by
  obtain ⟨⟨i, w, ds, b⟩, ho, h⟩ := bind_eq_ok.mp h
  obtain ⟨-, ⟨hc, hw⟩, -⟩ := (Interrupt.never_oneTick (quiet_keeps m.current _) hi ⟨rfl, hf⟩).2 _ ho
  have hc : m.current = current { m with int := i, world := w, delivered := m.delivered ++ ds } := hc.symm
  cases h
  rw [hc]
  refine fronted_goOn fun hm => hw ?_
  split at hm
  · simpa using hm
  · exact hm

theorem fronted_setLevel (hi : m.int.inHandler = false) {now : IntStatus}
    (h : setLevel .priority cb m now fs = .ok m')
    (hf : .forkRest ∈ fs → m.world.kernel.sortedReadyList ≠ []) : Fronted m' := by
  obtain ⟨⟨i, l, tick⟩, hs, h⟩ := bind_eq_ok.mp h
  obtain ⟨_, -, hs⟩ := bind_eq_ok.mp hs
  cases hs
  dsimp only at h
  split at h
  · exact fronted_oneTick (m := { m with int := m.int.changeLevel now }) hi h hf
  · cases h
    exact fronted_goOn (m := { m with int := m.int.changeLevel now }) hf

omit [DecidableEq S] [DecidableEq C] in
theorem fronted_sleep {finishing : Bool} (h : m.sleep finishing fs = .ok m')
    (hf : .forkRest ∈ fs → m.world.kernel.sortedReadyList ≠ []) : Fronted m' := by
  obtain ⟨_, -, h⟩ := bind_eq_ok.mp h
  obtain ⟨k, hk, h⟩ := bind_eq_ok.mp h
  have hk := liftAbort_eq_ok.mp hk
  have hc : m.current = (m.setKernel k).current := (Kernel.currentThread_sleep hk).symm
  obtain ⟨q, -, hk⟩ := bind_eq_ok.mp hk
  cases hk
  cases h
  rw [hc]
  refine fronted_goOn fun hm => hf ?_
  simpa using hm

omit [DecidableEq C] in
/-- A routine starts. `Fork` has put a thread into the queue when it enables
interrupts. -/
theorem fronted_enter {f : Routine P S} (h : enter .priority m fs f = .ok m')
    (hf : .forkRest ∈ fs → m.world.kernel.sortedReadyList ≠ []) : Fronted m' := by
  have hoff : ∀ {i : Interrupt C} {l : IntStatus} {b : Bool}, m.int.setLevel .off = .ok (i, l, b) →
      i = m.int.changeLevel .off := fun hs => by
    obtain ⟨_, -, hs⟩ := bind_eq_ok.mp hs
    cases hs
    rfl
  cases f with
  | p s =>
    obtain ⟨⟨i, l, b⟩, hs, h⟩ := bind_eq_ok.mp h
    obtain rfl := hoff hs
    cases h
    refine fronted_goOn (m := { m with int := m.int.changeLevel .off }) fun hm => hf ?_
    simpa using hm
  | v s =>
    obtain ⟨⟨i, l, b⟩, hs, h⟩ := bind_eq_ok.mp h
    obtain rfl := hoff hs
    obtain ⟨w, hw, h⟩ := bind_eq_ok.mp h
    obtain ⟨hc, hw⟩ := keeps_v (t := m.current) ⟨rfl, hf⟩ hw
    have hc : m.current = current { m with int := m.int.changeLevel .off, world := w } := hc.symm
    cases h
    rw [hc]
    refine fronted_goOn fun hm => hw ?_
    simpa using hm
  | acquire s =>
    cases h
    refine fronted_goOn fun hm => hf ?_
    simpa using hm
  | release s =>
    obtain ⟨_, -, h⟩ := bind_eq_ok.mp h
    cases h
    refine fronted_goOn (m := { m with world := { m.world with
      lockHolder := Function.update m.world.lockHolder s none } }) fun hm => hf ?_
    simpa using hm
  | yield =>
    obtain ⟨⟨i, l, b⟩, hs, h⟩ := bind_eq_ok.mp h
    obtain rfl := hoff hs
    exact fronted_yield h hf
  | fork t =>
    obtain ⟨⟨i, l, b⟩, hs, h⟩ := bind_eq_ok.mp h
    obtain rfl := hoff hs
    obtain ⟨_, -, h⟩ := bind_eq_ok.mp h
    obtain ⟨k, hk, h⟩ := bind_eq_ok.mp h
    cases h
    exact fun _ => ready_ne_nil (liftAbort_eq_ok.mp hk)

/-- One statement of the running thread. -/
theorem Fronted.exec (hi : Inv m) (hm : Fronted m) (ha : ∀ u ∈ m.handsTo, .forkRest ∉ m.stack u)
    {f : Frame P S} (hs : m.stack m.current = f :: fs) (h : exec .priority cb m fs f = .ok m') :
    Fronted m' := by
  have hf : .forkRest ∈ fs → m.world.kernel.sortedReadyList ≠ [] := fun h =>
    hm (by rw [hs]; exact List.mem_cons_of_mem _ h)
  cases f with
  | call f => exact fronted_enter h fun h => hf (by simpa using h)
  | ret f l =>
    cases h
    exact fronted_goOn hf
  | setLevel now => exact fronted_setLevel hi.outside h hf
  | setStatus status =>
    cases h
    exact fronted_goOn (m := { m with int := { m.int with status := status } }) hf
  | p s =>
    obtain ⟨⟨x, b⟩, -, h⟩ := bind_eq_ok.mp h
    obtain ⟨m₁, hm₁⟩ : ∃ m₁ : Machine P S C D, m₁ = { m with world := { m.world with
      semaphore := Function.update m.world.semaphore s x } } := ⟨_, rfl⟩
    dsimp only at h
    rw [← hm₁] at h
    split at h
    · cases h
      rw [hm₁]
      exact fronted_goOn (m := { m with world := { m.world with
        semaphore := Function.update m.world.semaphore s x } }) hf
    · refine fronted_sleep h fun hmem => ?_
      rw [hm₁]
      exact hf (by simpa using hmem)
  | sleep finishing =>
    obtain ⟨r, hr, h⟩ := bind_eq_ok.mp h
    obtain ⟨_, -, hr⟩ := bind_eq_ok.mp hr
    cases hr
    split at h
    · rename_i hu
      obtain ⟨⟨u, k⟩, hk, he⟩ := Option.map_eq_some_iff.mp hu
      cases he
      have ht := Kernel.taken_findNextToRun hk
      refine fronted_run h fun hn => ?_
      -- The queue is empty now, so that `u` was alone in it.
      have hq : m.world.kernel.sortedReadyList = [u] := by
        have := ht.ready
        rwa [show k.ready .priority = [] from hn] at this
      have hu : .forkRest ∉ m.stack u := ha u (by simp [handsTo, hs, hq])
      have hc : (m.setKernel k).current = m.current := ht.currentThread
      rw [hc]
      by_cases e : u = m.current
      · subst e
        rw [Function.update_self]
        rw [hs] at hu
        simpa using hu
      · rw [Function.update_of_ne e]
        exact hu
    · obtain ⟨⟨i, w, ds, b⟩, ho, h⟩ := bind_eq_ok.mp h
      dsimp only at h
      split at h <;> [skip; cases h]
      have hl : m.int.level = .off := by
        have := hi.current
        rw [hs] at this
        exact this.1
      obtain ⟨-, ⟨hc, hw⟩, -⟩ := (Interrupt.never_idle (quiet_keeps m.current
        (Frame.forkRest ∈ m.stack m.current)) ⟨hl, hi.outside⟩ ⟨rfl, hm⟩).2 _ ho
      cases h
      exact fun hmem => hw (by rwa [show current { m with
        int := i, world := w, delivered := m.delivered ++ ds } = m.current from hc] at hmem)
  | resume =>
    obtain ⟨_, -, h⟩ := bind_eq_ok.mp h
    obtain ⟨k, hk, h⟩ := bind_eq_ok.mp h
    obtain ⟨hc, hq⟩ := checkToBeDestroyed_keeps (liftAbort_eq_ok.mp hk)
    have hc : m.current = (m.setKernel k).current := hc.symm
    cases h
    rw [hc]
    exact fronted_goOn fun hmem => hq ▸ hf hmem
  | begin =>
    obtain ⟨k, hk, h⟩ := bind_eq_ok.mp h
    obtain ⟨hc, hq⟩ := checkToBeDestroyed_keeps (liftAbort_eq_ok.mp hk)
    have hc : m.current = (m.setKernel k).current := hc.symm
    cases h
    rw [hc]
    exact fronted_goOn fun hmem => hq ▸ hf (by simpa using hmem)
  | setHolder s =>
    cases h
    exact fronted_goOn (m := { m with world := { m.world with
      lockHolder := Function.update m.world.lockHolder s (some m.current) } }) hf
  | forkRest =>
    simp only [Machine.exec, if_true] at h
    split at h
    · cases h
    · split at h
      · cases h
        exact fronted_goOn fun hmem => hf (by simpa using hmem)
      · cases h
        exact fronted_goOn hf

/-- The running thread's own code. -/
theorem fronted_own (hi : Inv m) (hs : m.stack m.current = []) {op : Op P S C D}
    (h : own .priority cb m op = .ok m') : Fronted m' := by
  have hno : ∀ m₁ : Machine P S C D, m₁.stack = m.stack → m₁.current = m.current → Fronted m₁ :=
    fun m₁ hst hc hm => by
      rw [hst, hc, hs] at hm
      cases hm
  have hnil : ∀ q : Prop, Frame.forkRest ∈ ([] : List (Frame P S)) → q := fun q h => by cases h
  cases op with
  | run =>
    cases h
    exact hno m rfl rfl
  | call f =>
    cases h
    exact fronted_goOn fun hm => by simp at hm
  | setLevel now => exact fronted_setLevel hi.outside h (hnil _)
  | oneTick => exact fronted_oneTick hi.outside h (hnil _)
  | sleep =>
    obtain ⟨⟨i, l, b⟩, -, h⟩ := bind_eq_ok.mp h
    exact fronted_sleep h (hnil _)
  | finish =>
    obtain ⟨⟨i, l, b⟩, -, h⟩ := bind_eq_ok.mp h
    exact fronted_sleep h (hnil _)
  | newThread t =>
    obtain ⟨k, hk, h⟩ := bind_eq_ok.mp h
    cases h
    exact hno _ rfl (Kernel.currentThread_newThread (liftAbort_eq_ok.mp hk))
  | setPriority t n =>
    cases h
    exact hno _ rfl rfl
  | newSemaphore s n =>
    cases h
    exact hno _ rfl rfl
  | schedule c n ty =>
    obtain ⟨i, -, h⟩ := bind_eq_ok.mp h
    cases h
    exact hno _ rfl rfl
  | setStatus status =>
    cases h
    exact hno _ rfl rfl
  | device d =>
    cases h
    exact hno _ rfl rfl

theorem Fronted.next (hi : Inv m) (hm : Fronted m) {op : Op P S C D} (ha : Accompanied m op)
    (h : next .priority cb m op = .ok m') : Fronted m' := by
  unfold Machine.next at h
  split at h
  · rename_i hs
    exact fronted_own hi hs h
  · rename_i f fs hs
    split at h
    · exact hm.exec hi ha hs h
    · cases h
      exact hm

/-- In every run in which no thread that was switched out in `Fork` comes back to
an empty queue, `Fork` finds a thread at its front. -/
theorem reachable_forkReads (cb : DeviceHandlers P S C D) (mem : P → Thread) (main : P) (v : S → Int)
    (d : D) {m : Machine P S C D}
    (h : ((system .priority cb mem main v d).restrict Accompanied).Reachable m) : ForkReads m := by
  have hI : Inv m ∧ Fronted m := by
    refine h.invariant (I := fun m => Inv m ∧ Fronted m) ?_ ?_
    · rintro _ rfl
      exact ⟨inv_init .priority mem main v d, fun hm => by cases hm⟩
    · rintro m op m' ⟨hi, hm⟩ ⟨ha, hs⟩
      exact ⟨((hi.next op).2 m' hs).1, hm.next hi ha hs⟩
  exact hI.2.forkReads

end

/-- The only device is the timer. -/
def onlyTimer (typeno : Policy) : DeviceHandlers Nat Nat Unit Unit := fun status _ w =>
  let (k, calls) := Timer.callBack typeno ⟨false, false⟩ () 0 status w.kernel
  (((), k.thread), calls)

/-- `main` forks a thread one tick before the timer goes off. -/
def forkAtTick : List (Op Nat Nat Unit Unit) :=
  .schedule () 100 .timerInt :: .setLevel .on ::
    (List.replicate 8 [.setLevel .off, .setLevel .on]).flatten ++
    [.newThread 1, .call (.fork 1), .run]

/-- Behind the time slice the thread yields, and `main` is in `Fork` again. -/
theorem reachable_forkReads_yield :
    ∃ m, ((system .priority (onlyTimer .priority) (fun _ => Proof.Scheduler.blank) 0 (fun _ => 0)
      ()).restrict Accompanied).Reachable m ∧ m.current = 0 ∧
      m.stack m.current = [.forkRest, .ret (.fork 1) .on] ∧ ForkReads m := by
  obtain ⟨m, hr, hs⟩ := System.exists_reachable_guarded
    (start .priority (fun _ => Proof.Scheduler.blank) 0 (fun _ => 0) ())
    (next .priority (onlyTimer .priority)) Accompanied
    (forkAtTick ++ [.run, .run, .run, .run, .call .yield, .run, .run, .run, .run, .run])
    (p := fun m => m.current = 0 ∧ m.stack m.current = [.forkRest, .ret (.fork 1) .on])
    (by decide +kernel)
  obtain ⟨hc, hs⟩ := of_decide_eq_true hs
  exact ⟨m, hr, hc, hs, reachable_forkReads _ _ _ _ _ hr⟩

/-- Behind the time slice the thread finishes, and `Fork` reads the priority of
`NULL`. -/
theorem not_forkReads :
    ¬ ∀ m, (system .priority (onlyTimer .priority) (fun _ => Proof.Scheduler.blank) 0 (fun _ => 0)
      ()).Reachable m → ForkReads m := by
  intro h
  obtain ⟨m, hr, hs⟩ := System.exists_reachable
    (start .priority (fun _ => Proof.Scheduler.blank) 0 (fun _ => 0) ())
    (next .priority (onlyTimer .priority))
    (forkAtTick ++ [.run, .run, .run, .run, .finish, .run, .run, .run, .run, .run])
    (p := fun m => m.stack m.current = [.forkRest, .ret (.fork 1) .on] ∧
      m.world.kernel.getReadyListFront .priority = none) (by decide +kernel)
  obtain ⟨hs, hn⟩ := of_decide_eq_true hs
  obtain ⟨t, ht⟩ := h m hr _ hs
  rw [hn] at ht
  cases ht

end Machine

end Nachos

import Mathlib.Data.Fintype.Basic
import Nachos.Proof.Threads.Awake
import Nachos.Proof.Threads.Level
import Nachos.Proof.Threads.Semaphore

/-!
# The semaphores of the kernel

`Semaphore::P` sleeps in the scheduler, and `V`, of a thread or of a handler, wakes
through `ReadyToRun`. Over the kernel with its ready list, its context switches,
time slices and idle loop each semaphore is one of `Proof.Semaphore`
(`reachable_simulates`): what is an atomic step there is a statement of a routine or
of a handler here, and a thread that was woken is ready, or runs already, and stands
before its next test of `value`.

So no wake-up is lost in the kernel (`reachable_noLostWakeup`).
-/

namespace Nachos

open Framework

namespace Machine

variable {P S C D : Type} [DecidableEq P] [DecidableEq S] {typeno : Policy}
  {stack : P → List (Frame P S)} {w w' : World P S D} {s : S} {t u : P}

/-! ## Where a thread is in `P` -/

/-- `t` sleeps in `P` on `s`; if it runs, it is in the loop of `Sleep`. -/
def Waits (stack : P → List (Frame P S)) (w : World P S D) (s : S) (t : P) : Prop :=
  ∃ fs, stack t = (if t = w.kernel.currentThread then .sleep false else .resume) :: .p s :: fs

/-- `t` was woken, and did not test `value` since. It is on the ready list until it
runs. -/
def Woken (typeno : Policy) (stack : P → List (Frame P S)) (w : World P S D) (s : S) (t : P) : Prop :=
  ∃ fs, (t = w.kernel.currentThread ∧ stack t = .p s :: fs) ∨
    ((t = w.kernel.currentThread ∨ t ∈ w.kernel.ready typeno) ∧ stack t = .resume :: .p s :: fs) ∨
    (t = w.kernel.currentThread ∧ t ∈ w.kernel.ready typeno ∧ stack t = .sleep false :: .p s :: fs)

/-- The thread's next statement is not one of `P` or of `Sleep`. -/
def plain : List (Frame P S) → Bool
  | .p _ :: _ | .sleep _ :: _ | .resume :: .p _ :: _ => false
  | _ => true

omit [DecidableEq S] in
theorem Waits.not_plain (h : Waits stack w s t) : plain (stack t) = false := by
  obtain ⟨fs, h⟩ := h
  rw [h]
  split <;> rfl

omit [DecidableEq P] [DecidableEq S] in
theorem Woken.not_plain (h : Woken typeno stack w s t) : plain (stack t) = false := by
  obtain ⟨fs, ⟨-, h⟩ | ⟨-, h⟩ | ⟨-, -, h⟩⟩ := h <;> rw [h] <;> rfl

omit [DecidableEq S] in
theorem Waits.unique {s' : S} (h : Waits stack w s t) (h' : Waits stack w s' t) : s = s' := by
  obtain ⟨fs, h⟩ := h
  obtain ⟨fs', h'⟩ := h'
  rw [h] at h'
  cases h'
  rfl

/-- A thread that waits is nowhere else. -/
structure Located (typeno : Policy) (stack : P → List (Frame P S)) (w : World P S D) : Prop where
  queued : ∀ s, ∀ t ∈ (w.semaphore s).queue, Waits stack w s t ∧ t ∉ w.kernel.ready typeno
  once : ∀ s, (w.semaphore s).queue.Nodup
  ready : (w.kernel.ready typeno).Nodup
  running : w.kernel.currentThread ∈ w.kernel.ready typeno →
    ∃ b fs, stack w.kernel.currentThread = .sleep b :: fs

/-- `σ` is the semaphore `s`. -/
structure Sim (typeno : Policy) (s : S) (σ : Proof.Semaphore.State P)
    (stack : P → List (Frame P S)) (w : World P S D) : Prop where
  sem : σ.sem = w.semaphore s
  blocked : ∀ t, σ.mode t = .blocked → t ∈ (w.semaphore s).queue
  ready : ∀ t, σ.mode t = .ready → Woken typeno stack w s t

/-- The invariant, for the semaphore `s` with the initial value `v₀`. -/
structure Refines (typeno : Policy) (v₀ : Int) (s : S) (stack : P → List (Frame P S))
    (w : World P S D) : Prop where
  located : Located typeno stack w
  sim : ∃ σ, (Proof.Semaphore.system P v₀).Reachable σ ∧ Sim typeno s σ stack w

variable {v₀ : Int} {fs : List (Frame P S)}

omit [DecidableEq S] in
/-- Nothing of the scheduler's and of the semaphores has changed. -/
theorem Refines.congr (h : Refines typeno v₀ s stack w) (hs : w'.semaphore = w.semaphore)
    (hc : w'.kernel.currentThread = w.kernel.currentThread)
    (hr : w'.kernel.ready typeno = w.kernel.ready typeno) : Refines typeno v₀ s stack w' := by
  obtain ⟨⟨hq, ho, hn, hrun⟩, σ, hσ, hsem, hb, hw⟩ := h
  refine ⟨⟨?_, hs ▸ ho, hr ▸ hn, ?_⟩, σ, hσ, hs ▸ hsem, hs ▸ hb, ?_⟩
  · rw [hs, hr]
    unfold Waits
    rw [hc]
    exact hq
  · rw [hc, hr]
    exact hrun
  · unfold Woken
    rw [hc, hr]
    exact hw

omit [DecidableEq S] in
/-- The running thread, which is not in `P` or `Sleep`, goes on with any frames. -/
theorem Refines.goOn (h : Refines typeno v₀ s stack w)
    (hp : plain (stack w.kernel.currentThread) = true) (fs : List (Frame P S)) :
    Refines typeno v₀ s (Function.update stack w.kernel.currentThread fs) w := by
  obtain ⟨⟨hq, ho, hn, hrun⟩, σ, hσ, hsem, hb, hw⟩ := h
  have hother : ∀ t, plain (stack t) = false → t ≠ w.kernel.currentThread := by
    rintro t ht rfl
    rw [hp] at ht
    cases ht
  refine ⟨⟨fun s t ht => ?_, ho, hn, fun hr => ?_⟩, σ, hσ, hsem, hb, fun t ht => ?_⟩
  · obtain ⟨hw, hr⟩ := hq s t ht
    refine ⟨?_, hr⟩
    unfold Waits
    rw [Function.update_of_ne (hother t hw.not_plain)]
    exact hw
  · obtain ⟨b, fs, hs⟩ := hrun hr
    rw [hs] at hp
    cases hp
  · unfold Woken
    rw [Function.update_of_ne (hother t (hw t ht).not_plain)]
    exact hw t ht

omit [DecidableEq S] in
/-- `CheckToBeDestroyed` behind `SWITCH`. -/
theorem Refines.resume (h : Refines typeno v₀ s stack w)
    (hs : stack w.kernel.currentThread = .resume :: fs) :
    Refines typeno v₀ s (Function.update stack w.kernel.currentThread fs) w := by
  obtain ⟨⟨hq, ho, hn, hrun⟩, σ, hσ, hsem, hb, hw⟩ := h
  refine ⟨⟨fun s t ht => ?_, ho, hn, fun hr => ?_⟩, σ, hσ, hsem, hb, fun t ht => ?_⟩
  · obtain ⟨hw, hr⟩ := hq s t ht
    refine ⟨?_, hr⟩
    have hne : t ≠ w.kernel.currentThread := by
      rintro rfl
      obtain ⟨fs', hw⟩ := hw
      rw [hs, if_pos rfl] at hw
      cases hw
    unfold Waits
    rw [Function.update_of_ne hne]
    exact hw
  · obtain ⟨b, fs', hs'⟩ := hrun hr
    rw [hs] at hs'
    cases hs'
  · by_cases e : t = w.kernel.currentThread
    · subst e
      obtain ⟨fs', ⟨-, h⟩ | ⟨-, h⟩ | ⟨-, -, h⟩⟩ := hw _ ht <;> rw [hs] at h <;> cases h
      exact ⟨fs', .inl ⟨rfl, Function.update_self ..⟩⟩
    · unfold Woken
      rw [Function.update_of_ne e]
      exact hw t ht

/-! ## `V` and the handlers -/

/-- What `V` does: the value is one more, and the first waiter is made ready. -/
theorem v_cases {l : IntStatus} (hv : World.v typeno l s w = .ok w') :
    (∀ s' ≠ s, w'.semaphore s' = w.semaphore s') ∧
      (((w.semaphore s).queue = [] ∧ w'.kernel = w.kernel ∧
        w'.semaphore s = ⟨(w.semaphore s).value + 1, []⟩) ∨
      ∃ u q, (w.semaphore s).queue = u :: q ∧ w.kernel.readyToRun typeno u = .ok w'.kernel ∧
        w'.semaphore s = ⟨(w.semaphore s).value + 1, q⟩) := by
  unfold World.v at hv
  dsimp only at hv
  rw [Semaphore.v_eq] at hv
  cases hq : (w.semaphore s).queue with
  | nil =>
    rw [hq] at hv
    cases hv
    exact ⟨fun s' hs => Function.update_of_ne hs .., .inl ⟨rfl, rfl, Function.update_self ..⟩⟩
  | cons u q =>
    rw [hq] at hv
    obtain ⟨_, -, hv⟩ := bind_eq_ok.mp hv
    obtain ⟨k, hk, hv⟩ := bind_eq_ok.mp hv
    cases hv
    exact ⟨fun s' hs => Function.update_of_ne hs ..,
      .inr ⟨u, q, rfl, liftAbort_eq_ok.mp hk, Function.update_self ..⟩⟩

theorem v_currentThread {l : IntStatus} (hv : World.v typeno l s w = .ok w') :
    w'.kernel.currentThread = w.kernel.currentThread := by
  obtain ⟨-, ⟨-, hk, -⟩ | ⟨u, q, -, hk, -⟩⟩ := v_cases hv
  · rw [hk]
  · exact Kernel.currentThread_readyToRun hk

/-- `V`: the first waiter becomes ready. -/
theorem Located.v (h : Located typeno stack w) {l : IntStatus} (hv : World.v typeno l s w = .ok w') :
    Located typeno stack w' := by
  obtain ⟨hother, ⟨hnil, hk, hs⟩ | ⟨u, q, hu, hk, hs⟩⟩ := v_cases hv
  · have hold : ∀ s', (w'.semaphore s').queue = (w.semaphore s').queue := fun s' => by
      by_cases e : s' = s
      · rw [e, hs, hnil]
      · rw [hother s' e]
    refine ⟨fun s' t ht => ?_, fun s' => hold s' ▸ h.once s', hk ▸ h.ready, hk ▸ h.running⟩
    unfold Waits
    rw [hk]
    exact h.queued s' t (hold s' ▸ ht)
  · have hperm := Kernel.readyToRun_perm hk
    have hcur := Kernel.currentThread_readyToRun hk
    obtain ⟨hwu, hnu⟩ := h.queued s u (by rw [hu]; exact List.mem_cons_self)
    have hnd : u ∉ q ∧ q.Nodup := List.nodup_cons.mp (hu ▸ h.once s)
    -- `u` waited nowhere else.
    have hold : ∀ s', ∀ t ∈ (w'.semaphore s').queue, t ∈ (w.semaphore s').queue ∧ t ≠ u :=
      fun s' t ht => by
        by_cases e : s' = s
        · subst e
          rw [hs] at ht
          exact ⟨by rw [hu]; exact List.mem_cons_of_mem _ ht, fun e => hnd.1 (e ▸ ht)⟩
        · rw [hother s' e] at ht
          exact ⟨ht, fun et => e ((h.queued s' t ht).1.unique (et ▸ hwu))⟩
    refine ⟨fun s' t ht => ?_, fun s' => ?_, ?_, fun hr => ?_⟩
    · obtain ⟨ht, hne⟩ := hold s' t ht
      obtain ⟨hw, hr⟩ := h.queued s' t ht
      refine ⟨?_, fun hm => ?_⟩
      · unfold Waits
        rw [hcur]
        exact hw
      · exact (List.mem_cons.mp (hperm.mem_iff.mp hm)).elim hne hr
    · by_cases e : s' = s
      · rw [e, hs]
        exact hnd.2
      · rw [hother s' e]
        exact h.once s'
    · exact hperm.nodup_iff.mpr (List.nodup_cons.mpr ⟨hnu, h.ready⟩)
    · rw [hcur] at hr ⊢
      rcases List.mem_cons.mp (hperm.mem_iff.mp hr) with e | hm
      · obtain ⟨fs, hs⟩ := hwu
        rw [← e, if_pos rfl] at hs
        exact ⟨_, _, hs⟩
      · exact h.running hm

omit [DecidableEq P] [DecidableEq S] in
/-- More threads are ready. -/
theorem Woken.mono (h : Woken typeno stack w s t)
    (hc : w'.kernel.currentThread = w.kernel.currentThread)
    (hr : ∀ u ∈ w.kernel.ready typeno, u ∈ w'.kernel.ready typeno) : Woken typeno stack w' s t := by
  obtain ⟨fs, ⟨e, hs⟩ | ⟨e, hs⟩ | ⟨e, ht, hs⟩⟩ := h
  · exact ⟨fs, .inl ⟨e.trans hc.symm, hs⟩⟩
  · exact ⟨fs, .inr (.inl ⟨e.imp (·.trans hc.symm) (hr t), hs⟩)⟩
  · exact ⟨fs, .inr (.inr ⟨e.trans hc.symm, hr t ht, hs⟩)⟩

omit [DecidableEq S] in
/-- A thread that waits becomes ready. -/
theorem Waits.woken (h : Waits stack w s t)
    (hc : w'.kernel.currentThread = w.kernel.currentThread)
    (hr : t ∈ w'.kernel.ready typeno) : Woken typeno stack w' s t := by
  obtain ⟨fs, hs⟩ := h
  split at hs
  · rename_i e
    exact ⟨fs, .inr (.inr ⟨e.trans hc.symm, hr, hs⟩)⟩
  · exact ⟨fs, .inr (.inl ⟨.inr hr, hs⟩)⟩

theorem Refines.v (h : Refines typeno v₀ s stack w) {l : IntStatus} {s' : S}
    (hv : World.v typeno l s' w = .ok w') : Refines typeno v₀ s stack w' := by
  refine ⟨h.located.v hv, ?_⟩
  obtain ⟨hl, σ, hσ, hsem, hb, hw⟩ := h
  obtain ⟨hother, ⟨hnil, hk, hs⟩ | ⟨u, q, hu, hk, hs⟩⟩ := v_cases hv
  · have hmono : ∀ t, Woken typeno stack w s t → Woken typeno stack w' s t := fun t ht =>
      ht.mono (by rw [hk]) fun _ hu => by rwa [hk]
    by_cases e : s = s'
    · subst e
      have hstep : (Proof.Semaphore.system P v₀).step σ .v { σ with
          sem := ⟨(w.semaphore s).value + 1, []⟩, vs := σ.vs + 1 } := by
        show _ = _
        rw [hsem, Semaphore.v_eq, hnil]
        rfl
      refine ⟨_, .step hσ hstep, hs.symm, fun t ht => ?_, fun t ht => hmono t (hw t ht)⟩
      have := hb t ht
      rw [hnil] at this
      cases this
    · have hsame := hother s e
      exact ⟨σ, hσ, hsame ▸ hsem, hsame ▸ hb, fun t ht => hmono t (hw t ht)⟩
  · have hcur := Kernel.currentThread_readyToRun hk
    have hperm := Kernel.readyToRun_perm hk
    have hmono : ∀ t, Woken typeno stack w s t → Woken typeno stack w' s t := fun t ht =>
      ht.mono hcur fun t ht => hperm.mem_iff.mpr (List.mem_cons_of_mem _ ht)
    by_cases e : s = s'
    · subst e
      have hstep : (Proof.Semaphore.system P v₀).step σ .v { σ with
          sem := ⟨(w.semaphore s).value + 1, q⟩
          mode := Function.update σ.mode u .ready
          vs := σ.vs + 1 } := by
        show _ = _
        rw [hsem, Semaphore.v_eq, hu]
        rfl
      refine ⟨_, .step hσ hstep, hs.symm, fun t ht => ?_, fun t ht => ?_⟩
      · dsimp only at ht
        have hne : t ≠ u := by
          rintro rfl
          rw [Function.update_self] at ht
          cases ht
        rw [Function.update_of_ne hne] at ht
        have := hb t ht
        rw [hu] at this
        rw [hs]
        exact (List.mem_cons.mp this).resolve_left hne
      · dsimp only at ht
        by_cases e : t = u
        · subst e
          refine (hl.queued s t (by rw [hu]; exact List.mem_cons_self)).1.woken hcur ?_
          exact hperm.mem_iff.mpr List.mem_cons_self
        · rw [Function.update_of_ne e] at ht
          exact hmono t (hw t ht)
    · have hsame := hother s e
      exact ⟨σ, hσ, hsame ▸ hsem, hsame ▸ hb, fun t ht => hmono t (hw t ht)⟩

/-- The handlers keep the invariant, on the stack of the running thread. -/
theorem quiet_refines [DecidableEq C] (cb : DeviceHandlers P S C D) (stack : P → List (Frame P S))
    (t : P) (v₀ : Int) (s : S) :
    Interrupt.Quiet (handlers typeno cb) fun w : World P S D =>
      w.kernel.currentThread = t ∧ Refines typeno v₀ s stack w where
  callBack st c w hw := ⟨hw.1, hw.2.congr rfl rfl (by cases typeno <;> rfl)⟩
  v s' w hw := ⟨(never_v hw.1 s').1, fun w' hv => ⟨(never_v hw.1 s').2 w' hv, hw.2.v hv⟩⟩

/-! ## Context switches -/

omit [DecidableEq S] in
variable (w') in
/-- `u` gets the processor. The thread that ran sleeps, or is ready. -/
theorem Refines.switch (h : Refines typeno v₀ s stack w) (hu : u ∈ w.kernel.ready typeno)
    {fs : List (Frame P S)}
    (hs : (∃ b, stack w.kernel.currentThread = .sleep b :: fs) ∨
      plain (stack w.kernel.currentThread) = true)
    (hsem : w'.semaphore = w.semaphore) (hcur : w'.kernel.currentThread = u)
    (hkeep : ∀ t ∈ w.kernel.ready typeno, t = u ∨ t ∈ w'.kernel.ready typeno)
    (hnew : ∀ t ∈ w'.kernel.ready typeno, t ∈ w.kernel.ready typeno ∨
      t = w.kernel.currentThread ∧ plain (stack w.kernel.currentThread) = true)
    (hnd : (w'.kernel.ready typeno).Nodup) (hu' : u ∉ w'.kernel.ready typeno) :
    Refines typeno v₀ s (Function.update stack w.kernel.currentThread (.resume :: fs)) w' := by
  obtain ⟨⟨hq, ho, hn, hrun⟩, σ, hσ, hsim, hb, hw⟩ := h
  refine ⟨⟨fun s t ht => ?_, hsem ▸ ho, hnd, fun hr => absurd (hcur ▸ hr) hu'⟩, σ, hσ, hsem ▸ hsim,
    hsem ▸ hb, fun t ht => ?_⟩
  · obtain ⟨hwt, hr⟩ := hq s t (hsem ▸ ht)
    refine ⟨?_, fun hm => ?_⟩
    · obtain ⟨fs', hfs⟩ := id hwt
      have hne : t ≠ w'.kernel.currentThread := by
        rintro rfl
        exact hr (hcur ▸ hu)
      refine ⟨fs', ?_⟩
      rw [if_neg hne]
      by_cases e : t = w.kernel.currentThread
      · subst e
        rw [if_pos rfl] at hfs
        rcases hs with ⟨b, hs⟩ | hp
        · rw [hs] at hfs
          cases hfs
          rw [Function.update_self]
        · rw [hwt.not_plain] at hp
          cases hp
      · rw [if_neg e] at hfs
        rw [Function.update_of_ne e, hfs]
    · rcases hnew t hm with hm | ⟨rfl, hp⟩
      · exact hr hm
      · rw [hwt.not_plain] at hp
        cases hp
  · have hwt := hw t ht
    have hready : t ∈ w.kernel.ready typeno →
        t = w'.kernel.currentThread ∨ t ∈ w'.kernel.ready typeno :=
      fun hm => (hkeep t hm).imp_left (·.trans hcur.symm)
    obtain ⟨fs', ⟨e, hfs⟩ | ⟨e, hfs⟩ | ⟨e, hm, hfs⟩⟩ := id hwt
    · subst e
      rcases hs with ⟨b, hs⟩ | hp
      · rw [hs] at hfs
        cases hfs
      · rw [hwt.not_plain] at hp
        cases hp
    · by_cases he : t = w.kernel.currentThread
      · subst he
        rcases hs with ⟨b, hs⟩ | hp
        · rw [hs] at hfs
          cases hfs
        · rw [hwt.not_plain] at hp
          cases hp
      · exact ⟨fs', .inr (.inl ⟨hready (e.resolve_left he), by rw [Function.update_of_ne he, hfs]⟩)⟩
    · subst e
      rcases hs with ⟨b, hs⟩ | hp
      · rw [hs] at hfs
        cases hfs
        exact ⟨fs', .inr (.inl ⟨hready hm, by rw [Function.update_self]⟩)⟩
      · rw [hwt.not_plain] at hp
        cases hp

/-! ## `P` -/

section
variable {s' : S}

omit [DecidableEq S] in
/-- A thread that tests `value` is in no queue, and not ready. -/
theorem Located.tests (h : Located typeno stack w)
    (hs : stack w.kernel.currentThread = .p s' :: fs) :
    (∀ s, w.kernel.currentThread ∉ (w.semaphore s).queue) ∧
      w.kernel.currentThread ∉ w.kernel.ready typeno := by
  refine ⟨fun s hm => ?_, fun hr => ?_⟩
  · obtain ⟨⟨fs', hw⟩, -⟩ := h.queued s _ hm
    rw [hs, if_pos rfl] at hw
    cases hw
  · obtain ⟨b, fs', hw⟩ := h.running hr
    rw [hs] at hw
    cases hw

omit [DecidableEq P] [DecidableEq S] in
theorem Woken.tests (h : Woken typeno stack w s w.kernel.currentThread)
    (hs : stack w.kernel.currentThread = .p s' :: fs) : s = s' := by
  obtain ⟨fs', ⟨-, hw⟩ | ⟨-, hw⟩ | ⟨-, -, hw⟩⟩ := h <;> rw [hs] at hw <;> cases hw
  rfl

omit [DecidableEq S] in
/-- The other threads stay where they are. -/
theorem Woken.others (h : Woken typeno stack w s t) (hne : t ≠ w.kernel.currentThread)
    (hcur : w'.kernel.currentThread = w.kernel.currentThread)
    (hready : w'.kernel.ready typeno = w.kernel.ready typeno) :
    Woken typeno (Function.update stack w.kernel.currentThread fs) w' s t := by
  unfold Woken
  rw [Function.update_of_ne hne, hcur, hready]
  exact h

variable (w') in
/-- `P` takes the value and returns. -/
theorem Refines.take (h : Refines typeno v₀ s stack w)
    (hs : stack w.kernel.currentThread = .p s' :: fs) {x : Semaphore P}
    (hp : (w.semaphore s').p w.kernel.currentThread = .ok (x, true)) (hk : w'.kernel = w.kernel)
    (hsem' : w'.semaphore = Function.update w.semaphore s' x) :
    Refines typeno v₀ s (Function.update stack w.kernel.currentThread fs) w' := by
  obtain ⟨hfree, hnr⟩ := h.located.tests hs
  obtain ⟨hl, σ, hσ, hsem, hb, hw⟩ := h
  have hqueue : x.queue = (w.semaphore s').queue := by
    rcases Semaphore.p_cases hp with ⟨-, -, rfl⟩ | ⟨hf, -⟩
    · rfl
    · cases hf
  have hold : ∀ s, (w'.semaphore s).queue = (w.semaphore s).queue := fun s => by
    rw [hsem']
    by_cases e : s = s'
    · rw [e, Function.update_self, hqueue]
    · rw [Function.update_of_ne e]
  refine ⟨⟨fun s t ht => ?_, fun s => hold s ▸ hl.once s, hk ▸ hl.ready, fun hr => ?_⟩, ?_⟩
  · rw [hold] at ht
    have hne : t ≠ w.kernel.currentThread := fun e => hfree s (e ▸ ht)
    unfold Waits
    rw [Function.update_of_ne hne, hk]
    exact hl.queued s t ht
  · rw [hk] at hr
    exact absurd hr hnr
  · by_cases e : s = s'
    · subst e
      have hstep : (Proof.Semaphore.system P v₀).step σ (.p w.kernel.currentThread) { σ with
          sem := x
          mode := Function.update σ.mode w.kernel.currentThread .out
          ps := σ.ps + 1 } :=
        ⟨fun hm => hfree s (hb _ hm), x, true, hsem ▸ hp, rfl⟩
      refine ⟨_, .step hσ hstep, by rw [hsem', Function.update_self], fun t ht => ?_, fun t ht => ?_⟩
      all_goals
        dsimp only at ht
        have hne : t ≠ w.kernel.currentThread := by
          rintro rfl
          rw [Function.update_self] at ht
          cases ht
        rw [Function.update_of_ne hne] at ht
      · rw [hold]
        exact hb t ht
      · exact (hw t ht).others hne (by rw [hk]) (by rw [hk])
    · have hsame : w'.semaphore s = w.semaphore s := by rw [hsem', Function.update_of_ne e]
      refine ⟨σ, hσ, hsem.trans hsame.symm, fun t ht => by rw [hsame]; exact hb t ht, fun t ht => ?_⟩
      refine (hw t ht).others ?_ (by rw [hk]) (by rw [hk])
      rintro rfl
      exact e ((hw _ ht).tests hs)

variable (w') in
/-- `P` finds the value zero, queues the thread and calls `Sleep`. -/
theorem Refines.sleep (h : Refines typeno v₀ s stack w)
    (hs : stack w.kernel.currentThread = .p s' :: fs) {x : Semaphore P}
    (hp : (w.semaphore s').p w.kernel.currentThread = .ok (x, false))
    (hsem' : w'.semaphore = Function.update w.semaphore s' x)
    (hcur : w'.kernel.currentThread = w.kernel.currentThread)
    (hready : w'.kernel.ready typeno = w.kernel.ready typeno) :
    Refines typeno v₀ s (Function.update stack w.kernel.currentThread (.sleep false :: .p s' :: fs))
      w' := by
  obtain ⟨hfree, hnr⟩ := h.located.tests hs
  obtain ⟨hl, σ, hσ, hsem, hb, hw⟩ := h
  obtain rfl : x = ⟨(w.semaphore s').value, (w.semaphore s').queue ++ [w.kernel.currentThread]⟩ := by
    rcases Semaphore.p_cases hp with ⟨hf, -⟩ | ⟨-, -, -, hx⟩
    · cases hf
    · exact hx
  have hmem : ∀ s t, t ∈ (w'.semaphore s).queue ↔
      t ∈ (w.semaphore s).queue ∨ s = s' ∧ t = w.kernel.currentThread := fun s t => by
    rw [hsem']
    by_cases e : s = s'
    · subst e
      rw [Function.update_self, List.mem_append, List.mem_singleton, and_iff_right rfl]
    · rw [Function.update_of_ne e]
      exact ⟨.inl, fun h => h.resolve_right fun h => e h.1⟩
  refine ⟨⟨fun s t ht => ?_, fun s => ?_, hready ▸ hl.ready, fun hr => ?_⟩, ?_⟩
  · rw [hready]
    unfold Waits
    rw [hcur]
    rcases (hmem s t).mp ht with ht | ⟨rfl, rfl⟩
    · have hne : t ≠ w.kernel.currentThread := fun e => hfree s (e ▸ ht)
      rw [Function.update_of_ne hne]
      exact hl.queued s t ht
    · rw [Function.update_self, if_pos rfl]
      exact ⟨⟨fs, rfl⟩, hnr⟩
  · rw [hsem']
    by_cases e : s = s'
    · subst e
      rw [Function.update_self]
      exact List.nodup_append.mpr ⟨hl.once s, List.nodup_singleton _, fun a ha b hb e =>
        hfree s (List.mem_singleton.mp hb ▸ e ▸ ha)⟩
    · rw [Function.update_of_ne e]
      exact hl.once s
  · rw [hcur, hready] at hr
    exact absurd hr hnr
  · by_cases e : s = s'
    · subst e
      have hstep : (Proof.Semaphore.system P v₀).step σ (.p w.kernel.currentThread) { σ with
          sem := ⟨(w.semaphore s).value, (w.semaphore s).queue ++ [w.kernel.currentThread]⟩
          mode := Function.update σ.mode w.kernel.currentThread .blocked
          ps := σ.ps + 0 } :=
        ⟨fun hm => hfree s (hb _ hm), _, false, hsem ▸ hp, rfl⟩
      refine ⟨_, .step hσ hstep, by rw [hsem', Function.update_self], fun t ht => ?_, fun t ht => ?_⟩
      all_goals dsimp only at ht
      · by_cases e : t = w.kernel.currentThread
        · exact (hmem s t).mpr (.inr ⟨rfl, e⟩)
        · rw [Function.update_of_ne e] at ht
          exact (hmem s t).mpr (.inl (hb t ht))
      · have hne : t ≠ w.kernel.currentThread := by
          rintro rfl
          rw [Function.update_self] at ht
          cases ht
        rw [Function.update_of_ne hne] at ht
        exact (hw t ht).others hne hcur hready
    · have hsame : w'.semaphore s = w.semaphore s := by rw [hsem', Function.update_of_ne e]
      refine ⟨σ, hσ, hsem.trans hsame.symm, fun t ht => by rw [hsame]; exact hb t ht, fun t ht => ?_⟩
      refine (hw t ht).others ?_ hcur hready
      rintro rfl
      exact e ((hw _ ht).tests hs)

end

/-! ## Statements -/

omit [DecidableEq S] in
variable (w' fs) in
/-- `Fork`: a thread that was nowhere is ready. -/
theorem Refines.fork (h : Refines typeno v₀ s stack w) (ht : t ≠ w.kernel.currentThread)
    (hr : t ∉ w.kernel.ready typeno) (hq : ∀ s, t ∉ (w.semaphore s).queue)
    (hsem : w'.semaphore = w.semaphore) (hk : w.kernel.readyToRun typeno t = .ok w'.kernel) :
    Refines typeno v₀ s (Function.update stack t fs) w' := by
  have hperm := Kernel.readyToRun_perm hk
  have hcur := Kernel.currentThread_readyToRun hk
  obtain ⟨hl, σ, hσ, hsim, hb, hw⟩ := h
  refine ⟨⟨fun s u hu => ?_, hsem ▸ hl.once, ?_, fun hm => ?_⟩, σ, hσ, hsem ▸ hsim, hsem ▸ hb,
    fun u hu => ?_⟩
  · rw [hsem] at hu
    have hne : u ≠ t := fun e => hq s (e ▸ hu)
    obtain ⟨hwu, hru⟩ := hl.queued s u hu
    refine ⟨?_, fun hm => (List.mem_cons.mp (hperm.mem_iff.mp hm)).elim hne hru⟩
    unfold Waits
    rw [Function.update_of_ne hne, hcur]
    exact hwu
  · exact hperm.nodup_iff.mpr (List.nodup_cons.mpr ⟨hr, hl.ready⟩)
  · rw [hcur] at hm ⊢
    rw [Function.update_of_ne (Ne.symm ht)]
    exact hl.running ((List.mem_cons.mp (hperm.mem_iff.mp hm)).resolve_left (Ne.symm ht))
  · have hwu := hw u hu
    have hne : u ≠ t := by
      rintro rfl
      obtain ⟨fs', ⟨e, -⟩ | ⟨e, -⟩ | ⟨e, -⟩⟩ := hwu
      · exact ht e
      · exact e.elim ht hr
      · exact ht e
    refine Woken.mono (w := w) ?_ hcur fun v hv => hperm.mem_iff.mpr (List.mem_cons_of_mem _ hv)
    unfold Woken
    rw [Function.update_of_ne hne]
    exact hwu

/-- Another semaphore is made. -/
theorem Refines.newSemaphore (h : Refines typeno v₀ s stack w) {s' : S} (hs : s' ≠ s) {n : Int}
    (hk : w'.kernel = w.kernel)
    (hsem : w'.semaphore = Function.update w.semaphore s' (.new n)) :
    Refines typeno v₀ s stack w' := by
  obtain ⟨hl, σ, hσ, hsim, hb, hw⟩ := h
  have hsame : w'.semaphore s = w.semaphore s := by rw [hsem, Function.update_of_ne (Ne.symm hs)]
  refine ⟨⟨fun s t ht => ?_, fun s => ?_, hk ▸ hl.ready, hk ▸ hl.running⟩, σ, hσ, hsame ▸ hsim,
    hsame ▸ hb, fun t ht => (hw t ht).mono (by rw [hk]) fun u hu => by rwa [hk]⟩
  · by_cases e : s = s'
    · rw [hsem, e, Function.update_self] at ht
      cases ht
    · rw [hsem, Function.update_of_ne e] at ht
      unfold Waits
      rw [hk]
      exact hl.queued s t ht
  · by_cases e : s = s'
    · rw [hsem, e, Function.update_self]
      exact .nil
    · rw [hsem, Function.update_of_ne e]
      exact hl.once s

variable {cb : DeviceHandlers P S C D} {m m' : Machine P S C D}

variable (typeno) in
omit [DecidableEq S] in
theorem run_cases {m : Machine P S C D} {finishing : Bool} (h : m.run u finishing fs = .ok m') :
    m'.stack = Function.update m.stack m.current (.resume :: fs) ∧
      m'.world.semaphore = m.world.semaphore ∧ m'.world.kernel.currentThread = u ∧
      m'.world.kernel.ready typeno = m.world.kernel.ready typeno := by
  obtain ⟨_, -, h⟩ := bind_eq_ok.mp h
  obtain ⟨k, hk, h⟩ := bind_eq_ok.mp h
  cases h
  obtain rfl := Kernel.run_eq (liftAbort_eq_ok.mp hk)
  exact ⟨rfl, rfl, rfl, by cases typeno <;> rfl⟩

variable (typeno) in
omit [DecidableEq P] in
theorem checkToBeDestroyed_ready [DecidableEq P] {k k' : Kernel P} (h : k.checkToBeDestroyed = .ok k') :
    k'.currentThread = k.currentThread ∧ k'.ready typeno = k.ready typeno := by
  unfold Kernel.checkToBeDestroyed at h
  split at h
  · cases h
    exact ⟨rfl, rfl⟩
  · obtain ⟨_, -, h⟩ := bind_eq_ok.mp h
    cases h
    exact ⟨rfl, by cases typeno <;> rfl⟩

omit [DecidableEq S] in
theorem refines_yield {l : IntStatus} (h : Refines typeno v₀ s m.stack m.world)
    (hp : plain (m.stack m.current) = true) (hx : m.yield typeno l fs = .ok m') :
    Refines typeno v₀ s m'.stack m'.world := by
  obtain ⟨r, hr, hx⟩ := bind_eq_ok.mp hx
  obtain ⟨_, -, hr⟩ := bind_eq_ok.mp hr
  cases hr
  split at hx
  · cases hx
    exact h.goOn hp _
  · rename_i hu
    obtain ⟨⟨u, k⟩, hk, he⟩ := Option.map_eq_some_iff.mp hu
    cases he
    obtain ⟨m₁, hm₁, hx⟩ := bind_eq_ok.mp hx
    obtain ⟨_, -, hm₁⟩ := bind_eq_ok.mp hm₁
    obtain ⟨k₁, hk₁, hm₁⟩ := bind_eq_ok.mp hm₁
    cases hm₁
    have ht := Kernel.taken_findNextToRun hk
    have hk₁ := liftAbort_eq_ok.mp hk₁
    have hperm := Kernel.readyToRun_perm hk₁
    have hc₁ : (m.setKernel k).current = m.current := ht.currentThread
    have hc₂ : ((m.setKernel k).setKernel k₁).current = m.current :=
      (Kernel.currentThread_readyToRun hk₁).trans ht.currentThread
    obtain ⟨hst, hsem, hcur, hready⟩ := run_cases typeno hx
    rw [hc₂] at hst
    rw [hc₁] at hperm
    have hall := List.nodup_cons.mp (ht.ready ▸ h.located.ready)
    have hnr : m.current ∉ m.world.kernel.ready typeno := fun hm => by
      obtain ⟨b, fs', hs⟩ := h.located.running hm
      rw [show m.stack m.current = _ from hs] at hp
      cases hp
    have hnk : m.current ∉ k.ready typeno := fun hm => hnr (by
      rw [ht.ready]
      exact List.mem_cons_of_mem _ hm)
    have hmem : ∀ t, t ∈ m'.world.kernel.ready typeno ↔ t = m.current ∨ t ∈ k.ready typeno :=
      fun t => by
        rw [hready]
        exact hperm.mem_iff.trans List.mem_cons
    rw [hst]
    refine h.switch m'.world (u := u) (by rw [ht.ready]; exact List.mem_cons_self)
      (.inr hp) hsem hcur (fun t hm => ?_) (fun t hm => ?_) ?_ ?_
    · rw [ht.ready] at hm
      exact (List.mem_cons.mp hm).imp_right fun hm => (hmem t).mpr (.inr hm)
    · rcases (hmem t).mp hm with e | hm
      · exact .inr ⟨e, hp⟩
      · exact .inl (by rw [ht.ready]; exact List.mem_cons_of_mem _ hm)
    · rw [hready]
      exact hperm.nodup_iff.mpr (List.nodup_cons.mpr ⟨hnk, hall.2⟩)
    · rw [hmem]
      rintro (e | hm)
      · exact hnr (by rw [ht.ready, ← e]; exact List.mem_cons_self)
      · exact hall.1 hm

section
variable [DecidableEq C]

theorem refines_oneTick (hi : m.int.inHandler = false) (h : Refines typeno v₀ s m.stack m.world)
    (hp : plain (m.stack m.current) = true) (hx : oneTick typeno cb m fs = .ok m') :
    Refines typeno v₀ s m'.stack m'.world := by
  obtain ⟨⟨i, w, ds, b⟩, ho, hx⟩ := bind_eq_ok.mp hx
  obtain ⟨-, ⟨hc, hw⟩, -⟩ := (Interrupt.never_oneTick
    (quiet_refines cb m.stack m.current v₀ s) hi ⟨rfl, h⟩).2 _ ho
  cases hx
  rw [← hc] at hp
  have hgo := hw.goOn hp (if b then .call .yield :: .setStatus m.int.status :: fs else fs)
  rw [hc] at hgo
  exact hgo

theorem refines_setLevel (hi : m.int.inHandler = false) (h : Refines typeno v₀ s m.stack m.world)
    (hp : plain (m.stack m.current) = true) {now : IntStatus}
    (hx : setLevel typeno cb m now fs = .ok m') : Refines typeno v₀ s m'.stack m'.world := by
  obtain ⟨⟨i, l, tick⟩, hs, hx⟩ := bind_eq_ok.mp hx
  obtain ⟨_, -, hs⟩ := bind_eq_ok.mp hs
  cases hs
  dsimp only at hx
  split at hx
  · exact refines_oneTick (m := { m with int := m.int.changeLevel now }) hi h hp hx
  · cases hx
    exact h.goOn hp fs

/-- A thread that is forked does not run, is not ready and waits nowhere. -/
def Fresh (typeno : Policy) (m : Machine P S C D) (t : P) : Prop :=
  t ≠ m.current ∧ t ∉ m.world.kernel.ready typeno ∧ ∀ s, t ∉ (m.world.semaphore s).queue

omit [DecidableEq C] in
/-- A routine starts. -/
theorem refines_enter (h : Refines typeno v₀ s m.stack m.world)
    (hp : plain (m.stack m.current) = true) {f : Routine P S}
    (hf : ∀ t, f = .fork t → Fresh typeno m t) (hx : enter typeno m fs f = .ok m') :
    Refines typeno v₀ s m'.stack m'.world := by
  cases f with
  | p s' =>
    obtain ⟨⟨i, l, b⟩, -, hx⟩ := bind_eq_ok.mp hx
    cases hx
    exact h.goOn hp _
  | v s' =>
    obtain ⟨⟨i, l, b⟩, -, hx⟩ := bind_eq_ok.mp hx
    obtain ⟨w, hw, hx⟩ := bind_eq_ok.mp hx
    cases hx
    have hc : w.kernel.currentThread = m.current := v_currentThread hw
    have hgo := (h.v hw).goOn (by rw [hc]; exact hp) (.setLevel l :: fs)
    rw [hc] at hgo
    exact hgo
  | acquire s' =>
    cases hx
    exact h.goOn hp _
  | release s' =>
    obtain ⟨_, -, hx⟩ := bind_eq_ok.mp hx
    cases hx
    exact Refines.goOn (w := { m.world with
      lockHolder := Function.update m.world.lockHolder s' none }) (h.congr rfl rfl rfl) hp _
  | yield =>
    obtain ⟨⟨i, l, b⟩, -, hx⟩ := bind_eq_ok.mp hx
    exact refines_yield (m := { m with int := i }) h hp hx
  | fork t =>
    obtain ⟨⟨i, l, b⟩, -, hx⟩ := bind_eq_ok.mp hx
    obtain ⟨_, -, hx⟩ := bind_eq_ok.mp hx
    obtain ⟨k, hk, hx⟩ := bind_eq_ok.mp hx
    cases hx
    have hk := liftAbort_eq_ok.mp hk
    obtain ⟨ht, hr, hq⟩ := hf t rfl
    have hforked : Refines typeno v₀ s m.stack
        { m.world with kernel := m.world.kernel.setThread t fun th => { th with stack := true } } :=
      h.congr rfl rfl (by cases typeno <;> rfl)
    have hnr : t ∉ (m.world.kernel.setThread t fun th => { th with stack := true }).ready typeno := by
      cases typeno <;> exact hr
    have hgo := (hforked.fork { m.world with kernel := k } [.begin] ht hnr hq rfl hk).goOn
      (by
        show plain (Function.update m.stack t [.begin] k.currentThread) = true
        rw [Kernel.currentThread_fork hk]
        show plain (Function.update m.stack t [.begin] m.current) = true
        rw [Function.update_of_ne (Ne.symm ht)]
        exact hp) (.setLevel l :: .forkRest :: fs)
    rw [show k.currentThread = m.current from Kernel.currentThread_fork hk] at hgo
    exact hgo

/-- One statement of the running thread. -/
theorem refines_exec (hi : Inv m) (h : Refines typeno v₀ s m.stack m.world) {f : Frame P S}
    (hs : m.stack m.current = f :: fs) (hf : ∀ t, f = .call (.fork t) → Fresh typeno m t)
    (hx : exec typeno cb m fs f = .ok m') : Refines typeno v₀ s m'.stack m'.world := by
  have hplain : plain (f :: fs) = true → plain (m.stack m.current) = true := fun h => hs ▸ h
  cases f with
  | call f => exact refines_enter h (hplain rfl) (fun t e => hf t (by rw [e])) hx
  | ret f l =>
    cases hx
    exact h.goOn (hplain rfl) _
  | setLevel now => exact refines_setLevel hi.outside h (hplain rfl) hx
  | setStatus status =>
    cases hx
    exact h.goOn (hplain rfl) _
  | p s' =>
    obtain ⟨⟨x, b⟩, hp, hx⟩ := bind_eq_ok.mp hx
    have hp := liftAbort_eq_ok.mp hp
    dsimp only at hx
    split at hx
    · rename_i hb
      subst hb
      cases hx
      exact h.take { m.world with semaphore := Function.update m.world.semaphore s' x }
        hs hp rfl rfl
    · rename_i hb
      obtain rfl := Bool.eq_false_iff.mpr hb
      obtain ⟨_, -, hx⟩ := bind_eq_ok.mp hx
      obtain ⟨k, hk, hx⟩ := bind_eq_ok.mp hx
      cases hx
      have hk := liftAbort_eq_ok.mp hk
      have hcur : k.currentThread = m.current := Kernel.currentThread_sleep hk
      obtain ⟨q, -, hk⟩ := bind_eq_ok.mp hk
      cases hk
      exact h.sleep { m.world with
        kernel := _, semaphore := Function.update m.world.semaphore s' x } hs hp rfl hcur
        (by cases typeno <;> rfl)
  | sleep finishing =>
    obtain ⟨r, hr, hx⟩ := bind_eq_ok.mp hx
    obtain ⟨_, -, hr⟩ := bind_eq_ok.mp hr
    cases hr
    split at hx
    · rename_i hu
      obtain ⟨⟨u, k⟩, hk, he⟩ := Option.map_eq_some_iff.mp hu
      cases he
      have ht := Kernel.taken_findNextToRun hk
      have hall := List.nodup_cons.mp (ht.ready ▸ h.located.ready)
      have hc : (m.setKernel k).current = m.current := ht.currentThread
      obtain ⟨hst, hsem, hcur, hready⟩ := run_cases typeno hx
      rw [hc] at hst
      rw [hst]
      refine h.switch m'.world (u := u) (by rw [ht.ready]; exact List.mem_cons_self)
        (.inl ⟨finishing, hs⟩) hsem hcur (fun t hm => ?_) (fun t hm => ?_) ?_ ?_
      all_goals rw [hready] at *
      · rw [ht.ready] at hm
        exact List.mem_cons.mp hm
      · refine .inl ?_
        rw [ht.ready]
        exact List.mem_cons_of_mem _ hm
      · exact hall.2
      · exact hall.1
    · obtain ⟨⟨i, w, ds, b⟩, ho, hx⟩ := bind_eq_ok.mp hx
      dsimp only at hx
      split at hx <;> [skip; cases hx]
      have hl : m.int.level = .off := by
        have := hi.current
        rw [hs] at this
        exact this.1
      obtain ⟨-, ⟨-, hw⟩, -⟩ := (Interrupt.never_idle (quiet_refines cb m.stack m.current v₀ s)
        ⟨hl, hi.outside⟩ ⟨rfl, h⟩).2 _ ho
      cases hx
      exact hw
  | resume =>
    obtain ⟨_, -, hx⟩ := bind_eq_ok.mp hx
    obtain ⟨k, hk, hx⟩ := bind_eq_ok.mp hx
    cases hx
    obtain ⟨hc, hr⟩ := checkToBeDestroyed_ready typeno (liftAbort_eq_ok.mp hk)
    exact (h.resume hs).congr rfl hc hr
  | begin =>
    obtain ⟨k, hk, hx⟩ := bind_eq_ok.mp hx
    cases hx
    obtain ⟨hc, hr⟩ := checkToBeDestroyed_ready typeno (liftAbort_eq_ok.mp hk)
    exact (h.goOn (hplain rfl) _).congr rfl hc hr
  | setHolder s' =>
    cases hx
    exact (h.goOn (hplain rfl) fs).congr rfl rfl rfl
  | forkRest =>
    simp only [exec] at hx
    split at hx
    · split at hx
      · cases hx
      · split at hx
        · cases hx
          exact h.goOn (hplain rfl) _
        · cases hx
          exact h.goOn (hplain rfl) _
    · cases hx
      exact h.goOn (hplain rfl) _

/-- The running thread's own code, but for another semaphore in the place of `s`. -/
theorem refines_own (hi : Inv m) (h : Refines typeno v₀ s m.stack m.world)
    (hs : m.stack m.current = []) {op : Op P S C D} (hop : ∀ n, op ≠ .newSemaphore s n)
    (hx : own typeno cb m op = .ok m') : Refines typeno v₀ s m'.stack m'.world := by
  have hplain : plain (m.stack m.current) = true := by rw [hs]; rfl
  have hsleep : ∀ {i : Interrupt C} {finishing : Bool},
      sleep { m with int := i } finishing [] = .ok m' → Refines typeno v₀ s m'.stack m'.world :=
    fun hx => by
      obtain ⟨_, -, hx⟩ := bind_eq_ok.mp hx
      obtain ⟨k, hk, hx⟩ := bind_eq_ok.mp hx
      cases hx
      have hcur := Kernel.currentThread_sleep (liftAbort_eq_ok.mp hk)
      obtain ⟨q, -, hk⟩ := bind_eq_ok.mp (liftAbort_eq_ok.mp hk)
      cases hk
      exact (h.goOn hplain _).congr rfl hcur (by cases typeno <;> rfl)
  cases op with
  | run =>
    cases hx
    exact h
  | call f =>
    cases hx
    exact h.goOn hplain _
  | setLevel now => exact refines_setLevel hi.outside h hplain hx
  | oneTick => exact refines_oneTick hi.outside h hplain hx
  | sleep =>
    obtain ⟨⟨i, l, b⟩, -, hx⟩ := bind_eq_ok.mp hx
    exact hsleep hx
  | finish =>
    obtain ⟨⟨i, l, b⟩, -, hx⟩ := bind_eq_ok.mp hx
    exact hsleep hx
  | newThread t =>
    obtain ⟨k, hk, hx⟩ := bind_eq_ok.mp hx
    cases hx
    obtain ⟨i, rfl, -⟩ := Kernel.newThread_cases (liftAbort_eq_ok.mp hk)
    exact h.congr rfl rfl (by cases typeno <;> rfl)
  | setPriority t n =>
    cases hx
    exact h.congr rfl rfl (by cases typeno <;> rfl)
  | newSemaphore s' n =>
    cases hx
    exact h.newSemaphore (fun e => hop n (by rw [e])) rfl rfl
  | schedule c n ty =>
    obtain ⟨i, -, hx⟩ := bind_eq_ok.mp hx
    cases hx
    exact h
  | setStatus status =>
    cases hx
    exact h
  | device d =>
    cases hx
    exact h.congr rfl rfl rfl

/-- The semaphore that an operation makes. -/
def made : Op P S C D → Option S
  | .newSemaphore s _ => some s
  | _ => none

/-- The thread that is forked next. -/
def forks : List (Frame P S) → Option P
  | .call (.fork t) :: _ => some t
  | _ => none

/-- No other semaphore takes the place of `s`, and only fresh threads are forked. -/
def Proper (typeno : Policy) (s : S) (m : Machine P S C D) (op : Op P S C D) : Prop :=
  made op ≠ some s ∧ ∀ t ∈ forks (m.stack m.current), Fresh typeno m t

instance [Fintype S] (m : Machine P S C D) (op : Op P S C D) : Decidable (Proper typeno s m op) :=
  inferInstanceAs (Decidable (_ ∧ ∀ t ∈ forks (m.stack m.current), _ ∧ _ ∧ ∀ _, _))

/-- A step. -/
theorem refines_next (hi : Inv m) (h : Refines typeno v₀ s m.stack m.world) {op : Op P S C D}
    (hp : Proper typeno s m op) (hx : next typeno cb m op = .ok m') :
    Refines typeno v₀ s m'.stack m'.world := by
  unfold Machine.next at hx
  split at hx
  · rename_i hs
    exact refines_own hi h hs (fun n e => hp.1 (by rw [e]; rfl)) hx
  · rename_i f fs hs
    split at hx
    · exact refines_exec hi h hs (fun t e => hp.2 t (by rw [hs, e]; rfl)) hx
    · cases hx
      exact h

omit [DecidableEq S] [DecidableEq C] in
theorem refines_start (typeno : Policy) (mem : P → Thread) (main : P) (v : S → Int) (d : D) (s : S) :
    Refines typeno (v s) s (fun _ => []) (start typeno mem main v d : Machine P S C D).world := by
  have hr : (Kernel.initializeKernel typeno mem main).ready typeno = [] := by
    cases typeno <;> rfl
  refine ⟨⟨fun s t ht => (by cases ht), fun s => .nil, ?_, fun hm => ?_⟩, _, .init rfl, rfl,
    fun t ht => (by cases ht), fun t ht => (by cases ht)⟩
  · show ((Kernel.initializeKernel typeno mem main).ready typeno).Nodup
    rw [hr]
    exact .nil
  · change _ ∈ (Kernel.initializeKernel typeno mem main).ready typeno at hm
    rw [hr] at hm
    cases hm

theorem reachable_refining {mem : P → Thread} {main : P} {v : S → Int} {d : D}
    (h : ((system typeno cb mem main v d).restrict (Proper typeno s)).Reachable m) :
    Refines typeno (v s) s m.stack m.world := by
  have hI : Inv m ∧ Refines typeno (v s) s m.stack m.world := by
    refine h.invariant (I := fun m => Inv m ∧ Refines typeno (v s) s m.stack m.world) ?_ ?_
    · rintro _ rfl
      exact ⟨inv_init typeno mem main v d, refines_start typeno mem main v d s⟩
    · rintro m op m' ⟨hi, hm⟩ ⟨hp, hs⟩
      exact ⟨((hi.next op).2 m' hs).1, refines_next hi hm hp hs⟩
  exact hI.2

/-- In every run in which only fresh threads are forked each semaphore is one of the
system of atomic `P`s and `V`s. Those that sleep there are in its queue and sleep in
`P`, out of the ready list; those that were woken run, or are ready, and test `value`
next. -/
theorem reachable_simulates {mem : P → Thread} {main : P} {v : S → Int} {d : D} (hv : 0 ≤ v s)
    (h : ((system typeno cb mem main v d).restrict (Proper typeno s)).Reachable m) :
    ∃ σ, (Proof.Semaphore.system P (v s)).Reachable σ ∧ σ.sem = m.world.semaphore s ∧
      (∀ t, σ.mode t = .blocked ↔ t ∈ (m.world.semaphore s).queue) ∧
      (∀ t, σ.mode t = .blocked → Waits m.stack m.world s t ∧ t ∉ m.world.kernel.ready typeno) ∧
      ∀ t, σ.mode t = .ready → Woken typeno m.stack m.world s t := by
  obtain ⟨hl, σ, hσ, hsem, hb, hw⟩ := reachable_refining h
  have hinv : Proof.Semaphore.Inv (v s) σ :=
    hσ.invariant (I := Proof.Semaphore.Inv (v s)) (fun _ h => h ▸ Proof.Semaphore.inv_init hv)
      fun _ _ _ => Proof.Semaphore.inv_step
  refine ⟨σ, hσ, hsem, fun t => ?_, fun t ht => hl.queued s t (hb t ht), hw⟩
  rw [← hsem]
  exact (hinv.queued t).symm

/-- No wake-up is lost: while threads wait at a semaphore there are at least `value`
others that run or are ready, and test it next. -/
theorem reachable_noLostWakeup {mem : P → Thread} {main : P} {v : S → Int} {d : D} (hv : 0 ≤ v s)
    (h : ((system typeno cb mem main v d).restrict (Proper typeno s)).Reachable m)
    (hq : (m.world.semaphore s).queue ≠ []) :
    0 ≤ (m.world.semaphore s).value ∧
      ∃ W : Finset P, (m.world.semaphore s).value ≤ W.card ∧ ∀ t ∈ W,
        Woken typeno m.stack m.world s t ∧ t ∉ (m.world.semaphore s).queue := by
  obtain ⟨hl, σ, hσ, hsem, hb, hw⟩ := reachable_refining h
  have hinv : Proof.Semaphore.Inv (v s) σ :=
    hσ.invariant (I := Proof.Semaphore.Inv (v s)) (fun _ h => h ▸ Proof.Semaphore.inv_init hv)
      fun _ _ _ => Proof.Semaphore.inv_step
  obtain ⟨W, hW, hc⟩ := hinv.woken
  rw [← hsem] at hq ⊢
  refine ⟨hinv.nonneg, W, hc hq, fun t ht => ?_⟩
  have hready := (hW t).mp ht
  refine ⟨hw t hready, fun hm => ?_⟩
  rw [(hinv.queued t).mp hm] at hready
  cases hready

end

/-- No devices, and one semaphore. -/
def oneSemaphore : DeviceHandlers Nat Unit Unit Unit := fun _ _ w => (((), w.kernel.thread), [])

/-- `main` forks two threads, which both wait, and calls `V`. -/
def twoWaiters : List (Op Nat Unit Unit Unit) :=
  [.setLevel .on, .newThread 1, .call (.fork 1), .run, .run, .run, .run, .newThread 2,
    .call (.fork 2), .run, .run, .run, .run, .call .yield, .run, .run, .run, .call (.p ()), .run,
    .run, .run, .run, .run, .call (.p ()), .run, .run, .run, .run, .run, .run, .call (.v ()), .run]

/-- There one thread is still queued. -/
theorem reachable_simulates_two : ∃ m, ((system .fifo oneSemaphore (fun _ => Proof.Scheduler.blank) 0
      (fun _ => 0) ()).restrict (Proper .fifo ())).Reachable m ∧
    (m.world.semaphore ()).queue = [2] ∧
    ∃ σ, (Proof.Semaphore.system Nat 0).Reachable σ ∧ σ.sem = m.world.semaphore () ∧
      (∀ t, σ.mode t = .blocked ↔ t ∈ (m.world.semaphore ()).queue) ∧
      (∀ t, σ.mode t = .blocked → Waits m.stack m.world () t ∧ t ∉ m.world.kernel.ready .fifo) ∧
      ∀ t, σ.mode t = .ready → Woken .fifo m.stack m.world () t := by
  obtain ⟨m, h, hp⟩ := System.exists_reachable_guarded
    (start .fifo (fun _ => Proof.Scheduler.blank) 0 (fun _ => 0) ()) (next .fifo oneSemaphore)
    (Proper .fifo ()) twoWaiters (p := fun m => (m.world.semaphore ()).queue = [2])
    (by decide +kernel)
  exact ⟨m, h, of_decide_eq_true hp, reachable_simulates (by decide) h⟩

/-- The other one is woken. -/
theorem reachable_noLostWakeup_two : ∃ m, ((system .fifo oneSemaphore
      (fun _ => Proof.Scheduler.blank) 0 (fun _ => 0) ()).restrict (Proper .fifo ())).Reachable m ∧
    ((m.world.semaphore ()).value = 1 ∧ (m.world.semaphore ()).queue ≠ []) ∧
    0 ≤ (m.world.semaphore ()).value ∧
      ∃ W : Finset Nat, (m.world.semaphore ()).value ≤ W.card ∧ ∀ t ∈ W,
        Woken .fifo m.stack m.world () t ∧ t ∉ (m.world.semaphore ()).queue := by
  obtain ⟨m, h, hp⟩ := System.exists_reachable_guarded
    (start .fifo (fun _ => Proof.Scheduler.blank) 0 (fun _ => 0) ()) (next .fifo oneSemaphore)
    (Proper .fifo ()) twoWaiters
    (p := fun m => (m.world.semaphore ()).value = 1 ∧ (m.world.semaphore ()).queue ≠ [])
    (by decide +kernel)
  obtain ⟨hv, hq⟩ := of_decide_eq_true hp
  exact ⟨m, h, ⟨hv, hq⟩, reachable_noLostWakeup (by decide) h hq⟩

end Machine

end Nachos

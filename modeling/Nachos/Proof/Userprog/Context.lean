import Nachos.Impl.Userprog.Context
import Nachos.Proof.Threads.Scheduler

/-!
# The user contexts over all runs

The scheduler's runs, with the registers and the other fields of the one
processor that user threads share. `own` gives each user thread a processor of
its own, which only its own instructions change: that is what the thread is to
see. `Isolated` says that it does: while a user thread runs the processor holds
what is its own, and what `Run` saved of every other thread is that thread's own.
It holds in every run (`reachable_isolated`).
-/

namespace Nachos.Context

open Framework Proof.Scheduler

variable {P A F H : Type} [DecidableEq P]

/-- The scheduler, the processor, and what the threads have of it. `started` says
that a thread has run before, and so comes back from `SWITCH` in `Run` and not
in `Thread::Begin`. -/
structure State (P A F H : Type) where
  base : Proof.Scheduler.State P
  machine : Processor A F H
  user : P → UserContext A F H
  started : P → Bool
  own : P → Option (Registers × SpaceState A F H)

/-- The operations: the scheduler's, the start of a user program, and user code
that leaves the registers `r`. -/
inductive Op (P A F H : Type)
  | base (op : Proof.Scheduler.Op P)
  | execute (sp : SpaceState A F H)
  | user (r : Registers)

/-- The thread that runs. -/
def State.current (s : State P A F H) : P := s.base.kernel.currentThread

/-- When an operation can happen. -/
def enabled (s : State P A F H) : Op P A F H → Bool
  | .base op => Proof.Scheduler.enabled s.base op
  | .execute _ => s.base.inCode && (s.user s.current).space.isNone
  | .user _ => s.base.inCode && (s.user s.current).space.isSome

/-- `~Thread` of a thread that is destroyed: its address space is deleted. -/
def State.destroy (s : State P A F H) : Option P → State P A F H
  | none => s
  | some d => { s with
    user := Function.update s.user d { s.user d with space := none }
    own := Function.update s.own d none }

/-- What an operation of the scheduler does to the contexts; `b` is the
scheduler after it. `Run` saves before `SWITCH`, and restores behind it if the
thread has run before. -/
def State.switch (useRPT : Bool) (s : State P A F H) (b : Proof.Scheduler.State P) :
    Proof.Scheduler.Op P → State P A F H
  | .newThread t => { s with
    base := b
    user := Function.update s.user t { s.user t with space := none }
    started := Function.update s.started t false
    own := Function.update s.own t none }
  | .resume =>
    let s := { s.destroy s.base.kernel.toBeDestroyed with base := b }
    { s with
      started := Function.update s.started s.current true
      machine := if s.started s.current then (s.user s.current).restore useRPT s.machine
        else s.machine }
  | _ => { s with
    base := b
    user := if b.phase = .switched then
        Function.update s.user s.current ((s.user s.current).save useRPT s.machine)
      else s.user }

/-- What an operation does. -/
def exec (useRPT : Bool) (typeno : Policy) (s : State P A F H) :
    Op P A F H → Except Abort (State P A F H)
  | .base op => do
    let b ← Proof.Scheduler.exec typeno s.base op
    return s.switch useRPT b op
  | .execute sp =>
    let (u, m) := sp.execute useRPT (s.user s.current) s.machine
    return { s with
      machine := m
      user := Function.update s.user s.current u
      own := Function.update s.own s.current (some (sp.initRegisters, sp)) }
  | .user r => return { s with
    machine := { s.machine with registers := r }
    own := Function.update s.own s.current ((s.own s.current).map fun c => (r, c.2)) }

/-- One operation; one that cannot happen changes nothing. -/
def next (useRPT : Bool) (typeno : Policy) (s : State P A F H) (op : Op P A F H) :
    Except Abort (State P A F H) :=
  if enabled s op then exec useRPT typeno s op else .ok s

/-- The kernel after `Kernel::Initialize`; there is no user program yet. -/
def start (typeno : Policy) (mem : P → Thread) (main : P) (m : Processor A F H) (r : P → Registers) :
    State P A F H where
  base := Proof.Scheduler.start typeno mem main
  machine := m
  user t := ⟨r t, none⟩
  started t := t = main
  own _ := none

def system (useRPT : Bool) (typeno : Policy) (mem : P → Thread) (main : P) (m : Processor A F H)
    (r : P → Registers) : System (State P A F H) (Op P A F H) :=
  .ofFun (start typeno mem main m r) (next useRPT typeno)

/-! ## Isolation -/

/-- The processor holds these registers and the values of this address space. -/
structure Holds (useRPT : Bool) (m : Processor A F H) (c : Registers × SpaceState A F H) : Prop where
  registers : m.registers = c.1
  table : useRPT = false → m.pt = c.2.pt ∧ m.pageTableSize = c.2.numPages
  currentOpenedFile : m.currentOpenedFile = c.2.currentOpenedFile
  currentNoffHeader : m.currentNoffHeader = c.2.currentNoffHeader

/-- Every user thread has its own registers and address space. -/
structure Isolated (useRPT : Bool) (s : State P A F H) : Prop where
  user : ∀ t, (s.user t).space = (s.own t).map Prod.snd
  running : s.base.phase ≠ .switched → ∀ c, s.own s.current = some c → Holds useRPT s.machine c
  saved : ∀ t c, s.own t = some c → (t ≠ s.current ∨ s.base.phase = .switched) →
    (s.user t).userRegisters = c.1

/-- The invariant: a thread that has never run is no user thread. -/
structure Inv (useRPT : Bool) (typeno : Policy) (s : State P A F H) : Prop
    extends Isolated useRPT s where
  base : Proof.Scheduler.Inv typeno s.base
  fresh : ∀ t, s.started t = false → s.own t = none
  started : s.base.phase ≠ .switched → s.started s.current = true

section
variable {useRPT : Bool} {typeno : Policy} {s s' : State P A F H} {b : Proof.Scheduler.State P}

omit [DecidableEq P] in
theorem holds_restore (m : Processor A F H) {u : UserContext A F H}
    {c : Registers × SpaceState A F H} (hr : u.userRegisters = c.1) (hs : u.space = some c.2) :
    Holds useRPT (u.restore useRPT m) c := by
  unfold UserContext.restore
  rw [hs]
  refine ⟨hr, fun h => ?_, rfl, rfl⟩
  subst h
  exact ⟨rfl, rfl⟩

/-- `SaveState` of what the processor already holds changes nothing. -/
theorem Holds.save {m : Processor A F H} {u : UserContext A F H} {c : Registers × SpaceState A F H}
    (h : Holds useRPT m c) (hs : u.space = some c.2) : u.save useRPT m = ⟨c.1, some c.2⟩ := by
  obtain ⟨r, pt, n, f, hd⟩ := c
  obtain ⟨hr, ht, hf, hn⟩ := h
  unfold UserContext.save
  rw [hs]
  cases useRPT with
  | true => simp_all [SpaceState.saveState]
  | false =>
    obtain ⟨h₁, h₂⟩ := ht rfl
    simp_all [SpaceState.saveState]

/-- Without a switch the same thread goes on. -/
theorem current_of_exec {x : Proof.Scheduler.State P} {op : Proof.Scheduler.Op P}
    (hb : Proof.Scheduler.exec typeno x op = .ok b) (hn : x.kernel.blockList.Nodup)
    (hp : b.phase ≠ .switched) : b.kernel.currentThread = x.kernel.currentThread := by
  cases op with
  | newThread t =>
    obtain ⟨k, hk, hb⟩ := bind_eq_ok.mp hb
    cases hb
    obtain ⟨i, rfl, -⟩ := Kernel.newThread_cases hk
    rfl
  | setPriority t n =>
    cases hb
    rfl
  | fork t =>
    obtain ⟨k, hk, hb⟩ := bind_eq_ok.mp hb
    cases hb
    exact (Kernel.readied_fork hk hn).currentThread
  | forkRest =>
    obtain ⟨⟨k, y⟩, hk, hb⟩ := bind_eq_ok.mp hb
    cases hb
    cases y with
    | true => exact absurd rfl hp
    | false => rw [Kernel.forkRest_false hk]
  | yield =>
    obtain ⟨⟨k, y⟩, hk, hb⟩ := bind_eq_ok.mp hb
    cases hb
    cases y with
    | true => exact absurd rfl hp
    | false => rw [Kernel.yield_false hk]
  | sleep | finish =>
    obtain ⟨k, hk, hb⟩ := bind_eq_ok.mp hb
    cases hb
    obtain ⟨q, -, hk⟩ := bind_eq_ok.mp hk
    cases hk
    rfl
  | dispatch =>
    obtain ⟨⟨k, y⟩, hk, hb⟩ := bind_eq_ok.mp hb
    cases hb
    cases y with
    | true => exact absurd rfl hp
    | false => rw [Kernel.dispatch_false hk]
  | wake t =>
    obtain ⟨k, hk, hb⟩ := bind_eq_ok.mp hb
    cases hb
    exact (Kernel.readied_readyToRun hk hn).currentThread
  | resume =>
    obtain ⟨k, hk, hb⟩ := bind_eq_ok.mp hb
    cases hb
    unfold Kernel.checkToBeDestroyed at hk
    split at hk
    · cases hk
      rfl
    · obtain ⟨_, -, hk⟩ := bind_eq_ok.mp hk
      cases hk
      rfl

omit [DecidableEq P] in
/-- The running thread exists. -/
theorem registered_current {x : Proof.Scheduler.State P} (h : Proof.Scheduler.Inv typeno x)
    (hp : x.phase = .running) : x.kernel.Registered x.kernel.currentThread := by
  have hout : x.kernel.currentThread ∈ away x := by
    rw [away, hp]
    rfl
  exact (h.wf.away _ hout).1

/-- A new thread has no user context. -/
theorem Inv.newThread (h : Inv useRPT typeno s) {t : P}
    (he : Proof.Scheduler.enabled s.base (.newThread t) = true)
    (hb : Proof.Scheduler.exec typeno s.base (.newThread t) = .ok b)
    (hbase : Proof.Scheduler.Inv typeno b) : Inv useRPT typeno (s.switch useRPT b (.newThread t)) := by
  simp only [Proof.Scheduler.enabled, Proof.Scheduler.State.inCode, Bool.and_eq_true,
    decide_eq_true_eq, Bool.not_eq_true', decide_eq_false_iff_not] at he
  obtain ⟨⟨hp, -⟩, hr⟩ := he
  have hphase : b.phase = s.base.phase := by
    obtain ⟨k, -, hb⟩ := bind_eq_ok.mp hb
    cases hb
    rfl
  have hcur : b.kernel.currentThread = s.current :=
    current_of_exec hb (List.nodup_append.mp h.base.wf.nodup).2.1 (by rw [hphase, hp]; decide)
  have hne : s.current ≠ t := fun e => hr (e ▸ registered_current h.base hp)
  have hown : ∀ u c, Function.update s.own t none u = some c → u ≠ t ∧ s.own u = some c := by
    intro u c hu
    by_cases e : u = t
    · rw [e, Function.update_self] at hu
      cases hu
    · rw [Function.update_of_ne e] at hu
      exact ⟨e, hu⟩
  refine ⟨⟨fun u => ?_, fun hsw c hc => ?_, fun u c hc hu => ?_⟩, hbase, fun u hu => ?_, fun hsw => ?_⟩
  · by_cases e : u = t
    · subst e
      simp [State.switch]
    · simpa [State.switch, e] using h.user u
  · simp only [State.switch, State.current, hcur] at hc ⊢
    exact h.running (by rw [hp]; decide) c (hown _ c hc).2
  · simp only [State.switch, State.current, hcur, hphase] at hc hu ⊢
    obtain ⟨hut, hc⟩ := hown u c hc
    rw [Function.update_of_ne hut]
    exact h.saved u c hc hu
  · by_cases e : u = t
    · subst e
      simp [State.switch]
    · simp only [State.switch, Function.update_of_ne e] at hu ⊢
      exact h.fresh u hu
  · rw [show (s.switch useRPT b (.newThread t)).current = s.current from hcur]
    exact (Function.update_of_ne hne ..).trans (h.started (by rw [hp]; decide))

/-- Who is left after a deletion is as before. -/
theorem destroy_own {o : Option P} {t : P} {c : Registers × SpaceState A F H}
    (h : (s.destroy o).own t = some c) : s.own t = some c ∧ (s.destroy o).user t = s.user t := by
  cases o with
  | none => exact ⟨h, rfl⟩
  | some d =>
    simp only [State.destroy] at h ⊢
    by_cases e : t = d
    · rw [e, Function.update_self] at h
      cases h
    · rw [Function.update_of_ne e] at h ⊢
      exact ⟨h, rfl⟩

theorem destroy_space (h : ∀ t, (s.user t).space = (s.own t).map Prod.snd) (o : Option P) (t : P) :
    ((s.destroy o).user t).space = ((s.destroy o).own t).map Prod.snd := by
  cases o with
  | none => exact h t
  | some d =>
    by_cases e : t = d
    · subst e
      simp [State.destroy]
    · simpa [State.destroy, e] using h t

/-- Behind `SWITCH`, in `Run` or in `Thread::Begin`. -/
theorem Inv.resume (h : Inv useRPT typeno s)
    (he : Proof.Scheduler.enabled s.base .resume = true)
    (hb : Proof.Scheduler.exec typeno s.base .resume = .ok b)
    (hbase : Proof.Scheduler.Inv typeno b) : Inv useRPT typeno (s.switch useRPT b .resume) := by
  simp only [Proof.Scheduler.enabled, decide_eq_true_eq] at he
  have hphase : b.phase = .running := by
    obtain ⟨k, -, hb⟩ := bind_eq_ok.mp hb
    cases hb
    rfl
  have hrun : b.phase ≠ .switched := by
    rw [hphase]
    decide
  have hcur : (s.switch useRPT b .resume).current = s.current :=
    current_of_exec hb (List.nodup_append.mp h.base.wf.nodup).2.1 hrun
  have hstart : (s.destroy s.base.kernel.toBeDestroyed).started = s.started := by
    cases s.base.kernel.toBeDestroyed <;> rfl
  refine ⟨⟨destroy_space h.user s.base.kernel.toBeDestroyed, fun _ c hc => ?_, fun u c hc _ => ?_⟩,
    hbase, fun u hu => ?_, fun _ => Function.update_self ..⟩
  · rw [hcur] at hc
    obtain ⟨hown, huser⟩ := destroy_own hc
    have hst : s.started s.current = true := by
      cases hst : s.started s.current with
      | true => rfl
      | false =>
        rw [h.fresh _ hst] at hown
        cases hown
    have hm : (s.switch useRPT b .resume).machine =
        (s.user s.current).restore useRPT (s.destroy s.base.kernel.toBeDestroyed).machine := by
      rw [← huser]
      show (if (s.destroy s.base.kernel.toBeDestroyed).started (s.switch useRPT b .resume).current = true
        then ((s.destroy s.base.kernel.toBeDestroyed).user
          (s.switch useRPT b .resume).current).restore useRPT _ else _) = _
      rw [hcur, hstart, if_pos hst]
    rw [hm]
    exact holds_restore _ (h.saved _ c hown (.inr he)) (by rw [h.user, hown]; rfl)
  · obtain ⟨hown, huser⟩ := destroy_own hc
    rw [show (s.switch useRPT b .resume).user u = s.user u from huser]
    exact h.saved u c hown (.inr he)
  · have hu' : s.started u = false := by
      by_cases e : u = (s.switch useRPT b .resume).current
      · have hself : (s.switch useRPT b .resume).started (s.switch useRPT b .resume).current = true :=
          Function.update_self ..
        rw [e, hself] at hu
        cases hu
      · rw [← hstart]
        exact (Function.update_of_ne e ..).symm.trans hu
    cases hc : (s.switch useRPT b .resume).own u with
    | none => rfl
    | some c =>
      have hown := (destroy_own hc).1
      rw [h.fresh u hu'] at hown
      cases hown

/-- The other operations of the scheduler, with `SWITCH` or without. -/
theorem Inv.others (h : Inv useRPT typeno s) {op : Proof.Scheduler.Op P}
    (hb : Proof.Scheduler.exec typeno s.base op = .ok b) (hbase : Proof.Scheduler.Inv typeno b)
    (hp : s.base.phase ≠ .switched) :
    Inv useRPT typeno { s with
      base := b
      user := if b.phase = .switched then
          Function.update s.user s.current ((s.user s.current).save useRPT s.machine)
        else s.user } := by
  by_cases hsw : b.phase = .switched
  · rw [if_pos hsw]
    -- What the processor holds is the thread's own, and so is what is saved.
    have hsave : ∀ c, s.own s.current = some c →
        (s.user s.current).save useRPT s.machine = ⟨c.1, some c.2⟩ := fun c hc =>
      (h.running hp c hc).save (by rw [h.user, hc]; rfl)
    refine ⟨⟨fun u => ?_, fun hn => absurd hsw hn, fun u c hc _ => ?_⟩, hbase, h.fresh,
      fun hn => absurd hsw hn⟩
    · by_cases e : u = s.current
      · subst e
        simp only [Function.update_self]
        cases hc : s.own s.current with
        | some c => rw [hsave c hc]; rfl
        | none =>
          have hnone : (s.user s.current).space = none := by rw [h.user, hc]; rfl
          simp [UserContext.save, hnone]
      · simp only [Function.update_of_ne e]
        exact h.user u
    · by_cases e : u = s.current
      · subst e
        simp only [Function.update_self, hsave c hc]
      · simp only [Function.update_of_ne e]
        exact h.saved u c hc (.inl e)
  · rw [if_neg hsw]
    have hcur : b.kernel.currentThread = s.current :=
      current_of_exec hb (List.nodup_append.mp h.base.wf.nodup).2.1 hsw
    refine ⟨⟨h.user, fun _ c hc => ?_, fun u c hc hu => ?_⟩, hbase, h.fresh, fun _ => ?_⟩
    · simp only [State.current, hcur] at hc
      exact h.running hp c hc
    · simp only [State.current, hcur] at hu
      exact h.saved u c hc (.inl (hu.resolve_right hsw))
    · simp only [State.current, hcur]
      exact h.started hp

/-- `Execute`: the processor gets what the thread starts with. -/
theorem Inv.execute (h : Inv useRPT typeno s) (hp : s.base.phase = .running) (sp : SpaceState A F H) :
    ∃ s', exec useRPT typeno s (.execute sp) = .ok s' ∧ Inv useRPT typeno s' := by
  have hrun : s.base.phase ≠ .switched := by rw [hp]; decide
  refine ⟨_, rfl, ⟨fun u => ?_, fun _ c hc => ?_, fun u c hc hu => ?_⟩, h.base, fun u hu => ?_,
    h.started⟩
  · by_cases e : u = s.current
    · subst e
      simp
    · simpa [e] using h.user u
  · simp only [State.current] at hc
    rw [show s.base.kernel.currentThread = s.current from rfl, Function.update_self] at hc
    cases hc
    refine ⟨rfl, fun hR => ?_, rfl, rfl⟩
    subst hR
    exact ⟨rfl, rfl⟩
  · have e : u ≠ s.current := hu.resolve_right hrun
    simp only [Function.update_of_ne e] at hc ⊢
    exact h.saved u c hc (.inl e)
  · have e : u ≠ s.current := by
      rintro rfl
      rw [h.started hrun] at hu
      cases hu
    simp only [Function.update_of_ne e]
    exact h.fresh u hu

/-- User code changes the registers of its own thread. -/
theorem Inv.userCode (h : Inv useRPT typeno s) (hp : s.base.phase = .running) (r : Registers) :
    ∃ s', exec useRPT typeno s (.user r) = .ok s' ∧ Inv useRPT typeno s' := by
  have hrun : s.base.phase ≠ .switched := by rw [hp]; decide
  refine ⟨_, rfl, ⟨fun u => ?_, fun _ c hc => ?_, fun u c hc hu => ?_⟩, h.base, fun u hu => ?_,
    h.started⟩
  · by_cases e : u = s.current
    · subst e
      simp only [Function.update_self, h.user]
      cases s.own s.current <;> rfl
    · simpa [e] using h.user u
  · simp only [State.current] at hc
    rw [show s.base.kernel.currentThread = s.current from rfl, Function.update_self] at hc
    obtain ⟨c₀, hc₀, rfl⟩ := Option.map_eq_some_iff.mp hc
    obtain ⟨-, h₂, h₃, h₄⟩ := h.running hrun c₀ hc₀
    exact ⟨rfl, h₂, h₃, h₄⟩
  · have e : u ≠ s.current := hu.resolve_right hrun
    simp only [Function.update_of_ne e] at hc
    exact h.saved u c hc (.inl e)
  · have e : u ≠ s.current := by
      rintro rfl
      rw [h.started hrun] at hu
      cases hu
    simp only [Function.update_of_ne e]
    exact h.fresh u hu

theorem Inv.step (h : Inv useRPT typeno s) {op : Op P A F H}
    (hs : next useRPT typeno s op = .ok s') : Inv useRPT typeno s' := by
  unfold next at hs
  split at hs <;> [skip; (cases hs; exact h)]
  rename_i he
  cases op with
  | base op =>
    obtain ⟨b, hb, hs⟩ := bind_eq_ok.mp hs
    cases hs
    have he' : Proof.Scheduler.enabled s.base op = true := he
    have hnext : Proof.Scheduler.next typeno s.base op = .ok b := by
      rw [Proof.Scheduler.next, if_pos he']
      exact hb
    have hbase : Proof.Scheduler.Inv typeno b := inv_step h.base hnext
    cases op with
    | newThread t => exact h.newThread he hb hbase
    | resume => exact h.resume he hb hbase
    | _ =>
      refine h.others hb hbase fun hsw => ?_
      simp [enabled, Proof.Scheduler.enabled, Proof.Scheduler.State.inCode, hsw] at he
  | execute sp =>
    simp only [enabled, Proof.Scheduler.State.inCode, Bool.and_eq_true, decide_eq_true_eq] at he
    obtain ⟨s₁, hs₁, hI⟩ := h.execute he.1.1 sp
    rwa [Except.ok.inj (hs.symm.trans hs₁)]
  | user r =>
    simp only [enabled, Proof.Scheduler.State.inCode, Bool.and_eq_true, decide_eq_true_eq] at he
    obtain ⟨s₁, hs₁, hI⟩ := h.userCode he.1.1 r
    rwa [Except.ok.inj (hs.symm.trans hs₁)]

theorem inv_init (useRPT : Bool) (typeno : Policy) (mem : P → Thread) (main : P) (m : Processor A F H)
    (r : P → Registers) : Inv useRPT typeno (start typeno mem main m r) where
  user _ := rfl
  running _ _ hc := by cases hc
  saved _ _ hc := by cases hc
  base := Proof.Scheduler.inv_init typeno mem main
  fresh _ _ := rfl
  started _ := decide_eq_true rfl

end

/-- In every run each user thread finds its own registers and address space,
whoever ran in between. -/
theorem reachable_isolated (useRPT : Bool) (typeno : Policy) (mem : P → Thread) (main : P)
    (m : Processor A F H) (r : P → Registers) {s : State P A F H}
    (h : (system useRPT typeno mem main m r).Reachable s) : Isolated useRPT s := by
  have hI : Inv useRPT typeno s := by
    refine h.invariant (I := Inv useRPT typeno) ?_ ?_
    · rintro _ rfl
      exact inv_init useRPT typeno mem main m r
    · intro s op s' hi hs
      exact hi.step hs
  exact hI.toIsolated

/-- Two user threads, each with registers of its own; `main` yields to the other
and comes back. -/
def twoUsers : List (Op Nat Nat Nat Nat) :=
  [.execute ⟨10, 2, 20, 30⟩, .user fun _ => 7, .base (.newThread 1), .base (.fork 1),
    .base .forkRest, .base .yield, .base .resume, .execute ⟨11, 3, 21, 31⟩, .user fun _ => 8,
    .base .yield, .base .resume]

/-- `main` is back with its registers, and those of the other are saved. -/
theorem reachable_isolated_two :
    ∃ s, (system false .fifo (fun _ => blank) 0 ⟨fun _ => 0, 0, 0, 0, 0⟩ fun _ _ => 0).Reachable s ∧
      s.current = 0 ∧ s.machine.pt = 10 ∧ (s.user 1).userRegisters Reg.pc = 8 ∧
      Isolated false s := by
  obtain ⟨s, hr, hp⟩ := System.exists_reachable
    (start .fifo (fun _ => blank) 0 ⟨fun _ => 0, 0, 0, 0, 0⟩ fun _ _ => 0) (next false .fifo) twoUsers
    (p := fun s => s.current = 0 ∧ s.machine.pt = 10 ∧ (s.user 1).userRegisters Reg.pc = 8)
    (by decide +kernel)
  obtain ⟨hc, hm, hu⟩ := of_decide_eq_true hp
  exact ⟨s, hr, hc, hm, hu, reachable_isolated _ _ _ _ _ _ hr⟩

end Nachos.Context

import Nachos.Impl.Threads.Alarm
import Nachos.Proof.Machine.Interrupt
import Nachos.Proof.Threads.Scheduler

/-!
# The time slice over all runs

With `typeno` 2 and 3 `ReadyToRun` gives a thread its time slice, every timer
interrupt takes one off the slice of the running thread, and from zero on the alarm
asks for a context switch. The timer also counts in `IdleMode`, down from the slice
of the thread that went to sleep last.

`Fair` says that what is left and the timer interrupts since the dispatch are
together within the slice. So a thread has at most its slice of timer interrupts,
unless no other thread was ready when its slice was over
(`reachable_bounded_quantum`).
-/

namespace Nachos

open Framework

namespace Proof.Quantum

open Kernel

variable {P C D : Type} [DecidableEq P] [DecidableEq C]

/-! ## The system -/

/-- What the handler of a device calls: `Schedule` of the device itself, or `V`,
which wakes a thread. -/
inductive DeviceCall (P : Type)
  | schedule (fromNow : Int) (type : IntType)
  | v (t : P)

def DeviceCall.toHandlerCall (c : C) : DeviceCall P → HandlerCall C P
  | .schedule fromNow type => .schedule c fromNow type
  | .v t => .v t

/-- The timer, at the pointer `timer`, and any other devices. -/
structure Devices (P C D : Type) where
  timer : C
  clock : Timer
  randomNumber : D → Nat × D
  callBack : C → D → D × List (DeviceCall P)

/-- The scheduler and the devices. -/
structure World (P D : Type) where
  scheduler : Scheduler.State P
  device : D

/-- The handlers. `V` wakes a thread that waits. -/
def handlers (typeno : Policy) (dev : Devices P C D) : Handlers C P (World P D) where
  callBack status c w :=
    if c = dev.timer then
      let (random, d) := dev.randomNumber w.device
      let (k, calls) := dev.clock.callBack typeno dev.timer random status w.scheduler.kernel
      (⟨{ w.scheduler with kernel := k }, d⟩, calls)
    else
      let (d, calls) := dev.callBack c w.device
      ({ w with device := d }, calls.map (·.toHandlerCall c))
  v level t w := do
    assertLevel (level = .off)
    let s ← liftAbort (Scheduler.next typeno w.scheduler (.wake t))
    return { w with scheduler := s }

/-- The slice of a thread: `timeSlice`, or that of its level. -/
def sliceOf (typeno : Policy) (th : Thread) : Int :=
  match typeno with
  | .feedback => threadArrTimeSlice.getD th.priority.toNat 0
  | _ => timeSlice

/-- The machine; `yielding` says that `OneTick` is about to call `Yield`. Of the
running thread it remembers the timer interrupts since `FindNextToRun` returned it,
those in `IdleMode` left out, the slice that it had then, and whether it was the
only thread when the slice was over. -/
structure State (P C D : Type) where
  world : World P D
  int : Interrupt C
  yielding : Bool
  ticks : Nat
  slice : Option Int
  alone : Bool

/-- The operations: those of the scheduler, and those that call handlers. -/
inductive Op (P C D : Type)
  | kernel (op : Scheduler.Op P)
  | oneTick
  | idle
  | schedule (toCall : C) (fromNow : Int) (type : IntType)
  | setStatus (status : MachineStatus)
  | device (d : D)

/-- `Yield`. -/
def Op.isYield : Op P C D → Bool
  | .kernel .yield => true
  | _ => false

/-- The running thread has had its slice. -/
def State.expired (s : State P C D) : Bool := s.slice.any fun n => n ≤ (s.ticks : Int)

/-- The state after an operation of the scheduler. -/
def State.observe (typeno : Policy) (s : State P C D) (x : Scheduler.State P) : State P C D :=
  let s' := { s with world := { s.world with scheduler := x }, yielding := false }
  if x.phase = .switched ∧ s.world.scheduler.phase ≠ .switched then
    { s' with
      ticks := 0, slice := some (sliceOf typeno (x.kernel.thread x.kernel.currentThread)),
      alone := false }
  else { s' with alone := s.alone || s.yielding && s.expired }

/-- How many timer interrupts are among the deliveries, those in `IdleMode` left
out. -/
def timerTicks (dev : Devices P C D) (ds : List (Delivery C)) : Nat :=
  ds.countP fun d => d.interrupt.callOnInterrupt = dev.timer ∧ d.status ≠ .idleMode

/-- How many timer interrupts are pending. -/
def pendingTimers (dev : Devices P C D) (i : Interrupt C) : Nat :=
  i.pending.countP fun e => e.callOnInterrupt = dev.timer

/-- What an operation does. There is one `Timer`, which schedules itself. -/
def exec (typeno : Policy) (dev : Devices P C D) (s : State P C D) :
    Op P C D → Except Fault (State P C D)
  | .kernel op => do
    let x ← liftAbort (Scheduler.next typeno s.world.scheduler op)
    return s.observe typeno x
  | .oneTick =>
    if s.world.scheduler.phase = .running then do
      let (i, w, ds, b) ← s.int.oneTick (handlers typeno dev) s.world
      return { s with world := w, int := i, yielding := b, ticks := s.ticks + timerTicks dev ds }
    else return s
  | .idle =>
    if (s.world.scheduler.phase = .sleeping true ∨ s.world.scheduler.phase = .sleeping false) ∧
        (s.world.scheduler.kernel.findNextToRun typeno).isNone then do
      let (i, w, ds, b) ← s.int.idle (handlers typeno dev) s.world
      if b then return { s with world := w, int := i, ticks := s.ticks + timerTicks dev ds }
      else throw .halt
    else return s
  | .schedule toCall fromNow type =>
    if toCall = dev.timer ∧ pendingTimers dev s.int ≠ 0 then return s
    else do
      let i ← s.int.schedule toCall fromNow type
      return { s with int := i }
  | .setStatus status => return { s with int := { s.int with status := status } }
  | .device d => return { s with world := { s.world with device := d } }

/-- One operation. When `OneTick` is about to call `Yield`, the thread does nothing
else. -/
def next (typeno : Policy) (dev : Devices P C D) (s : State P C D) (op : Op P C D) :
    Except Fault (State P C D) :=
  if s.yielding && !op.isYield then .ok s else exec typeno dev s op

/-- The machine after `Kernel::Initialize`, before it makes the alarm. -/
def start (typeno : Policy) (mem : P → Thread) (main : P) (d : D) : State P C D where
  world := ⟨Scheduler.start typeno mem main, d⟩
  int := .new
  yielding := false
  ticks := 0
  slice := none
  alone := false

def system (typeno : Policy) (dev : Devices P C D) (mem : P → Thread) (main : P) (d : D) :
    System (State P C D) (Op P C D) :=
  .ofFun (start typeno mem main d) (next typeno dev)

/-- The quantum: a thread has at most its slice of timer interrupts, unless it was
the only one when the slice was over. The timer interrupt that ends the slice makes
`OneTick` call `Yield` before the thread goes on, and this switches to the thread
that is ready. -/
structure Bounded (typeno : Policy) (dev : Devices P C D) (s : State P C D) : Prop where
  bound : ∀ n : Int, s.slice = some n → (s.ticks : Int) ≤ n ∨ s.alone = true
  requests : ∀ (s' : State P C D) (n : Int), next typeno dev s .oneTick = .ok s' →
    s.ticks < s'.ticks → s'.slice = some n → n ≤ (s'.ticks : Int) → s'.yielding = true
  waits : ∀ (op : Op P C D) (s' : State P C D), s.yielding = true → next typeno dev s op = .ok s' →
    op.isYield = true ∨ s' = s
  switches : ∀ (s' : State P C D) (t : P), s.yielding = true →
    next typeno dev s (.kernel .yield) = .ok s' →
    s.world.scheduler.kernel.getReadyListFront typeno = some t →
      s'.world.scheduler.phase = .switched ∧ s'.world.scheduler.kernel.currentThread = t

/-! ## The scheduler -/

/-- No ready thread has more than its slice left. -/
structure Budgeted (typeno : Policy) (k : Kernel P) : Prop where
  queues : k.threadArrQueue.length = queueNum
  ready : ∀ t ∈ k.ready typeno, 0 < sliceOf typeno (k.thread t) ∧
    (k.thread t).timeSliceRemain ≤ sliceOf typeno (k.thread t)

/-- The policies with a time slice. -/
def Sliced (typeno : Policy) : Prop := typeno = .timeSlice ∨ typeno = .feedback

variable {typeno : Policy} {k k' : Kernel P} {t u : P}

omit [DecidableEq P] in
theorem Budgeted.mono (h : Budgeted typeno k)
    (hq : k'.threadArrQueue.length = k.threadArrQueue.length)
    (hk : ∀ u ∈ k'.ready typeno, u ∈ k.ready typeno ∧
      (k'.thread u).timeSliceRemain ≤ (k.thread u).timeSliceRemain ∧
      (k'.thread u).priority = (k.thread u).priority) : Budgeted typeno k' := by
  refine ⟨hq.trans h.queues, fun u hu => ?_⟩
  obtain ⟨hm, hr, hp⟩ := hk u hu
  have := h.ready u hm
  unfold sliceOf at this ⊢
  rw [hp]
  exact ⟨this.1, Int.le_trans hr this.2⟩

/-- A thread that has its whole slice. -/
structure Fresh (typeno : Policy) (k : Kernel P) (t : P) : Prop where
  queues : k.threadArrQueue.length = queueNum
  positive : 0 < sliceOf typeno (k.thread t)
  remain : (k.thread t).timeSliceRemain = sliceOf typeno (k.thread t)

theorem threadArrTimeSlice_pos {n : Nat} (hn : n < queueNum) : 0 < threadArrTimeSlice.getD n 0 := by
  have h : ∀ n < queueNum, 0 < threadArrTimeSlice.getD n 0 := by decide
  exact h n hn

/-- `ReadyToRun` gives the thread its slice. -/
theorem fresh_readyToRun (hs : Sliced typeno) (hq : k.threadArrQueue.length = queueNum)
    (h : readyToRun typeno k t = .ok k') : Fresh typeno k' t := by
  obtain ⟨b, -, h⟩ := bind_eq_ok.mp h
  rcases hs with rfl | rfl
  · obtain ⟨q, -, h⟩ := bind_eq_ok.mp h
    cases h
    exact ⟨hq, by simp [sliceOf, timeSlice], by simp [sliceOf]⟩
  · obtain ⟨_, hd, h⟩ := bind_eq_ok.mp h
    obtain ⟨q, -, h⟩ := bind_eq_ok.mp h
    cases h
    obtain ⟨-, hlt⟩ := defined_eq_ok.mp hd
    refine ⟨(List.length_set ..).trans hq, ?_, by simp [sliceOf]⟩
    simp only [sliceOf, setThread_thread, Function.update_self] at hlt ⊢
    exact threadArrTimeSlice_pos (Nat.lt_of_lt_of_eq hlt hq)

theorem Budgeted.readied (h : Budgeted typeno k) (hk : Readied typeno t k k')
    (ht : Fresh typeno k' t) : Budgeted typeno k' := by
  refine ⟨ht.queues, fun u hu => ?_⟩
  by_cases e : u = t
  · rw [e]
    exact ⟨ht.positive, Int.le_of_eq ht.remain⟩
  · rw [hk.thread u e]
    exact h.ready u ((List.mem_cons.mp (hk.ready.mem_iff.mp hu)).resolve_left e)

omit [DecidableEq P] in
theorem length_firstQueued {qs qs' : List (List P)} (h : firstQueued qs = some (t, qs')) :
    qs'.length = qs.length := by
  induction qs generalizing qs' with
  | nil => cases h
  | cons q qs ih =>
    cases q with
    | cons u q => cases h; rfl
    | nil =>
      obtain ⟨⟨u, r⟩, hr, he⟩ := Option.map_eq_some_iff.mp h
      cases he
      simp [ih hr]

omit [DecidableEq P] in
theorem queues_findNextToRun (h : findNextToRun typeno k = some (t, k')) :
    k'.threadArrQueue.length = k.threadArrQueue.length := by
  cases typeno with
  | feedback =>
    obtain ⟨⟨u, r⟩, hr, he⟩ := Option.map_eq_some_iff.mp h
    cases he
    exact length_firstQueued hr
  | fifo | timeSlice | priority =>
    simp only [findNextToRun] at h
    split at h <;> [cases h; skip]
    cases h
    rfl

omit [DecidableEq P] in
theorem Budgeted.taken (h : Budgeted typeno k) (hf : findNextToRun typeno k = some (t, k')) :
    Budgeted typeno k' ∧ 0 < sliceOf typeno (k'.thread t) ∧
      (k'.thread t).timeSliceRemain ≤ sliceOf typeno (k'.thread t) := by
  have hk := taken_findNextToRun hf
  rw [hk.thread]
  refine ⟨h.mono (queues_findNextToRun hf) fun u hu => ?_, h.ready t (hk.ready ▸ List.mem_cons_self)⟩
  rw [hk.thread, hk.ready]
  exact ⟨List.mem_cons_of_mem _ hu, Int.le_refl _, rfl⟩

/-- `Run` changes the status of a thread. -/
theorem Budgeted.run (h : Budgeted typeno k) {finishing : Bool} (hk : k.run t finishing = .ok k') :
    Budgeted typeno k' ∧ k'.currentThread = t ∧
      ∀ u, (k'.thread u).timeSliceRemain = (k.thread u).timeSliceRemain ∧
        (k'.thread u).priority = (k.thread u).priority := by
  obtain rfl := run_eq hk
  have hth : ∀ u, ((k.setThread t fun th => { th with status := .running }).thread u).timeSliceRemain =
      (k.thread u).timeSliceRemain ∧ ((k.setThread t fun th =>
        { th with status := .running }).thread u).priority = (k.thread u).priority := fun u => by
    by_cases e : u = t
    · subst e
      simp
    · simp [e]
  refine ⟨h.mono rfl fun u hu => ⟨?_, Int.le_of_eq (hth u).1, (hth u).2⟩, rfl, hth⟩
  cases typeno <;> exact hu

/-- In `Sleep`, or still behind it. -/
def Asleep (p : Scheduler.Phase) : Prop := p = .sleeping true ∨ p = .sleeping false

theorem not_asleep_running : ¬ Asleep .running := by
  unfold Asleep
  decide

theorem not_asleep_switched : ¬ Asleep .switched := by
  unfold Asleep
  decide

/-- What an operation of the scheduler does to the running thread: it goes on, with
what it had left of its slice, or the thread that `FindNextToRun` returned runs. -/
inductive Did (typeno : Policy) (x x' : Scheduler.State P) : Prop
  | goes (phase : x'.phase = .switched → x.phase = .switched)
    (current : x'.kernel.currentThread = x.kernel.currentThread)
    (remain : ¬ Asleep x.phase → (x'.kernel.thread x.kernel.currentThread).timeSliceRemain =
      (x.kernel.thread x.kernel.currentThread).timeSliceRemain)
    (asleep : ¬ Asleep x'.phase → ¬ Asleep x.phase)
  | switched (before : x.phase ≠ .switched) (phase : x'.phase = .switched)
    (remain : 0 < sliceOf typeno (x'.kernel.thread x'.kernel.currentThread) ∧
      (x'.kernel.thread x'.kernel.currentThread).timeSliceRemain ≤
        sliceOf typeno (x'.kernel.thread x'.kernel.currentThread))

/-- `Yield`. -/
theorem did_yield (hs : Sliced typeno) {x : Scheduler.State P} (hx : Scheduler.Inv typeno x)
    (hb : Budgeted typeno x.kernel) (hp : x.phase = .running) {k : Kernel P} {b : Bool} {f : P → Bool}
    (h : x.kernel.yield typeno = .ok (k, b)) :
    Budgeted typeno k ∧
      Did typeno x { x with kernel := k, forking := f, phase := if b then .switched else .running } := by
  have hcur := (hx.wf_running hp).away _ rfl
  unfold Kernel.yield at h
  split at h
  · cases h
    exact ⟨hb, .goes (fun h => by cases h) rfl (fun _ => rfl)
      fun _ => by rw [hp]; exact not_asleep_running⟩
  · rename_i t k₁ hf
    obtain ⟨k₂, h₂, h⟩ := bind_eq_ok.mp h
    obtain ⟨k₃, h₃, h⟩ := bind_eq_ok.mp h
    cases h
    have ht := taken_findNextToRun hf
    obtain ⟨hb₁, hr₁⟩ := hb.taken hf
    have hn : k₁.blockList.Nodup := by
      rw [ht.blockList]
      exact (List.nodup_append.mp (hx.wf_running hp).nodup).2.1
    have hk₂ := readied_readyToRun h₂ hn
    obtain ⟨hb₃, hc₃, hr₃⟩ := (hb₁.readied hk₂ (fresh_readyToRun hs hb₁.queues h₂)).run h₃
    -- The next thread was ready, and the running one is not.
    have hne : t ≠ k₁.currentThread := fun e => by
      rw [ht.currentThread] at e
      exact hcur.2.1 (e ▸ ht.ready ▸ List.mem_cons_self)
    refine ⟨hb₃, .switched (by rw [hp]; decide) rfl ?_⟩
    show 0 < sliceOf typeno (k.thread k.currentThread) ∧
      (k.thread k.currentThread).timeSliceRemain ≤ sliceOf typeno (k.thread k.currentThread)
    rw [hc₃]
    unfold sliceOf at hr₁ ⊢
    rw [(hr₃ t).1, (hr₃ t).2, hk₂.thread t hne]
    exact hr₁

/-- One turn of the loop in `Sleep`. -/
theorem did_dispatch {x : Scheduler.State P} (hb : Budgeted typeno x.kernel) (hp : Asleep x.phase)
    {k : Kernel P} {b finishing : Bool} (h : x.kernel.dispatch typeno finishing = .ok (k, b)) :
    Budgeted typeno k ∧ Did typeno x { x with kernel := k, phase := if b then .switched else x.phase } := by
  unfold Kernel.dispatch at h
  split at h
  · cases h
    exact ⟨hb, .goes id rfl (fun hn => absurd hp hn) fun hn => absurd hp hn⟩
  · rename_i t k₁ hf
    obtain ⟨k₂, h₂, h⟩ := bind_eq_ok.mp h
    cases h
    obtain ⟨hb₁, hr₁⟩ := hb.taken hf
    obtain ⟨hb₂, hc₂, hr₂⟩ := hb₁.run h₂
    refine ⟨hb₂, .switched (fun e => not_asleep_switched (e ▸ hp)) rfl ?_⟩
    show 0 < sliceOf typeno (k.thread k.currentThread) ∧
      (k.thread k.currentThread).timeSliceRemain ≤ sliceOf typeno (k.thread k.currentThread)
    rw [hc₂]
    unfold sliceOf at hr₁ ⊢
    rw [(hr₂ t).1, (hr₂ t).2]
    exact hr₁

/-- `Sleep`, up to its loop. -/
theorem did_block {x x' : Scheduler.State P} (hb : Budgeted typeno x.kernel)
    (hk : x.kernel.sleep = .ok x'.kernel) (hx : ¬ Asleep x.phase) (hp : Asleep x'.phase) :
    Budgeted typeno x'.kernel ∧ Did typeno x x' := by
  obtain ⟨q, -, hk⟩ := bind_eq_ok.mp hk
  obtain hk := Except.ok.inj hk
  have hth : ∀ u, (x'.kernel.thread u).timeSliceRemain = (x.kernel.thread u).timeSliceRemain ∧
      (x'.kernel.thread u).priority = (x.kernel.thread u).priority := fun u => by
    rw [← hk]
    by_cases e : u = x.kernel.currentThread
    · subst e
      simp
    · simp [e]
  refine ⟨hb.mono (by rw [← hk]; rfl) fun u hu => ⟨?_, Int.le_of_eq (hth u).1, (hth u).2⟩,
    .goes (fun h => ?_) (by rw [← hk]; rfl) (fun _ => (hth _).1) fun _ => hx⟩
  · rw [← hk] at hu
    cases typeno <;> exact hu
  · exact absurd (h ▸ hp) not_asleep_switched

/-- `ReadyToRun` of a thread that does not run. -/
theorem did_readied {x x' : Scheduler.State P} (hb : Budgeted typeno x.kernel)
    (hk : Readied typeno t x.kernel x'.kernel)
    (ht : Fresh typeno x'.kernel t)
    (hphase : x'.phase = x.phase) (hne : ¬ Asleep x.phase → x.kernel.currentThread ≠ t) :
    Budgeted typeno x'.kernel ∧ Did typeno x x' := by
  refine ⟨hb.readied hk ht, .goes (fun h => hphase ▸ h) hk.currentThread (fun h => ?_)
    fun h => hphase ▸ h⟩
  rw [hk.thread _ (hne h)]

/-- Every operation of the scheduler keeps the budgets. -/
theorem did_next (hs : Sliced typeno) {x x' : Scheduler.State P} (hx : Scheduler.Inv typeno x)
    (hb : Budgeted typeno x.kernel) {op : Scheduler.Op P}
    (h : Scheduler.next typeno x op = .ok x') : Budgeted typeno x'.kernel ∧ Did typeno x x' := by
  unfold Scheduler.next at h
  split at h
  case isFalse =>
    cases h
    exact ⟨hb, .goes id rfl (fun _ => rfl) id⟩
  rename_i he
  have hno : typeno ≠ .priority := by
    rcases hs with rfl | rfl <;> decide
  have hblocked := (List.nodup_append.mp hx.wf.nodup).2.1
  cases op with
  | newThread t =>
    simp only [Scheduler.enabled, Scheduler.State.inCode, Bool.and_eq_true, decide_eq_true_eq,
      Bool.not_eq_true', decide_eq_false_iff_not] at he
    obtain ⟨⟨hp, -⟩, hr⟩ := he
    have hw := hx.wf_running hp
    obtain ⟨k, hk, h⟩ := bind_eq_ok.mp h
    obtain ⟨i, rfl, -⟩ := newThread_cases hk
    cases h
    have hready : Kernel.ready typeno ({ x.kernel with
        threadArray := x.kernel.threadArray.set i (some t) }.setThread t (Thread.new typeno i)) =
        x.kernel.ready typeno := by cases typeno <;> rfl
    refine ⟨hb.mono rfl fun u hu => ?_, .goes (fun h => h) rfl (fun _ => ?_) id⟩
    · rw [hready] at hu
      have hne : u ≠ t := fun e => hr (e ▸ (hw.ready u hu).1)
      simp [hu, hne]
    · have hne : x.kernel.currentThread ≠ t := fun e => hr (e ▸ (hw.away _ rfl).1)
      simp [hne]
  | setPriority t n =>
    simp only [Scheduler.enabled, Scheduler.State.inCode, Bool.and_eq_true, decide_eq_true_eq] at he
    obtain ⟨⟨⟨hp, -⟩, -⟩, hj⟩ := he
    have hw := hx.wf_running hp
    cases h
    have hready : Kernel.ready typeno (x.kernel.setThread t fun th => { th with priority := n }) =
        x.kernel.ready typeno := by cases typeno <;> rfl
    refine ⟨hb.mono rfl fun u hu => ?_, .goes (fun h => h) rfl (fun _ => ?_) id⟩
    · rw [hready] at hu
      have hne : u ≠ t := fun e => by
        have := (hw.ready u hu).2
        rw [e, hj] at this
        cases this
      simp [hu, hne]
    · have hne : x.kernel.currentThread ≠ t := fun e => (hw.away _ rfl).2.2.2 (e ▸ hj)
      simp [hne]
  | fork t =>
    simp only [Scheduler.enabled, Scheduler.State.inCode, Bool.and_eq_true, decide_eq_true_eq] at he
    obtain ⟨⟨⟨hp, -⟩, -⟩, hj⟩ := he
    obtain ⟨k, hk, h⟩ := bind_eq_ok.mp h
    cases h
    have hfresh := fresh_readyToRun (k := x.kernel.setThread t _) hs hb.queues hk
    refine did_readied hb (readied_fork hk hblocked) hfresh rfl fun _ e => ?_
    exact ((hx.wf_running hp).away _ rfl).2.2.2 (e ▸ hj)
  | forkRest =>
    simp only [Scheduler.enabled, Bool.and_eq_true, decide_eq_true_eq] at he
    obtain ⟨⟨k, b⟩, hk, h⟩ := bind_eq_ok.mp h
    unfold Kernel.forkRest at hk
    rw [if_neg hno] at hk
    cases hk
    cases h
    exact ⟨hb, .goes (fun h => by cases h) rfl (fun _ => rfl)
      fun _ => by rw [he.1]; exact not_asleep_running⟩
  | yield =>
    simp only [Scheduler.enabled, decide_eq_true_eq] at he
    obtain ⟨⟨k, b⟩, hk, h⟩ := bind_eq_ok.mp h
    cases h
    exact did_yield hs hx hb he hk
  | sleep =>
    simp only [Scheduler.enabled, Scheduler.State.inCode, decide_eq_true_eq] at he
    obtain ⟨k, hk, h⟩ := bind_eq_ok.mp h
    cases h
    exact did_block hb hk (by rw [he.1]; exact not_asleep_running) (.inr rfl)
  | finish =>
    simp only [Scheduler.enabled, Scheduler.State.inCode, decide_eq_true_eq] at he
    obtain ⟨k, hk, h⟩ := bind_eq_ok.mp h
    cases h
    exact did_block hb hk (by rw [he.1]; exact not_asleep_running) (.inl rfl)
  | dispatch =>
    simp only [Scheduler.enabled, Bool.or_eq_true, decide_eq_true_eq] at he
    obtain ⟨⟨k, b⟩, hk, h⟩ := bind_eq_ok.mp h
    cases h
    exact did_dispatch hb he hk
  | wake t =>
    simp only [Scheduler.enabled, Bool.and_eq_true, decide_eq_true_eq] at he
    obtain ⟨hp, ht⟩ := he
    obtain ⟨k, hk, h⟩ := bind_eq_ok.mp h
    cases h
    refine did_readied hb (readied_readyToRun hk hblocked) (fresh_readyToRun hs hb.queues hk) rfl
      fun ha e => ?_
    -- A thread that waits is blocked, and one that runs is not.
    refine (hx.wf.away x.kernel.currentThread ?_).2.2.1 (e ▸ (hx.waiting t ht).2.1)
    unfold Scheduler.away
    split
    · rename_i b hb'
      cases b with
      | true => exact absurd (.inl hb') ha
      | false => exact absurd (.inr hb') ha
    · rfl
  | resume =>
    simp only [Scheduler.enabled, decide_eq_true_eq] at he
    obtain ⟨k, hk, h⟩ := bind_eq_ok.mp h
    cases h
    have hkeep : k.thread = x.kernel.thread ∧ k.ready typeno = x.kernel.ready typeno ∧
        k.currentThread = x.kernel.currentThread ∧ k.threadArrQueue = x.kernel.threadArrQueue := by
      unfold checkToBeDestroyed at hk
      split at hk
      · cases hk
        exact ⟨rfl, rfl, rfl, rfl⟩
      · obtain ⟨_, -, hk⟩ := bind_eq_ok.mp hk
        cases hk
        exact ⟨rfl, by cases typeno <;> rfl, rfl, rfl⟩
    obtain ⟨hth, hready, hcur, hqueues⟩ := hkeep
    refine ⟨hb.mono (congrArg _ hqueues) fun u hu => ?_,
      .goes (fun h => by cases h) hcur (fun _ => ?_) fun _ => ?_⟩
    · rw [hready] at hu
      rw [hth]
      exact ⟨hu, Int.le_refl _, rfl⟩
    · show (k.thread _).timeSliceRemain = _
      rw [hth]
    · rw [he]
      exact not_asleep_switched

/-! ## The handlers -/

/-- What holds of the scheduler while handlers run: the thread `t` runs, with `r`
left of its slice, or is asleep. -/
structure Kept (typeno : Policy) (p : Scheduler.Phase) (t : P) (r : Int) (w : World P D) : Prop where
  inv : Scheduler.Inv typeno w.scheduler
  budgeted : Budgeted typeno w.scheduler.kernel
  phase : w.scheduler.phase = p
  current : w.scheduler.kernel.currentThread = t
  remain : ¬ Asleep p → (w.scheduler.kernel.thread t).timeSliceRemain = r

variable {dev : Devices P C D} {p : Scheduler.Phase} {r : Int} {w w' : World P D}
  {i i' : Interrupt C}

theorem phase_wake {x x' : Scheduler.State P} (h : Scheduler.next typeno x (.wake t) = .ok x') :
    x'.phase = x.phase := by
  unfold Scheduler.next at h
  split at h
  · obtain ⟨k, -, h⟩ := bind_eq_ok.mp h
    cases h
    rfl
  · cases h
    rfl

/-- `V` in a handler. -/
theorem Kept.v (hs : Sliced typeno) (h : Kept typeno p t r w) {l : IntStatus}
    (hv : (handlers typeno dev).v l u w = .ok w') : Kept typeno p t r w' := by
  obtain ⟨_, -, hv⟩ := bind_eq_ok.mp hv
  obtain ⟨x, hx, hv⟩ := bind_eq_ok.mp hv
  cases hv
  have hx := liftAbort_eq_ok.mp hx
  have hp := phase_wake hx
  obtain ⟨hb, hd⟩ := did_next hs h.inv h.budgeted hx
  cases hd with
  | goes _ hc hr _ =>
    rw [h.phase, h.current] at hr
    exact ⟨Scheduler.inv_step h.inv hx, hb, hp.trans h.phase, hc.trans h.current,
      fun ha => (hr ha).trans (h.remain ha)⟩
  | switched hn hsw _ => exact absurd (hp ▸ hsw) hn

/-- How many timer interrupts are due. -/
def dueTimers (dev : Devices P C D) (i : Interrupt C) : Nat :=
  i.pending.countP fun e => e.callOnInterrupt = dev.timer ∧ e.when ≤ i.totalTicks

/-- `i'` is `i` after calls of a handler that do not concern the timer. -/
structure Aside (dev : Devices P C D) (i i' : Interrupt C) : Prop where
  pending : pendingTimers dev i' = pendingTimers dev i
  due : dueTimers dev i' = dueTimers dev i
  status : i'.status = i.status
  yields : i'.yieldOnReturn = i.yieldOnReturn

omit [DecidableEq P] in
/-- `Schedule` of any device: what is new is not due. -/
theorem schedule_timers (dev : Devices P C D) {c : C} {n : Int} {ty : IntType}
    (h : i.schedule c n ty = .ok i') :
    pendingTimers dev i' = pendingTimers dev i + (if c = dev.timer then 1 else 0) ∧
      dueTimers dev i' = dueTimers dev i ∧ i'.status = i.status ∧
      i'.yieldOnReturn = i.yieldOnReturn := by
  obtain ⟨e, -, hc, he, rfl⟩ := Interrupt.schedule_cases h
  have hp := NList.insertWalk_perm pendingCompare e i.pending
  refine ⟨?_, ?_, rfl, rfl⟩
  · simp only [pendingTimers]
    rw [hp.countP_eq, List.countP_cons, hc]
    simp
  · simp only [dueTimers]
    rw [hp.countP_eq, List.countP_cons_of_neg]
    simp only [decide_eq_true_eq, not_and]
    omega

/-- The calls of a device other than the timer. -/
theorem Kept.deviceCalls (hs : Sliced typeno) {c : C} (hc : c ≠ dev.timer)
    {calls : List (DeviceCall P)} (hw : Kept typeno p t r w)
    (h : i.calls (handlers typeno dev) w (calls.map (·.toHandlerCall c)) = .ok (i', w')) :
    Kept typeno p t r w' ∧ Aside dev i i' := by
  induction calls generalizing i w with
  | nil =>
    cases h
    exact ⟨hw, rfl, rfl, rfl, rfl⟩
  | cons call calls ih =>
    obtain ⟨⟨i₁, w₁⟩, h₁, h⟩ := bind_eq_ok.mp h
    have hcall : Kept typeno p t r w₁ ∧ Aside dev i i₁ := by
      cases call with
      | schedule n ty =>
        obtain ⟨i₂, h₂, h₁⟩ := bind_eq_ok.mp h₁
        cases h₁
        obtain ⟨hp, hd, hst, hy⟩ := schedule_timers dev h₂
        rw [if_neg hc] at hp
        exact ⟨hw, hp, hd, hst, hy⟩
      | v u =>
        obtain rfl := Interrupt.call_v h₁
        obtain ⟨⟨i₂, _, _⟩, -, h₁⟩ := bind_eq_ok.mp h₁
        obtain ⟨w₂, hv, h₁⟩ := bind_eq_ok.mp h₁
        obtain ⟨⟨i₃, _, _⟩, -, h₁⟩ := bind_eq_ok.mp h₁
        cases h₁
        exact ⟨hw.v hs hv, rfl, rfl, rfl, rfl⟩
    obtain ⟨hw', ha⟩ := ih hcall.1 h
    exact ⟨hw', ha.pending.trans hcall.2.pending, ha.due.trans hcall.2.due,
      ha.status.trans hcall.2.status, ha.yields.trans hcall.2.yields⟩

/-- The alarm counts down. -/
theorem Kept.alarm (hw : Kept typeno p t r w) (status : MachineStatus) (d : D) :
    Kept typeno p t (r - 1)
      ⟨{ w.scheduler with kernel := (w.scheduler.kernel.alarm typeno status).1 }, d⟩ := by
  obtain ⟨f, hf⟩ : ∃ f : Thread → Thread, f = fun th =>
    { th with timeSliceRemain := th.timeSliceRemain - 1 } := ⟨_, rfl⟩
  have hk : (w.scheduler.kernel.alarm typeno status).1 = w.scheduler.kernel.setThread t f := by
    rw [← hw.current, hf]
    rfl
  have hready : (w.scheduler.kernel.setThread t f).ready typeno = w.scheduler.kernel.ready typeno := by
    cases typeno <;> rfl
  rw [hk]
  refine ⟨Scheduler.inv_setThread hw.inv (by rw [hf]; exact fun _ => ⟨rfl, rfl, rfl⟩),
    hw.budgeted.mono rfl fun u hu => ?_, hw.phase, hw.current, fun ha => ?_⟩
  · by_cases e : u = t
    · subst e
      refine ⟨hready ▸ hu, ?_, by simp [hf]⟩
      simp only [setThread_thread, Function.update_self, hf]
      omega
    · simp [e, hready ▸ hu]
  · simp [hf, hw.remain ha]

theorem callBack_timer {c : C} (hc : c = dev.timer) (status : MachineStatus) (w : World P D) :
    (handlers typeno dev).callBack status c w =
      (⟨{ w.scheduler with kernel := (w.scheduler.kernel.alarm typeno status).1 },
        (dev.randomNumber w.device).2⟩,
      (if (w.scheduler.kernel.alarm typeno status).2 then [.yieldOnReturn] else []) ++
        dev.clock.setInterrupt dev.timer (dev.randomNumber w.device).1) :=
  if_pos hc

theorem callBack_device {c : C} (hc : c ≠ dev.timer) (status : MachineStatus) (w : World P D) :
    (handlers typeno dev).callBack status c w =
      ({ w with device := (dev.callBack c w.device).1 },
      (dev.callBack c w.device).2.map (·.toHandlerCall c)) :=
  if_neg hc

/-- The calls of the timer. -/
theorem timer_calls {b : Bool} {random : Nat}
    (h : i.calls (handlers typeno dev) w ((if b then [.yieldOnReturn] else []) ++
      dev.clock.setInterrupt dev.timer random) = .ok (i', w')) :
    w' = w ∧ pendingTimers dev i' ≤ pendingTimers dev i + 1 ∧ dueTimers dev i' = dueTimers dev i ∧
      i'.status = i.status ∧ i'.yieldOnReturn = (i.yieldOnReturn || b) := by
  have hset : ∀ {j : Interrupt C}, j.calls (handlers typeno dev) w
      (dev.clock.setInterrupt dev.timer random) = .ok (i', w') →
      w' = w ∧ pendingTimers dev i' ≤ pendingTimers dev j + 1 ∧ dueTimers dev i' = dueTimers dev j ∧
        i'.status = j.status ∧ i'.yieldOnReturn = j.yieldOnReturn := fun {j} hj => by
    unfold Timer.setInterrupt at hj
    split at hj
    · cases hj
      exact ⟨rfl, Nat.le_succ _, rfl, rfl, rfl⟩
    · obtain ⟨⟨j₁, w₁⟩, h₁, hj⟩ := bind_eq_ok.mp hj
      obtain ⟨j₂, h₂, h₁⟩ := bind_eq_ok.mp h₁
      cases h₁
      cases hj
      obtain ⟨hp, hd, hst, hy⟩ := schedule_timers dev h₂
      rw [if_pos rfl] at hp
      exact ⟨rfl, Nat.le_of_eq hp, hd, hst, hy⟩
  cases b with
  | false =>
    rw [Bool.or_false]
    exact hset h
  | true =>
    obtain ⟨⟨j₁, w₁⟩, h₁, h⟩ := bind_eq_ok.mp h
    obtain ⟨j₂, h₂, h₁⟩ := bind_eq_ok.mp h₁
    obtain ⟨_, -, h₂⟩ := bind_eq_ok.mp h₂
    cases h₂
    cases h₁
    rw [Bool.or_true]
    exact hset h

/-- How many timer interrupts are among the deliveries. -/
def timers (dev : Devices P C D) (ds : List (Delivery C)) : Nat :=
  ds.countP fun d => d.interrupt.callOnInterrupt = dev.timer

/-- What the loop of `CheckIfDue` does, with `r` left of the slice before it: each
timer interrupt takes one off, and asks for a context switch once there is nothing
left. -/
structure Turned (typeno : Policy) (dev : Devices P C D) (p : Scheduler.Phase) (t : P) (r : Int)
    (i i' : Interrupt C) (w' : World P D) (ds : List (Delivery C)) : Prop where
  kept : Kept typeno p t (r - timers dev ds) w'
  pending : pendingTimers dev i' ≤ pendingTimers dev i
  due : dueTimers dev i' + timers dev ds = dueTimers dev i
  status : i'.status = i.status ∧ ∀ d ∈ ds, d.status = i.status
  yields : i.yieldOnReturn = true ∨ (0 < timers dev ds ∧ ¬ Asleep p ∧ i.status ≠ .idleMode ∧
    r - timers dev ds ≤ 0) → i'.yieldOnReturn = true

omit [DecidableEq P] in
/-- The front of the queue is taken. -/
theorem timers_cons (dev : Devices P C D) {x : PendingInterrupt C} {q : List (PendingInterrupt C)}
    (hp : i.pending = x :: q) (hx : x.when ≤ i.totalTicks) :
    pendingTimers dev i = pendingTimers dev ({ i with pending := q } : Interrupt C) +
        (if x.callOnInterrupt = dev.timer then 1 else 0) ∧
      dueTimers dev i = dueTimers dev ({ i with pending := q } : Interrupt C) +
        (if x.callOnInterrupt = dev.timer then 1 else 0) := by
  simp [pendingTimers, dueTimers, hp, hx, List.countP_cons]

/-- When the alarm asks for a context switch. -/
theorem alarm_yields (hs : Sliced typeno) (hw : Kept typeno p t r w) (ha : ¬ Asleep p)
    {status : MachineStatus} (hi : status ≠ .idleMode) (hr : r - 1 ≤ 0) :
    (w.scheduler.kernel.alarm typeno status).2 = true := by
  have hrem : ((w.scheduler.kernel.setThread t fun th =>
      { th with timeSliceRemain := th.timeSliceRemain - 1 }).thread t).timeSliceRemain ≤ 0 := by
    simp only [setThread_thread, Function.update_self, hw.remain ha]
    exact hr
  have hcur := hw.current
  subst hcur
  rcases hs with rfl | rfl
  · exact decide_eq_true ⟨hi, hrem⟩
  · exact decide_eq_true ⟨hi, hrem⟩

omit [DecidableEq P] in
theorem Turned.refl (hw : Kept typeno p t r w) : Turned typeno dev p t r i i w [] := by
  refine ⟨?_, Nat.le_refl _, rfl, ⟨rfl, fun d hd => by cases hd⟩, fun hor => ?_⟩
  · rw [timers, List.countP_nil, Int.natCast_zero, Int.sub_zero]
    exact hw
  · exact hor.elim id fun hor => absurd hor.1 (by simp [timers])

/-- One turn of the loop. -/
theorem Turned.turn (hs : Sliced typeno) {x : PendingInterrupt C} {q : List (PendingInterrupt C)}
    (hp : i.pending = x :: q) (hx : x.when ≤ i.totalTicks) (hw : Kept typeno p t r w)
    (h : { i with pending := q }.calls (handlers typeno dev)
      ((handlers typeno dev).callBack i.status x.callOnInterrupt w).1
      ((handlers typeno dev).callBack i.status x.callOnInterrupt w).2 = .ok (i', w')) (l : IntStatus) :
    Turned typeno dev p t r i i' w' [⟨x, i.totalTicks, l, i.status⟩] := by
  obtain ⟨hpend, hdue⟩ := timers_cons dev hp hx
  by_cases hc : x.callOnInterrupt = dev.timer
  · rw [callBack_timer hc] at h
    rw [if_pos hc] at hpend hdue
    have htimers : timers dev [⟨x, i.totalTicks, l, i.status⟩] = 1 := by simp [timers, hc]
    obtain ⟨rfl, hpend', hdue', hst, hy⟩ := timer_calls h
    refine ⟨?_, by omega, by omega, ⟨hst, by simp⟩, fun hor => ?_⟩
    · rw [htimers]
      exact hw.alarm i.status _
    · rw [hy]
      rcases hor with hor | ⟨-, ha, hi, hr⟩
      · rw [show ({ i with pending := q } : Interrupt C).yieldOnReturn = true from hor, Bool.true_or]
      · rw [htimers] at hr
        rw [alarm_yields hs hw ha hi hr, Bool.or_true]
  · rw [callBack_device hc] at h
    rw [if_neg hc] at hpend hdue
    have htimers : timers dev [⟨x, i.totalTicks, l, i.status⟩] = 0 := by simp [timers, hc]
    have hw' : Kept typeno p t r { w with device := (dev.callBack x.callOnInterrupt w.device).1 } :=
      ⟨hw.inv, hw.budgeted, hw.phase, hw.current, hw.remain⟩
    obtain ⟨hk, hpend', hdue', hst, hy⟩ := hw'.deviceCalls hs hc h
    refine ⟨?_, by omega, by omega, ⟨hst, by simp⟩, fun hor => ?_⟩
    · rw [htimers, Int.natCast_zero, Int.sub_zero]
      exact hk
    · rw [hy]
      exact hor.elim id fun hor => absurd hor.1 (by omega)

/-- The loop, from a state in which an interrupt is due. -/
theorem turned_deliver (hs : Sliced typeno) {n : Nat} {ds : List (Delivery C)}
    (hd : i.isDue = true) (hw : Kept typeno p t r w)
    (h : Interrupt.deliver (handlers typeno dev) n i w = .ok (i', w', ds)) :
    Turned typeno dev p t r i i' w' ds := by
  induction n generalizing i w r ds with
  | zero =>
    cases h
    exact .refl hw
  | succ n ih =>
    obtain ⟨x, q, hp, hx⟩ := Interrupt.isDue_cases hd
    rw [Interrupt.deliver_cons n hp] at h
    obtain ⟨⟨i₁, w₁⟩, h₁, h⟩ := bind_eq_ok.mp h
    have hturn := Turned.turn hs hp hx hw h₁ i.level
    by_cases hd₁ : i₁.isDue = true
    case neg =>
      rw [if_neg hd₁] at h
      cases h
      exact hturn
    case pos =>
      rw [if_pos hd₁] at h
      obtain ⟨⟨i₂, w₂, ds₁⟩, h₂, he⟩ := bind_eq_ok.mp h
      cases he
      have hrest := ih hd₁ hturn.kept h₂
      -- The interrupts of the rest come behind the one of this turn.
      have hsum : timers dev (⟨x, i.totalTicks, i.level, i.status⟩ :: ds₁) =
          timers dev [⟨x, i.totalTicks, i.level, i.status⟩] + timers dev ds₁ := by
        unfold timers
        rw [← List.countP_append]
        rfl
      have hkept := hrest.kept
      have hdue : dueTimers dev i₂ + timers dev ds₁ = dueTimers dev i₁ := hrest.due
      have hdue' := hturn.due
      show Turned typeno dev p t r i i₂ w₂ (⟨x, i.totalTicks, i.level, i.status⟩ :: ds₁)
      refine ⟨?_, hrest.pending.trans hturn.pending, by omega, ⟨?_, fun d hd => ?_⟩, fun hor => ?_⟩
      · rw [hsum, Int.natCast_add, ← Int.sub_sub]
        exact hkept
      · exact hrest.status.1.trans hturn.status.1
      · rcases List.mem_cons.mp hd with rfl | hd
        · rfl
        · exact (hrest.status.2 d hd).trans hturn.status.1
      · refine hrest.yields ?_
        rw [hturn.status.1]
        rcases hor with hor | ⟨hpos, ha, hi, hr⟩
        · exact .inl (hturn.yields (.inl hor))
        · by_cases hz : timers dev ds₁ = 0
          · exact .inl (hturn.yields (.inr ⟨by omega, ha, hi, by omega⟩))
          · exact .inr ⟨by omega, ha, hi, by omega⟩

/-! ## Runs -/

/-- The invariant of every run. -/
structure Fair (typeno : Policy) (dev : Devices P C D) (s : State P C D) : Prop where
  inv : Scheduler.Inv typeno s.world.scheduler
  budgeted : Budgeted typeno s.world.scheduler.kernel
  pending : pendingTimers dev s.int ≤ 1
  running : ¬ Asleep s.world.scheduler.phase → ∀ n, s.slice = some n →
    (s.world.scheduler.kernel.thread s.world.scheduler.kernel.currentThread).timeSliceRemain +
      s.ticks ≤ n
  bound : ∀ n, s.slice = some n → (s.ticks : Int) ≤ n ∨ s.alone = true
  requested : s.expired = true → s.yielding = true ∨ s.alone = true
  yields : s.yielding = true → s.world.scheduler.phase = .running

variable {s s' : State P C D}

omit [DecidableEq P] [DecidableEq C] in
theorem expired_iff : s.expired = true ↔ ∃ n, s.slice = some n ∧ n ≤ (s.ticks : Int) := by
  simp [State.expired, Option.any_eq_true]

/-- An operation of the scheduler. -/
theorem Fair.kernel (hs : Sliced typeno) (h : Fair typeno dev s) {op : Scheduler.Op P}
    {x : Scheduler.State P} (hx : Scheduler.next typeno s.world.scheduler op = .ok x) :
    Fair typeno dev (s.observe typeno x) := by
  obtain ⟨hb, hd⟩ := did_next hs h.inv h.budgeted hx
  have hi := Scheduler.inv_step h.inv hx
  unfold State.observe
  cases hd with
  | goes hphase hcur hrem hasleep =>
    rw [if_neg fun hc => hc.2 (hphase hc.1)]
    refine ⟨hi, hb, h.pending, fun ha n hn => ?_, fun n hn => ?_, fun he => ?_, fun hy => (by cases hy)⟩
    · have := h.running (hasleep ha) n hn
      simp only [hcur, hrem (hasleep ha)]
      exact this
    · exact (h.bound n hn).imp id fun ha => by simp [ha]
    · right
      have he : s.expired = true := he
      rcases h.requested he with hy | ha
      · simp [hy, he]
      · simp [ha]
  | switched hbefore hphase hrem =>
    rw [if_pos ⟨hphase, hbefore⟩]
    refine ⟨hi, hb, h.pending, fun _ n hn => ?_, fun n hn => ?_, fun he => ?_, fun hy => (by cases hy)⟩
    · cases hn
      simpa using hrem.2
    · cases hn
      exact .inl (Int.le_of_lt hrem.1)
    · obtain ⟨n, hn, hle⟩ := expired_iff.mp he
      cases hn
      exact absurd hrem.1 (Int.not_lt.mpr hle)

omit [DecidableEq P] in
/-- The state of the handlers when they start. -/
theorem Fair.kept (h : Fair typeno dev s) : Kept typeno s.world.scheduler.phase
    s.world.scheduler.kernel.currentThread
    (s.world.scheduler.kernel.thread s.world.scheduler.kernel.currentThread).timeSliceRemain s.world :=
  ⟨h.inv, h.budgeted, rfl, rfl, fun _ => rfl⟩

/-- What a call of `CheckIfDue` does, if not nothing. -/
theorem turned_checkIfDue (hs : Sliced typeno) {adv b : Bool} {ds : List (Delivery C)}
    (hw : Kept typeno p t r w)
    (h : i.checkIfDue (handlers typeno dev) adv w = .ok (i', w', ds, b)) :
    ∃ j, pendingTimers dev j = pendingTimers dev i ∧ j.status = i.status ∧
      j.yieldOnReturn = i.yieldOnReturn ∧ Turned typeno dev p t r j i' w' ds := by
  unfold Interrupt.checkIfDue at h
  cases hp : i.pending with
  | nil =>
    unfold Interrupt.checkIfDueWithin at h
    obtain ⟨_, -, h⟩ := bind_eq_ok.mp h
    simp only [hp] at h
    cases h
    exact ⟨i, rfl, rfl, rfl, .refl hw⟩
  | cons x q =>
    rw [Interrupt.checkIfDueWithin_cons _ adv hp] at h
    obtain ⟨_, -, h⟩ := bind_eq_ok.mp h
    split at h
    · cases h
      exact ⟨i, rfl, rfl, rfl, .refl hw⟩
    · obtain ⟨⟨i₁, w₁, ds₁⟩, h₁, h⟩ := bind_eq_ok.mp h
      cases h
      have hturned := turned_deliver hs (Interrupt.isDue_enter hp) hw h₁
      refine ⟨i.enter x, ?_, ?_, ?_, hturned.kept, hturned.pending, hturned.due, hturned.status,
        hturned.yields⟩
      · unfold pendingTimers
        rw [(i.enter_eq x).1]
      · unfold Interrupt.enter
        split <;> rfl
      · unfold Interrupt.enter
        split <;> rfl

omit [DecidableEq P] in
theorem Turned.timerTicks_eq {ds : List (Delivery C)} (h : Turned typeno dev p t r i i' w ds) :
    timerTicks dev ds = if i.status = .idleMode then 0 else timers dev ds := by
  unfold timerTicks timers
  split
  · rename_i hi
    refine List.countP_eq_zero.mpr fun d hd => ?_
    simp [h.status.2 d hd, hi]
  · rename_i hi
    refine List.countP_congr fun d hd => ?_
    simp [h.status.2 d hd, hi]

omit [DecidableEq P] in
/-- In one call of `CheckIfDue` the timer goes off once at most. -/
theorem Turned.timers_le {ds : List (Delivery C)} (h : Turned typeno dev p t r i i' w ds)
    (hi : pendingTimers dev i ≤ 1) : timers dev ds ≤ 1 := by
  have hle : dueTimers dev i ≤ pendingTimers dev i :=
    List.countP_mono_left fun e _ he => by
      simp only [decide_eq_true_eq] at he ⊢
      exact he.1
  have := h.due
  omega

/-- `OneTick` of the running thread. -/
theorem Fair.oneTick (hs : Sliced typeno) (h : Fair typeno dev s) (hy : s.yielding = false)
    (hp : s.world.scheduler.phase = .running) {ds : List (Delivery C)} {b : Bool}
    (ho : s.int.oneTick (handlers typeno dev) s.world = .ok (i, w, ds, b)) :
    Fair typeno dev
        { s with world := w, int := i, yielding := b, ticks := s.ticks + timerTicks dev ds } ∧
      ∀ n, s.slice = some n → 0 < timerTicks dev ds → n ≤ ((s.ticks + timerTicks dev ds : Nat) : Int) →
        b = true := by
  obtain ⟨_, -, ho⟩ := bind_eq_ok.mp ho
  obtain ⟨⟨i₁, w₁, ds₁, b₁⟩, h₁, ho⟩ := bind_eq_ok.mp ho
  obtain ⟨j, hpend, hstatus, hyield, hturned⟩ := turned_checkIfDue hs h.kept h₁
  have hdone : ds₁ = ds ∧ w₁ = w ∧ b = i₁.yieldOnReturn ∧ i.pending = i₁.pending := by
    dsimp only at ho
    split at ho
    · rename_i hb
      cases ho
      exact ⟨rfl, rfl, hb.symm, rfl⟩
    · rename_i hb
      cases ho
      exact ⟨rfl, rfl, (Bool.eq_false_iff.mpr hb).symm, rfl⟩
  obtain ⟨rfl, rfl, rfl, hpending⟩ := hdone
  have hpj : pendingTimers dev j ≤ 1 := hpend.trans_le h.pending
  have hone := hturned.timers_le hpj
  have hticks := hturned.timerTicks_eq
  have hle : timerTicks dev ds₁ ≤ timers dev ds₁ := by
    rw [hticks]
    split <;> omega
  have ha : ¬ Asleep s.world.scheduler.phase := by
    rw [hp]
    exact not_asleep_running
  have hrem := hturned.kept.remain ha
  have hrun := h.running ha
  have hyields : ∀ n, s.slice = some n → 0 < timerTicks dev ds₁ →
      n ≤ ((s.ticks + timerTicks dev ds₁ : Nat) : Int) → i₁.yieldOnReturn = true := by
    intro n hn hpos hle'
    have hmode : j.status ≠ .idleMode := fun e => by
      rw [hticks, if_pos e] at hpos
      cases hpos
    rw [if_neg hmode] at hticks
    have := hrun n hn
    exact hturned.yields (.inr ⟨by omega, ha, hmode, by omega⟩)
  -- Before the tick the slice was over only for a thread that was alone.
  have hbefore : ∀ n, s.slice = some n → n ≤ (s.ticks : Int) → s.alone = true := fun n hn hle' =>
    (h.requested (expired_iff.mpr ⟨n, hn, hle'⟩)).resolve_left (by simp [hy])
  refine ⟨⟨hturned.kept.inv, hturned.kept.budgeted, ?_, fun _ n hn => ?_, fun n hn => ?_, fun he => ?_,
    fun _ => hturned.kept.phase.trans hp⟩, hyields⟩
  · have : pendingTimers dev i = pendingTimers dev i₁ := by rw [pendingTimers, hpending]; rfl
    have := hturned.pending
    simp only
    omega
  · have := hrun n hn
    simp only [hturned.kept.current, hrem]
    omega
  · by_cases hlt : (s.ticks : Int) < n
    · left
      simp only
      omega
    · exact .inr (hbefore n hn (by omega))
  · obtain ⟨n, hn, hle'⟩ := expired_iff.mp he
    by_cases hz : timerTicks dev ds₁ = 0
    · right
      refine hbefore n hn ?_
      simpa [hz] using hle'
    · exact .inl (hyields n hn (by omega) hle')

/-- `Idle`. -/
theorem Fair.idle (hs : Sliced typeno) (h : Fair typeno dev s) (ha : Asleep s.world.scheduler.phase)
    {ds : List (Delivery C)} {b : Bool}
    (ho : s.int.idle (handlers typeno dev) s.world = .ok (i, w, ds, b)) :
    Fair typeno dev { s with world := w, int := i, ticks := s.ticks + timerTicks dev ds } := by
  obtain ⟨⟨i₁, w₁, ds₁, b₁⟩, h₁, ho⟩ := bind_eq_ok.mp ho
  obtain ⟨j, hpend, hstatus, -, hturned⟩ := turned_checkIfDue hs h.kept h₁
  have hdone : ds₁ = ds ∧ w₁ = w ∧ i.pending = i₁.pending := by
    dsimp only at ho
    split at ho
    all_goals
      cases ho
      exact ⟨rfl, rfl, rfl⟩
  obtain ⟨rfl, rfl, hpending⟩ := hdone
  have hzero : timerTicks dev ds₁ = 0 := by
    rw [hturned.timerTicks_eq, if_pos hstatus]
  rw [hzero]
  refine ⟨hturned.kept.inv, hturned.kept.budgeted, ?_, fun hn => ?_, h.bound, h.requested,
    fun hy => hturned.kept.phase.trans (h.yields hy)⟩
  · have : pendingTimers dev i = pendingTimers dev i₁ := by rw [pendingTimers, hpending]; rfl
    have h₂ : pendingTimers dev j = pendingTimers dev s.int := hpend
    have := hturned.pending
    have := h.pending
    simp only
    omega
  · exact absurd (by rw [hturned.kept.phase]; exact ha) hn

/-- One operation keeps the invariant. -/
theorem Fair.next (hs : Sliced typeno) (h : Fair typeno dev s) {op : Op P C D}
    (hn : next typeno dev s op = .ok s') : Fair typeno dev s' := by
  unfold Quantum.next at hn
  by_cases hy : (s.yielding && !op.isYield) = true
  · rw [if_pos hy] at hn
    cases hn
    exact h
  rw [if_neg hy] at hn
  cases op with
  | kernel op =>
    obtain ⟨x, hx, hn⟩ := bind_eq_ok.mp hn
    cases hn
    exact h.kernel hs (liftAbort_eq_ok.mp hx)
  | oneTick =>
    have hy : s.yielding = false := by simpa [Op.isYield] using hy
    simp only [exec] at hn
    split at hn
    · rename_i hp
      obtain ⟨⟨i, w, ds, b⟩, ho, hn⟩ := bind_eq_ok.mp hn
      cases hn
      exact (h.oneTick hs hy hp ho).1
    · cases hn
      exact h
  | idle =>
    simp only [exec] at hn
    split at hn
    · rename_i hp
      obtain ⟨⟨i, w, ds, b⟩, ho, hn⟩ := bind_eq_ok.mp hn
      dsimp only at hn
      split at hn <;> [skip; cases hn]
      cases hn
      exact h.idle hs hp.1 ho
    · cases hn
      exact h
  | schedule c n ty =>
    simp only [exec] at hn
    split at hn
    · cases hn
      exact h
    · rename_i hc
      obtain ⟨i, hi, hn⟩ := bind_eq_ok.mp hn
      cases hn
      obtain ⟨hp, -⟩ := schedule_timers dev hi
      refine ⟨h.inv, h.budgeted, ?_, h.running, h.bound, h.requested, h.yields⟩
      have := h.pending
      simp only
      by_cases e : c = dev.timer
      · rw [if_pos e] at hp
        have : pendingTimers dev s.int = 0 := by
          by_contra hne
          exact hc ⟨e, hne⟩
        omega
      · rw [if_neg e] at hp
        omega
  | setStatus status =>
    cases hn
    exact ⟨h.inv, h.budgeted, h.pending, h.running, h.bound, h.requested, h.yields⟩
  | device d =>
    cases hn
    exact ⟨h.inv, h.budgeted, h.pending, h.running, h.bound, h.requested, h.yields⟩

theorem fair_init (typeno : Policy) (dev : Devices P C D) (mem : P → Thread) (main : P) (d : D) :
    Fair typeno dev (start typeno mem main d) := by
  have hready : (initializeKernel typeno mem main).ready typeno = [] := by
    cases typeno <;> rfl
  refine ⟨Scheduler.inv_init typeno mem main, ⟨rfl, fun t ht => ?_⟩, Nat.zero_le _,
    fun _ n hn => (by cases hn), fun n hn => (by cases hn), fun he => (by cases he),
    fun hy => (by cases hy)⟩
  rw [show (start typeno mem main d : State P C D).world.scheduler.kernel.ready typeno = [] from hready]
    at ht
  cases ht

omit [DecidableEq P] in
/-- `FindNextToRun` returns the front. -/
theorem findNextToRun_front (hf : k.getReadyListFront typeno = some t) :
    ∃ k', k.findNextToRun typeno = some (t, k') := by
  cases typeno with
  | feedback =>
    obtain ⟨⟨u, q⟩, hq, he⟩ := Option.map_eq_some_iff.mp hf
    cases he
    exact ⟨_, by rw [findNextToRun, hq]; rfl⟩
  | fifo | timeSlice | priority =>
    obtain ⟨q, hq⟩ := List.head?_eq_some_iff.mp hf
    exact ⟨_, by simp only [findNextToRun, hq]; rfl⟩

/-- `Yield` runs the thread at the front of the ready queue. -/
theorem yield_switches {x x' : Scheduler.State P} (hp : x.phase = .running)
    (hf : x.kernel.getReadyListFront typeno = some t)
    (h : Scheduler.next typeno x .yield = .ok x') :
    x'.phase = .switched ∧ x'.kernel.currentThread = t := by
  unfold Scheduler.next at h
  rw [if_pos (by simp [Scheduler.enabled, hp])] at h
  obtain ⟨⟨k, b⟩, hk, h⟩ := bind_eq_ok.mp h
  cases h
  obtain ⟨k₁, hf⟩ := findNextToRun_front hf
  simp only [Kernel.yield, hf] at hk
  obtain ⟨k₂, -, hk⟩ := bind_eq_ok.mp hk
  obtain ⟨k₃, h₃, hk⟩ := bind_eq_ok.mp hk
  cases hk
  rw [run_eq h₃]
  exact ⟨rfl, rfl⟩

theorem Fair.bounded (hs : Sliced typeno) (h : Fair typeno dev s) : Bounded typeno dev s := by
  refine ⟨h.bound, fun s' n hn hlt hsl hle => ?_, fun op s' hy hn => ?_, fun s' t hy hn hf => ?_⟩
  · unfold Quantum.next at hn
    by_cases hy : s.yielding = true
    · rw [if_pos (by simp [hy, Op.isYield])] at hn
      cases hn
      exact hy
    rw [if_neg (by simp [hy])] at hn
    simp only [exec] at hn
    split at hn
    · rename_i hp
      obtain ⟨⟨i, w, ds, b⟩, ho, hn⟩ := bind_eq_ok.mp hn
      cases hn
      exact (h.oneTick hs (by simpa using hy) hp ho).2 n hsl (by simpa using hlt) hle
    · cases hn
      exact absurd hlt (Nat.lt_irrefl _)
  · unfold Quantum.next at hn
    by_cases hop : op.isYield = true
    · exact .inl hop
    · rw [if_pos (by simp [hy, hop])] at hn
      exact .inr (Except.ok.inj hn).symm
  · unfold Quantum.next at hn
    rw [if_neg (by simp [Op.isYield])] at hn
    obtain ⟨x, hx, hn⟩ := bind_eq_ok.mp hn
    cases hn
    have hsw := yield_switches (h.yields hy) hf (liftAbort_eq_ok.mp hx)
    have hobs : (s.observe typeno x).world.scheduler = x := by
      unfold State.observe
      split <;> rfl
    rw [hobs]
    exact hsw

/-- With `typeno` 2 and 3, in every state that is reached from `Initialize`, the
quantum is bounded. -/
theorem reachable_bounded_quantum (typeno : Policy) (hs : typeno = .timeSlice ∨ typeno = .feedback)
    (dev : Devices P C D) (mem : P → Thread) (main : P) (d : D) {s : State P C D}
    (h : (system typeno dev mem main d).Reachable s) : Bounded typeno dev s := by
  have hfair : Fair typeno dev s := h.invariant (I := Fair typeno dev)
    (fun s₀ h₀ => by rw [h₀]; exact fair_init typeno dev mem main d)
    (fun s₁ op s₂ h₁ hn => h₁.next hs hn)
  exact hfair.bounded hs

/-- The timer, and no other device. -/
def onlyTimer : Devices Nat Unit Unit where
  timer := ()
  clock := ⟨false, false⟩
  randomNumber d := (0, d)
  callBack _ d := (d, [])

/-- A thread that `main` forks has had its slice of three timer interrupts, and
`main` is ready. -/
theorem reachable_bounded_quantum_expired :
    ∃ s, (system .timeSlice onlyTimer (fun _ => Scheduler.blank) 0 ()).Reachable s ∧
      s.world.scheduler.kernel.currentThread = 1 ∧ s.slice = some 3 ∧ s.ticks = 3 ∧
      s.yielding = true ∧
      s.world.scheduler.kernel.getReadyListFront .timeSlice = some 0 ∧
      Bounded .timeSlice onlyTimer s := by
  obtain ⟨s, hr, hp⟩ := System.exists_reachable
    (start .timeSlice (fun _ => Scheduler.blank) 0 ()) (next .timeSlice onlyTimer)
    ([.schedule () 100 .timerInt, .kernel (.newThread 1), .kernel (.fork 1), .kernel .forkRest,
      .kernel .yield, .kernel .resume, .setStatus .systemMode] ++ List.replicate 30 .oneTick)
    (p := fun s => s.world.scheduler.kernel.currentThread = 1 ∧ s.slice = some 3 ∧ s.ticks = 3 ∧
      s.yielding = true ∧ s.world.scheduler.kernel.getReadyListFront .timeSlice = some 0)
    (by decide +kernel)
  obtain ⟨hc, hsl, ht, hy, hf⟩ := of_decide_eq_true hp
  exact ⟨s, hr, hc, hsl, ht, hy, hf, reachable_bounded_quantum _ (.inl rfl) _ _ _ _ hr⟩

end Proof.Quantum

end Nachos

import Mathlib.Tactic.Common
import Nachos.Framework.Outcome
import Nachos.Impl.Threads.Routine
import Nachos.Proof.Threads.Scheduler

/-!
# The interrupt level over all runs

Any number of threads, each with its own stack of routines, over the one interrupt
level. `Expects fs l` says that a thread may go on with the frames `fs` under the
level `l`: what is saved on the stack puts the level back before each return, and
what comes from `SWITCH` is to find `IntOff`. In every state it holds of the
running thread and the level, and of every other thread and `IntOff` (`Inv`).

So every routine returns with the level of its call, handlers run with `IntOff`
and no assertion on the level fails (`reachable_disciplined`).
-/

namespace Nachos

open Framework

theorem never_assertLevel {p : Prop} [Decidable p] (h : p) :
    Never .level (assertLevel p) fun _ => True := by
  rw [assertLevel_of h]
  exact .ok trivial

theorem never_liftAbort {α : Type} (x : Except Abort α) :
    Never .level (liftAbort x) fun a => x = .ok a :=
  ⟨liftAbort_ne_level, fun _ ha => liftAbort_eq_ok.mp ha⟩

/-! ## Interrupts -/

namespace Interrupt

variable {C S W : Type} [DecidableEq C]

/-- Nothing in a handler looks at the level but to find it `IntOff`, and `K` is
kept. -/
structure Quiet (H : Handlers C S W) (K : W → Prop) : Prop where
  callBack : ∀ st c w, K w → K (H.callBack st c w).1
  v : ∀ s w, K w → Never .level (H.v .off s w) K

/-- In a handler. -/
def InHandler (i : Interrupt C) : Prop := i.level = .off ∧ i.inHandler = true

/-- Outside the handlers. -/
def Outside (l : IntStatus) (i : Interrupt C) : Prop := i.level = l ∧ i.inHandler = false

variable {H : Handlers C S W} {K : W → Prop} {i : Interrupt C} {w : W}

omit [DecidableEq C] in
/-- `SetLevel`, outside the handlers or to `IntOff`. -/
theorem never_setLevel {now : IntStatus} (h : now = .off ∨ i.inHandler = false) :
    Never .level (i.setLevel now) fun r =>
      r = (i.changeLevel now, i.level, decide (now = .on ∧ i.level = .off)) := by
  unfold setLevel
  refine (never_assertLevel h).bind fun _ _ => .ok ?_
  simp

theorem never_schedule (i : Interrupt C) (c : C) (n : Int) (ty : IntType) :
    Never .level (i.schedule c n ty) fun i' => i'.level = i.level ∧ i'.inHandler = i.inHandler := by
  unfold schedule
  refine (never_liftAbort _).bind fun _ _ => (never_liftAbort _).bind fun _ _ =>
    (never_liftAbort _).bind fun _ _ => .ok ⟨rfl, rfl⟩

theorem never_call (hq : Quiet H K) (hi : InHandler i) (hw : K w) (c : HandlerCall C S) :
    Never .level (i.call H w c) fun r => InHandler r.1 ∧ K r.2 := by
  cases c with
  | schedule c n ty =>
    refine (never_schedule i c n ty).bind fun i' hi' => .ok ⟨?_, hw⟩
    exact ⟨hi'.1.trans hi.1, hi'.2.trans hi.2⟩
  | v s =>
    refine (never_setLevel (.inl rfl)).bind fun r hr => ?_
    subst hr
    refine (hq.v s w hw).bind fun w' hw' => ?_
    refine (never_setLevel (.inl hi.1)).bind fun r hr => ?_
    subst hr
    exact .ok ⟨hi, hw'⟩
  | yieldOnReturn =>
    refine Never.bind (R := InHandler) ?_ fun i' hi' => .ok ⟨hi', hw⟩
    exact (never_assertLevel hi.2).bind fun _ _ => .ok hi

theorem never_calls (hq : Quiet H K) (hi : InHandler i) (hw : K w) (cs : List (HandlerCall C S)) :
    Never .level (i.calls H w cs) fun r => InHandler r.1 ∧ K r.2 := by
  induction cs generalizing i w with
  | nil => exact .ok ⟨hi, hw⟩
  | cons c cs ih => exact (never_call hq hi hw c).bind fun r hr => ih hr.1 hr.2

/-- The handlers are called with `IntOff`. -/
theorem never_deliver (hq : Quiet H K) (hi : InHandler i) (hw : K w) (n : Nat) :
    Never .level (deliver H n i w) fun r =>
      InHandler r.1 ∧ K r.2.1 ∧ ∀ d ∈ r.2.2, d.level = .off := by
  induction n generalizing i w with
  | zero => exact .ok ⟨hi, hw, nofun⟩
  | succ n ih =>
    unfold deliver
    refine (never_liftAbort _).bind fun x _ => ?_
    have hi' : InHandler { i with pending := x.2 } := hi
    refine (never_calls hq hi' (hq.callBack i.status x.1.callOnInterrupt w hw) _).bind fun r hr => ?_
    refine .ite (fun _ => ?_) fun _ => ?_
    · refine (ih hr.1 hr.2).bind fun r' hr' => .ok ⟨hr'.1, hr'.2.1, fun d hd => ?_⟩
      rcases List.mem_cons.mp hd with rfl | hd
      · exact hi.1
      · exact hr'.2.2 d hd
    · refine .ok ⟨hr.1, hr.2, fun d hd => ?_⟩
      rw [List.mem_singleton.mp hd]
      exact hi.1

theorem never_checkIfDue (hq : Quiet H K) (hi : Outside .off i) (hw : K w) (adv : Bool) :
    Never .level (i.checkIfDue H adv w) fun r =>
      Outside .off r.1 ∧ K r.2.1 ∧ ∀ d ∈ r.2.2.1, d.level = .off := by
  unfold checkIfDue checkIfDueWithin
  refine (never_assertLevel hi.1).bind fun _ _ => ?_
  split
  · exact .ok ⟨hi, hw, nofun⟩
  · rename_i x q _
    refine .ite (fun _ => .ok ⟨hi, hw, nofun⟩) fun _ => ?_
    refine (never_deliver hq ?_ hw _).bind fun r hr => .ok ⟨⟨hr.1.1, rfl⟩, hr.2⟩
    refine ⟨?_, rfl⟩
    simp only
    split <;> exact hi.1

theorem never_oneTick (hq : Quiet H K) (hi : i.inHandler = false) (hw : K w) :
    Never .level (i.oneTick H w) fun r =>
      Outside .on r.1 ∧ K r.2.1 ∧ ∀ d ∈ r.2.2.1, d.level = .off := by
  unfold oneTick
  refine (never_liftAbort _).bind fun _ _ => ?_
  refine Never.bind (never_checkIfDue hq ?_ hw false) fun r hr => ?_
  · exact ⟨rfl, hi⟩
  refine .ite (fun _ => ?_) fun _ => ?_
  all_goals exact .ok ⟨⟨rfl, hr.1.2⟩, hr.2⟩

theorem never_idle (hq : Quiet H K) (hi : Outside .off i) (hw : K w) :
    Never .level (i.idle H w) fun r =>
      Outside .off r.1 ∧ K r.2.1 ∧ ∀ d ∈ r.2.2.1, d.level = .off := by
  unfold idle
  refine (never_checkIfDue hq ?_ hw true).bind fun r hr => ?_
  · exact hi
  · refine .ite (fun _ => ?_) fun _ => ?_
    all_goals exact .ok hr

end Interrupt

/-! ## Who runs -/

namespace Kernel

variable {P : Type} [DecidableEq P] {typeno : Policy} {k k' : Kernel P} {t : P}

theorem currentThread_enqueue (h : enqueue typeno k t = .ok k') :
    k'.currentThread = k.currentThread := by
  cases typeno with
  | fifo | timeSlice | priority =>
    obtain ⟨q, -, h⟩ := bind_eq_ok.mp h
    cases h
    rfl
  | feedback =>
    obtain ⟨_, -, h⟩ := bind_eq_ok.mp h
    obtain ⟨q, -, h⟩ := bind_eq_ok.mp h
    cases h
    rfl

theorem currentThread_readyToRun (h : readyToRun typeno k t = .ok k') :
    k'.currentThread = k.currentThread := by
  obtain ⟨b, -, h⟩ := bind_eq_ok.mp h
  rw [currentThread_enqueue (k := { k with blockList := b }.setThread t _) h]
  rfl

theorem currentThread_fork (h : k.fork typeno t = .ok k') : k'.currentThread = k.currentThread :=
  currentThread_readyToRun (k := k.setThread t _) h

theorem currentThread_sleep (h : k.sleep = .ok k') : k'.currentThread = k.currentThread := by
  obtain ⟨q, -, h⟩ := bind_eq_ok.mp h
  cases h
  rfl

theorem currentThread_checkToBeDestroyed (h : k.checkToBeDestroyed = .ok k') :
    k'.currentThread = k.currentThread := by
  unfold checkToBeDestroyed at h
  split at h
  · cases h
    rfl
  · obtain ⟨_, -, h⟩ := bind_eq_ok.mp h
    cases h
    rfl

theorem currentThread_newThread (h : newThread typeno k t = .ok k') :
    k'.currentThread = k.currentThread := by
  obtain ⟨i, rfl, -⟩ := newThread_cases h
  rfl

end Kernel

/-! ## Frames -/

variable {P S C D : Type} [DecidableEq P]

/-- A thread may go on with these frames under this level. -/
def Expects : List (Frame P S) → IntStatus → Prop
  | [], _ => True
  | .setLevel now :: fs, _ => Expects fs now
  | .p _ :: fs, l | .sleep _ :: fs, l | .resume :: fs, l => l = .off ∧ Expects fs .off
  | .begin :: fs, l => l = .off ∧ Expects fs .on
  | .ret _ l' :: fs, l => l = l' ∧ Expects fs l
  | .call _ :: fs, l | .setStatus _ :: fs, l | .setHolder _ :: fs, l | .forkRest :: fs, l => Expects fs l

namespace Machine

/-- The running thread goes on under the level, and each of the others would under
`IntOff`. -/
structure Inv (m : Machine P S C D) : Prop where
  outside : m.int.inHandler = false
  current : Expects (m.stack m.current) m.int.level
  others : ∀ t, t ≠ m.current → Expects (m.stack t) .off
  handlers : ∀ d ∈ m.delivered, d.level = .off

variable {typeno : Policy} {cb : DeviceHandlers P S C D} {m : Machine P S C D}
  {fs : List (Frame P S)} {t : P}

/-- Everything but the stack of the running thread is as it should be. -/
structure Rest (m : Machine P S C D) (t : P) (l : IntStatus) : Prop where
  outside : Interrupt.Outside l m.int
  current : m.current = t
  others : ∀ u, u ≠ t → Expects (m.stack u) .off
  handlers : ∀ d ∈ m.delivered, d.level = .off

/-- What a step of `t` leaves: another thread runs only with the level off. -/
def Stepped (t : P) (m : Machine P S C D) : Prop := Inv m ∧ (m.current ≠ t → m.int.level = .off)

theorem Rest.goOn {l : IntStatus} (h : Rest m t l) (hf : Expects fs l) : Stepped t (m.goOn t fs) := by
  refine ⟨⟨h.outside.2, ?_, fun u hu => ?_, h.handlers⟩, fun hne => absurd h.current hne⟩
  · show Expects (Function.update m.stack t fs m.current) m.int.level
    rw [h.current, Function.update_self, h.outside.1]
    exact hf
  · show Expects (Function.update m.stack t fs u) .off
    rw [Function.update_of_ne (h.current ▸ hu)]
    exact h.others u (h.current ▸ hu)

omit [DecidableEq P] in
theorem Inv.rest (h : Inv m) : Rest m m.current m.int.level :=
  ⟨⟨rfl, h.outside⟩, rfl, h.others, h.handlers⟩

omit [DecidableEq P] in
theorem Rest.setKernel {l : IntStatus} {k : Kernel P} (h : Rest m t l)
    (hk : k.currentThread = m.current) : Rest (m.setKernel k) t l :=
  ⟨h.outside, hk.trans h.current, h.others, h.handlers⟩

omit [DecidableEq P] in
/-- `SetLevel(IntOff)` at the start of a routine. -/
theorem Rest.off {l : IntStatus} (h : Rest m t l) :
    Rest { m with int := m.int.changeLevel .off } t .off :=
  ⟨⟨rfl, h.outside.2⟩, h.current, h.others, h.handlers⟩

/-- `SWITCH`, with the level off: whoever comes next expects that. -/
theorem never_run (h : Rest m t .off) (u : P) (finishing : Bool) (hf : Expects fs .off) :
    Never .level (m.run u finishing fs) (Stepped t) := by
  unfold run
  refine (never_assertLevel h.outside.1).bind fun _ _ => ?_
  refine (never_liftAbort _).bind fun k hk => .ok ⟨?_, fun _ => h.outside.1⟩
  -- Every thread goes on under `IntOff`, the one that runs now too.
  have hall : ∀ v, Expects (Function.update m.stack t (.resume :: fs) v) .off := fun v => by
    by_cases e : v = t
    · rw [e, Function.update_self]
      exact ⟨rfl, hf⟩
    · rw [Function.update_of_ne e]
      exact h.others v e
  rw [h.current]
  refine ⟨h.outside.2, ?_, fun v _ => hall v, h.handlers⟩
  show Expects _ m.int.level
  rw [h.outside.1]
  exact hall _

omit [DecidableEq P] in
theorem never_findNextToRun (h : Rest m t .off) :
    Never .level (m.findNextToRun typeno) fun r => ∀ u m', r = some (u, m') → Rest m' t .off := by
  unfold findNextToRun
  refine (never_assertLevel h.outside.1).bind fun _ _ => .ok fun u m' hr => ?_
  obtain ⟨⟨v, k⟩, hk, he⟩ := Option.map_eq_some_iff.mp hr
  cases he
  exact h.setKernel (Kernel.taken_findNextToRun hk).currentThread

theorem never_readyToRun (h : Rest m t .off) (u : P) :
    Never .level (m.readyToRun typeno u) fun m' => Rest m' t .off := by
  unfold readyToRun
  refine (never_assertLevel h.outside.1).bind fun _ _ => ?_
  exact (never_liftAbort _).bind fun k hk =>
    .ok (h.setKernel (Kernel.currentThread_readyToRun hk))

theorem never_yield (h : Rest m t .off) {l : IntStatus} (hf : Expects fs l) :
    Never .level (m.yield typeno l fs) (Stepped t) := by
  unfold yield
  refine (never_findNextToRun h).bind fun r hr => ?_
  split
  · refine .ok ?_
    rw [h.current]
    exact h.goOn hf
  · rename_i u m'
    refine (never_readyToRun (hr u m' rfl) _).bind fun m'' hm => ?_
    exact never_run hm u false hf

theorem never_sleep (h : Rest m t .off) (finishing : Bool) (hf : Expects fs .off) :
    Never .level (m.sleep finishing fs) (Stepped t) := by
  unfold sleep
  refine (never_assertLevel h.outside.1).bind fun _ _ => (never_liftAbort _).bind fun k hk => .ok ?_
  rw [h.current]
  exact (h.setKernel (Kernel.currentThread_sleep hk)).goOn ⟨rfl, hf⟩

section
variable [DecidableEq S]

/-- `V` without its two `SetLevel`, with the level off. -/
theorem never_v {w : World P S D} (hw : w.kernel.currentThread = t) (s : S) :
    Never .level (World.v typeno .off s w) fun w' => w'.kernel.currentThread = t := by
  unfold World.v
  dsimp only
  split
  · exact .ok hw
  · refine (never_assertLevel rfl).bind fun _ _ => ?_
    exact (never_liftAbort _).bind fun k hk =>
      .ok ((Kernel.currentThread_readyToRun hk).trans hw)

/-- Handlers neither switch nor look at the level. -/
theorem quiet_handlers (t : P) :
    Interrupt.Quiet (handlers typeno cb) fun w : World P S D => w.kernel.currentThread = t where
  callBack _ _ _ hw := hw
  v s _ hw := never_v hw s

/-- A routine starts. -/
theorem never_enter {l : IntStatus} (h : Rest m t l) (hf : Expects fs l) (f : Routine P S) :
    Never .level (enter typeno m fs f) (Stepped t) := by
  have hset : Never .level (m.int.setLevel .off) fun r =>
      r = (m.int.changeLevel .off, l, false) := by
    refine (Interrupt.never_setLevel (.inl rfl)).mono fun r hr => ?_
    rw [hr, h.outside.1]
    simp
  cases f with
  | p s =>
    refine hset.bind fun r hr => ?_
    subst hr
    refine .ok ?_
    rw [h.current]
    exact h.off.goOn ⟨rfl, hf⟩
  | v s =>
    refine hset.bind fun r hr => ?_
    subst hr
    refine (never_v h.current s).bind fun w hw => .ok ?_
    rw [h.current]
    exact Rest.goOn ⟨⟨rfl, h.outside.2⟩, hw, h.others, h.handlers⟩ hf
  | acquire s =>
    refine .ok ?_
    rw [h.current]
    exact h.goOn hf
  | release s =>
    refine (never_liftAbort _).bind fun _ _ => .ok ?_
    rw [h.current]
    exact Rest.goOn ⟨h.outside, h.current, h.others, h.handlers⟩ hf
  | yield =>
    refine hset.bind fun r hr => ?_
    subst hr
    exact never_yield h.off hf
  | fork u =>
    refine hset.bind fun r hr => ?_
    subst hr
    refine (never_assertLevel rfl).bind fun _ _ => (never_liftAbort _).bind fun k hk => .ok ?_
    rw [h.current]
    refine Rest.goOn ⟨⟨rfl, h.outside.2⟩, ?_, fun v hv => ?_, h.handlers⟩ hf
    · exact (Kernel.currentThread_fork hk).trans h.current
    · show Expects (Function.update m.stack u [.begin] v) .off
      by_cases e : v = u
      · rw [e, Function.update_self]
        exact ⟨rfl, trivial⟩
      · rw [Function.update_of_ne e]
        exact h.others v hv

variable [DecidableEq C]

/-- `OneTick` of the running thread. -/
theorem never_oneTick {l : IntStatus} (h : Rest m t l) (hf : Expects fs .on) :
    Never .level (oneTick typeno cb m fs) (Stepped t) := by
  unfold oneTick
  refine (Interrupt.never_oneTick (quiet_handlers t) h.outside.2 h.current).bind fun r hr => ?_
  obtain ⟨i, w, ds, b⟩ := r
  obtain ⟨hi, hw, hds⟩ := hr
  have h' : Rest { m with int := i, world := w, delivered := m.delivered ++ ds } t .on := by
    refine ⟨hi, hw, h.others, fun d hd => ?_⟩
    rcases List.mem_append.mp hd with hd | hd
    · exact h.handlers d hd
    · exact hds d hd
  refine .ok ?_
  rw [h.current]
  refine h'.goOn ?_
  split
  · exact hf
  · exact hf

theorem never_setLevel {l : IntStatus} (h : Rest m t l) (now : IntStatus) (hf : Expects fs now) :
    Never .level (setLevel typeno cb m now fs) (Stepped t) := by
  unfold setLevel
  refine (Interrupt.never_setLevel (.inr h.outside.2)).bind fun r hr => ?_
  subst hr
  have h' : Rest { m with int := m.int.changeLevel now } t now :=
    ⟨⟨rfl, h.outside.2⟩, h.current, h.others, h.handlers⟩
  refine .ite (fun ht => ?_) fun _ => .ok ?_
  · have hon : now = .on := (of_decide_eq_true ht).1
    subst hon
    exact never_oneTick h' hf
  · rw [h.current]
    exact h'.goOn hf

/-- One statement of the running thread. -/
theorem never_exec (hi : Inv m) {f : Frame P S} (hs : m.stack m.current = f :: fs) :
    Never .level (exec typeno cb m fs f) (Stepped m.current) := by
  have h := hi.rest
  have hf : Expects (f :: fs) m.int.level := hs ▸ hi.current
  cases f with
  | call f =>
    have hret : Expects (.ret f m.int.level :: fs) m.int.level := ⟨rfl, hf⟩
    exact never_enter h hret f
  | ret f l => exact .ok (h.goOn hf.2)
  | setLevel now => exact never_setLevel h now hf
  | setStatus status => exact .ok (Rest.goOn ⟨h.outside, rfl, h.others, h.handlers⟩ hf)
  | p s =>
    rw [hf.1] at h
    have hp : Expects (.p s :: fs) .off := ⟨rfl, hf.2⟩
    refine (never_liftAbort _).bind fun r _ => .ite (fun _ => .ok ?_) fun _ => ?_
    · exact Rest.goOn ⟨h.outside, rfl, h.others, h.handlers⟩ hf.2
    · have h' : Rest { m with world := { m.world with
          semaphore := Function.update m.world.semaphore s r.1 } } m.current .off :=
        ⟨h.outside, rfl, h.others, h.handlers⟩
      exact never_sleep h' false hp
  | sleep finishing =>
    rw [hf.1] at h
    refine (never_findNextToRun h).bind fun r hr => ?_
    split
    · rename_i u m'
      exact never_run (hr u m' rfl) u finishing hf.2
    · refine (Interrupt.never_idle (quiet_handlers m.current) h.outside rfl).bind fun r hr => ?_
      obtain ⟨i, w, ds, b⟩ := r
      obtain ⟨hi', hw, hds⟩ := hr
      refine .ite (fun _ => .ok ⟨⟨hi'.2, ?_, fun u hu => ?_, fun d hd => ?_⟩, fun hne => absurd hw hne⟩)
        fun _ => .error (by decide)
      · show Expects (m.stack w.kernel.currentThread) i.level
        rw [hw, hs, hi'.1]
        exact ⟨rfl, hf.2⟩
      · exact h.others u (hw ▸ hu)
      · rcases List.mem_append.mp hd with hd | hd
        · exact h.handlers d hd
        · exact hds d hd
  | resume =>
    rw [hf.1] at h
    refine (never_assertLevel h.outside.1).bind fun _ _ => (never_liftAbort _).bind fun k hk => .ok ?_
    exact (h.setKernel (Kernel.currentThread_checkToBeDestroyed hk)).goOn hf.2
  | begin =>
    refine (never_liftAbort _).bind fun k hk => .ok ?_
    exact (h.setKernel (Kernel.currentThread_checkToBeDestroyed hk)).goOn hf.2
  | setHolder s => exact .ok (Rest.goOn ⟨h.outside, rfl, h.others, h.handlers⟩ hf)
  | forkRest =>
    refine .ite (fun _ => ?_) fun _ => .ok (h.goOn hf)
    split
    · exact .error (by decide)
    · exact .ite (fun _ => .ok (h.goOn hf)) fun _ => .ok (h.goOn hf)

end

/-! ## Runs -/

/-- The operations: `run` is a statement of the routine the thread is in, the
others are those of a thread's own code. -/
inductive Op (P S C D : Type)
  | run
  | call (f : Routine P S)
  | setLevel (now : IntStatus)
  | oneTick
  | sleep
  | finish
  | newThread (t : P)
  | setPriority (t : P) (n : Int)
  | newSemaphore (s : S) (n : Int)
  | schedule (toCall : C) (fromNow : Int) (type : IntType)
  | setStatus (status : MachineStatus)
  | device (d : D)

section
variable [DecidableEq S] [DecidableEq C]

/-- What a thread does in its own code. Where it calls `Sleep` itself, as
`Machine::Run` and `Finish` do, it turns interrupts off first. -/
def own (typeno : Policy) (cb : DeviceHandlers P S C D) (m : Machine P S C D) :
    Op P S C D → Except Fault (Machine P S C D)
  | .run => return m
  | .call f => return m.goOn m.current [.call f]
  | .setLevel now => setLevel typeno cb m now []
  | .oneTick => oneTick typeno cb m []
  | .sleep => do
    let (i, _, _) ← m.int.setLevel .off
    sleep { m with int := i } false []
  | .finish => do
    let (i, _, _) ← m.int.setLevel .off
    sleep { m with int := i } true []
  | .newThread t => do
    let k ← liftAbort (m.world.kernel.newThread typeno t)
    return m.setKernel k
  | .setPriority t n =>
    return m.setKernel (m.world.kernel.setThread t fun th => { th with priority := n })
  | .newSemaphore s n => return { m with
    world := { m.world with semaphore := Function.update m.world.semaphore s (.new n) } }
  | .schedule toCall fromNow type => do
    let i ← m.int.schedule toCall fromNow type
    return { m with int := i }
  | .setStatus status => return { m with int := { m.int with status := status } }
  | .device d => return { m with world := { m.world with device := d } }

/-- One step; a thread that is in a routine goes on with it. -/
def next (typeno : Policy) (cb : DeviceHandlers P S C D) (m : Machine P S C D) (op : Op P S C D) :
    Except Fault (Machine P S C D) :=
  match m.stack m.current with
  | [] => own typeno cb m op
  | f :: fs => if op matches .run then exec typeno cb m fs f else return m

/-- The machine before `Kernel::Initialize` enables interrupts. -/
def start (typeno : Policy) (mem : P → Thread) (main : P) (v : S → Int) (d : D) :
    Machine P S C D where
  world := ⟨Kernel.initializeKernel typeno mem main, fun s => .new (v s), fun _ => none, d⟩
  int := .new
  stack _ := []
  delivered := []

def system (typeno : Policy) (cb : DeviceHandlers P S C D) (mem : P → Thread) (main : P) (v : S → Int)
    (d : D) : System (Machine P S C D) (Op P S C D) :=
  .ofFun (start typeno mem main v d) (next typeno cb)

/-- The discipline: a routine returns with the level of its call, a thread comes
from `SWITCH` with the level off, `SWITCH` is reached with the level off, handlers
run with the level off, and no assertion on the level fails. -/
structure Disciplined (typeno : Policy) (cb : DeviceHandlers P S C D) (m : Machine P S C D) :
    Prop where
  returns : ∀ f l fs, m.stack m.current = .ret f l :: fs → m.int.level = l
  resumes : ∀ fs, m.stack m.current = .resume :: fs ∨ m.stack m.current = .begin :: fs →
    m.int.level = .off
  switches : ∀ op m', next typeno cb m op = .ok m' → m'.current ≠ m.current → m'.int.level = .off
  handlers : ∀ d ∈ m.delivered, d.level = .off
  asserts : ∀ op, next typeno cb m op ≠ .error .level

theorem Inv.own (h : Inv m) (hs : m.stack m.current = []) (op : Op P S C D) :
    Never .level (own typeno cb m op) (Stepped m.current) := by
  have hset : Never .level (m.int.setLevel .off) _ := Interrupt.never_setLevel (.inl rfl)
  have hkeep : ∀ (w : World P S D) (i : Interrupt C), w.kernel.currentThread = m.current →
      Interrupt.Outside m.int.level i → Stepped m.current { m with world := w, int := i } := by
    intro w i hw hi
    refine ⟨⟨hi.2, ?_, fun u hu => h.others u (hw ▸ hu), h.handlers⟩, fun hne => absurd hw hne⟩
    show Expects (m.stack w.kernel.currentThread) i.level
    rw [hw, hs]
    trivial
  cases op with
  | run => exact .ok ⟨h, fun hne => absurd rfl hne⟩
  | call f => exact .ok (h.rest.goOn trivial)
  | setLevel now => exact never_setLevel h.rest now trivial
  | oneTick => exact never_oneTick h.rest trivial
  | sleep =>
    refine hset.bind fun r hr => ?_
    subst hr
    exact never_sleep h.rest.off false trivial
  | finish =>
    refine hset.bind fun r hr => ?_
    subst hr
    exact never_sleep h.rest.off true trivial
  | newThread t =>
    refine (never_liftAbort _).bind fun k hk => .ok ?_
    exact hkeep _ _ (Kernel.currentThread_newThread hk) ⟨rfl, h.outside⟩
  | setPriority t n => exact .ok (hkeep _ _ rfl ⟨rfl, h.outside⟩)
  | newSemaphore s n => exact .ok (hkeep _ _ rfl ⟨rfl, h.outside⟩)
  | schedule c n ty =>
    refine (Interrupt.never_schedule m.int c n ty).bind fun i hi => .ok ?_
    exact hkeep _ _ rfl ⟨hi.1, hi.2.trans h.outside⟩
  | setStatus status => exact .ok (hkeep _ _ rfl ⟨rfl, h.outside⟩)
  | device d => exact .ok (hkeep _ _ rfl ⟨rfl, h.outside⟩)

theorem Inv.next (h : Inv m) (op : Op P S C D) :
    Never .level (next typeno cb m op) (Stepped m.current) := by
  unfold Machine.next
  split
  · rename_i hs
    exact h.own hs op
  · rename_i f fs hs
    exact .ite (fun _ => never_exec h hs) fun _ => .ok ⟨h, fun hne => absurd rfl hne⟩

omit [DecidableEq S] [DecidableEq C] in
theorem inv_init (typeno : Policy) (mem : P → Thread) (main : P) (v : S → Int) (d : D) :
    Inv (start typeno mem main v d : Machine P S C D) :=
  ⟨rfl, trivial, fun _ _ => trivial, nofun⟩

end

/-- Over every run: any number of threads, any interleaving, any handlers. -/
theorem reachable_disciplined [DecidableEq S] [DecidableEq C] (typeno : Policy)
    (cb : DeviceHandlers P S C D) (mem : P → Thread) (main : P) (v : S → Int) (d : D)
    {m : Machine P S C D} (h : (system typeno cb mem main v d).Reachable m) :
    Disciplined typeno cb m := by
  have hI : Inv m := by
    refine h.invariant (I := Inv) ?_ ?_
    · rintro _ rfl
      exact inv_init typeno mem main v d
    · intro m op m' hi hs
      exact ((hi.next op).2 m' hs).1
  refine ⟨fun f l fs hs => ?_, fun fs hs => ?_, fun op m' hs => ((hI.next op).2 m' hs).2, hI.handlers,
    fun op => (hI.next op).1⟩
  · have := hI.current
    rw [hs] at this
    exact this.1
  · have := hI.current
    rcases hs with hs | hs
    all_goals
      rw [hs] at this
      exact this.1

/-- Devices that do nothing. -/
def noDevices : DeviceHandlers Nat Nat Unit Unit := fun _ _ w => (((), w.kernel.thread), [])

/-- `main` sleeps in `P`, the thread it forked begins and calls `V` and `Yield`, and
`main` gets to the end of `P`. -/
def handover : List (Op Nat Nat Unit Unit) :=
  [.setLevel .on, .newThread 1, .call (.fork 1), .run, .run, .run, .run, .call (.p 0), .run, .run,
    .run, .run, .run, .call (.v 0), .run, .run, .run, .call .yield, .run, .run, .run, .run]

/-- There the level is again that of the call. -/
theorem reachable_disciplined_handover :
    ∃ m, (system .fifo noDevices (fun _ => Proof.Scheduler.blank) 0 (fun _ => 0) ()).Reachable m ∧
      m.stack m.current = [.ret (.p 0) .on] ∧ Disciplined .fifo noDevices m := by
  obtain ⟨m, hr, hs⟩ := System.exists_reachable
    (start .fifo (fun _ => Proof.Scheduler.blank) 0 (fun _ => 0) ()) (next .fifo noDevices) handover
    (p := fun m => m.stack m.current = [.ret (.p 0) .on]) (by decide +kernel)
  exact ⟨m, hr, of_decide_eq_true hs, reachable_disciplined _ _ _ _ _ _ hr⟩

end Machine

end Nachos

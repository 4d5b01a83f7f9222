import Nachos.Proof.Machine.Timer
import Nachos.Proof.Threads.Level
import Nachos.Impl.Threads.Alarm

/-!
# The timer over all runs of the kernel

Once the timer is on, nothing stops it: in every state of every run of the kernel
one timer interrupt is pending, the clock is less than a period past the last one,
and each one came at most a period and `SystemTick - 1` ticks after the one before it
(`reachable_timed`). So `Idle` always finds something to wait for and does not halt
the machine, and a thread that enables interrupts again and again, as user code does
with each instruction, gives `Alarm::CallBack` the processor in bounded time.
-/

namespace Nachos

open Framework

/-- The longest delay of the timer. -/
def Timer.period (t : Timer) : Nat := if t.randomize then timerTicks * 2 else timerTicks

theorem Timer.delay_le (t : Timer) (random : Nat) : t.delay random ≤ t.period := by
  unfold Timer.delay Timer.period
  split
  · have := Nat.mod_lt random (show timerTicks * 2 > 0 by decide)
    omega
  · exact Nat.le_refl _

namespace Machine

variable {P S C D : Type} [DecidableEq P] [DecidableEq S] [DecidableEq C] {typeno : Policy}
  {cb : DeviceHandlers P S C D} {m m' : Machine P S C D} {fs : List (Frame P S)} {timer : C}
  {clock : Timer} {period : Int}

/-- The handler at `timer` is the timer's, with the alarm as what it calls, and no
other device schedules interrupts of it. -/
structure Alarmed (typeno : Policy) (cb : DeviceHandlers P S C D) (timer : C) (clock : Timer) :
    Prop where
  enabled : clock.disable = false
  own : ∀ status (w : World P S D), ∃ random k,
    clock.callBack typeno timer random status w.kernel = (k, (cb status timer w).2) ∧
      (cb status timer w).1.2 = k.thread
  others : ∀ status c (w : World P S D), c ≠ timer → ∀ n ty, .schedule timer n ty ∉ (cb status c w).2

omit [DecidableEq S] [DecidableEq C] in
theorem setInterrupt_eq (h : clock.disable = false) (timer : C) (random : Nat) :
    clock.setInterrupt (S := S) timer random = [.schedule timer (clock.delay random) .timerInt] := by
  unfold Timer.setInterrupt
  rw [h]
  rfl

theorem Alarmed.periodic (h : Alarmed typeno cb timer clock) :
    Interrupt.Periodic (handlers typeno cb) timer clock.period where
  own status w := by
    obtain ⟨random, k, hcall, -⟩ := h.own status w
    refine ⟨clock.delay random, Int.ofNat_le.mpr (clock.delay_le random), ?_⟩
    show (cb status timer w).2.filterMap _ = _
    rw [← congrArg Prod.snd hcall]
    unfold Timer.callBack
    dsimp only
    rw [setInterrupt_eq h.enabled]
    split
    all_goals
      simp only [List.filterMap_append, List.filterMap_cons, List.filterMap_nil, Interrupt.delayOf,
        if_true, List.nil_append]
      try rfl
  others status c w hc := by
    refine List.filterMap_eq_nil_iff.mpr fun x hx => ?_
    cases x with
    | schedule toCall n ty =>
      refine if_neg fun e => h.others status c w hc n ty ?_
      rw [← e]
      exact hx
    | v s => rfl
    | yieldOnReturn => rfl

/-! ## What moves the clock -/

/-- The clock and the queue stay as they are. -/
structure Still (m m' : Machine P S C D) : Prop where
  pending : m'.int.pending = m.int.pending
  made : m'.int.made = m.int.made
  totalTicks : m'.int.totalTicks = m.int.totalTicks
  delivered : m'.delivered = m.delivered

omit [DecidableEq P] [DecidableEq S] [DecidableEq C] in
theorem Still.trans {m₁ m₂ m₃ : Machine P S C D} (h : Still m₁ m₂) (h' : Still m₂ m₃) : Still m₁ m₃ :=
  ⟨h'.pending.trans h.pending, h'.made.trans h.made, h'.totalTicks.trans h.totalTicks,
    h'.delivered.trans h.delivered⟩

omit [DecidableEq C] in
theorem setLevel_int {i i' : Interrupt C} {now old : IntStatus} {tick : Bool}
    (h : i.setLevel now = .ok (i', old, tick)) : i' = i.changeLevel now := by
  obtain ⟨_, -, h⟩ := bind_eq_ok.mp h
  cases h
  rfl

omit [DecidableEq S] [DecidableEq C] in
theorem still_sleep {finishing : Bool} (h : m.sleep finishing fs = .ok m') : Still m m' := by
  obtain ⟨_, -, h⟩ := bind_eq_ok.mp h
  obtain ⟨k, -, h⟩ := bind_eq_ok.mp h
  cases h
  exact ⟨rfl, rfl, rfl, rfl⟩

omit [DecidableEq S] [DecidableEq C] in
theorem still_run {u : P} {finishing : Bool} (h : m.run u finishing fs = .ok m') : Still m m' := by
  obtain ⟨_, -, h⟩ := bind_eq_ok.mp h
  obtain ⟨k, -, h⟩ := bind_eq_ok.mp h
  cases h
  exact ⟨rfl, rfl, rfl, rfl⟩

omit [DecidableEq P] [DecidableEq S] [DecidableEq C] in
theorem still_findNextToRun {u : P} (h : m.findNextToRun typeno = .ok (some (u, m'))) : Still m m' := by
  obtain ⟨_, -, h⟩ := bind_eq_ok.mp h
  obtain ⟨r, -, he⟩ := Option.map_eq_some_iff.mp (Except.ok.inj h)
  cases he
  exact ⟨rfl, rfl, rfl, rfl⟩

omit [DecidableEq S] [DecidableEq C] in
theorem still_yield {oldLevel : IntStatus} (h : m.yield typeno oldLevel fs = .ok m') : Still m m' := by
  obtain ⟨r, hr, h⟩ := bind_eq_ok.mp h
  cases r with
  | none =>
    cases h
    exact ⟨rfl, rfl, rfl, rfl⟩
  | some r =>
    obtain ⟨u, m₁⟩ := r
    obtain ⟨m₂, h₂, h⟩ := bind_eq_ok.mp h
    obtain ⟨_, -, h₂⟩ := bind_eq_ok.mp h₂
    obtain ⟨k, -, h₂⟩ := bind_eq_ok.mp h₂
    cases h₂
    have hk : Still m₁ (m₁.setKernel k) := ⟨rfl, rfl, rfl, rfl⟩
    exact ((still_findNextToRun hr).trans hk).trans (still_run h)

omit [DecidableEq C] in
theorem still_enter {f : Routine P S} (h : enter typeno m fs f = .ok m') : Still m m' := by
  cases f with
  | p s =>
    obtain ⟨⟨i, old, tick⟩, hi, h⟩ := bind_eq_ok.mp h
    obtain rfl := setLevel_int hi
    cases h
    exact ⟨rfl, rfl, rfl, rfl⟩
  | v s =>
    obtain ⟨⟨i, old, tick⟩, hi, h⟩ := bind_eq_ok.mp h
    obtain rfl := setLevel_int hi
    obtain ⟨w, -, h⟩ := bind_eq_ok.mp h
    cases h
    exact ⟨rfl, rfl, rfl, rfl⟩
  | acquire s =>
    cases h
    exact ⟨rfl, rfl, rfl, rfl⟩
  | release s =>
    obtain ⟨_, -, h⟩ := bind_eq_ok.mp h
    cases h
    exact ⟨rfl, rfl, rfl, rfl⟩
  | yield =>
    obtain ⟨⟨i, old, tick⟩, hi, h⟩ := bind_eq_ok.mp h
    obtain rfl := setLevel_int hi
    have hi : Still m { m with int := m.int.changeLevel .off } := ⟨rfl, rfl, rfl, rfl⟩
    exact hi.trans (still_yield h)
  | fork t =>
    obtain ⟨⟨i, old, tick⟩, hi, h⟩ := bind_eq_ok.mp h
    obtain rfl := setLevel_int hi
    obtain ⟨_, -, h⟩ := bind_eq_ok.mp h
    obtain ⟨k, -, h⟩ := bind_eq_ok.mp h
    cases h
    exact ⟨rfl, rfl, rfl, rfl⟩

/-! ## The invariant -/

/-- The queue is in order, and the timer in time. -/
structure InTime (timer : C) (period : Int) (m : Machine P S C D) : Prop where
  order : Interrupt.Inv m.delivered m.int
  timed : Interrupt.Timed timer period m.delivered m.int

omit [DecidableEq P] [DecidableEq S] in
theorem InTime.still (h : InTime timer period m) (hs : Still m m') : InTime timer period m' := by
  refine ⟨?_, ?_⟩
  · rw [hs.delivered]
    exact h.order.congr hs.pending hs.made (Int.le_of_eq hs.totalTicks.symm)
  · rw [hs.delivered]
    exact h.timed.congr hs.pending hs.totalTicks

section
variable (hP : Interrupt.Periodic (handlers typeno cb) timer period)
include hP

theorem InTime.oneTick (h : InTime timer period m) (hx : oneTick typeno cb m fs = .ok m') :
    InTime timer period m' := by
  obtain ⟨⟨i, w, ds, b⟩, hi, hx⟩ := bind_eq_ok.mp hx
  cases hx
  obtain ⟨ho, ht⟩ := Interrupt.oneTick_timed hP h.order h.timed hi
  exact ⟨ho, ht⟩

theorem InTime.setLevel (h : InTime timer period m) {now : IntStatus}
    (hx : setLevel typeno cb m now fs = .ok m') : InTime timer period m' := by
  obtain ⟨⟨i, old, tick⟩, hi, hx⟩ := bind_eq_ok.mp hx
  obtain rfl := setLevel_int hi
  have hi' : InTime timer period { m with int := m.int.changeLevel now } := h.still ⟨rfl, rfl, rfl, rfl⟩
  dsimp only at hx
  split at hx
  · exact hi'.oneTick hP hx
  · cases hx
    exact hi'.still ⟨rfl, rfl, rfl, rfl⟩

theorem InTime.exec (h : InTime timer period m) {f : Frame P S} (hx : exec typeno cb m fs f = .ok m') :
    InTime timer period m' := by
  cases f with
  | call f => exact h.still (still_enter hx)
  | ret f l =>
    cases hx
    exact h.still ⟨rfl, rfl, rfl, rfl⟩
  | setLevel now => exact h.setLevel hP hx
  | setStatus status =>
    cases hx
    exact h.still ⟨rfl, rfl, rfl, rfl⟩
  | p s =>
    obtain ⟨⟨x, b⟩, -, hx⟩ := bind_eq_ok.mp hx
    dsimp only at hx
    split at hx
    · cases hx
      exact h.still ⟨rfl, rfl, rfl, rfl⟩
    · have hw : Still m { m with world := { m.world with
          semaphore := Function.update m.world.semaphore s x } } := ⟨rfl, rfl, rfl, rfl⟩
      exact h.still (hw.trans (still_sleep hx))
  | sleep finishing =>
    obtain ⟨r, hr, hx⟩ := bind_eq_ok.mp hx
    cases r with
    | some r => exact h.still ((still_findNextToRun hr).trans (still_run hx))
    | none =>
      obtain ⟨⟨i, w, ds, b⟩, hi, hx⟩ := bind_eq_ok.mp hx
      obtain ⟨ho, ht, rfl⟩ := Interrupt.idle_timed hP h.order h.timed hi
      cases hx
      exact ⟨ho, ht⟩
  | resume =>
    obtain ⟨_, -, hx⟩ := bind_eq_ok.mp hx
    obtain ⟨k, -, hx⟩ := bind_eq_ok.mp hx
    cases hx
    exact h.still ⟨rfl, rfl, rfl, rfl⟩
  | begin =>
    obtain ⟨k, -, hx⟩ := bind_eq_ok.mp hx
    cases hx
    exact h.still ⟨rfl, rfl, rfl, rfl⟩
  | setHolder s =>
    cases hx
    exact h.still ⟨rfl, rfl, rfl, rfl⟩
  | forkRest =>
    unfold Machine.exec at hx
    dsimp only at hx
    split at hx
    · split at hx
      · cases hx
      · split at hx
        all_goals
          cases hx
          exact h.still ⟨rfl, rfl, rfl, rfl⟩
    · cases hx
      exact h.still ⟨rfl, rfl, rfl, rfl⟩

/-- No thread schedules the timer. -/
theorem InTime.own (h : InTime timer period m) {op : Op P S C D}
    (hc : ∀ n ty, op ≠ .schedule timer n ty) (hx : own typeno cb m op = .ok m') : InTime timer period m' := by
  cases op with
  | run =>
    cases hx
    exact h
  | call f =>
    cases hx
    exact h.still ⟨rfl, rfl, rfl, rfl⟩
  | setLevel now => exact h.setLevel hP hx
  | oneTick => exact h.oneTick hP hx
  | sleep | finish =>
    obtain ⟨⟨i, old, tick⟩, hi, hx⟩ := bind_eq_ok.mp hx
    obtain rfl := setLevel_int hi
    have hi : Still m { m with int := m.int.changeLevel .off } := ⟨rfl, rfl, rfl, rfl⟩
    exact h.still (hi.trans (still_sleep hx))
  | newThread t =>
    obtain ⟨k, -, hx⟩ := bind_eq_ok.mp hx
    cases hx
    exact h.still ⟨rfl, rfl, rfl, rfl⟩
  | setPriority t n =>
    cases hx
    exact h.still ⟨rfl, rfl, rfl, rfl⟩
  | newSemaphore s n =>
    cases hx
    exact h.still ⟨rfl, rfl, rfl, rfl⟩
  | schedule toCall n ty =>
    obtain ⟨i, hi, hx⟩ := bind_eq_ok.mp hx
    cases hx
    exact ⟨h.order.schedule hi, h.timed.schedule (fun e => hc n ty (by rw [e])) hi⟩
  | setStatus status =>
    cases hx
    exact h.still ⟨rfl, rfl, rfl, rfl⟩
  | device d =>
    cases hx
    exact h.still ⟨rfl, rfl, rfl, rfl⟩

theorem InTime.next (h : InTime timer period m) {op : Op P S C D}
    (hc : ∀ n ty, op ≠ .schedule timer n ty) (hx : next typeno cb m op = .ok m') : InTime timer period m' := by
  unfold Machine.next at hx
  split at hx
  · exact h.own hP hc hx
  · split at hx
    · exact h.exec hP hx
    · cases hx
      exact h

end

/-! ## Runs -/

/-- `Kernel::Initialize` up to the `Alarm`, whose timer starts at once. -/
def startTimer (typeno : Policy) (cb : DeviceHandlers P S C D) (mem : P → Thread) (main : P)
    (v : S → Int) (d : D) (timer : C) (clock : Timer) (random : Nat) : Except Fault (Machine P S C D) := do
  let m := start typeno mem main v d
  let (i, w) ← m.int.calls (handlers typeno cb) m.world (clock.setInterrupt timer random)
  return { m with int := i, world := w }

/-- Only the timer schedules the timer. -/
def LeavesTimer (timer : C) (_ : Machine P S C D) (op : Op P S C D) : Prop :=
  ∀ n ty, op ≠ .schedule timer n ty

/-- The runs from there. -/
def timerSystem (typeno : Policy) (cb : DeviceHandlers P S C D) (timer : C) (m : Machine P S C D) :
    System (Machine P S C D) (Op P S C D) :=
  (System.ofFun m (next typeno cb)).restrict (LeavesTimer timer)

theorem inTime_start (h : clock.disable = false) {mem : P → Thread} {main : P} {v : S → Int} {d : D}
    {random : Nat} (hx : startTimer typeno cb mem main v d timer clock random = .ok m) :
    InTime timer clock.period m := by
  obtain ⟨⟨i, w⟩, hi, hx⟩ := bind_eq_ok.mp hx
  cases hx
  have hnew : Interrupt.Inv (C := C) [] .new := ⟨.nil, nofun, .nil, nofun⟩
  refine ⟨(Interrupt.calls_inv hi).2 [] hnew, trivial, ?_⟩
  obtain ⟨hpos, ht, hp⟩ := Interrupt.whens_calls (c := timer) hi
  rw [setInterrupt_eq h] at hpos hp
  have hcall : ([HandlerCall.schedule timer (clock.delay random : Int) .timerInt] :
      List (HandlerCall C S)).filterMap (Interrupt.delayOf timer) = [(clock.delay random : Int)] := by
    simp [Interrupt.delayOf]
  rw [hcall] at hpos hp
  refine ⟨clock.delay random, List.perm_singleton.mp (hp.trans ?_), ?_, ?_⟩
  · show ([0 + (clock.delay random : Int)] ++ []).Perm _
    rw [Int.zero_add]
    exact .refl _
  · rw [ht]
    exact hpos _ (List.mem_singleton.mpr rfl)
  · show (clock.delay random : Int) ≤ 0 + clock.period
    have := clock.delay_le random
    omega

/-- The timer never stops: there is one timer interrupt pending, which comes within a
period after the last one; so far none came later than `SystemTick - 1` ticks after
that; and `Idle` does not halt the machine. -/
theorem reachable_timed (hA : Alarmed typeno cb timer clock) {mem : P → Thread} {main : P} {v : S → Int}
    {d : D} {random : Nat} {m₀ : Machine P S C D}
    (h₀ : startTimer typeno cb mem main v d timer clock random = .ok m₀)
    (h : (timerSystem typeno cb timer m₀).Reachable m) :
    Interrupt.Timed timer clock.period m.delivered m.int ∧
      ∀ i w ds b, m.int.idle (handlers typeno cb) m.world = .ok (i, w, ds, b) → b = true := by
  have hI : InTime timer clock.period m := by
    refine h.invariant (I := InTime timer clock.period) ?_ ?_
    · rintro _ rfl
      exact inTime_start hA.enabled h₀
    · intro m op m' hi hs
      exact hi.next hA.periodic hs.1 hs.2
  refine ⟨hI.timed, fun i w ds b hi => ?_⟩
  exact (Interrupt.idle_timed hA.periodic hI.order hI.timed hi).2.2

/-- The timer as the only device, with the number that `RandomNumber` returns next. -/
def alarmOnly : DeviceHandlers Nat Unit Unit (Nat → Nat) := fun status _ w =>
  let (k, calls) := Timer.callBack .priority ⟨true, false⟩ () (w.device 0) status w.kernel
  ((fun n => w.device (n + 1), k.thread), calls)

theorem alarmed_alarmOnly : Alarmed .priority alarmOnly () ⟨true, false⟩ where
  enabled := rfl
  own _ w := ⟨w.device 0, _, rfl, rfl⟩
  others _ _ _ hc := absurd rfl hc

/-- `main` computes, with a `Yield` now and then, and goes to sleep for ever. -/
def computing : List (Op Nat Unit Unit (Nat → Nat)) :=
  .setLevel .on :: (List.replicate 12 [.oneTick, .run, .run, .run, .run, .run]).flatten ++
    [.sleep, .run, .run, .run]

instance (timer : C) (m : Machine P S C D) (op : Op P S C D) : Decidable (LeavesTimer timer m op) :=
  match op with
  | .schedule c n ty => decidable_of_iff (c ≠ timer)
    ⟨fun h _ _ e => h (by cases e; rfl), fun h e => h n ty (by rw [e])⟩
  | .run | .call _ | .setLevel _ | .oneTick | .sleep | .finish | .newThread _ | .setPriority _ _
  | .newSemaphore _ _ | .setStatus _ | .device _ => .isTrue nofun

/-- There the timer came six times. -/
theorem reachable_timed_computing : ∃ m₀ m,
    startTimer .priority alarmOnly (fun _ => Proof.Scheduler.blank) 0 (fun _ => 0) (fun n => 37 * n) ()
      ⟨true, false⟩ 55 = .ok m₀ ∧
    (timerSystem .priority alarmOnly () m₀).Reachable m ∧
    m.delivered.map (·.ticks) = [60, 70, 110, 185, 297, 446] ∧
    Interrupt.Timed () (Timer.period ⟨true, false⟩) m.delivered m.int ∧
      ∀ i w ds b, m.int.idle (handlers .priority alarmOnly) m.world = .ok (i, w, ds, b) → b = true := by
  have hrun : (startTimer .priority alarmOnly (fun _ => Proof.Scheduler.blank) 0 (fun _ => 0)
      (fun n => 37 * n) () ⟨true, false⟩ 55).toOption.any (fun m₀ =>
        (computing.foldlM (System.guarded (next .priority alarmOnly) (LeavesTimer ())) m₀).any fun m =>
          m.delivered.map (·.ticks) = [60, 70, 110, 185, 297, 446]) = true := by
    decide +kernel
  cases h₀ : startTimer .priority alarmOnly (fun _ => Proof.Scheduler.blank) 0 (fun _ => 0)
      (fun n => 37 * n) () ⟨true, false⟩ 55 with
  | error e =>
    rw [h₀] at hrun
    cases hrun
  | ok m₀ =>
    rw [h₀] at hrun
    obtain ⟨m, hm, hp⟩ := System.exists_reachable_guarded m₀ (next .priority alarmOnly) (LeavesTimer ())
      computing hrun
    exact ⟨m₀, m, rfl, hm, of_decide_eq_true hp, reachable_timed alarmed_alarmOnly h₀ hm⟩

end Machine

end Nachos

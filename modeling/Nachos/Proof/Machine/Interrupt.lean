import Mathlib.Data.List.Nodup
import Mathlib.Data.Int.Order.Basic
import Mathlib.Tactic.Common
import Nachos.Framework.System
import Nachos.Impl.Machine.Interrupt

/-!
# The event queue over all runs

Runs of `Schedule`, `SetLevel`, `OneTick` and `Idle`, whatever the handlers do
(`reachable_ordered`): no interrupt is delivered twice or early, the deliveries
are in the order of `when`, those of equal times in the order of scheduling,
and after `CheckIfDue` nothing is due. What it delivers was pending before it, so
that nothing a handler schedules is delivered in the same call, and its loop ends.

What carries it is that the delivered and the pending interrupts together are
sorted (`Inv`): a new one is later than the clock and so than all delivered ones.
-/

namespace Nachos.Interrupt

open Framework

variable {C S W : Type} [DecidableEq C] {H : Handlers C S W}

/-- `a` is to be delivered before `b`: it is earlier, or scheduled first. -/
def Before (a b : PendingInterrupt C) : Prop :=
  a.when < b.when ∨ a.when = b.when ∧ a.ptr < b.ptr

omit [DecidableEq C] in
theorem Before.when_le {a b : PendingInterrupt C} (h : Before a b) : a.when ≤ b.when := by
  rcases h with h | ⟨h, -⟩ <;> omega

omit [DecidableEq C] in
theorem pendingCompare_lt {a b : PendingInterrupt C} : pendingCompare a b < 0 ↔ a.when < b.when := by
  unfold pendingCompare
  split
  · simpa
  · split <;> simp_all

omit [DecidableEq C] in
/-- `SortedList::Insert` of the last one scheduled. -/
theorem insertWalk_before {x : PendingInterrupt C} {xs : List (PendingInterrupt C)}
    (h : xs.Pairwise Before) (hx : ∀ y ∈ xs, y.ptr < x.ptr) :
    (NList.insertWalk pendingCompare x xs).Pairwise Before := by
  induction xs with
  | nil => exact List.pairwise_singleton _ _
  | cons y ys ih =>
    obtain ⟨hy, hys⟩ := List.pairwise_cons.mp h
    simp only [NList.insertWalk, pendingCompare_lt]
    split
    · rename_i hlt
      refine List.pairwise_cons.mpr ⟨fun z hz => ?_, h⟩
      rcases List.mem_cons.mp hz with rfl | hz
      · exact .inl hlt
      · exact .inl (Int.lt_of_lt_of_le hlt (hy z hz).when_le)
    · rename_i hle
      refine List.pairwise_cons.mpr ⟨fun z hz => ?_, ih hys fun z hz => hx z (List.mem_cons_of_mem _ hz)⟩
      rcases List.mem_cons.mp ((NList.insertWalk_perm _ x ys).mem_iff.mp hz) with rfl | hz
      · have hptr := hx y List.mem_cons_self
        rcases Int.lt_or_eq_of_le (not_lt.mp hle) with h | h
        · exact .inl h
        · exact .inr ⟨h, hptr⟩
      · exact hy z hz

/-! ## What handlers do to the queue -/

/-- How many pending interrupts are due. -/
def dueCount (i : Interrupt C) : Nat := i.pending.countP fun e => e.when ≤ i.totalTicks

/-- `i'` is `i` after calls of a handler: the clock stands still, and what is new
in the queue is not due. -/
structure Grown (i i' : Interrupt C) : Prop where
  totalTicks : i'.totalTicks = i.totalTicks
  level : i'.level = i.level
  inHandler : i'.inHandler = i.inHandler
  dueCount : i'.dueCount = i.dueCount
  mem : ∀ e ∈ i'.pending, e ∈ i.pending ∨ i.totalTicks < e.when

omit [DecidableEq C] in
theorem Grown.refl (i : Interrupt C) : Grown i i := ⟨rfl, rfl, rfl, rfl, fun _ => .inl⟩

omit [DecidableEq C] in
theorem Grown.trans {i₁ i₂ i₃ : Interrupt C} (h₁ : Grown i₁ i₂) (h₂ : Grown i₂ i₃) : Grown i₁ i₃ where
  totalTicks := h₂.totalTicks.trans h₁.totalTicks
  level := h₂.level.trans h₁.level
  inHandler := h₂.inHandler.trans h₁.inHandler
  dueCount := h₂.dueCount.trans h₁.dueCount
  mem e he := by
    rcases h₂.mem e he with he | he
    · exact h₁.mem e he
    · exact .inr (h₁.totalTicks ▸ he)

/-- The delivered and the pending interrupts are sorted, and what is delivered
was due. -/
structure Inv (ds : List (Delivery C)) (i : Interrupt C) : Prop where
  order : (ds.map (·.interrupt) ++ i.pending).Pairwise Before
  made : ∀ e ∈ ds.map (·.interrupt) ++ i.pending, e.ptr < i.made
  once : ((ds.map (·.interrupt) ++ i.pending).map (·.ptr)).Nodup
  due : ∀ d ∈ ds, d.interrupt.when ≤ d.ticks ∧ d.ticks ≤ i.totalTicks

variable {ds : List (Delivery C)} {i i' : Interrupt C} {w w' : W}

omit [DecidableEq C] in
/-- Only the clock, which does not go back, the queue and the counter matter. -/
theorem Inv.congr (h : Inv ds i) (hp : i'.pending = i.pending) (hm : i'.made = i.made)
    (ht : i.totalTicks ≤ i'.totalTicks) : Inv ds i' where
  order := by rw [hp]; exact h.order
  made := by rw [hp, hm]; exact h.made
  once := by rw [hp]; exact h.once
  due d hd := ⟨(h.due d hd).1, Int.le_trans (h.due d hd).2 ht⟩

omit [DecidableEq C] in
theorem isDue_iff_exists (h : i.pending.Pairwise Before) :
    i.isDue = true ↔ ∃ e ∈ i.pending, e.when ≤ i.totalTicks := by
  unfold isDue
  cases hp : i.pending with
  | nil => simp
  | cons x xs =>
    rw [hp] at h
    simp only [List.head?_cons, Option.any_some, decide_eq_true_eq]
    refine ⟨fun hx => ⟨x, List.mem_cons_self, hx⟩, fun ⟨e, he, hd⟩ => ?_⟩
    rcases List.mem_cons.mp he with rfl | he
    · exact hd
    · exact Int.le_trans ((List.pairwise_cons.mp h).1 e he).when_le hd

/-- `Schedule` puts one interrupt into the queue, which is not due. -/
theorem schedule_cases {c : C} {n : Int} {ty : IntType} (h : i.schedule c n ty = .ok i') :
    ∃ e : PendingInterrupt C, e.ptr = i.made ∧ e.callOnInterrupt = c ∧ i.totalTicks < e.when ∧
      i' = { i with
        pending := NList.insertWalk pendingCompare e i.pending, made := i.made + 1 } := by
  obtain ⟨_, -, h⟩ := bind_eq_ok.mp h
  obtain ⟨_, hn, h⟩ := bind_eq_ok.mp h
  obtain ⟨q, hq, h⟩ := bind_eq_ok.mp h
  cases h
  obtain ⟨-, rfl⟩ := NList.insert_eq_ok.mp (liftAbort_eq_ok.mp hq)
  have hn : n > 0 := assert_eq_ok.mp (liftAbort_eq_ok.mp hn)
  exact ⟨_, rfl, rfl, by simp only; omega, rfl⟩

theorem grown_schedule {c : C} {n : Int} {ty : IntType} (h : i.schedule c n ty = .ok i') :
    Grown i i' := by
  obtain ⟨e, -, -, he, rfl⟩ := schedule_cases h
  have hp := NList.insertWalk_perm pendingCompare e i.pending
  refine ⟨rfl, rfl, rfl, ?_, fun x hx => ?_⟩
  · simp only [dueCount]
    rw [hp.countP_eq, List.countP_cons_of_neg (by simpa using he)]
  · rcases List.mem_cons.mp (hp.mem_iff.mp hx) with rfl | hx
    · exact .inr he
    · exact .inl hx

theorem Inv.schedule (hi : Inv ds i) {c : C} {n : Int} {ty : IntType}
    (h : i.schedule c n ty = .ok i') : Inv ds i' := by
  obtain ⟨e, hptr, -, he, rfl⟩ := schedule_cases h
  have hp := NList.insertWalk_perm pendingCompare e i.pending
  obtain ⟨h₁, h₂, h₁₂⟩ := List.pairwise_append.mp hi.order
  have hlt : ∀ x ∈ i.pending, x.ptr < e.ptr := fun x hx =>
    hptr ▸ hi.made x (List.mem_append_right _ hx)
  refine ⟨List.pairwise_append.mpr ⟨h₁, insertWalk_before h₂ hlt, fun x hx y hy => ?_⟩,
    fun x hx => ?_, ?_, hi.due⟩
  · rcases List.mem_cons.mp (hp.mem_iff.mp hy) with rfl | hy
    · obtain ⟨d, hd, rfl⟩ := List.mem_map.mp hx
      obtain ⟨hw, ht⟩ := hi.due d hd
      exact .inl (by omega)
    · exact h₁₂ x hx y hy
  · show x.ptr < i.made + 1
    rcases List.mem_append.mp hx with hx | hx
    · have := hi.made x (List.mem_append_left _ hx)
      omega
    · rcases List.mem_cons.mp (hp.mem_iff.mp hx) with rfl | hx
      · omega
      · have := hi.made x (List.mem_append_right _ hx)
        omega
  · have hall : (ds.map (·.interrupt) ++ NList.insertWalk pendingCompare e i.pending).Perm
        (e :: (ds.map (·.interrupt) ++ i.pending)) :=
      (hp.append_left _).trans List.perm_middle
    refine ((hall.map _).nodup_iff).mpr (List.nodup_cons.mpr ⟨fun hm => ?_, hi.once⟩)
    obtain ⟨x, hx, hxe⟩ := List.mem_map.mp hm
    have hlt := hi.made x hx
    exact Nat.ne_of_lt hlt (hxe.trans hptr)

/-- `V` in a handler leaves the interrupts as they are. -/
theorem call_v {s : S} (h : i.call H w (.v s) = .ok (i', w')) : i' = i := by
  obtain ⟨⟨i₁, old, _⟩, h₁, h⟩ := bind_eq_ok.mp h
  obtain ⟨_, -, h₁⟩ := bind_eq_ok.mp h₁
  cases h₁
  obtain ⟨w₁, -, h⟩ := bind_eq_ok.mp h
  obtain ⟨⟨i₂, _, _⟩, h₂, h⟩ := bind_eq_ok.mp h
  obtain ⟨_, -, h₂⟩ := bind_eq_ok.mp h₂
  cases h₂
  cases h
  rfl

theorem call_inv {c : HandlerCall C S} (h : i.call H w c = .ok (i', w')) :
    Grown i i' ∧ ∀ ds, Inv ds i → Inv ds i' := by
  cases c with
  | schedule toCall fromNow type =>
    obtain ⟨i₁, h₁, h⟩ := bind_eq_ok.mp h
    cases h
    exact ⟨grown_schedule h₁, fun ds hi => hi.schedule h₁⟩
  | v s =>
    obtain rfl := call_v h
    exact ⟨.refl _, fun _ => id⟩
  | yieldOnReturn =>
    obtain ⟨i₁, h₁, h⟩ := bind_eq_ok.mp h
    obtain ⟨_, -, h₁⟩ := bind_eq_ok.mp h₁
    cases h₁
    cases h
    exact ⟨⟨rfl, rfl, rfl, rfl, fun _ => .inl⟩, fun ds hi => hi.congr rfl rfl le_rfl⟩

theorem calls_inv {cs : List (HandlerCall C S)} (h : i.calls H w cs = .ok (i', w')) :
    Grown i i' ∧ ∀ ds, Inv ds i → Inv ds i' := by
  induction cs generalizing i w with
  | nil =>
    cases h
    exact ⟨.refl _, fun _ => id⟩
  | cons c cs ih =>
    obtain ⟨⟨i₁, w₁⟩, h₁, h⟩ := bind_eq_ok.mp h
    obtain ⟨hg, hi⟩ := call_inv h₁
    obtain ⟨hg', hi'⟩ := ih h
    exact ⟨hg.trans hg', fun ds h => hi' ds (hi ds h)⟩

/-! ## The loop of `CheckIfDue` -/

omit [DecidableEq C] in
theorem Inv.isDue (h : Inv ds i) : i.isDue = true ↔ ∃ e ∈ i.pending, e.when ≤ i.totalTicks :=
  isDue_iff_exists (List.pairwise_append.mp h.order).2.1

omit [DecidableEq C] in
/-- The front of the queue is delivered. -/
theorem Inv.removeFront {x : PendingInterrupt C} {q : List (PendingInterrupt C)} (h : Inv ds i)
    (hp : i.pending = x :: q) (hx : x.when ≤ i.totalTicks) :
    Inv (ds ++ [⟨x, i.totalTicks, i.level, i.status⟩]) { i with pending := q } := by
  have happ : (ds ++ [(⟨x, i.totalTicks, i.level, i.status⟩ : Delivery C)]).map (·.interrupt) ++ q =
      ds.map (·.interrupt) ++ i.pending := by simp [hp]
  refine ⟨happ ▸ h.order, happ ▸ h.made, happ ▸ h.once, fun d hd => ?_⟩
  rcases List.mem_append.mp hd with hd | hd
  · exact h.due d hd
  · rw [List.mem_singleton.mp hd]
    exact ⟨hx, le_rfl⟩

/-- One turn of the loop. -/
theorem deliver_cons {x : PendingInterrupt C} {q : List (PendingInterrupt C)} (n : Nat)
    (hp : i.pending = x :: q) : deliver H (n + 1) i w =
      { i with pending := q }.calls H (H.callBack i.status x.callOnInterrupt w).1
        (H.callBack i.status x.callOnInterrupt w).2 >>= fun r =>
      if r.1.isDue then deliver H n r.1 r.2 >>= fun r' =>
        .ok (r'.1, r'.2.1, ⟨x, i.totalTicks, i.level, i.status⟩ :: r'.2.2)
      else .ok (r.1, r.2, [⟨x, i.totalTicks, i.level, i.status⟩]) := by
  rw [deliver, hp]
  rfl

omit [DecidableEq C] in
theorem isDue_cases (hd : i.isDue = true) :
    ∃ x q, i.pending = x :: q ∧ x.when ≤ i.totalTicks := by
  unfold Interrupt.isDue at hd
  cases hp : i.pending with
  | nil => simp [hp] at hd
  | cons x q => exact ⟨x, q, rfl, by simpa [hp] using hd⟩

omit [DecidableEq C] in
theorem dueCount_cons {x : PendingInterrupt C} {q : List (PendingInterrupt C)}
    (hp : i.pending = x :: q) (hx : x.when ≤ i.totalTicks) :
    i.dueCount = ({ i with pending := q } : Interrupt C).dueCount + 1 := by
  simp [dueCount, hp, List.countP_cons_of_pos, hx]

omit [DecidableEq C] in
theorem dueCount_pos (hd : i.isDue = true) : 0 < i.dueCount := by
  obtain ⟨x, q, hp, hx⟩ := isDue_cases hd
  rw [dueCount_cons hp hx]
  omega

/-- The loop: it delivers what was pending, and with as many turns as interrupts
are due it stops only when none is due. -/
theorem deliver_inv {n : Nat} {ds' : List (Delivery C)} (hi : Inv ds i) (hd : i.isDue = true)
    (h : deliver H n i w = .ok (i', w', ds')) :
    Inv (ds ++ ds') i' ∧ (∀ d ∈ ds', d.interrupt ∈ i.pending ∧ d.level = i.level) ∧
      i'.totalTicks = i.totalTicks ∧ i'.level = i.level ∧ i'.inHandler = i.inHandler ∧
      (i.dueCount ≤ n → i'.isDue = false) := by
  induction n generalizing i w ds ds' with
  | zero =>
    cases h
    refine ⟨by simpa using hi, nofun, rfl, rfl, rfl, fun hn => ?_⟩
    have := dueCount_pos hd
    omega
  | succ n ih =>
    obtain ⟨x, q, hp, hx⟩ := isDue_cases hd
    rw [deliver_cons n hp] at h
    obtain ⟨⟨i₁, w₁⟩, h₁, h⟩ := bind_eq_ok.mp h
    obtain ⟨hg, hi₁⟩ := calls_inv h₁
    replace hi₁ := hi₁ _ (hi.removeFront hp hx)
    have hmem : x ∈ i.pending := by simp [hp]
    by_cases hd₁ : i₁.isDue = true
    case neg =>
      rw [if_neg hd₁] at h
      cases h
      refine ⟨hi₁, fun d hd' => ?_, hg.totalTicks, hg.level, hg.inHandler,
        fun _ => Bool.eq_false_iff.mpr hd₁⟩
      rw [List.mem_singleton.mp hd']
      exact ⟨hmem, rfl⟩
    case pos =>
      rw [if_pos hd₁] at h
      obtain ⟨⟨i₂, w₂, ds₁⟩, h₂, he⟩ := bind_eq_ok.mp h
      cases he
      obtain ⟨hI, hds, ht, hl, hh, hn⟩ := ih hi₁ hd₁ h₂
      refine ⟨by simpa using hI, fun d hd' => ?_, ht.trans hg.totalTicks, hl.trans hg.level,
        hh.trans hg.inHandler, fun hc => hn ?_⟩
      · rcases List.mem_cons.mp hd' with rfl | hd'
        · exact ⟨hmem, rfl⟩
        · obtain ⟨h₁, h₂⟩ := hds d hd'
          refine ⟨?_, h₂.trans hg.level⟩
          -- What a handler scheduled is not due, and what is delivered is.
          rcases hg.mem _ h₁ with h₁ | h₁
          · rw [hp]
            exact List.mem_cons_of_mem _ h₁
          · have hdue := (hI.due d (List.mem_append_right _ hd')).2
            have hwhen := (hI.due d (List.mem_append_right _ hd')).1
            rw [ht, hg.totalTicks] at hdue
            simp only at h₁ hdue
            omega
      · rw [dueCount_cons hp hx] at hc
        rw [hg.dueCount]
        omega

/-- Further turns make no difference. -/
theorem deliver_enough (n m : Nat) (hd : i.isDue = true) (hn : i.dueCount ≤ n) (hm : n ≤ m) :
    deliver H m i w = deliver H n i w := by
  induction n generalizing i w m with
  | zero =>
    have := dueCount_pos hd
    omega
  | succ n ih =>
    obtain ⟨m, rfl⟩ : ∃ k, m = k + 1 := ⟨m - 1, by omega⟩
    obtain ⟨x, q, hp, hx⟩ := isDue_cases hd
    rw [deliver_cons n hp, deliver_cons m hp]
    cases h₁ : { i with pending := q }.calls H (H.callBack i.status x.callOnInterrupt w).1
      (H.callBack i.status x.callOnInterrupt w).2 with
    | error e => rfl
    | ok r =>
      have hg := (calls_inv h₁).1
      rw [ok_bind, ok_bind]
      split
      · rename_i hd₁
        rw [ih m hd₁ ?_ (by omega)]
        rw [dueCount_cons hp hx] at hn
        rw [hg.dueCount]
        omega
      · rfl

omit [DecidableEq C] in
theorem dueCount_le_length (i : Interrupt C) : i.dueCount ≤ i.pending.length := List.countP_le_length

/-- The state in which `CheckIfDue` enters its loop, for the front `x`. -/
def enter (i : Interrupt C) (x : PendingInterrupt C) : Interrupt C :=
  { (if x.when > i.totalTicks then { i with totalTicks := x.when } else i) with inHandler := true }

omit [DecidableEq C] in
theorem enter_eq (i : Interrupt C) (x : PendingInterrupt C) :
    (i.enter x).pending = i.pending ∧ (i.enter x).made = i.made ∧ (i.enter x).level = i.level ∧
      i.totalTicks ≤ (i.enter x).totalTicks ∧ x.when ≤ (i.enter x).totalTicks := by
  unfold enter
  split
  · rename_i hx
    exact ⟨rfl, rfl, rfl, Int.le_of_lt hx, Int.le_refl _⟩
  · rename_i hx
    exact ⟨rfl, rfl, rfl, Int.le_refl _, Int.not_lt.mp hx⟩

omit [DecidableEq C] in
theorem isDue_enter {x : PendingInterrupt C} {q : List (PendingInterrupt C)}
    (hp : i.pending = x :: q) : (i.enter x).isDue = true := by
  obtain ⟨hp', -, -, -, hx⟩ := i.enter_eq x
  simp [Interrupt.isDue, hp', hp, hx]

theorem checkIfDueWithin_cons {x : PendingInterrupt C} {q : List (PendingInterrupt C)} (n : Nat)
    (adv : Bool) (hp : i.pending = x :: q) : checkIfDueWithin H n adv i w =
      assertLevel (i.level = .off) >>= fun _ =>
      if x.when > i.totalTicks ∧ adv = false then .ok (i, w, [], false)
      else deliver H n (i.enter x) w >>= fun r =>
        .ok ({ r.1 with inHandler := false }, r.2.1, r.2.2, true) := by
  obtain ⟨level, pending, inHandler, yieldOnReturn, status, totalTicks, made⟩ := i
  subst hp
  rfl

/-- What `CheckIfDue` does, with enough turns: it looks, or delivers until nothing
is due. -/
theorem checkIfDue_cases {n : Nat} {adv b : Bool} {ds' : List (Delivery C)} (hi : Inv ds i)
    (hn : i.pending.length ≤ n) (h : checkIfDueWithin H n adv i w = .ok (i', w', ds', b)) :
    Inv (ds ++ ds') i' ∧ (∀ d ∈ ds', d.interrupt ∈ i.pending ∧ d.level = .off) ∧
      i'.level = .off ∧ i'.isDue = false ∧ (i.inHandler = false → i'.inHandler = false) := by
  cases hp : i.pending with
  | nil =>
    unfold checkIfDueWithin at h
    obtain ⟨_, hl, h⟩ := bind_eq_ok.mp h
    simp only [hp] at h
    cases h
    exact ⟨by simpa using hi, nofun, assertLevel_eq_ok.mp hl, by simp [Interrupt.isDue, hp], id⟩
  | cons x q =>
    rw [checkIfDueWithin_cons n adv hp] at h
    obtain ⟨_, hl, h⟩ := bind_eq_ok.mp h
    have hl : i.level = .off := assertLevel_eq_ok.mp hl
    split at h
    · rename_i hlate
      cases h
      refine ⟨by simpa using hi, nofun, hl, ?_, id⟩
      simpa [Interrupt.isDue, hp] using hlate.1
    · obtain ⟨⟨i₁, w₁, ds₁⟩, h₁, h⟩ := bind_eq_ok.mp h
      cases h
      obtain ⟨hp', hm, hl', ht, -⟩ := i.enter_eq x
      have hcount : (i.enter x).dueCount ≤ n := Nat.le_trans (dueCount_le_length _) (hp' ▸ hn)
      obtain ⟨hI, hds, -, hl₁, -, hd⟩ := deliver_inv (hi.congr hp' hm ht) (isDue_enter hp) h₁
      refine ⟨hI.congr rfl rfl (Int.le_refl _), fun d hd => ?_, hl₁.trans (hl'.trans hl), hd hcount,
        fun _ => rfl⟩
      obtain ⟨h₁, h₂⟩ := hds d hd
      exact ⟨hp ▸ hp' ▸ h₁, h₂.trans (hl'.trans hl)⟩

/-- The loop of `CheckIfDue` ends after as many turns as there are pending
interrupts, whatever the handlers do. -/
theorem checkIfDue_enough {n : Nat} (adv : Bool) (i : Interrupt C) (w : W)
    (hn : i.pending.length ≤ n) : checkIfDueWithin H n adv i w = checkIfDue H adv i w := by
  unfold checkIfDue
  cases hp : i.pending with
  | nil =>
    unfold checkIfDueWithin
    simp only [hp]
  | cons x q =>
    have hcount : (i.enter x).dueCount ≤ (x :: q).length := by
      rw [← hp, ← (i.enter_eq x).1]
      exact dueCount_le_length _
    rw [checkIfDueWithin_cons _ adv hp, checkIfDueWithin_cons _ adv hp,
      deliver_enough _ n (isDue_enter hp) hcount (hp ▸ hn)]

/-! ## Runs -/

/-- The interrupts, the devices and the kernel, and the handlers called so far. -/
structure State (C W : Type) where
  int : Interrupt C
  world : W
  delivered : List (Delivery C)

/-- The operations. `setStatus` and `world` are what other code does between
them. -/
inductive Op (C W : Type)
  | schedule (toCall : C) (fromNow : Int) (type : IntType)
  | setLevel (now : IntStatus)
  | oneTick
  | idle
  | setStatus (status : MachineStatus)
  | world (w : W)

/-- `OneTick`, with its deliveries. -/
def State.oneTick (H : Handlers C S W) (s : State C W) : Except Fault (State C W) := do
  let (i, w, ds, _) ← s.int.oneTick H s.world
  return ⟨i, w, s.delivered ++ ds⟩

/-- What an operation does. -/
def next (H : Handlers C S W) (s : State C W) : Op C W → Except Fault (State C W)
  | .schedule toCall fromNow type => do
    let i ← s.int.schedule toCall fromNow type
    return { s with int := i }
  | .setLevel now => do
    let (i, _, tick) ← s.int.setLevel now
    if tick then State.oneTick H { s with int := i }
    else return { s with int := i }
  | .oneTick => s.oneTick H
  | .idle => do
    let (i, w, ds, _) ← s.int.idle H s.world
    return ⟨i, w, s.delivered ++ ds⟩
  | .setStatus status => return { s with int := { s.int with status := status } }
  | .world w => return { s with world := w }

/-- Whether an operation calls `CheckIfDue`. -/
def Op.checks (s : State C W) : Op C W → Bool
  | .setLevel now => now = .on ∧ s.int.level = .off
  | .oneTick | .idle => true
  | _ => false

def system (H : Handlers C S W) (w : W) : System (State C W) (Op C W) :=
  .ofFun ⟨.new, w, []⟩ (next H)

/-- A call of `CheckIfDue`: it leaves nothing that is due, and what it delivers was
pending before it. -/
def Checked (s s' : State C W) : Prop :=
  (∀ e ∈ s'.int.pending, s'.int.totalTicks < e.when) ∧
    ∃ ds, s'.delivered = s.delivered ++ ds ∧ ∀ d ∈ ds, d.interrupt ∈ s.int.pending

/-- What the simulation promises of its interrupts. -/
structure Ordered (H : Handlers C S W) (s : State C W) : Prop where
  once : (s.delivered.map (·.interrupt.ptr)).Nodup
  due : ∀ d ∈ s.delivered, d.interrupt.when ≤ d.ticks
  order : (s.delivered.map (·.interrupt)).Pairwise Before
  checked : ∀ op s', op.checks s = true → next H s op = .ok s' → Checked s s'
  ends : ∀ n adv (i : Interrupt C) w, i.pending.length ≤ n →
    checkIfDueWithin H n adv i w = checkIfDue H adv i w

section
variable {s s' : State C W}

omit [DecidableEq C] in
theorem Inv.not_due (h : Inv ds i) (hd : i.isDue = false) : ∀ e ∈ i.pending, i.totalTicks < e.when := by
  intro e he
  by_contra hle
  rw [h.isDue.mpr ⟨e, he, Int.not_lt.mp hle⟩] at hd
  cases hd

/-- `OneTick`. -/
theorem oneTick_inv (h : Inv s.delivered s.int) (hs : s.oneTick H = .ok s') :
    Inv s'.delivered s'.int ∧ Checked s s' := by
  obtain ⟨⟨i, w, ds, b⟩, hi, hs⟩ := bind_eq_ok.mp hs
  cases hs
  obtain ⟨_, -, hi⟩ := bind_eq_ok.mp hi
  obtain ⟨⟨i₁, w₁, ds₁, b₁⟩, h₁, hi⟩ := bind_eq_ok.mp hi
  -- The clock only advances.
  have hclock : s.int.totalTicks ≤
      s.int.totalTicks + if s.int.status = .systemMode then systemTick else userTick := by
    split <;> simp only [systemTick, userTick] <;> omega
  have h' : Inv s.delivered (({ s.int with totalTicks := s.int.totalTicks +
      if s.int.status = .systemMode then systemTick else userTick } : Interrupt C).changeLevel .off) :=
    h.congr rfl rfl hclock
  obtain ⟨hI, hds, -, hd, -⟩ := checkIfDue_cases h' (Nat.le_refl _) h₁
  have hnot := hI.not_due hd
  dsimp only at hi
  split at hi
  all_goals
    cases hi
    exact ⟨hI.congr rfl rfl (Int.le_refl _), hnot, _, rfl, fun d hd => (hds d hd).1⟩

theorem idle_inv (h : Inv s.delivered s.int) (hs : next H s .idle = .ok s') :
    Inv s'.delivered s'.int ∧ Checked s s' := by
  obtain ⟨⟨i, w, ds, b⟩, hi, hs⟩ := bind_eq_ok.mp hs
  cases hs
  obtain ⟨⟨i₁, w₁, ds₁, b₁⟩, h₁, hi⟩ := bind_eq_ok.mp hi
  have h' : Inv s.delivered ({ s.int with status := .idleMode } : Interrupt C) :=
    h.congr rfl rfl (Int.le_refl _)
  obtain ⟨hI, hds, -, hd, -⟩ := checkIfDue_cases h' (Nat.le_refl _) h₁
  have hnot := hI.not_due hd
  dsimp only at hi
  split at hi
  all_goals
    cases hi
    exact ⟨hI.congr rfl rfl (Int.le_refl _), hnot, _, rfl, fun d hd => (hds d hd).1⟩

/-- `SetLevel` that enables interrupts is one tick. -/
theorem setLevel_inv (h : Inv s.delivered s.int) {now : IntStatus}
    (hs : next H s (.setLevel now) = .ok s') :
    Inv s'.delivered s'.int ∧ ((Op.setLevel now).checks s = true → Checked s s') := by
  obtain ⟨⟨i, old, tick⟩, hi, hs⟩ := bind_eq_ok.mp hs
  obtain ⟨_, -, hi⟩ := bind_eq_ok.mp hi
  cases hi
  have hi : Inv s.delivered (s.int.changeLevel now) := h.congr rfl rfl (Int.le_refl _)
  dsimp only at hs
  split at hs
  · obtain ⟨hI, hc⟩ := oneTick_inv (s := { s with int := s.int.changeLevel now }) hi hs
    exact ⟨hI, fun _ => hc⟩
  · rename_i ht
    cases hs
    exact ⟨hi, fun hc => absurd hc ht⟩

theorem Inv.step (h : Inv s.delivered s.int) {op : Op C W} (hs : next H s op = .ok s') :
    Inv s'.delivered s'.int ∧ (op.checks s = true → Checked s s') := by
  cases op with
  | schedule c n ty =>
    obtain ⟨i, hi, hs⟩ := bind_eq_ok.mp hs
    cases hs
    exact ⟨h.schedule hi, nofun⟩
  | setLevel now => exact setLevel_inv h hs
  | oneTick =>
    obtain ⟨hI, hc⟩ := oneTick_inv h hs
    exact ⟨hI, fun _ => hc⟩
  | idle =>
    obtain ⟨hI, hc⟩ := idle_inv h hs
    exact ⟨hI, fun _ => hc⟩
  | setStatus st =>
    cases hs
    exact ⟨h.congr rfl rfl (Int.le_refl _), nofun⟩
  | world w =>
    cases hs
    exact ⟨h, nofun⟩

end

/-- Over every run of the simulation, with any handlers. -/
theorem reachable_ordered (H : Handlers C S W) (w : W) {s : State C W}
    (h : (system H w).Reachable s) : Ordered H s := by
  have hI : Inv s.delivered s.int := by
    refine h.invariant (I := fun s => Inv s.delivered s.int) ?_ ?_
    · rintro _ rfl
      exact ⟨.nil, nofun, .nil, nofun⟩
    · intro s op s' hi hs
      exact (hi.step hs).1
  have horder := (List.pairwise_append.mp hI.order).1
  have honce : (s.delivered.map (·.interrupt.ptr)).Nodup := by
    have := hI.once
    rw [List.map_append, List.map_map] at this
    exact (List.nodup_append.mp this).1
  exact ⟨honce, fun d hd => (hI.due d hd).1, horder, fun op s' hc hs => (hI.step hs).2 hc,
    fun n adv i w => checkIfDue_enough adv i w⟩

/-- A timer, which schedules itself again. -/
def timer : Handlers Unit Unit Unit where
  callBack _ _ w := (w, [.schedule () 100 .timerInt, .v (), .yieldOnReturn])
  v _ _ w := .ok w

/-- The timer has gone off twice, at its times. -/
theorem reachable_ordered_timer :
    ∃ s, (system timer ()).Reachable s ∧ s.delivered.map (·.ticks) = [100, 200] ∧
      Ordered timer s := by
  obtain ⟨s, hr, hs⟩ := System.exists_reachable (⟨.new, (), []⟩ : State Unit Unit) (next timer)
    [.schedule () 100 .timerInt, .idle, .idle]
    (p := fun s => s.delivered.map (·.ticks) = [100, 200]) (by decide +kernel)
  exact ⟨s, hr, of_decide_eq_true hs, reachable_ordered _ _ hr⟩

end Nachos.Interrupt

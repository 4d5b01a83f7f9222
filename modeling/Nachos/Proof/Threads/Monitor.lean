import Nachos.Impl.Threads.Condition
import Nachos.Proof.Threads.Lock
import Nachos.Spec.CondVar

/-!
# Locks and condition variables over all interleavings

Any number of threads run critical sections of one lock, with any calls of
`Wait`, `Signal` and `Broadcast` of one condition variable in them. Every run
is one of the abstract condition variable (`reachable_condVar`).

What a thread has still to run says what it has: the lock (`status`) and a
waiter (`phase`). `Wf` is a static check of the statements against both, which
every step keeps.
-/

namespace Nachos.Monitor

open Framework Framework.Threads

variable {T A D : Type}

/-! ## What a thread has -/

/-- Whether a thread is between the return of the lock's `P` and its `V`, and
whether `lockHolder` is set there. -/
@[simp] def status : List (Stmt T A) → Option Bool
  | [] | .acquireP :: _ => none
  | .acquireSet :: _ | .releaseV :: _ => some false
  | .releaseCheck :: _ => some true
  | _ :: c => status c

/-- Where a thread is in `Wait`. -/
inductive Phase
  | idle
  | fresh
  | waiting
  | woken
  deriving DecidableEq

/-- The phase, by the next statement on the waiter. -/
@[simp] def phase : List (Stmt T A) → Phase
  | [] | .newWaiter :: _ => .idle
  | .enqueue :: _ => .fresh
  | .waiterP :: _ => .waiting
  | .deleteWaiter :: _ => .woken
  | _ :: c => phase c

/-- The thread has taken a waiter off `waitQueue`, or is about to. -/
def signalling : List (Stmt T A) → Bool
  | .removeFront :: _ | .waiterV _ :: _ => true
  | _ => false

@[simp] theorem signalling_cons (s : Stmt T A) (c : List (Stmt T A)) :
    signalling (s :: c) = match s with
      | .removeFront | .waiterV _ => true
      | _ => false := by
  cases s <;> rfl

/-- The thread is at the lock's `P`. -/
def atAcquire : List (Stmt T A) → Bool
  | .acquireP :: _ => true
  | _ => false

/-- The thread is at its waiter's `P`. -/
def atWait : List (Stmt T A) → Bool
  | .waiterP :: _ => true
  | _ => false

/-- How many loops of `Broadcast` the thread is in. -/
@[simp] def loops : List (Stmt T A) → Nat
  | [] => 0
  | .broadcastLoop :: c => loops c + 1
  | _ :: c => loops c

/-- A statement fits what comes behind it. -/
@[simp] def Fits : Stmt T A → List (Stmt T A) → Prop
  | .acquireP, c => status c = some false ∧ phase c ≠ .waiting ∧ loops c = 0
  | .acquireSet, c => status c = some true ∧ loops c = 0
  | .releaseCheck, c => status c = some false ∧ loops c = 0
  | .releaseV, c => status c = none ∧ loops c = 0
  | .newWaiter, c => status c = some true ∧ phase c = .fresh ∧ loops c = 0
  | .enqueue, c => status c = some true ∧ phase c = .waiting ∧ loops c = 0
  | .waiterP, c => status c = none ∧ phase c = .woken ∧ loops c = 0
  | .deleteWaiter, c => status c = some true ∧ phase c = .idle ∧ loops c = 0
  | .broadcast, c | .broadcastLoop, c => status c = some true ∧ phase c = .idle ∧ loops c = 0
  | .caller _, c => status c = some true ∧ phase c = .idle ∧ loops c = 0
  | .assertHeld, c => status c = some true
  | .signal, c | .removeFront, c | .waiterV _, c => status c = some true ∧ phase c = .idle

/-- Each statement fits; the two of `Signal` that only a test puts there are
not behind another. -/
@[simp] def Wf : List (Stmt T A) → Prop
  | [] => True
  | s :: c => Fits s c ∧ signalling c = false ∧ Wf c

/-- The lock is free at the end, and no statement of `Wait` or `Broadcast` is
cut. -/
structure Ready (c : List (Stmt T A)) (b : Option Bool) : Prop where
  wf : Wf c
  status : status c = b
  phase : phase c = .idle
  loops : loops c = 0
  signalling : signalling c = false

theorem Ready.call {c : List (Stmt T A)} (h : Ready c (some true)) (k : Call A) :
    Ready (k.code ++ c) (some true) := by
  obtain ⟨h₁, h₂, h₃, h₄, h₅⟩ := h
  cases k <;> constructor <;>
    simp [Call.code, Condition.wait, Condition.signal, Condition.broadcast, Lock.acquire,
      Lock.release, *]

theorem Ready.calls {c : List (Stmt T A)} (h : Ready c (some true)) (ks : List (Call A)) :
    Ready (ks.flatMap Call.code ++ c) (some true) := by
  induction ks with
  | nil => exact h
  | cons k ks ih =>
    rw [List.flatMap_cons, List.append_assoc]
    exact ih.call k

theorem Ready.critical {c : List (Stmt T A)} (h : Ready c none) (ks : List (Call A)) :
    Ready (critical ks ++ c) none := by
  obtain ⟨h₁, h₂, h₃, h₄, h₅⟩ := h
  have hrel : Ready (Lock.release ++ c) (some true) := by
    constructor <;> simp [Lock.release, *]
  obtain ⟨k₁, k₂, k₃, k₄, k₅⟩ := hrel.calls ks
  rw [Nachos.critical, List.append_assoc, List.append_assoc]
  constructor <;> simp [Lock.acquire, *]

theorem ready_program (cs : List (List (Call A))) :
    Ready (T := T) (cs.flatMap Nachos.critical) none := by
  induction cs with
  | nil => exact ⟨trivial, rfl, rfl, rfl, rfl⟩
  | cons ks cs ih =>
    rw [List.flatMap_cons]
    exact ih.critical ks

/-! ## Runs with their events -/

/-- The events of a run; the callers' statements are kept with the data they
find. -/
abbrev Event (T A D : Type) := CondEvent T (T × A × D)

/-- The event of a statement. -/
def event (t : T) (m : Monitor T D) : List (Stmt T A) → Option (Event T A D)
  | .enqueue :: _ => some (.wait t)
  | .signal :: _ => if m.waitQueue = [] then none else some (.found t)
  | .waiterV u :: _ => some (.signal t u)
  | .deleteWaiter :: _ => some (.ret t)
  | .broadcast :: _ => some (.broadcast t)
  | .broadcastLoop :: _ => if m.waitQueue = [] then some (.done t) else none
  | .caller a :: _ => some (.other (t, a, m.data))
  | _ => none

variable [DecidableEq T]

/-- A step, with the events so far. -/
def record (caller : T → D → A → Except Abort (D × List (Call A))) (t : T)
    (m : Monitor T D × List (Event T A D)) (c : List (Stmt T A)) :
    Except Abort ((Monitor T D × List (Event T A D)) × List (Stmt T A) × Effect T) := do
  let (m', c', e) ← m.1.exec caller t c
  return ((m', m.2 ++ (event t m.1 c).toList), c', e)

/-- The state of all threads, with the events so far. -/
abbrev State (T A D : Type) :=
  Framework.Threads.Config (Monitor T D × List (Event T A D)) (List (Stmt T A)) T

/-- The threads before their programs. -/
def initial (d : D) (prog : T → List (List (Call A))) : State T A D :=
  ⟨(.new d, []), (start d prog).loc, (start d prog).asleep⟩

/-- All interleavings of the threads. -/
def system (caller : T → D → A → Except Abort (D × List (Call A))) (d : D)
    (prog : T → List (List (Call A))) : System (State T A D) T :=
  .ofFun (initial d prog) (next (record caller))

/-- An event, or none. -/
def Follows {E : Type} (v : CondVar T) : Option (CondEvent T E) → CondVar T → Prop
  | none, v' => v' = v
  | some e, v' => v.Step e v'

/-! ## The invariant -/

/-- The waiter of a thread, which is queued or not, and asleep or not. -/
def waiterOf (t : T) (queued asleep : Bool) : Phase → Option (Semaphore T)
  | .idle => none
  | .fresh | .woken => some (.new 0)
  | .waiting => some ⟨if queued then 0 else 1, if asleep then [t] else []⟩

/-- What a thread in `Signal` knows of the queue. -/
def Front (queue waitQueue : List T) : List (Stmt T A) → Prop
  | .removeFront :: _ => queue = waitQueue ∧ waitQueue ≠ []
  | .waiterV u :: _ => queue = u :: waitQueue
  | _ => True

/-- The code's state and the abstract one. -/
structure Inv (m : Monitor T D) (loc : T → List (Stmt T A)) (asleep : T → Bool) (v : CondVar T) :
    Prop where
  held : m.lock.Held fun t => status (loc t)
  lockQ : m.lock.Queued asleep loc atAcquire
  wf : ∀ t, Wf (loc t)
  sig : ∀ t, signalling (loc t) = true ↔ v.signaller = some t
  front : ∀ t, Front v.queue m.waitQueue (loc t)
  same : v.signaller = none → v.queue = m.waitQueue
  sweep : ∀ t, loops (loc t) = if v.sweeper = some t then 1 else 0
  nodup : v.queue.Nodup
  lined : ∀ t ∈ v.queue, phase (loc t) = .waiting
  woken : ∀ t, t ∈ v.woken ↔ phase (loc t) = .woken ∨ (phase (loc t) = .waiting ∧ t ∉ v.queue)
  waiters : ∀ t, m.waiter t = waiterOf t (t ∈ v.queue) (asleep t) (phase (loc t))
  asleepAt : ∀ t, asleep t = true →
    atAcquire (loc t) = true ∨ (atWait (loc t) = true ∧ t ∈ v.queue)

theorem inv_init (d : D) (prog : T → List (List (Call A))) :
    Inv (.new d) (start d prog).loc (start d prog).asleep .empty where
  held := by
    simp only [start, (ready_program _).status]
    exact Lock.held_new
  lockQ := Lock.queued_new
  wf t := (ready_program _).wf
  sig t := by simp [start, (ready_program _).signalling, CondVar.empty]
  front t := by
    have := (ready_program (T := T) (prog t)).signalling
    simp only [start]
    generalize (prog t).flatMap critical = c at this ⊢
    unfold Front
    split <;> trivial
  same _ := rfl
  sweep t := by simp [start, (ready_program _).loops, CondVar.empty]
  nodup := .nil
  lined t ht := by cases ht
  woken t := by simp [start, (ready_program _).phase, CondVar.empty]
  waiters t := by simp [start, (ready_program _).phase, waiterOf, Monitor.new]
  asleepAt t ht := by cases ht

section
variable {m : Monitor T D} {loc : T → List (Stmt T A)} {asleep : T → Bool} {v : CondVar T} {t : T}
  {r r' : List (Stmt T A)}

theorem apply_update {β : Type} {f : List (Stmt T A) → β} (h : f r' = f (loc t)) (u : T) :
    f (Function.update loc t r' u) = f (loc u) := by
  by_cases e : u = t
  · subst e
    rw [Function.update_self, h]
  · rw [Function.update_of_ne e]

omit [DecidableEq T] in
theorem front_of_not_signalling {q w : List T} (h : signalling r = false) : Front q w r := by
  unfold Front
  split
  · cases h
  · cases h
  · trivial

omit [DecidableEq T] in
theorem status_of_signalling (hw : Wf r) (h : signalling r = true) : status r = some true := by
  unfold signalling at h
  split at h
  · exact hw.1.1
  · exact hw.1.1
  · cases h

omit [DecidableEq T] in
/-- A thread in a `Broadcast` has the lock. -/
theorem status_of_loops (hw : Wf r) (h : loops r ≠ 0) : status r = some true := by
  cases r with
  | nil => exact absurd rfl h
  | cons s c =>
    have hf := hw.1
    cases s <;> simp_all

omit [DecidableEq T] in
theorem phase_of_atAcquire (hw : Wf r) (h : atAcquire r = true) : phase r ≠ .waiting := by
  unfold atAcquire at h
  split at h
  · exact hw.1.2.1
  · cases h

omit [DecidableEq T] in
theorem phase_of_atWait (h : atWait r = true) : phase r = .waiting := by
  unfold atWait at h
  split at h
  · rfl
  · cases h

/-- Only the thread with the lock can be in `Signal`. -/
theorem Inv.signaller_none (h : Inv m loc asleep v) (hst : status (loc t) = some true)
    (hs : signalling (loc t) = false) : v.signaller = none := by
  by_contra hne
  obtain ⟨u, hu⟩ := Option.ne_none_iff_exists'.mp hne
  have hsig := (h.sig u).mpr hu
  have hst' := status_of_signalling (h.wf u) hsig
  obtain rfl := h.held.unique (t := t) (u := u) (by simp [hst]) (by simp [hst'])
  rw [hs] at hsig
  cases hsig

/-- Only the thread with the lock can be in `Broadcast`. -/
theorem Inv.sweeper_cases (h : Inv m loc asleep v) (hst : status (loc t) = some true) :
    v.sweeper = none ∨ v.sweeper = some t := by
  by_cases hne : v.sweeper = none
  · exact .inl hne
  · obtain ⟨u, hu⟩ := Option.ne_none_iff_exists'.mp hne
    have hl := h.sweep u
    rw [if_pos hu] at hl
    have hst' := status_of_loops (h.wf u) (by omega)
    obtain rfl := h.held.unique (t := t) (u := u) (by simp [hst]) (by simp [hst'])
    exact .inr hu

theorem Inv.sweeper_none (h : Inv m loc asleep v) (hst : status (loc t) = some true)
    (hl : loops (loc t) = 0) : v.sweeper = none := by
  rcases h.sweeper_cases hst with hn | hs
  · exact hn
  · have := h.sweep t
    rw [if_pos hs] at this
    omega

theorem Inv.not_mem (h : Inv m loc asleep v) (hp : phase (loc t) ≠ .waiting) : t ∉ v.queue :=
  fun hm => hp (h.lined t hm)

/-! ### Steps of one thread -/

/-- A step that leaves the condition variable as it is. -/
theorem Inv.move (h : Inv m loc asleep v) (ht : asleep t = false) {l : Lock T} (d : D)
    {asleep' : T → Bool}
    (hheld : l.Held (Function.update (fun u => status (loc u)) t (status r')))
    (hQ : l.Queued asleep' (Function.update loc t r') atAcquire)
    (hph : phase r' = phase (loc t)) (hlo : loops r' = loops (loc t))
    (hs : signalling (loc t) = false) (hs' : signalling r' = false) (hwf : Wf r')
    (hkeep : ∀ u, asleep' u ≠ asleep u → phase (loc u) ≠ .waiting)
    (hnew : ∀ u, asleep' u = true → asleep u = true ∨ atAcquire (Function.update loc t r' u) = true) :
    Inv { m with lock := l, data := d } (Function.update loc t r') asleep' v where
  held := by
    have hst : (fun u => status (Function.update loc t r' u)) =
      Function.update (fun u => status (loc u)) t (status r') := Function.comp_update status loc t r'
    rw [hst]
    exact hheld
  lockQ := hQ
  wf := (Function.forall_update_iff loc fun _ => Wf).mpr ⟨hwf, fun u _ => h.wf u⟩
  sig u := by
    rw [apply_update (f := signalling) (hs'.trans hs.symm)]
    exact h.sig u
  front := (Function.forall_update_iff loc fun _ => Front _ _).mpr
    ⟨front_of_not_signalling hs', fun u _ => h.front u⟩
  same := h.same
  sweep u := by
    rw [apply_update hlo]
    exact h.sweep u
  nodup := h.nodup
  lined u hu := by
    rw [apply_update hph]
    exact h.lined u hu
  woken u := by
    rw [apply_update hph]
    exact h.woken u
  waiters u := by
    rw [apply_update hph, h.waiters u]
    by_cases e : asleep' u = asleep u
    · rw [e]
    · have := hkeep u e
      generalize phase (loc u) = p at this ⊢
      cases p <;> first | rfl | exact absurd rfl this
  asleepAt u hu := by
    rcases hnew u hu with ha | ha
    · have e : u ≠ t := fun e => by rw [e, ht] at ha; cases ha
      rw [Function.update_of_ne e]
      exact h.asleepAt u ha
    · exact .inl ha

/-- A step that leaves the lock as it is, too. -/
theorem Inv.stay (h : Inv m loc asleep v) (ht : asleep t = false) (d : D)
    (hst : status r' = status (loc t)) (hph : phase r' = phase (loc t))
    (hlo : loops r' = loops (loc t)) (hs : signalling (loc t) = false)
    (hs' : signalling r' = false) (hwf : Wf r') :
    Inv { m with data := d } (Function.update loc t r') asleep v := by
  refine h.move ht d (l := m.lock) ?_ (h.lockQ.move ht rfl) hph hlo hs hs' hwf
    (fun u hu => absurd rfl hu) fun u hu => .inl hu
  rw [hst, Function.update_eq_self]
  exact h.held

theorem Inv.acquireP (h : Inv m loc asleep v) (ht : asleep t = false) (hc : loc t = .acquireP :: r)
    {l : Lock T} {b : Bool} (hx : m.lock.acquireP t = .ok (l, b)) :
    Inv { m with lock := l } (Function.update loc t (if b then r else .acquireP :: r))
      ((if b then Effect.go else .sleep).apply t asleep) v := by
  have hw := h.wf t
  rw [hc] at hw
  obtain ⟨⟨hst, hph, hlo⟩, hs, hwf⟩ := hw
  cases b with
  | true =>
    refine h.move ht m.data ?_ (h.lockQ.move ht ?_) (by rw [hc]; rfl) (by rw [hc]; rfl)
      (by rw [hc]; rfl) hs hwf (fun u hu => absurd rfl hu) fun u hu => .inl hu
    · rw [if_pos rfl, hst]
      exact h.held.acquire hx
    · rcases Lock.acquireP_cases hx with ⟨-, -, rfl⟩ | ⟨hb, -⟩
      · rfl
      · cases hb
  | false =>
    refine h.move ht m.data ?_ (h.lockQ.sleep hx rfl) (by rw [hc]; rfl) (by rw [hc]; rfl)
      (by rw [hc]; rfl) rfl ⟨⟨hst, hph, hlo⟩, hs, hwf⟩ (fun u hu => ?_) fun u hu => ?_
    · rw [Function.update_eq_self_iff.mpr]
      · exact h.held.wait hx
      · simp [hc]
    · by_cases e : u = t
      · rw [e, hc]
        exact hph
      · exact absurd (Function.update_of_ne e _ _) hu
    · by_cases e : u = t
      · rw [e, Function.update_self]
        exact .inr rfl
      · exact .inl ((Function.update_of_ne e _ _).symm.trans hu)

theorem Inv.acquireSet (h : Inv m loc asleep v) (ht : asleep t = false)
    (hc : loc t = .acquireSet :: r) :
    Inv { m with lock := m.lock.acquireSet t } (Function.update loc t r) asleep v := by
  have hw := h.wf t
  rw [hc] at hw
  obtain ⟨⟨hst, hlo⟩, hs, hwf⟩ := hw
  refine h.move ht m.data ?_ (h.lockQ.move ht rfl) (by rw [hc]; rfl) (by rw [hc]; rfl)
    (by rw [hc]; rfl) hs hwf (fun u hu => absurd rfl hu) fun u hu => .inl hu
  rw [hst]
  exact h.held.set (by simp [hc])

theorem Inv.releaseCheck (h : Inv m loc asleep v) (ht : asleep t = false)
    (hc : loc t = .releaseCheck :: r) :
    m.lock.releaseCheck t = .ok { m.lock with lockHolder := none } ∧
      Inv { m with lock := { m.lock with lockHolder := none } } (Function.update loc t r) asleep v := by
  have hw := h.wf t
  rw [hc] at hw
  obtain ⟨⟨hst, hlo⟩, hs, hwf⟩ := hw
  obtain ⟨hx, hheld⟩ := h.held.check (t := t) (by simp [hc])
  refine ⟨hx, h.move ht m.data ?_ (h.lockQ.move ht rfl) (by rw [hc]; rfl) (by rw [hc]; rfl)
    (by rw [hc]; rfl) hs hwf (fun u hu => absurd rfl hu) fun u hu => .inl hu⟩
  rw [hst]
  exact hheld

theorem Inv.releaseV (h : Inv m loc asleep v) (ht : asleep t = false) (hc : loc t = .releaseV :: r) :
    Inv { m with lock := m.lock.releaseV.1 } (Function.update loc t r)
      ((Effect.wake m.lock.releaseV.2).apply t asleep) v := by
  have hw := h.wf t
  rw [hc] at hw
  obtain ⟨⟨hst, hlo⟩, hs, hwf⟩ := hw
  -- The thread that wakes up is at the lock's `P`.
  have hwake : ∀ u, (Effect.wake m.lock.releaseV.2).apply t asleep u = asleep u ∨
      (m.lock.releaseV.2 = some u ∧ (Effect.wake m.lock.releaseV.2).apply t asleep u = false) := by
    intro u
    cases ho : m.lock.releaseV.2 with
    | none => exact .inl rfl
    | some w =>
      by_cases e : u = w
      · subst e
        exact .inr ⟨rfl, Function.update_self _ _ _⟩
      · exact .inl (Function.update_of_ne e _ _)
  refine h.move ht m.data ?_ (h.lockQ.post ht) (by rw [hc]; rfl) (by rw [hc]; rfl)
    (by rw [hc]; rfl) hs hwf (fun u hu => ?_) fun u hu => ?_
  · rw [hst]
    exact h.held.post (by simp [hc])
  · rcases hwake u with he | ⟨ho, -⟩
    · exact absurd he hu
    · exact phase_of_atAcquire (h.wf u) (h.lockQ.woken ho)
  · rcases hwake u with he | ⟨-, he⟩
    · exact .inl (he.symm.trans hu)
    · rw [he] at hu
      cases hu

/-- A caller's statement. -/
theorem Inv.caller (h : Inv m loc asleep v) (ht : asleep t = false) {a : A}
    (hc : loc t = .caller a :: r) (d : D) (ks : List (Call A)) :
    Inv { m with data := d } (Function.update loc t (ks.flatMap Call.code ++ r)) asleep v := by
  have hw := h.wf t
  rw [hc] at hw
  obtain ⟨⟨hst, hph, hlo⟩, hs, hwf⟩ := hw
  obtain ⟨k₁, k₂, k₃, k₄, k₅⟩ := Ready.calls ⟨hwf, hst, hph, hlo, hs⟩ ks
  refine h.stay ht d ?_ ?_ ?_ (by rw [hc]; rfl) k₅ k₁
  · rw [k₂, hc]
    exact hst.symm
  · rw [k₃, hc]
    exact hph.symm
  · rw [k₄, hc]
    exact hlo.symm

theorem Inv.assertHeld (h : Inv m loc asleep v) (ht : asleep t = false)
    (hc : loc t = .assertHeld :: r) :
    m.lock.isHeldBy t = true ∧ Inv m (Function.update loc t r) asleep v := by
  have hw := h.wf t
  rw [hc] at hw
  obtain ⟨hst, hs, hwf⟩ := hw
  refine ⟨?_, h.stay ht m.data (by rw [hc]; rfl) (by rw [hc]; rfl) (by rw [hc]; rfl)
    (by rw [hc]; rfl) hs hwf⟩
  simpa [Lock.isHeldBy] using (h.held.busy t true (by simpa [hc] using hst)).2.1

/-- A step of a thread that keeps the lock, or does not have it, and moves on
in the condition variable. -/
theorem Inv.turn (h : Inv m loc asleep v) (ht : asleep t = false) {q : List T}
    {w : T → Option (Semaphore T)} {v' : CondVar T} (hst : status r' = status (loc t)) (hwf : Wf r')
    (hsig : ∀ u, signalling (Function.update loc t r' u) = true ↔ v'.signaller = some u)
    (hfront : ∀ u, Front v'.queue q (Function.update loc t r' u))
    (hsame : v'.signaller = none → v'.queue = q)
    (hsweep : ∀ u, loops (Function.update loc t r' u) = if v'.sweeper = some u then 1 else 0)
    (hnodup : v'.queue.Nodup)
    (hlined : ∀ u ∈ v'.queue, phase (Function.update loc t r' u) = .waiting)
    (hwoken : ∀ u, u ∈ v'.woken ↔ phase (Function.update loc t r' u) = .woken ∨
      (phase (Function.update loc t r' u) = .waiting ∧ u ∉ v'.queue))
    (hwaiters : ∀ u, w u =
      waiterOf u (u ∈ v'.queue) (asleep u) (phase (Function.update loc t r' u)))
    (hmem : ∀ u ∈ v.queue, u ∈ v'.queue) :
    Inv { m with waitQueue := q, waiter := w } (Function.update loc t r') asleep v' where
  held := by
    simp only [apply_update hst]
    exact h.held
  lockQ := h.lockQ.move ht rfl
  wf := (Function.forall_update_iff loc fun _ => Wf).mpr ⟨hwf, fun u _ => h.wf u⟩
  sig := hsig
  front := hfront
  same := hsame
  sweep := hsweep
  nodup := hnodup
  lined := hlined
  woken := hwoken
  waiters := hwaiters
  asleepAt u hu := by
    have e : u ≠ t := fun e => by rw [e, ht] at hu; cases hu
    rw [Function.update_of_ne e]
    exact (h.asleepAt u hu).imp_right fun hw => ⟨hw.1, hmem u hw.2⟩

/-- Threads other than the one with the lock are not in `Signal`. -/
theorem Inv.front_of (h : Inv m loc asleep v) (hst : status (loc t) = some true) {q w : List T}
    (hr : Front q w r') (u : T) : Front q w (Function.update loc t r' u) := by
  by_cases e : u = t
  · rw [e, Function.update_self]
    exact hr
  · rw [Function.update_of_ne e]
    refine front_of_not_signalling ?_
    by_contra hs
    rw [Bool.not_eq_false] at hs
    have hst' := status_of_signalling (h.wf u) hs
    exact e (h.held.unique (by simp [hst']) (by simp [hst]))

theorem Inv.newWaiter (h : Inv m loc asleep v) (ht : asleep t = false)
    (hc : loc t = .newWaiter :: r) :
    Inv { m with waiter := Function.update m.waiter t (some (.new 0)) } (Function.update loc t r)
      asleep v := by
  have hw := h.wf t
  rw [hc] at hw
  obtain ⟨⟨hst, hph, hlo⟩, hs, hwf⟩ := hw
  have hidle : phase (loc t) = .idle := by rw [hc]; rfl
  have hmem : t ∉ v.queue := h.not_mem (by simp [hidle])
  refine h.turn ht (by rw [hc]; rfl) hwf (fun u => ?_) (h.front_of (by simpa [hc] using hst)
    (front_of_not_signalling hs)) h.same (fun u => ?_) h.nodup (fun u hu => ?_) (fun u => ?_)
    (fun u => ?_) fun _ => id
  · rw [apply_update (f := signalling) (by rw [hc, hs]; rfl)]
    exact h.sig u
  · rw [apply_update (f := loops) (by rw [hc]; rfl)]
    exact h.sweep u
  · have e : u ≠ t := fun e => hmem (e ▸ hu)
    rw [Function.update_of_ne e]
    exact h.lined u hu
  · rw [h.woken u]
    by_cases e : u = t
    · rw [e, Function.update_self, hidle, hph]
      simp
    · rw [Function.update_of_ne e]
  · by_cases e : u = t
    · rw [e, Function.update_self, Function.update_self, hph]
      rfl
    · rw [Function.update_of_ne e, Function.update_of_ne e]
      exact h.waiters u

theorem Inv.enqueue (h : Inv m loc asleep v) (ht : asleep t = false) (hc : loc t = .enqueue :: r) :
    t ∉ m.waitQueue ∧ ∃ v', v.Step (.wait t : CondEvent T (T × A × D)) v' ∧
      Inv { m with waitQueue := m.waitQueue ++ [t] } (Function.update loc t r) asleep v' := by
  have hw := h.wf t
  rw [hc] at hw
  obtain ⟨⟨hst, hph, hlo⟩, hs, hwf⟩ := hw
  have hst' : status (loc t) = some true := by simpa [hc] using hst
  have hfresh : phase (loc t) = .fresh := by rw [hc]; rfl
  have hmem : t ∉ v.queue := h.not_mem (by simp [hfresh])
  have hsig := h.signaller_none hst' (by rw [hc]; rfl)
  have hwoken : t ∉ v.woken := by simp [h.woken t, hfresh]
  have hlist : ∀ u ≠ t, (u ∈ v.queue ++ [t] ↔ u ∈ v.queue) := fun u e => by simp [e]
  refine ⟨h.same hsig ▸ hmem, { v with queue := v.queue ++ [t] },
    ⟨hmem, hwoken, hsig, h.sweeper_none hst' (by simpa [hc] using hlo), rfl⟩, ?_⟩
  refine h.turn ht (by rw [hc]; rfl) hwf (fun u => ?_) (h.front_of hst'
    (front_of_not_signalling hs)) (fun _ => ?_) (fun u => ?_) ?_ (fun u hu => ?_) (fun u => ?_)
    (fun u => ?_) fun u hu => List.mem_append_left _ hu
  · rw [apply_update (f := signalling) (by rw [hc, hs]; rfl)]
    exact h.sig u
  · rw [h.same hsig]
  · rw [apply_update (f := loops) (by rw [hc]; rfl)]
    exact h.sweep u
  · exact List.nodup_append_comm.mp (List.nodup_cons.mpr ⟨hmem, h.nodup⟩)
  · by_cases e : u = t
    · rw [e, Function.update_self, hph]
    · rw [Function.update_of_ne e]
      exact h.lined u ((hlist u e).mp hu)
  · rw [h.woken u]
    by_cases e : u = t
    · rw [e, Function.update_self, hfresh, hph]
      simp
    · rw [Function.update_of_ne e, hlist u e]
  · rw [h.waiters u]
    by_cases e : u = t
    · rw [e, Function.update_self, hfresh, hph, ht]
      simp [waiterOf, Semaphore.new]
    · rw [Function.update_of_ne e]
      simp only [hlist u e]

/-- The waiter's `P` returns when the thread is not queued any more, and puts
it to sleep until then. -/
theorem Inv.waiterP (h : Inv m loc asleep v) (ht : asleep t = false) (hc : loc t = .waiterP :: r) :
    ∃ s s' b, m.waiter t = some s ∧ s.p t = .ok (s', b) ∧
      Inv { m with waiter := Function.update m.waiter t (some s') }
        (Function.update loc t (if b then r else .waiterP :: r))
        ((if b then Effect.go else .sleep).apply t asleep) v := by
  have hw := h.wf t
  rw [hc] at hw
  obtain ⟨⟨hst, hph, hlo⟩, hs, hwf⟩ := hw
  have hwait : phase (loc t) = .waiting := by rw [hc]; rfl
  have hwaiter := h.waiters t
  rw [hwait, ht] at hwaiter
  by_cases hq : t ∈ v.queue
  · refine ⟨⟨0, []⟩, ⟨0, [t]⟩, false, by simpa [waiterOf, hq] using hwaiter, rfl, ?_⟩
    have hloc : Function.update loc t (.waiterP :: r) = loc := by
      rw [← hc, Function.update_eq_self]
    simp only [Bool.false_eq_true, ite_false, hloc]
    refine { h with lockQ := ?_, waiters := fun u => ?_, asleepAt := fun u hu => ?_ }
    · have := h.lockQ.sleep_other (x := .waiterP :: r) ht rfl
      rwa [hloc] at this
    · dsimp only [Effect.apply]
      by_cases e : u = t
      · rw [e, Function.update_self, Function.update_self, hwait]
        simp [waiterOf, hq]
      · rw [Function.update_of_ne e, Function.update_of_ne e]
        exact h.waiters u
    · by_cases e : u = t
      · rw [e, hc]
        exact .inr ⟨rfl, hq⟩
      · exact h.asleepAt u ((Function.update_of_ne e _ _).symm.trans hu)
  · refine ⟨⟨1, []⟩, ⟨0, []⟩, true, by simpa [waiterOf, hq] using hwaiter, rfl, ?_⟩
    refine h.turn ht (by rw [hc]; rfl) hwf (fun u => ?_) (fun u => ?_) h.same (fun u => ?_)
      h.nodup (fun u hu => ?_) (fun u => ?_) (fun u => ?_) fun _ => id
    · rw [apply_update (f := signalling) (by rw [if_pos rfl, hc, hs]; rfl)]
      exact h.sig u
    · refine (Function.forall_update_iff loc fun _ => Front _ _).mpr ⟨?_, fun u _ => h.front u⟩ u
      exact front_of_not_signalling hs
    · rw [apply_update (f := loops) (by rw [hc]; rfl)]
      exact h.sweep u
    · have e : u ≠ t := fun e => hq (e ▸ hu)
      rw [Function.update_of_ne e]
      exact h.lined u hu
    · rw [h.woken u]
      by_cases e : u = t
      · rw [e, Function.update_self, if_pos rfl, hwait, hph]
        simp [hq]
      · rw [Function.update_of_ne e]
    · by_cases e : u = t
      · rw [e, Function.update_self, Function.update_self, if_pos rfl, hph]
        rfl
      · rw [Function.update_of_ne e, Function.update_of_ne e]
        exact h.waiters u

theorem Inv.deleteWaiter (h : Inv m loc asleep v) (ht : asleep t = false)
    (hc : loc t = .deleteWaiter :: r) :
    ∃ v', v.Step (.ret t : CondEvent T (T × A × D)) v' ∧
      Inv { m with waiter := Function.update m.waiter t none } (Function.update loc t r) asleep v' := by
  have hw := h.wf t
  rw [hc] at hw
  obtain ⟨⟨hst, hph, hlo⟩, hs, hwf⟩ := hw
  have hwok : phase (loc t) = .woken := by rw [hc]; rfl
  have hmem : t ∉ v.queue := h.not_mem (by simp [hwok])
  refine ⟨{ v with woken := v.woken.erase t }, ⟨(h.woken t).mpr (.inl hwok), rfl⟩, ?_⟩
  refine h.turn ht (by rw [hc]; rfl) hwf (fun u => ?_) (h.front_of (by simpa [hc] using hst)
    (front_of_not_signalling hs)) h.same (fun u => ?_) h.nodup (fun u hu => ?_) (fun u => ?_)
    (fun u => ?_) fun _ => id
  · rw [apply_update (f := signalling) (by rw [hc, hs]; rfl)]
    exact h.sig u
  · rw [apply_update (f := loops) (by rw [hc]; rfl)]
    exact h.sweep u
  · have e : u ≠ t := fun e => hmem (e ▸ hu)
    rw [Function.update_of_ne e]
    exact h.lined u hu
  · rw [Finset.mem_erase, h.woken u]
    by_cases e : u = t
    · rw [e, Function.update_self, hph]
      simp
    · rw [Function.update_of_ne e]
      simp [e]
  · by_cases e : u = t
    · rw [e, Function.update_self, Function.update_self, hph]
      rfl
    · rw [Function.update_of_ne e, Function.update_of_ne e]
      exact h.waiters u

/-- The threads in `Signal`, when only `t` can be. -/
theorem Inv.sig_of (h : Inv m loc asleep v) (hst : status (loc t) = some true) (u : T) :
    signalling (Function.update loc t r' u) = true ↔ signalling r' = true ∧ u = t := by
  by_cases e : u = t
  · rw [e, Function.update_self]
    simp
  · rw [Function.update_of_ne e]
    refine iff_of_false (fun hs => ?_) fun hc => e hc.2
    have hst' := status_of_signalling (h.wf u) hs
    exact e (h.held.unique (by simp [hst']) (by simp [hst]))

/-- `Signal` finds a waiter. -/
theorem Inv.found (h : Inv m loc asleep v) (ht : asleep t = false) (hc : loc t = .signal :: r)
    (hq : m.waitQueue ≠ []) :
    ∃ v', v.Step (.found t : CondEvent T (T × A × D)) v' ∧
      Inv m (Function.update loc t (.removeFront :: r)) asleep v' := by
  have hw := h.wf t
  rw [hc] at hw
  obtain ⟨⟨hst, hph⟩, hs, hwf⟩ := hw
  have hst' : status (loc t) = some true := by simpa [hc] using hst
  have hsig := h.signaller_none hst' (by rw [hc]; rfl)
  refine ⟨{ v with signaller := some t },
    ⟨by rwa [h.same hsig], hsig, h.sweeper_cases hst', rfl⟩, ?_⟩
  refine h.turn ht (by rw [hc]; rfl) ⟨⟨hst, hph⟩, hs, hwf⟩ (fun u => ?_)
    (h.front_of hst' ⟨h.same hsig, hq⟩) (fun hn => by cases hn) (fun u => ?_) h.nodup
    (fun u hu => ?_) (fun u => ?_) (fun u => ?_) fun _ => id
  · rw [h.sig_of hst']
    simp [eq_comm]
  · rw [apply_update (f := loops) (by rw [hc]; rfl)]
    exact h.sweep u
  · rw [apply_update (f := phase) (by rw [hc]; rfl)]
    exact h.lined u hu
  · rw [apply_update (f := phase) (by rw [hc]; rfl)]
    exact h.woken u
  · rw [apply_update (f := phase) (by rw [hc]; rfl)]
    exact h.waiters u

theorem Inv.removeFront (h : Inv m loc asleep v) (ht : asleep t = false)
    (hc : loc t = .removeFront :: r) :
    ∃ u q, m.waitQueue = u :: q ∧
      Inv { m with waitQueue := q } (Function.update loc t (.waiterV u :: r)) asleep v := by
  have hw := h.wf t
  rw [hc] at hw
  obtain ⟨⟨hst, hph⟩, hs, hwf⟩ := hw
  have hst' : status (loc t) = some true := by simpa [hc] using hst
  have hsig : v.signaller = some t := (h.sig t).mp (by rw [hc]; rfl)
  have hfront := h.front t
  rw [hc] at hfront
  obtain ⟨hqueue, hne⟩ := hfront
  obtain ⟨u, q, hq⟩ := List.exists_cons_of_ne_nil hne
  refine ⟨u, q, hq, ?_⟩
  refine h.turn ht (by rw [hc]; rfl) ⟨⟨hst, hph⟩, hs, hwf⟩ (fun w => ?_)
    (h.front_of hst' (hqueue.trans hq)) (fun hn => by rw [hsig] at hn; cases hn) (fun w => ?_)
    h.nodup (fun w hw => ?_) (fun w => ?_) (fun w => ?_) fun _ => id
  · rw [h.sig_of hst', hsig]
    simp [eq_comm]
  · rw [apply_update (f := loops) (by rw [hc]; rfl)]
    exact h.sweep w
  · rw [apply_update (f := phase) (by rw [hc]; rfl)]
    exact h.lined w hw
  · rw [apply_update (f := phase) (by rw [hc]; rfl)]
    exact h.woken w
  · rw [apply_update (f := phase) (by rw [hc]; rfl)]
    exact h.waiters w

/-- A `Broadcast` begins or ends, or has a turn of its loop. -/
theorem Inv.sweeps (h : Inv m loc asleep v) (ht : asleep t = false)
    (hst : status (loc t) = some true) (hst' : status r' = some true)
    (hph : phase r' = phase (loc t)) (hs : signalling (loc t) = false) (hs' : signalling r' = false)
    (hwf : Wf r') {o : Option T} (ho : o = none ∨ o = some t)
    (hlo : loops r' = if o = some t then 1 else 0) :
    Inv m (Function.update loc t r') asleep { v with sweeper := o } := by
  have hsig := h.signaller_none hst hs
  refine h.turn ht (hst'.trans hst.symm) hwf (fun u => ?_)
    (h.front_of hst (front_of_not_signalling hs')) h.same (fun u => ?_) h.nodup (fun u hu => ?_)
    (fun u => ?_) (fun u => ?_) fun _ => id
  · rw [apply_update (f := signalling) (hs'.trans hs.symm)]
    exact h.sig u
  · by_cases e : u = t
    · rw [e, Function.update_self, hlo]
    · rw [Function.update_of_ne e, h.sweep u]
      have hn : ∀ o' : Option T, o' = none ∨ o' = some t → o' ≠ some u := by
        rintro o' (rfl | rfl) hc
        · cases hc
        · exact e (Option.some.inj hc).symm
      rw [if_neg (hn _ (h.sweeper_cases hst)), if_neg (hn o ho)]
  · rw [apply_update (f := phase) hph]
    exact h.lined u hu
  · rw [apply_update (f := phase) hph]
    exact h.woken u
  · rw [apply_update (f := phase) hph]
    exact h.waiters u

/-- `Signal` releases the thread that waits the longest. -/
theorem Inv.waiterV (h : Inv m loc asleep v) (ht : asleep t = false) {u : T}
    (hc : loc t = .waiterV u :: r) :
    ∃ s v', m.waiter u = some s ∧ v.Step (.signal t u : CondEvent T (T × A × D)) v' ∧
      Inv { m with waiter := Function.update m.waiter u (some s.v.1) } (Function.update loc t r)
        ((Effect.wake s.v.2).apply t asleep) v' := by
  have hw := h.wf t
  rw [hc] at hw
  obtain ⟨⟨hst, hph⟩, hs, hwf⟩ := hw
  have hst' : status (loc t) = some true := by simpa [hc] using hst
  have hsig : v.signaller = some t := (h.sig t).mp (by rw [hc]; rfl)
  have hqueue := h.front t
  rw [hc] at hqueue
  have hqueue : v.queue = u :: m.waitQueue := hqueue
  have hmem : u ∈ v.queue := by simp [hqueue]
  have hnd := h.nodup
  rw [hqueue, List.nodup_cons] at hnd
  have hwait : phase (loc u) = .waiting := h.lined u hmem
  have hne : u ≠ t := by
    rintro rfl
    rw [hc] at hwait
    rw [show phase r = .waiting from hwait] at hph
    cases hph
  have hacq : atAcquire (loc u) = false := by
    by_contra ha
    rw [Bool.not_eq_false] at ha
    exact phase_of_atAcquire (h.wf u) ha hwait
  have hwaiter := h.waiters u
  rw [hwait] at hwaiter
  obtain ⟨s, hs₀⟩ : ∃ s : Semaphore T, s = ⟨0, if asleep u then [u] else []⟩ := ⟨_, rfl⟩
  have hm : m.waiter u = some s := by simpa [waiterOf, hmem, hs₀] using hwaiter
  have hsv : s.v.1 = ⟨1, []⟩ := by
    rw [hs₀, Semaphore.v_eq]
    split <;> rfl
  -- `u` is awake afterwards, and all others as before.
  have hasleep : (Effect.wake s.v.2).apply t asleep = Function.update asleep u false := by
    rw [hs₀, Semaphore.v_eq]
    by_cases ha : asleep u = true
    · simp [ha, Effect.apply]
    · simp [ha, Effect.apply]
  have hph' : ∀ w, phase (Function.update loc t r w) = phase (loc w) :=
    apply_update (f := phase) (by rw [hc]; rfl)
  have hlist : ∀ w ≠ u, (w ∈ v.queue ↔ w ∈ m.waitQueue) := fun w e => by simp [hqueue, e]
  refine ⟨s, { v with queue := m.waitQueue, woken := insert u v.woken, signaller := none }, hm,
    ⟨hsig, m.waitQueue, hqueue, rfl⟩, ?_⟩
  rw [hasleep, hsv]
  constructor
  case held =>
    simp only [apply_update (f := status) (show status r = status (loc t) by rw [hc]; rfl)]
    exact h.held
  case lockQ =>
    rw [← hasleep]
    refine h.lockQ.post_other ht fun w hw => ?_
    rw [hs₀, Semaphore.v_eq] at hw
    split at hw
    · cases hw
      exact hacq
    · cases hw
  case wf => exact (Function.forall_update_iff loc fun _ => Wf).mpr ⟨hwf, fun w _ => h.wf w⟩
  case sig =>
    intro w
    rw [h.sig_of hst', hs]
    simp
  case front => exact h.front_of hst' (front_of_not_signalling hs)
  case same => exact fun _ => rfl
  case sweep =>
    intro w
    rw [apply_update (f := loops) (by rw [hc]; rfl)]
    exact h.sweep w
  case nodup => exact hnd.2
  case lined =>
    intro w hw
    rw [hph']
    exact h.lined w (by rw [hqueue]; exact List.mem_cons_of_mem u hw)
  case woken =>
    intro w
    rw [Finset.mem_insert, h.woken w, hph']
    by_cases e : w = u
    · rw [e, hwait]
      simp [hnd.1]
    · rw [hlist w e]
      simp [e]
  case waiters =>
    intro w
    dsimp only
    rw [hph']
    by_cases e : w = u
    · rw [e, Function.update_self, Function.update_self, hwait]
      simp [waiterOf, hnd.1]
    · rw [Function.update_of_ne e, Function.update_of_ne e, h.waiters w]
      simp only [hlist w e]
  case asleepAt =>
    intro w hw
    have e : w ≠ u := fun e => by rw [e, Function.update_self] at hw; cases hw
    rw [Function.update_of_ne e] at hw
    have e' : w ≠ t := fun e => by rw [e, ht] at hw; cases hw
    rw [Function.update_of_ne e']
    exact (h.asleepAt w hw).imp_right fun ha => ⟨ha.1, (hlist w e).mp ha.2⟩

/-! ### Any step -/

variable (caller : T → D → A → Except Abort (D × List (Call A)))

/-- A statement of a thread that is awake is a step of the abstract condition
variable; only a caller's own statement can abort. -/
theorem Inv.exec (h : Inv m loc asleep v) (ht : asleep t = false) :
    (∃ m' r' e v', m.exec caller t (loc t) = .ok (m', r', e) ∧
      Follows v (event t m (loc t)) v' ∧ Inv m' (Function.update loc t r') (e.apply t asleep) v') ∨
    ∃ a r e, loc t = .caller a :: r ∧ caller t m.data a = .error e := by
  have hw := h.wf t
  cases hc : loc t with
  | nil =>
    refine .inl ⟨m, [], .go, v, rfl, rfl, ?_⟩
    rw [← hc, Function.update_eq_self]
    exact h
  | cons s r =>
    rw [hc] at hw
    cases s with
    | acquireP =>
      obtain ⟨⟨l, b⟩, hx⟩ := Lock.acquireP_ok (h.lockQ.not_mem ht)
      exact .inl ⟨_, _, _, v, by simp only [Monitor.exec, hx, ok_bind, pure_eq_ok], rfl,
        h.acquireP ht hc hx⟩
    | acquireSet => exact .inl ⟨_, _, _, v, rfl, rfl, h.acquireSet ht hc⟩
    | releaseCheck =>
      obtain ⟨hx, h'⟩ := h.releaseCheck ht hc
      exact .inl ⟨_, r, .go, v, by simp only [Monitor.exec, hx, ok_bind, pure_eq_ok], rfl, h'⟩
    | releaseV => exact .inl ⟨_, _, _, v, rfl, rfl, h.releaseV ht hc⟩
    | assertHeld =>
      obtain ⟨hx, h'⟩ := h.assertHeld ht hc
      exact .inl ⟨m, r, .go, v, by simp only [Monitor.exec, assert_of hx, ok_bind, pure_eq_ok], rfl,
        h'⟩
    | newWaiter => exact .inl ⟨_, _, _, v, rfl, rfl, h.newWaiter ht hc⟩
    | enqueue =>
      obtain ⟨hx, v', hv, h'⟩ := h.enqueue ht hc
      refine .inl ⟨_, r, .go, v', ?_, hv, h'⟩
      simp only [Monitor.exec, NList.append_eq_ok.mpr ⟨hx, rfl⟩, ok_bind, pure_eq_ok]
    | waiterP =>
      obtain ⟨s, s', b, hs, hx, h'⟩ := h.waiterP ht hc
      exact .inl ⟨_, _, _, v, by simp only [Monitor.exec, hs, hx, ok_bind, pure_eq_ok], rfl, h'⟩
    | deleteWaiter =>
      obtain ⟨v', hv, h'⟩ := h.deleteWaiter ht hc
      exact .inl ⟨_, _, _, v', rfl, hv, h'⟩
    | signal =>
      by_cases hq : m.waitQueue = []
      · obtain ⟨⟨hst, hph⟩, hs, hwf⟩ := hw
        refine .inl ⟨_, _, _, v, rfl, by simp [event, hq, Follows], ?_⟩
        rw [if_pos hq]
        exact h.stay ht m.data (by rw [hc]; rfl) (by rw [hc]; rfl) (by rw [hc]; rfl)
          (by rw [hc]; rfl) hs hwf
      · obtain ⟨v', hv, h'⟩ := h.found ht hc hq
        refine .inl ⟨_, _, _, v', rfl, ?_, ?_⟩
        · simp only [event, hq, ite_false]
          exact hv
        · rw [if_neg hq]
          exact h'
    | removeFront =>
      obtain ⟨u, q, hq, h'⟩ := h.removeFront ht hc
      refine .inl ⟨_, .waiterV u :: r, .go, v, ?_, rfl, h'⟩
      simp only [Monitor.exec, hq, NList.removeFront, ok_bind, pure_eq_ok]
    | waiterV u =>
      obtain ⟨s, v', hs, hv, h'⟩ := h.waiterV ht hc
      exact .inl ⟨_, _, _, v', by simp only [Monitor.exec, hs, pure_eq_ok], hv, h'⟩
    | broadcast =>
      obtain ⟨⟨hst, hph, hlo⟩, hs, hwf⟩ := hw
      have hst' : status (loc t) = some true := by simpa [hc] using hst
      refine .inl ⟨m, .broadcastLoop :: r, .go, { v with sweeper := some t }, rfl,
        ⟨h.signaller_none hst' (by rw [hc]; rfl), h.sweeper_none hst' (by simpa [hc] using hlo), rfl⟩,
        ?_⟩
      exact h.sweeps ht hst' (show status (.broadcastLoop :: r) = some true from hst)
        (by rw [hc]; rfl) (by rw [hc]; rfl) rfl ⟨⟨hst, hph, hlo⟩, hs, hwf⟩ (.inr rfl) (by simp [hlo])
    | broadcastLoop =>
      obtain ⟨⟨hst, hph, hlo⟩, hs, hwf⟩ := hw
      have hst' : status (loc t) = some true := by simpa [hc] using hst
      have hsig := h.signaller_none hst' (by rw [hc]; rfl)
      have hsw : v.sweeper = some t := by
        by_contra hn
        have := h.sweep t
        rw [if_neg hn, hc] at this
        cases this
      by_cases hq : m.waitQueue = []
      · refine .inl ⟨_, _, _, { v with sweeper := none }, rfl, ?_, ?_⟩
        · simp only [event, hq, ite_true]
          exact ⟨hsig, hsw, (h.same hsig).trans hq, rfl⟩
        · rw [if_pos hq]
          exact h.sweeps ht hst' hst (by rw [hc]; rfl) (by rw [hc]; rfl) hs hwf (.inl rfl) (by simp [hlo])
      · refine .inl ⟨_, _, _, v, rfl, by simp [event, hq, Follows], ?_⟩
        rw [if_neg hq]
        exact h.stay ht m.data (by rw [hc]; rfl) (by rw [hc]; rfl) (by rw [hc]; rfl)
          (by rw [hc]; rfl) rfl
          ⟨hst, rfl, ⟨hst, hph⟩, rfl, ⟨hst, hph, hlo⟩, hs, hwf⟩
    | caller a =>
      cases hx : caller t m.data a with
      | error e => exact .inr ⟨a, r, e, rfl, hx⟩
      | ok x =>
        obtain ⟨d, ks⟩ := x
        refine .inl ⟨_, ks.flatMap Call.code ++ r, .go, v, ?_, rfl, h.caller ht hc d ks⟩
        simp only [Monitor.exec, hx, ok_bind, pure_eq_ok]

end

section
variable {caller : T → D → A → Except Abort (D × List (Call A))} {d : D}
  {prog : T → List (List (Call A))}
  {c : State T A D}

/-- The invariant of a state, with the run of the abstract condition variable
that leads to it. -/
structure Refines (c : State T A D) (v : CondVar T) : Prop where
  inv : Inv c.shared.1 c.loc c.asleep v
  trace : (CondVar.system T (T × A × D)).Trace c.shared.2 v

theorem refines_init (d : D) (prog : T → List (List (Call A))) :
    Refines (initial d prog) .empty :=
  ⟨inv_init d prog, .init rfl⟩

/-- What a step does, with its event. -/
theorem Refines.step {v : CondVar T} {t : T} {c' : State T A D} (h : Refines c v)
    (hs : next (record caller) c t = .ok c') :
    (c.asleep t = true ∧ c' = c) ∨
    (c.asleep t = false ∧ ∃ m r e v', c.shared.1.exec caller t (c.loc t) = .ok (m, r, e) ∧
      c' = ⟨(m, c.shared.2 ++ (event t c.shared.1 (c.loc t)).toList), Function.update c.loc t r,
        e.apply t c.asleep⟩ ∧
      Follows v (event t c.shared.1 (c.loc t)) v' ∧ Refines c' v') := by
  rcases next_cases hs with ⟨ha, rfl⟩ | ⟨ha, s, r, e, hx, rfl⟩
  · exact .inl ⟨ha, rfl⟩
  · obtain ⟨⟨m, r, e⟩, hm, hx⟩ := bind_eq_ok.mp hx
    cases hx
    rcases h.inv.exec caller ha with ⟨m', r', e', v', hm', hv, hinv⟩ | ⟨a, r', e', hc, hx⟩
    · rw [hm] at hm'
      cases hm'
      refine .inr ⟨ha, m, r, e, v', hm, rfl, hv, hinv, ?_⟩
      cases he : event t c.shared.1 (c.loc t) with
      | none =>
        rw [he] at hv
        cases hv
        simpa using h.trace
      | some ev =>
        rw [he] at hv
        exact .step h.trace hv
    · rw [hc] at hm
      simp [Monitor.exec, hx] at hm

/-- A step without an event, by what it leaves to run. -/
inductive Quiet : List (Stmt T A) → List (Stmt T A) → Prop
  | stay (r : List (Stmt T A)) : Quiet r r
  | lock {s : Stmt T A} (r : List (Stmt T A))
    (h : s ∈ [.acquireP, .acquireSet, .releaseCheck, .releaseV]) : Quiet (s :: r) r
  | wait {s : Stmt T A} (r : List (Stmt T A)) (h : s ∈ [.assertHeld, .newWaiter, .waiterP]) :
    Quiet (s :: r) r
  | none (r : List (Stmt T A)) : Quiet (.signal :: r) r
  | remove (u : T) (r : List (Stmt T A)) : Quiet (.removeFront :: r) (.waiterV u :: r)
  | again (r : List (Stmt T A)) : Quiet (.broadcastLoop :: r) (Condition.signal ++ .broadcastLoop :: r)

/-- A step, by its event. -/
def Did (caller : T → D → A → Except Abort (D × List (Call A))) (t : T) (d d' : D)
    (r r' : List (Stmt T A)) : Option (Event T A D) → Prop
  | none => d' = d ∧ Quiet r r'
  | some (.wait u) => u = t ∧ d' = d ∧ r = .enqueue :: r'
  | some (.found u) => u = t ∧ d' = d ∧ ∃ r₀, r = .signal :: r₀ ∧ r' = .removeFront :: r₀
  | some (.signal u w) => u = t ∧ d' = d ∧ r = .waiterV w :: r'
  | some (.ret u) => u = t ∧ d' = d ∧ r = .deleteWaiter :: r'
  | some (.broadcast u) => u = t ∧ d' = d ∧ ∃ r₀, r = .broadcast :: r₀ ∧ r' = .broadcastLoop :: r₀
  | some (.done u) => u = t ∧ d' = d ∧ r = .broadcastLoop :: r'
  | some (.other (u, a, d₀)) => u = t ∧ d₀ = d ∧ ∃ r₀ ks, r = .caller a :: r₀ ∧
    caller t d a = .ok (d', ks) ∧ r' = ks.flatMap Call.code ++ r₀

theorem did_exec {m m' : Monitor T D} {t : T} {r r' : List (Stmt T A)} {e : Effect T}
    (hx : m.exec caller t r = .ok (m', r', e)) : Did caller t m.data m'.data r r' (event t m r) := by
  cases r with
  | nil =>
    cases hx
    exact ⟨rfl, .stay []⟩
  | cons s r =>
    cases s with
    | acquireP =>
      obtain ⟨⟨l, b⟩, -, hx⟩ := bind_eq_ok.mp hx
      cases hx
      cases b with
      | true => exact ⟨rfl, .lock _ (by simp)⟩
      | false => exact ⟨rfl, .stay _⟩
    | acquireSet =>
      cases hx
      exact ⟨rfl, .lock _ (by simp)⟩
    | releaseCheck =>
      obtain ⟨l, -, hx⟩ := bind_eq_ok.mp hx
      cases hx
      exact ⟨rfl, .lock _ (by simp)⟩
    | releaseV =>
      cases hx
      exact ⟨rfl, .lock _ (by simp)⟩
    | assertHeld =>
      obtain ⟨-, -, hx⟩ := bind_eq_ok.mp hx
      cases hx
      exact ⟨rfl, .wait _ (by simp)⟩
    | newWaiter =>
      cases hx
      exact ⟨rfl, .wait _ (by simp)⟩
    | enqueue =>
      obtain ⟨q, -, hx⟩ := bind_eq_ok.mp hx
      cases hx
      exact ⟨rfl, rfl, rfl⟩
    | waiterP =>
      simp only [Monitor.exec] at hx
      split at hx
      · cases hx
      · obtain ⟨⟨s, b⟩, -, hx⟩ := bind_eq_ok.mp hx
        cases hx
        cases b with
        | true => exact ⟨rfl, .wait _ (by simp)⟩
        | false => exact ⟨rfl, .stay _⟩
    | deleteWaiter =>
      cases hx
      exact ⟨rfl, rfl, rfl⟩
    | signal =>
      cases hx
      by_cases hq : m.waitQueue = []
      · simp only [event, hq, ite_true]
        exact ⟨rfl, .none r⟩
      · simp only [event, hq, ite_false]
        exact ⟨rfl, rfl, r, rfl, rfl⟩
    | removeFront =>
      obtain ⟨⟨u, q⟩, -, hx⟩ := bind_eq_ok.mp hx
      cases hx
      exact ⟨rfl, .remove u r⟩
    | waiterV u =>
      simp only [Monitor.exec] at hx
      split at hx
      · cases hx
      · cases hx
        exact ⟨rfl, rfl, rfl⟩
    | broadcast =>
      cases hx
      exact ⟨rfl, rfl, r, rfl, rfl⟩
    | broadcastLoop =>
      cases hx
      by_cases hq : m.waitQueue = []
      · simp only [event, hq, ite_true]
        exact ⟨rfl, rfl, rfl⟩
      · simp only [event, hq, ite_false]
        exact ⟨rfl, .again r⟩
    | caller a =>
      obtain ⟨⟨d, ks⟩, hk, hx⟩ := bind_eq_ok.mp hx
      cases hx
      exact ⟨rfl, rfl, r, ks, rfl, hk, rfl⟩

theorem reachable_condVar (h : (system caller d prog).Reachable c) : ∃ v, Refines c v := by
  refine h.invariant (I := fun c => ∃ v, Refines c v) ?_ ?_
  · rintro c rfl
    exact ⟨_, refines_init d prog⟩
  · rintro c t c' ⟨v, hv⟩ hs
    rcases hv.step hs with ⟨-, rfl⟩ | ⟨-, m, r, e, v', -, -, -, h'⟩
    · exact ⟨v, hv⟩
    · exact ⟨v', h'⟩

end

end Nachos.Monitor

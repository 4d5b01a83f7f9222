import Nachos.Impl.Threads.Driver
import Nachos.Proof.Threads.Sync

/-!
# Synchronous drivers

For any threads that call a driver, and any order of their steps and of the
device's interrupts (`Synchronous`): the device is never asked while it is busy,
at most one request is outstanding, a call returns after the interrupt of its own
request, and that interrupt wakes the thread that made the request and no other.

This is proved for any device with a busy flag (`Device.Flag`), and holds of the
disk and of the console (`reachable_synchronous`).
-/

namespace Nachos

/-- A device whose requests set a flag that its interrupt clears. -/
structure Device.Flag {R O D : Type} (dev : Device R O D) (busy : D → Bool) : Prop where
  request : ∀ d r d' o, dev.request d r = .ok (d', o) → busy d' = true
  callBack : ∀ d, busy (dev.callBack d) = false

namespace Driver

open Framework

variable {T R O D : Type}

/-! ## The code of a thread -/

/-- Where a thread is that has made a request: at the `P`, or behind it. -/
inductive Phase
  | out
  | waits
  | passed
  deriving DecidableEq

def phaseAt : DriverStmt R → Phase
  | .p _ => .waits
  | .act .woken => .passed
  | _ => .out

def phase : List (DriverStmt R) → Phase
  | [] => .out
  | s :: _ => phaseAt s

@[simp] theorem phase_cons (s : DriverStmt R) (r : List (DriverStmt R)) : phase (s :: r) = phaseAt s :=
  rfl

/-- The calls in the code that have passed `P` and not returned. -/
def owed : List (DriverStmt R) → Nat
  | [] => 0
  | .act .ret :: r => owed r + 1
  | .act .woken :: r => owed r - 1
  | _ :: r => owed r

/-- A statement fits what comes behind it. -/
def Fits : DriverStmt R → List (DriverStmt R) → Prop
  | .act (.request _), r => Sync.status () r = some true ∧ phase r = .waits
  | .p _, r => Sync.status () r = some true ∧ phase r = .passed
  | .act .woken, r => Sync.status () r = some true ∧ phase r = .out ∧ 0 < owed r
  | .v _, _ => False
  | _, r => phase r = .out

def Shaped : List (DriverStmt R) → Prop
  | [] => True
  | s :: r => Fits s r ∧ Shaped r

/-- What holds of the code of a call when it holds of the rest. -/
structure Rest (r : List (DriverStmt R)) : Prop where
  shaped : Shaped r
  out : phase r = .out
  owed : owed r = 0
  balanced : Sync.Balanced r

theorem rest_call (x : R) {r : List (DriverStmt R)} (h : Rest r) : Rest (call x ++ r) := by
  refine ⟨?_, rfl, ?_, .append ⟨?_, fun _ => rfl⟩ h.balanced⟩
  · simp [call, Sync.acquire, Sync.release, Shaped, Fits, phaseAt, Driver.owed, h.shaped, h.out,
      Sync.status]
  · simp [call, Sync.acquire, Sync.release, Driver.owed, h.owed]
  · simp [call, Sync.acquire, Sync.release, Sync.Wf, Sync.Fits, Sync.status]

theorem rest_calls (rs : List R) : Rest (rs.map call).flatten := by
  induction rs with
  | nil => exact ⟨trivial, rfl, rfl, .nil⟩
  | cons r rs ih => exact rest_call r ih

/-- A thread that waits or has passed holds the lock. -/
theorem Shaped.holds {r : List (DriverStmt R)} (h : Shaped r) (hp : phase r ≠ .out) :
    Sync.status () r = some true := by
  cases r with
  | nil => exact absurd rfl hp
  | cons s r =>
    cases s with
    | p k => exact h.1.1
    | act a =>
      cases a with
      | woken => exact h.1.1
      | _ => exact absurd rfl hp
    | _ => exact absurd rfl hp

/-! ## The log -/

/-- An event that is not a return. -/
def isMain : DriverEvent T R O → Bool
  | .ret _ => false
  | _ => true

/-- The log without the returns of the calls. -/
def main (l : List (DriverEvent T R O)) : List (DriverEvent T R O) := l.filter isMain

/-- Requests that were each followed by the interrupt, and by the return of the
`P` of the thread that made the request. -/
inductive Rounds : List (DriverEvent T R O) → Prop
  | nil : Rounds []
  | round {l : List (DriverEvent T R O)} (h : Rounds l) (t : T) (r : R) (o : O) :
    Rounds (l ++ [.request t r o, .callBack, .woken t])

/-- Then a request of `t` is outstanding. -/
def Outstanding (l : List (DriverEvent T R O)) (t : T) : Prop :=
  ∃ l' r o, Rounds l' ∧ main l = l' ++ [.request t r o]

/-- The request of `t` has had its interrupt, and `t` has not passed `P`. -/
def Ended (l : List (DriverEvent T R O)) (t : T) : Prop :=
  ∃ l' r o, Rounds l' ∧ main l = l' ++ [.request t r o, .callBack]

@[simp] theorem main_append (l l' : List (DriverEvent T R O)) : main (l ++ l') = main l ++ main l' :=
  List.filter_append ..

theorem Outstanding.callBack {l : List (DriverEvent T R O)} {t : T} (h : Outstanding l t) :
    Ended (l ++ [.callBack]) t := by
  obtain ⟨l', r, o, hl, he⟩ := h
  refine ⟨l', r, o, hl, ?_⟩
  rw [main_append, he, List.append_assoc]
  rfl

theorem Ended.woken {l : List (DriverEvent T R O)} {t : T} (h : Ended l t) :
    Rounds (main (l ++ [.woken t])) := by
  obtain ⟨l', r, o, hl, he⟩ := h
  rw [main_append, he, List.append_assoc]
  exact hl.round t r o

/-! ## The device and the semaphore -/

/-- What the places of the threads say of the device, the semaphore and the log. -/
structure Tied (busy : D → Bool) (d : Driver T R O D) (v : Int) (f : T → Phase) : Prop where
  out : (∀ t, f t = .out) → busy d.device = false ∧ d.pending = 0 ∧ v = 0 ∧ Rounds (main d.log)
  waits : ∀ t, f t = .waits → (∀ u ≠ t, f u = .out) ∧
    (busy d.device = true ∧ d.pending = 1 ∧ v = 0 ∧ Outstanding d.log t ∨
      busy d.device = false ∧ d.pending = 0 ∧ v = 1 ∧ Ended d.log t)
  passed : ∀ t, f t = .passed → (∀ u ≠ t, f u = .out) ∧
    busy d.device = false ∧ d.pending = 0 ∧ v = 0 ∧ Ended d.log t

section
variable {busy : D → Bool} {d : Driver T R O D} {v : Int} {f : T → Phase} {t : T} {dev : Device R O D}

/-- A return of a call. -/
theorem Tied.ret (h : Tied busy d v f) (t : T) : Tied busy { d with log := d.log ++ [.ret t] } v f := by
  have hm : main (d.log ++ [.ret t]) = main d.log := by simp [main, isMain]
  have ho : ∀ u, Outstanding (d.log ++ [.ret t]) u ↔ Outstanding d.log u := fun u => by
    simp only [Outstanding, hm]
  have he : ∀ u, Ended (d.log ++ [.ret t]) u ↔ Ended d.log u := fun u => by simp only [Ended, hm]
  refine ⟨fun hf => ?_, fun u hu => ?_, fun u hu => ?_⟩
  · simp only [hm]
    exact h.out hf
  · simp only [ho, he]
    exact h.waits u hu
  · simp only [he]
    exact h.passed u hu

/-- The interrupt: a thread waits for it. -/
theorem Tied.callBack (h : Tied busy d v f) (hd : dev.Flag busy) (hp : d.pending ≠ 0) :
    ∃ t, f t = .waits ∧ Outstanding d.log t ∧ d.pending = 1 ∧
      Tied busy ⟨dev.callBack d.device, d.pending - 1, d.log ++ [.callBack]⟩ (v + 1) f := by
  obtain ⟨t, ht⟩ : ∃ t, f t ≠ .out := by
    by_contra hn
    exact hp (h.out fun t => by_contra fun ht => hn ⟨t, ht⟩).2.1
  have hw : f t = .waits := by
    cases hf : f t with
    | out => exact absurd hf ht
    | waits => rfl
    | passed => exact absurd (h.passed t hf).2.2.1 hp
  obtain ⟨hu, hr⟩ := h.waits t hw
  obtain ⟨-, h1, hv, ho⟩ := hr.resolve_right fun hr => hp hr.2.1
  refine ⟨t, hw, ho, h1, fun hf => absurd (hf t) ht, fun u hfu => ?_, fun u hfu => ?_⟩
  · have e : u = t := by_contra fun e => by simp [hu u e] at hfu
    subst e
    exact ⟨hu, .inr ⟨hd.callBack _, by simp only; omega, by omega, ho.callBack⟩⟩
  · have e : u = t := by_contra fun e => by simp [hu u e] at hfu
    simp [e, hw] at hfu

variable [DecidableEq T]

/-- The thread that changes its place was the only one with one, and is so then. -/
theorem Tied.of_update {d' : Driver T R O D} {v' : Int} {p : Phase}
    (ho : ∀ u ≠ t, f u = .out)
    (hout : p = .out → busy d'.device = false ∧ d'.pending = 0 ∧ v' = 0 ∧ Rounds (main d'.log))
    (hw : p = .waits → busy d'.device = true ∧ d'.pending = 1 ∧ v' = 0 ∧ Outstanding d'.log t)
    (hp : p = .passed → busy d'.device = false ∧ d'.pending = 0 ∧ v' = 0 ∧ Ended d'.log t) :
    Tied busy d' v' (Function.update f t p) := by
  have hu : ∀ u ≠ t, Function.update f t p u = .out := fun u hu => by
    rw [Function.update_of_ne hu, ho u hu]
  have ht : ∀ u q, q ≠ .out → Function.update f t p u = q → u = t ∧ p = q := by
    intro u q hq hf
    have e : u = t := by_contra fun e => hq (hf.symm.trans (hu u e))
    subst e
    exact ⟨rfl, by rwa [Function.update_self] at hf⟩
  refine ⟨fun hf => ?_, fun u hf => ?_, fun u hf => ?_⟩
  · have := hf t
    rw [Function.update_self] at this
    exact hout this
  · obtain ⟨rfl, e⟩ := ht u .waits (by decide) hf
    exact ⟨hu, .inl (hw e)⟩
  · obtain ⟨rfl, e⟩ := ht u .passed (by decide) hf
    exact ⟨hu, hp e⟩

end

/-! ## Steps -/

section
variable [DecidableEq T] {busy : D → Bool} {dev : Device R O D} {c c' : Config T R O D} {t : T}
  {s : DriverStmt R} {r : List (DriverStmt R)}

def wokenBy (t : T) : DriverEvent T R O → Bool
  | .woken u => u = t
  | _ => false

def retBy (t : T) : DriverEvent T R O → Bool
  | .ret u => u = t
  | _ => false

/-- What holds in every state. -/
structure Inv (busy : D → Bool) (c : Config T R O D) : Prop where
  sync : Sync.Inv c
  shaped : ∀ t, Shaped (c.loc t)
  tied : Tied busy c.shared.data (Sync.values c.shared ()) fun t => phase (c.loc t)
  returned : ∀ t, c.shared.data.log.countP (wokenBy t) =
    c.shared.data.log.countP (retBy t) + owed (c.loc t)

theorem inv_start {d : D} (hd : busy d = false) (calls : T → List R) :
    Inv (O := O) busy (start d calls) where
  sync := Sync.inv_start _ (fun _ => le_rfl) fun t => (rest_calls (calls t)).balanced
  shaped t := (rest_calls (calls t)).shaped
  tied := by
    have ho : ∀ t, phase ((start (O := O) d calls).loc t) = .out := fun t => (rest_calls (calls t)).out
    refine ⟨fun _ => ⟨hd, rfl, rfl, .nil⟩, fun t ht => ?_, fun t ht => ?_⟩
    · simp [ho] at ht
    · simp [ho] at ht
  returned t := by
    show 0 = 0 + owed ((calls t).map call).flatten
    rw [(rest_calls (calls t)).owed]

/-- While a thread holds the lock, no other has made a request. -/
theorem Inv.others (h : Inv busy c) {b : Bool} (ht : Sync.status () (c.loc t) = some b) (u : T)
    (hu : u ≠ t) : phase (c.loc u) = .out := by
  by_contra hp
  have h1 := (h.shaped u).holds hp
  exact hu ((h.sync.held ()).unique (by simp [h1]) (by simp [ht]))

theorem phase_update (loc : T → List (DriverStmt R)) :
    (fun u => phase (Function.update loc t r u)) =
      Function.update (fun u => phase (loc u)) t (phase r) := by
  funext u
  exact Function.apply_update (fun _ => phase) loc t r u

/-- A step that does not move a thread to another phase. -/
theorem Tied.move {d : Driver T R O D} {v : Int} {loc : T → List (DriverStmt R)}
    (h : Tied busy d v fun u => phase (loc u)) (hr : phase r = phase (loc t)) :
    Tied busy d v fun u => phase (Function.update loc t r u) := by
  rw [phase_update, hr, Function.update_eq_self]
  exact h

theorem shaped_update {loc : T → List (DriverStmt R)} (h : ∀ u, Shaped (loc u)) (hr : Shaped r)
    (u : T) : Shaped (Function.update loc t r u) := by
  rw [Function.update_apply]
  split
  · exact hr
  · exact h u

/-- Only the calls of the thread that runs are counted anew. -/
theorem returned_update {l : List (DriverEvent T R O)} {loc : T → List (DriverStmt R)}
    (e : List (DriverEvent T R O))
    (h : ∀ u, l.countP (wokenBy u) = l.countP (retBy u) + owed (loc u))
    (ht : e.countP (wokenBy t) + owed (loc t) = e.countP (retBy t) + owed r)
    (ho : ∀ u ≠ t, e.countP (wokenBy u) = 0 ∧ e.countP (retBy u) = 0) (u : T) :
    (l ++ e).countP (wokenBy u) =
      (l ++ e).countP (retBy u) + owed (Function.update loc t r u) := by
  rw [List.countP_append, List.countP_append, Function.update_apply]
  have hu := h u
  split
  · rename_i e
    subst e
    omega
  · rename_i e
    obtain ⟨h1, h2⟩ := ho u e
    omega

/-- What an action of `t` does. -/
theorem Inv.act (h : Inv busy c) (hd : dev.Flag busy) {a : DriverAct R}
    (hs : c.loc t = .act a :: r) {d' : Driver T R O D} (ha : act dev t c.shared.data a = .ok d') :
    Tied busy d' (Sync.values c.shared ()) (fun u => phase (Function.update c.loc t r u)) ∧
      ∀ u, d'.log.countP (wokenBy u) = d'.log.countP (retBy u) + owed (Function.update c.loc t r u) := by
  have hsh := h.shaped t
  have hst : Sync.status () (c.loc t) = Sync.status () r := by rw [hs]; rfl
  rw [hs] at hsh
  cases a with
  | request x =>
    obtain ⟨⟨y, o⟩, hy, ha⟩ := bind_eq_ok.mp ha
    cases ha
    obtain ⟨⟨hl, hp⟩, hr⟩ := hsh
    have hall : ∀ u, phase (c.loc u) = .out := fun u => by
      by_cases e : u = t
      · rw [e, hs]
        rfl
      · exact h.others (hst.trans hl) u e
    obtain ⟨-, h0, hv, hm⟩ := h.tied.out hall
    constructor
    · rw [phase_update, hp]
      refine Tied.of_update (fun u _ => hall u) (fun e => by cases e) (fun _ => ?_) (fun e => by cases e)
      exact ⟨hd.request _ _ _ _ hy, by simp [h0], hv, _, x, o, hm, by simp [main, isMain]⟩
    · refine returned_update _ h.returned ?_ fun u _ => ?_
      · simp [hs, owed, wokenBy, retBy]
      · simp [wokenBy, retBy]
  | woken =>
    cases ha
    obtain ⟨⟨hl, hp, hw⟩, hr⟩ := hsh
    obtain ⟨ho, hb, h0, hv, he⟩ := h.tied.passed t (by rw [hs]; rfl)
    constructor
    · rw [phase_update, hp]
      exact Tied.of_update ho (fun _ => ⟨hb, h0, hv, he.woken⟩) (fun e => by cases e)
        (fun e => by cases e)
    · refine returned_update _ h.returned ?_ fun u hu => ?_
      · simp only [hs, owed, wokenBy, retBy, List.countP_cons, List.countP_nil]
        simp
        omega
      · simp [wokenBy, retBy, Ne.symm hu]
  | ret =>
    cases ha
    obtain ⟨hp, hr⟩ := hsh
    constructor
    · exact (h.tied.ret t).move (by rw [hs]; exact hp)
    · refine returned_update _ h.returned ?_ fun u hu => ?_
      · simp only [hs, owed, wokenBy, retBy, List.countP_cons, List.countP_nil]
        simp
        omega
      · simp [wokenBy, retBy, Ne.symm hu]

/-- A statement on the lock. -/
theorem Fits.lock (h : Fits s r) (hl : Sync.IsLock s) :
    phase r = phase (s :: r) ∧ owed r = owed (s :: r) := by
  cases s <;> first | exact ⟨h, rfl⟩ | exact hl.elim

theorem Inv.next_thread (h : Inv busy c) (hd : dev.Flag busy) (hn : next dev c (.inl t) = .ok c') :
    Inv busy c' := by
  obtain ⟨hi, r, hr, hdid⟩ := h.sync.next_thread hn
  have hsh := h.shaped t
  generalize hs : c.loc t = r₀ at hdid
  generalize hd' : c'.shared.data = d' at hdid
  generalize hv : Sync.values c'.shared = v' at hdid
  suffices hg : Shaped r ∧ Tied busy d' (v' ()) (fun u => phase (Function.update c.loc t r u)) ∧
      ∀ u, d'.log.countP (wokenBy u) =
        d'.log.countP (retBy u) + owed (Function.update c.loc t r u) by
    refine ⟨hi, ?_, ?_, ?_⟩
    · rw [hr]
      exact shaped_update h.shaped hg.1
    · rw [hd', hv, hr]
      exact hg.2.1
    · rw [hd', hr]
      exact hg.2.2
  rw [hs] at hsh
  cases hdid with
  | stay =>
    rw [← hs, Function.update_eq_self]
    exact ⟨h.shaped t, h.tied, h.returned⟩
  | lock =>
    rename_i s hl
    obtain ⟨hp, ho⟩ := hsh.1.lock hl
    refine ⟨hsh.2, h.tied.move (by rw [hs, hp]), ?_⟩
    simpa using returned_update (t := t) [] h.returned (by simp [hs, ho]) (by simp)
  | p =>
    rename_i k hk
    obtain ⟨⟨hl, hp⟩, hr⟩ := hsh
    obtain ⟨ho, hw⟩ := h.tied.waits t (by rw [hs]; rfl)
    obtain ⟨hb, h0, h1, he⟩ := hw.resolve_left fun hw => hk hw.2.2.1
    refine ⟨hr, ?_, ?_⟩
    · rw [phase_update, hp]
      exact Tied.of_update ho (fun e => by cases e) (fun e => by cases e)
        fun _ => ⟨hb, h0, by simp [h1], he⟩
    · simpa using returned_update (t := t) (r := r) [] h.returned (by simp [hs, owed]) (by simp)
  | v => exact hsh.1.elim
  | act =>
    rename_i a ha
    exact ⟨hsh.2, h.act hd hs ha⟩

/-- What the interrupt does. -/
theorem Inv.next_interrupt (h : Inv busy c) (hd : dev.Flag busy)
    (hn : next dev c (.inr ()) = .ok c') : Inv busy c' ∧
      (c.shared.data.pending ≠ 0 → ∃ t, phase (c.loc t) = .waits ∧ Outstanding c.shared.data.log t) := by
  obtain ⟨hi, hl, hh⟩ := h.sync.next_interrupt hn
  generalize hd' : c'.shared.data = d' at hh
  generalize hv : Sync.values c'.shared = v' at hh
  suffices hg : Tied busy d' (v' ()) (fun u => phase (c.loc u)) ∧
      (∀ u, d'.log.countP (wokenBy u) = d'.log.countP (retBy u) + owed (c.loc u)) ∧
      (c.shared.data.pending ≠ 0 → ∃ t, phase (c.loc t) = .waits ∧ Outstanding c.shared.data.log t) by
    refine ⟨⟨hi, ?_, ?_, ?_⟩, hg.2.2⟩
    · rw [hl]
      exact h.shaped
    · rw [hd', hv, hl]
      exact hg.1
    · rw [hd', hl]
      exact hg.2.1
  by_cases h0 : c.shared.data.pending = 0
  · have ho : interrupt dev () c.shared.data = .ok none := by simp [interrupt, h0]
    cases hh with
    | none => exact ⟨h.tied, h.returned, absurd h0⟩
    | quiet h1 => cases h1.symm.trans ho
    | post h1 => cases h1.symm.trans ho
  · obtain ⟨t, ht, hout, -, htied⟩ := h.tied.callBack hd h0
    have ho : interrupt dev () c.shared.data = .ok (some (⟨dev.callBack c.shared.data.device,
        c.shared.data.pending - 1, c.shared.data.log ++ [.callBack]⟩, some ())) := by
      simp [interrupt, h0]
    cases hh with
    | none h1 => cases h1.symm.trans ho
    | quiet h1 => cases h1.symm.trans ho
    | post h1 =>
      cases h1.symm.trans ho
      refine ⟨by simpa using htied, fun u => ?_, fun _ => ⟨t, ht, hout⟩⟩
      rw [List.countP_append, List.countP_append, h.returned u]
      simp [wokenBy, retBy]

/-! ## What a synchronous driver is for -/

/-- What holds of the driver of a device with the flag `busy`. -/
structure Synchronous (dev : Device R O D) (busy : D → Bool) (c : Config T R O D) : Prop where
  /-- At most one request is outstanding, while the flag is set. -/
  one : c.shared.data.pending = if busy c.shared.data.device then 1 else 0
  /-- Each request is followed by its interrupt, and this by the return of the `P` of
  the thread that made it. -/
  rounds : Rounds (main c.shared.data.log) ∨
    ∃ t, Outstanding c.shared.data.log t ∨ Ended c.shared.data.log t
  /-- A call returns behind its `P`. -/
  returned : ∀ t, c.shared.data.log.countP (retBy t) ≤ c.shared.data.log.countP (wokenBy t)
  /-- Only the thread whose request is outstanding sleeps at the semaphore. -/
  sleeper : ∀ t ∈ (c.shared.sem ()).queue, Outstanding c.shared.data.log t
  /-- The interrupt wakes the thread that made the request, and only it can pass `P`. -/
  released : ∀ c', next dev c (.inr ()) = .ok c' → c.shared.data.pending ≠ 0 →
    ∃ t, Outstanding c.shared.data.log t ∧ Ended c'.shared.data.log t ∧ c'.asleep t = false ∧
      (∀ u ≠ t, c'.asleep u = c.asleep u) ∧ (c'.shared.sem ()).value = 1 ∧
      ∀ u, Sync.place (c'.loc u) = some (.inr ()) → u = t
  /-- The device is asked only when the flag is not set, and nothing else aborts. -/
  asked : ∀ j e, next dev c j = .error e → ∃ t r l, j = .inl t ∧ c.loc t = .act (.request r) :: l ∧
    busy c.shared.data.device = false ∧ dev.request c.shared.data.device r = .error e
  /-- When no thread can run and no interrupt is to come, all calls have returned. -/
  finished : (∀ t, c.loc t = [] ∨ c.asleep t = true) → c.shared.data.pending = 0 → ∀ t, c.loc t = []

theorem phase_of_place {k : Unit} (h : Sync.place r = some (.inr k)) : phase r = .waits := by
  cases r with
  | nil => cases h
  | cons s r => cases s <;> first | rfl | cases h

theorem Inv.one (h : Inv busy c) :
    c.shared.data.pending = if busy c.shared.data.device then 1 else 0 := by
  by_cases ho : ∀ t, phase (c.loc t) = .out
  · obtain ⟨hb, h0, -⟩ := h.tied.out ho
    simp [hb, h0]
  · obtain ⟨t, ht⟩ := not_forall.mp ho
    cases hp : phase (c.loc t) with
    | out => exact absurd hp ht
    | waits =>
      rcases (h.tied.waits t hp).2 with ⟨hb, h0, -⟩ | ⟨hb, h0, -⟩ <;> simp [hb, h0]
    | passed =>
      obtain ⟨-, hb, h0, -⟩ := h.tied.passed t hp
      simp [hb, h0]

theorem Inv.rounds (h : Inv busy c) : Rounds (main c.shared.data.log) ∨
    ∃ t, Outstanding c.shared.data.log t ∨ Ended c.shared.data.log t := by
  by_cases ho : ∀ t, phase (c.loc t) = .out
  · exact .inl (h.tied.out ho).2.2.2
  · obtain ⟨t, ht⟩ := not_forall.mp ho
    refine .inr ⟨t, ?_⟩
    cases hp : phase (c.loc t) with
    | out => exact absurd hp ht
    | waits =>
      rcases (h.tied.waits t hp).2 with ⟨-, -, -, hl⟩ | ⟨-, -, -, hl⟩
      · exact .inl hl
      · exact .inr hl
    | passed => exact .inr (h.tied.passed t hp).2.2.2.2

/-- Two threads at the semaphore's `P` are one. -/
theorem Inv.at_unique (h : Inv busy c) {u : T} (ht : phase (c.loc t) = .waits)
    (hu : Sync.place (c.loc u) = some (.inr ())) : u = t := by
  by_contra e
  have h1 := (h.tied.waits t ht).1 u e
  simp only [phase_of_place hu] at h1
  cases h1

theorem Inv.sleeper (h : Inv busy c) (ht : t ∈ (c.shared.sem ()).queue) :
    Outstanding c.shared.data.log t := by
  obtain ⟨ha, hp⟩ := ((h.sync.waiting.queued (.inr ())).mem t).mp ht
  have hw := phase_of_place hp
  rcases (h.tied.waits t hw).2 with ⟨-, -, -, ho⟩ | ⟨-, -, hv, -⟩
  · exact ho
  · -- the value would have another thread awake at the `P`
    obtain ⟨F, hc, hF⟩ := h.sync.waiting.awake (.inr ()) (List.ne_nil_of_mem ht)
    obtain ⟨u, hu⟩ : F.Nonempty := by
      rw [← Finset.card_pos]
      have : (Sync.semOf c.shared (.inr ())).value = 1 := hv
      omega
    obtain rfl := h.at_unique hw (hF u hu).2
    simp [(hF u hu).1] at ha

/-- The thread that waits is the first of the queue, or is awake. -/
theorem Inv.head_queue (h : Inv busy c) (ht : phase (c.loc t) = .waits) (ha : c.asleep t = true) :
    (c.shared.sem ()).v.2 = some t := by
  have hp : Sync.place (c.loc t) = some (.inr ()) := by
    have := h.sync.waiting.asleepAt t ha
    cases hl : c.loc t with
    | nil => simp [hl, phase] at ht
    | cons s r =>
      rw [hl] at ht this
      cases s with
      | p k => rfl
      | acquireP l => cases ht
      | _ => exact absurd rfl this
  have hm := ((h.sync.waiting.queued (.inr ())).mem t).mpr ⟨ha, hp⟩
  rw [Semaphore.v_eq]
  cases hq : (c.shared.sem ()).queue with
  | nil =>
    rw [show (Sync.semOf c.shared (.inr ())).queue = _ from hq] at hm
    cases hm
  | cons u q =>
    have hu : Sync.place (c.loc u) = some (.inr ()) := by
      refine (((h.sync.waiting.queued (.inr ())).mem u).mp ?_).2
      rw [show (Sync.semOf c.shared (.inr ())).queue = _ from hq]
      exact List.mem_cons_self
    rw [h.at_unique ht hu]
    rfl

theorem next_interrupt_eq (h0 : c.shared.data.pending ≠ 0) :
    next dev c (.inr ()) = .ok
      ⟨({ c.shared with data := ⟨dev.callBack c.shared.data.device, c.shared.data.pending - 1,
          c.shared.data.log ++ [.callBack]⟩ } : Sync T Unit Unit (Driver T R O D)).setSem ()
            (c.shared.sem ()).v.1,
        c.loc, Sync.wake (c.shared.sem ()).v.2 c.asleep⟩ := by
  simp only [next, Sync.next, interrupt, if_neg h0]
  rfl

theorem Inv.released (h : Inv busy c) (hd : dev.Flag busy) (hn : next dev c (.inr ()) = .ok c')
    (h0 : c.shared.data.pending ≠ 0) :
    ∃ t, Outstanding c.shared.data.log t ∧ Ended c'.shared.data.log t ∧ c'.asleep t = false ∧
      (∀ u ≠ t, c'.asleep u = c.asleep u) ∧ (c'.shared.sem ()).value = 1 ∧
      ∀ u, Sync.place (c'.loc u) = some (.inr ()) → u = t := by
  obtain ⟨t, ht, ho⟩ := (h.next_interrupt hd hn).2 h0
  obtain ⟨-, -, hv, -⟩ := (h.tied.waits t ht).2.resolve_right fun hr => h0 hr.2.1
  rw [next_interrupt_eq h0] at hn
  cases hn
  refine ⟨t, ho, ho.callBack, ?_, fun u hu => ?_, ?_, fun u hu => h.at_unique ht hu⟩
  · rw [← Bool.not_eq_true, Sync.wake_iff]
    rintro ⟨ha, hne⟩
    exact hne (h.head_queue ht ha)
  · rw [Bool.eq_iff_iff, Sync.wake_iff, and_iff_left_iff_imp]
    intro _ hw
    exact hu (h.at_unique ht (h.sync.waiting.woken (q := .inr ()) hw).2)
  · simp only [Sync.setSem, Function.update_self, Semaphore.v_eq]
    rw [show (c.shared.sem ()).value = 0 from hv]
    rfl

theorem Inv.asked (h : Inv busy c) {j : T ⊕ Unit} {e : Abort} (hn : next dev c j = .error e) :
    ∃ t r l, j = .inl t ∧ c.loc t = .act (.request r) :: l ∧ busy c.shared.data.device = false ∧
      dev.request c.shared.data.device r = .error e := by
  rcases h.sync.next_error hn with ⟨t, a, l, rfl, hs, ha⟩ | ⟨i, -, hi⟩
  · cases a with
    | request r =>
      refine ⟨t, r, l, rfl, hs, ?_, ?_⟩
      · have hsh := h.shaped t
        rw [hs] at hsh
        have hst : Sync.status () (c.loc t) = some true := by
          rw [hs]
          exact hsh.1.1
        refine (h.tied.out fun u => ?_).1
        by_cases e : u = t
        · rw [e, hs]
          rfl
        · exact h.others hst u e
      · cases hr : dev.request c.shared.data.device r with
        | error e' =>
          simp only [Driver.act, hr, error_bind] at ha
          rw [Except.error.inj ha]
        | ok x =>
          simp only [Driver.act, hr, ok_bind] at ha
          cases ha
    | woken => cases ha
    | ret => cases ha
  · unfold interrupt at hi
    split at hi <;> cases hi

theorem Inv.finished (h : Inv busy c) (hs : ∀ t, c.loc t = [] ∨ c.asleep t = true)
    (h0 : c.shared.data.pending = 0) (t : T) : c.loc t = [] := by
  -- nobody sleeps at the semaphore: its request was ended, and the value not taken
  have hsem : ∀ u, Sync.place (c.loc u) ≠ some (.inr ()) := by
    intro u hp
    have ha := (hs u).resolve_left fun e => by simp [e, Sync.place] at hp
    have hv := h.sync.waiting.stuck hs ha hp
    have hr := (h.tied.waits u (phase_of_place hp)).2.resolve_left fun hr => by
      have := hr.2.1
      omega
    have h1 : (Sync.semOf c.shared (.inr ())).value = 1 := hr.2.2.1
    omega
  have hlock := h.sync.stuck_lock hs (l := ()) fun u hp =>
    Sync.status_of_place hp fun _ => hsem u
  by_contra hne
  have hp := h.sync.waiting.asleepAt t ((hs t).resolve_left hne)
  cases hq : Sync.place (c.loc t) with
  | none => exact hp hq
  | some q =>
    cases q with
    | inl l => exact hlock t hq
    | inr k => exact hsem t hq

theorem Inv.synchronous (h : Inv busy c) (hd : dev.Flag busy) : Synchronous dev busy c where
  one := h.one
  rounds := h.rounds
  returned t := by
    rw [h.returned t]
    exact Nat.le_add_right _ _
  sleeper _ := h.sleeper
  released _ := h.released hd
  asked _ _ := h.asked
  finished := h.finished

end

/-- The runs of threads that make these calls. -/
def system [DecidableEq T] (dev : Device R O D) (d : D) (calls : T → List R) :
    System (Config T R O D) (T ⊕ Unit) :=
  .ofFun (start d calls) (next dev)

theorem reachable_inv [DecidableEq T] {dev : Device R O D} {busy : D → Bool} (hd : dev.Flag busy)
    {d : D} (h0 : busy d = false) {calls : T → List R} {c : Config T R O D}
    (h : (system dev d calls).Reachable c) : Inv busy c := by
  refine h.invariant (I := Inv busy) ?_ ?_
  · rintro _ rfl
    exact inv_start h0 calls
  · intro s j s' hi hs
    cases j with
    | inl t => exact hi.next_thread hd hs
    | inr i => exact (hi.next_interrupt hd hs).1

/-! ## The disk and the console -/

theorem flag_disk : DiskDevice.device.Flag DiskDevice.active where
  request d r d' o h := by
    cases r with
    | read n =>
      obtain ⟨-, -, h⟩ := bind_eq_ok.mp h
      obtain ⟨data, -, h⟩ := bind_eq_ok.mp h
      cases h
      rfl
    | write n data =>
      obtain ⟨-, -, h⟩ := bind_eq_ok.mp h
      obtain ⟨sectors, -, h⟩ := bind_eq_ok.mp h
      cases h
      rfl
  callBack _ := rfl

theorem flag_console : ConsoleOutput.device.Flag ConsoleOutput.putBusy where
  request d r d' o h := by
    obtain ⟨-, -, h⟩ := bind_eq_ok.mp h
    cases h
    rfl
  callBack _ := rfl

/-- A sector of the disk, and a buffer that holds one. -/
def Valid : DiskRequest → Prop
  | .read n => 0 ≤ n ∧ n < numSectors
  | .write n data => (0 ≤ n ∧ n < numSectors) ∧ sectorSize ≤ data.length

/-- A disk that is not active refuses only requests that are not valid. -/
theorem not_valid {d : DiskDevice} {r : DiskRequest} {e : Abort} (hd : d.active = false)
    (h : DiskDevice.device.request d r = .error e) : ¬ Valid r := by
  intro hv
  cases r with
  | read n =>
    have hn : 0 ≤ n ∧ n < numSectors := hv
    have hr : d.readRequest n = .ok ({ d with active := true }, d.sectors.sector n.toNat) := by
      rw [DiskDevice.readRequest, assert_of hd, Disk.readSector, assert_of hn]
      rfl
    cases hr.symm.trans h
  | write n data =>
    obtain ⟨x, hx⟩ : ∃ x, d.writeRequest n data = .ok x := by
      rw [DiskDevice.writeRequest, assert_of hd, Disk.writeSector, assert_of hv.1, defined_of hv.2]
      exact ⟨_, rfl⟩
    cases hx.symm.trans h

/-- The drivers of the disk and of the console are synchronous in every run. The
disk's aborts only when asked for a sector it does not have, and the console's
never. -/
theorem reachable_synchronous [DecidableEq T] :
    (∀ (sectors : Disk) (calls : T → List DiskRequest) (c : Config T DiskRequest (List Byte) DiskDevice),
      (system DiskDevice.device ⟨false, sectors⟩ calls).Reachable c →
        Synchronous DiskDevice.device DiskDevice.active c ∧
        ∀ j e, next DiskDevice.device c j = .error e →
          ∃ t r l, j = .inl t ∧ c.loc t = .act (.request r) :: l ∧ ¬ Valid r) ∧
    ∀ (file : List Byte) (calls : T → List Byte) (c : Config T Byte Unit ConsoleOutput),
      (system ConsoleOutput.device ⟨false, file⟩ calls).Reachable c →
        Synchronous ConsoleOutput.device ConsoleOutput.putBusy c ∧
        ∀ j e, next ConsoleOutput.device c j ≠ .error e := by
  constructor
  · intro sectors calls c h
    have hi := reachable_inv flag_disk rfl h
    refine ⟨hi.synchronous flag_disk, fun j e he => ?_⟩
    obtain ⟨t, r, l, hj, hs, hb, hr⟩ := hi.asked he
    exact ⟨t, r, l, hj, hs, not_valid hb hr⟩
  · intro file calls c h
    have hi := reachable_inv flag_console rfl h
    refine ⟨hi.synchronous flag_console, fun j e he => ?_⟩
    obtain ⟨t, r, l, -, -, hb, hr⟩ := hi.asked he
    have hok : ConsoleOutput.putChar c.shared.data.device r =
        .ok (⟨true, c.shared.data.device.file ++ [r]⟩, ()) := by
      rw [ConsoleOutput.putChar, assert_of hb]
      rfl
    cases hok.symm.trans hr

/-- Two threads call each driver: one has made its request, the other waits for the
lock, and the interrupt has come. -/
theorem reachable_synchronous_two :
    (∃ c, ((system (T := Bool) DiskDevice.device ⟨false, fun _ _ => 0⟩
        fun _ => [.read 3]).Reachable c ∧
        decide (c.shared.data.log = [.request true (.read 3) (List.replicate 128 0), .callBack] ∧
          c.asleep true = false ∧ c.asleep false = true) = true) ∧
      Synchronous DiskDevice.device DiskDevice.active c) ∧
    ∃ c, ((system (T := Bool) ConsoleOutput.device ⟨false, []⟩ fun _ => [65]).Reachable c ∧
        decide (c.shared.data.log = [.request true 65 (), .callBack] ∧
          c.asleep true = false ∧ c.asleep false = true) = true) ∧
      Synchronous ConsoleOutput.device ConsoleOutput.putBusy c := by
  constructor
  · obtain ⟨c, hc, hp⟩ := System.exists_reachable
      (start (T := Bool) (O := List Byte) (⟨false, fun _ _ => 0⟩ : DiskDevice) fun _ => [.read 3])
      (next DiskDevice.device) [.inl true, .inl true, .inl false, .inl true, .inl true, .inr ()]
      (p := fun c => decide (c.shared.data.log = [.request true (.read 3) (List.replicate 128 0),
        .callBack] ∧ c.asleep true = false ∧ c.asleep false = true)) (by decide +kernel)
    exact ⟨c, ⟨hc, hp⟩, (reachable_synchronous.1 _ _ c hc).1⟩
  · obtain ⟨c, hc, hp⟩ := System.exists_reachable
      (start (T := Bool) (O := Unit) (⟨false, []⟩ : ConsoleOutput) fun _ => [65])
      (next ConsoleOutput.device) [.inl true, .inl true, .inl false, .inl true, .inl true, .inr ()]
      (p := fun c => decide (c.shared.data.log = [.request true 65 (), .callBack] ∧
        c.asleep true = false ∧ c.asleep false = true)) (by decide +kernel)
    exact ⟨c, ⟨hc, hp⟩, (reachable_synchronous.2 _ _ c hc).1⟩

end Driver

end Nachos

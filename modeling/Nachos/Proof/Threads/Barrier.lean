import Nachos.Proof.Threads.Monitor

/-!
# The barrier

Threads call `Condition::Barrier` with the lock held, any number of times. A
barrier keeps each thread back until its group of `BARRIER_NUM` arrivals is
complete, and then releases the group (`BarrierSafe`).

It fails in the second round (`not_barrierSafe_round`): `barrierNum` is not set
back, so it is `BARRIER_NUM` once and never again. It holds in every run with
fewer than two full rounds (`reachable_barrierSafe`).
-/

namespace Nachos.Barrier

open Framework Framework.Threads Monitor

variable {T E : Type}

/-! ## Counting events -/

/-- The threads queued. -/
def waits (h : List (CondEvent T E)) : List T :=
  h.filterMap fun
    | .wait t => some t
    | _ => none

/-- The threads released. -/
def released (h : List (CondEvent T E)) : List T :=
  h.filterMap fun
    | .signal _ u => some u
    | _ => none

/-- The threads that returned from `Wait`. -/
def rets (h : List (CondEvent T E)) : List T :=
  h.filterMap fun
    | .ret t => some t
    | _ => none

/-- The threads that did a `Broadcast`. -/
def dones (h : List (CondEvent T E)) : List T :=
  h.filterMap fun
    | .done t => some t
    | _ => none

section
variable [DecidableEq T]

/-- Threads are released in the order they were queued. -/
theorem trace_waits {h : List (CondEvent T E)} {v : CondVar T}
    (ht : (CondVar.system T E).Trace h v) : waits h = released h ++ v.queue := by
  induction ht with
  | init h => rw [h]; rfl
  | step ht hs ih =>
    rename_i h v v' e
    rw [waits, released, List.filterMap_append, List.filterMap_append, ← waits, ← released, ih]
    cases e with
    | wait t =>
      obtain ⟨-, -, -, -, rfl⟩ := hs
      simp
    | found t =>
      obtain ⟨-, -, -, rfl⟩ := hs
      simp
    | signal t u =>
      obtain ⟨-, q, hq, rfl⟩ := hs
      simp [hq]
    | ret t =>
      obtain ⟨-, rfl⟩ := hs
      simp
    | broadcast t =>
      obtain ⟨-, -, rfl⟩ := hs
      simp
    | done t =>
      obtain ⟨-, -, -, rfl⟩ := hs
      simp
    | other e =>
      cases hs
      simp

/-- A thread returns from `Wait` once for each time it was released. -/
theorem trace_rets {h : List (CondEvent T E)} {v : CondVar T}
    (ht : (CondVar.system T E).Trace h v) (t : T) :
    (rets h).count t + (if t ∈ v.woken then 1 else 0) ≤ (released h).count t := by
  induction ht with
  | init h => rw [h]; simp [rets, released, CondVar.empty]
  | step ht hs ih =>
    rename_i h v v' e
    rw [rets, released, List.filterMap_append, List.filterMap_append, ← rets, ← released]
    cases e with
    | signal w u =>
      obtain ⟨-, q, hq, rfl⟩ := hs
      simp only [List.filterMap_cons, List.filterMap_nil, List.append_nil, Finset.mem_insert,
        List.count_append, List.count_singleton', eq_comm (a := t)]
      by_cases e : u = t
      · simp only [e, true_or, ite_true]
        split at ih <;> omega
      · simpa [e] using ih
    | ret w =>
      obtain ⟨hw, rfl⟩ := hs
      simp only [List.filterMap_cons, List.filterMap_nil, List.append_nil, Finset.mem_erase,
        List.count_append, List.count_singleton', eq_comm (a := w)]
      by_cases e : t = w
      · subst e
        simpa [hw] using ih
      · simpa [e] using ih
    | wait w =>
      obtain ⟨-, -, -, -, rfl⟩ := hs
      simpa using ih
    | found w =>
      obtain ⟨-, -, -, rfl⟩ := hs
      simpa using ih
    | broadcast w =>
      obtain ⟨-, -, rfl⟩ := hs
      simpa using ih
    | done w =>
      obtain ⟨-, -, -, rfl⟩ := hs
      simpa using ih
    | other e =>
      cases hs
      simpa using ih

/-! ## What a barrier is for -/

abbrev BarrierState (T : Type) := Monitor.State T BarrierStmt Int

/-- The threads that arrived. -/
def arrivals (h : List (Event T BarrierStmt Int)) : List T :=
  h.filterMap fun
    | .other (t, .increment, _) => some t
    | _ => none

/-- The critical sections of threads that call `Barrier`: those of `t` have
`calls t` calls each. -/
def program (calls : T → List Nat) (t : T) : List (List (Call BarrierStmt)) :=
  (calls t).map fun n => (List.replicate n Condition.barrier).flatten

def system (calls : T → List Nat) : System (BarrierState T) T :=
  Monitor.system Condition.barrierStep 0 (program calls)

/-- The `i`th arrival, of `t`, has returned from its call. -/
def Returned (h : List (Event T BarrierStmt Int)) (i : Nat) (t : T) : Prop :=
  ((arrivals h).take i).count t < (rets h).count t + (dones h).count t

/-- The `i`th arrival, of `t`, was released, or did the `Broadcast`. -/
def Released (h : List (Event T BarrierStmt Int)) (i : Nat) (t : T) : Prop :=
  ((arrivals h).take i).count t < (released h).count t + (dones h).count t

/-- A barrier: nobody returns before its group is complete, and while the lock
is free every complete group is released. -/
structure BarrierSafe (c : BarrierState T) : Prop where
  early : ∀ i t, (arrivals c.shared.2)[i]? = some t → Returned c.shared.2 i t →
    (i / barrierNum + 1) * barrierNum ≤ (arrivals c.shared.2).length
  group : c.shared.1.lock.semaphore.value = 1 → ∀ k, k * barrierNum ≤ (arrivals c.shared.2).length →
    ∀ i t, i < k * barrierNum → (arrivals c.shared.2)[i]? = some t → Released c.shared.2 i t

/-- The step does not complete a second round. -/
def FirstRounds (c : BarrierState T) (t : T) : Prop :=
  (c.loc t).head? = some (.caller .increment) → c.shared.1.data + 1 < 2 * barrierNum

instance (c : BarrierState T) (t : T) : Decidable (FirstRounds c t) :=
  inferInstanceAs (Decidable (_ → _))

end

/-! ## The code of a thread -/

/-- The thread has arrived and is not yet queued. -/
def arriving : List (Stmt T BarrierStmt) → Bool
  | .caller .test :: _ | .enqueue :: _ => true
  | .assertHeld :: c | .newWaiter :: c => arriving c
  | _ => false

/-- The thread is in a `Broadcast`. -/
def sweeps : List (Stmt T BarrierStmt) → Bool
  | .broadcast :: _ | .broadcastLoop :: _ => true
  | .assertHeld :: c | .signal :: c | .removeFront :: c | .waiterV _ :: c => sweeps c
  | _ => false

def atTest : List (Stmt T BarrierStmt) → Bool
  | .caller .test :: _ => true
  | _ => false

/-- A statement fits what comes behind it. -/
def Shape : Stmt T BarrierStmt → List (Stmt T BarrierStmt) → Prop
  | .caller .increment, c => atTest c = true
  | .signal, c | .removeFront, c | .waiterV _, c => sweeps c = true
  | .assertHeld, _ => True
  | .newWaiter, c => sweeps c = false
  | _, c => arriving c = false ∧ sweeps c = false

/-- The code of callers of `Barrier`. -/
def Shaped : List (Stmt T BarrierStmt) → Prop
  | [] => True
  | s :: c => Shape s c ∧ Shaped c

/-- The code of a thread outside `Barrier`. -/
structure Outside (c : List (Stmt T BarrierStmt)) : Prop where
  shaped : Shaped c
  arriving : arriving c = false
  sweeps : sweeps c = false

theorem Outside.barrier {c : List (Stmt T BarrierStmt)} (h : Outside c) :
    Outside (Condition.barrier.flatMap Call.code ++ c) := by
  obtain ⟨h₁, h₂, h₃⟩ := h
  constructor <;>
    simp [Condition.barrier, Call.code, Shaped, Shape, Barrier.arriving, Barrier.sweeps, atTest, *]

theorem Outside.calls {c : List (Stmt T BarrierStmt)} (h : Outside c) (n : Nat) :
    Outside ((List.replicate n Condition.barrier).flatten.flatMap Call.code ++ c) := by
  induction n with
  | zero => exact h
  | succ n ih =>
    rw [List.replicate_succ, List.flatten_cons, List.flatMap_append, List.append_assoc]
    exact ih.barrier

theorem Outside.critical {c : List (Stmt T BarrierStmt)} (h : Outside c) (n : Nat) :
    Outside (critical ((List.replicate n Condition.barrier).flatten) ++ c) := by
  have hrel : Outside (Lock.release ++ c) := by
    obtain ⟨h₁, h₂, h₃⟩ := h
    constructor <;> simp [Lock.release, Shaped, Shape, Barrier.arriving, Barrier.sweeps, *]
  obtain ⟨h₁, h₂, h₃⟩ := hrel.calls n
  rw [Nachos.critical, List.append_assoc, List.append_assoc]
  constructor <;> simp [Lock.acquire, Shaped, Shape, Barrier.arriving, Barrier.sweeps, *]

theorem outside_program (calls : T → List Nat) (t : T) :
    Outside ((program calls t).flatMap (Nachos.critical (T := T))) := by
  rw [program, List.flatMap_map]
  induction calls t with
  | nil => exact ⟨trivial, rfl, rfl⟩
  | cons n ns ih =>
    rw [List.flatMap_cons]
    exact ih.critical n

theorem arriving_of_sweeps {r : List (Stmt T BarrierStmt)} (h : sweeps r = true) :
    arriving r = false := by
  fun_induction sweeps r with
  | case1 => rfl
  | case2 => rfl
  | case3 c ih => exact ih h
  | case4 => rfl
  | case5 => rfl
  | case6 => rfl
  | case7 => cases h

/-- Where the thread is does not change without an event. -/
theorem Shaped.quiet {r r' : List (Stmt T BarrierStmt)} (h : Shaped r) (hq : Quiet r r') :
    Shaped r' ∧ arriving r' = arriving r ∧ sweeps r' = sweeps r := by
  cases hq with
  | stay => exact ⟨h, rfl, rfl⟩
  | lock _ hs =>
    simp only [List.mem_cons, List.not_mem_nil, or_false] at hs
    rcases hs with rfl | rfl | rfl | rfl <;> exact ⟨h.2, h.1.1, h.1.2⟩
  | wait _ hs =>
    simp only [List.mem_cons, List.not_mem_nil, or_false] at hs
    rcases hs with rfl | rfl | rfl
    · exact ⟨h.2, rfl, rfl⟩
    · exact ⟨h.2, rfl, h.1⟩
    · exact ⟨h.2, h.1.1, h.1.2⟩
  | none => exact ⟨h.2, arriving_of_sweeps h.1, rfl⟩
  | remove u => exact ⟨⟨h.1, h.2⟩, rfl, rfl⟩
  | again => exact ⟨⟨trivial, rfl, h.1, h.2⟩, rfl, rfl⟩

theorem atTest_quiet {r r' : List (Stmt T BarrierStmt)} (h : atTest r = true) (hq : Quiet r r') :
    atTest r' = true := by
  unfold atTest at h
  split at h
  · cases hq with
    | stay => rfl
    | lock _ hs => simp at hs
    | wait _ hs => simp at hs
  · cases h

/-- A thread between its arrival and its return, or its wait, has the lock. -/
theorem status_of_arriving {r : List (Stmt T BarrierStmt)} (hw : Wf r) (h : arriving r = true) :
    status r = some true := by
  cases r with
  | nil => cases h
  | cons s c =>
    have hf := hw.1
    cases s <;> simp_all [arriving]

theorem status_of_sweeps {r : List (Stmt T BarrierStmt)} (hw : Wf r) (h : sweeps r = true) :
    status r = some true := by
  cases r with
  | nil => cases h
  | cons s c =>
    have hf := hw.1
    cases s <;> simp_all [sweeps]

/-! ## The invariant -/

variable [DecidableEq T]

/-- Only `o` is at a place of the code. -/
def Marked (p : List (Stmt T BarrierStmt) → Bool) (loc : T → List (Stmt T BarrierStmt))
    (o : Option T) : Prop :=
  ∀ t, p (loc t) = true ↔ o = some t

section
variable {p : List (Stmt T BarrierStmt) → Bool} {loc : T → List (Stmt T BarrierStmt)}
  {o o' : Option T} {t : T} {r' : List (Stmt T BarrierStmt)}

theorem Marked.same (h : Marked p loc o) (hr : p r' = p (loc t)) :
    Marked p (Function.update loc t r') o := by
  intro u
  rw [apply_update hr]
  exact h u

theorem Marked.change (h : Marked p loc o) (ho : ∀ u, o = some u → u = t)
    (ho' : ∀ u, o' = some u → u = t) (hr : p r' = true ↔ o' = some t) :
    Marked p (Function.update loc t r') o' := by
  intro u
  by_cases e : u = t
  · rw [e, Function.update_self]
    exact hr
  · rw [Function.update_of_ne e, h u]
    exact ⟨fun hu => absurd (ho u hu) e, fun hu => absurd (ho' u hu) e⟩

end

/-- How far the arrivals are: who arrived and is not queued, and who is in the
`Broadcast`. -/
inductive Stage (h : List (Event T BarrierStmt Int)) : Option T → Option T → Prop
  | before (fl : Option T) (harr : arrivals h = waits h ++ fl.toList) (hrel : released h = [])
    (hd : dones h = []) (hn : (arrivals h).length < barrierNum) : Stage h fl none
  | full (t : T) (harr : arrivals h = waits h ++ [t]) (hrel : released h = [])
    (hd : dones h = []) (hn : (arrivals h).length = barrierNum) : Stage h (some t) none
  | sweep (t : T) (harr : arrivals h = waits h ++ [t]) (hd : dones h = [])
    (hn : (arrivals h).length = barrierNum) : Stage h none (some t)
  | after (fl : Option T) (first : List T) (last : T) (w : List T)
    (harr : arrivals h = first ++ last :: (w ++ fl.toList)) (hw : waits h = first ++ w)
    (hrel : released h = first) (hd : dones h = [last]) (hfirst : first.length + 1 = barrierNum)
    (hn : (arrivals h).length < 2 * barrierNum) : Stage h fl none

/-- The invariant of runs with fewer than two full rounds. -/
structure Inv (c : BarrierState T) (fl sw : Option T) : Prop where
  count : c.shared.1.data = (arrivals c.shared.2).length
  shaped : ∀ t, Shaped (c.loc t)
  flight : Marked arriving c.loc fl
  sweeps : Marked sweeps c.loc sw
  test : (arrivals c.shared.2).length = barrierNum → ∀ t, fl = some t → atTest (c.loc t) = true
  stage : Stage c.shared.2 fl sw

omit [DecidableEq T] in
theorem Inv.initial (calls : T → List Nat) : Inv (initial 0 (program calls)) none none where
  count := rfl
  shaped t := (outside_program calls t).shaped
  flight t := by simp [Monitor.initial, start, (outside_program calls t).arriving]
  sweeps t := by simp [Monitor.initial, start, (outside_program calls t).sweeps]
  test h := by cases h
  stage := .before none rfl rfl rfl (show 0 < barrierNum by decide)

/-! ### Steps -/

section
variable {h h' : List (Event T BarrierStmt Int)} {fl sw : Option T}

omit [DecidableEq T] in
/-- The stage does not change before the next arrival, wait or end of a
`Broadcast`. -/
theorem Stage.keep (hs : Stage h fl sw) (ha : arrivals h' = arrivals h) (hw : waits h' = waits h)
    (hd : dones h' = dones h) (hr : released h' = released h ∨ sw ≠ none) : Stage h' fl sw := by
  cases hs with
  | before _ harr hrel hd' hn =>
    have hr := hr.resolve_right (by simp)
    exact .before fl (by rw [ha, hw, harr]) (hr.trans hrel) (hd.trans hd') (by rw [ha]; exact hn)
  | full t harr hrel hd' hn =>
    have hr := hr.resolve_right (by simp)
    exact .full t (by rw [ha, hw, harr]) (hr.trans hrel) (hd.trans hd') (by rw [ha]; exact hn)
  | sweep t harr hd' hn => exact .sweep t (by rw [ha, hw, harr]) (hd.trans hd') (by rw [ha]; exact hn)
  | after _ first last w harr hw' hrel hd' hfirst hn =>
    have hr := hr.resolve_right (by simp)
    exact .after fl first last w (ha.trans harr) (hw.trans hw') (hr.trans hrel) (hd.trans hd') hfirst
      (by rw [ha]; exact hn)

variable {c : BarrierState T} {m : Monitor T Int} {t : T} {r' : List (Stmt T BarrierStmt)}
  {asleep : T → Bool}

/-- A step that leaves a thread where it is. -/
theorem Inv.keep (hI : Inv c fl sw) (hm : m.data = c.shared.1.data)
    (ha : arrivals h' = arrivals c.shared.2) (hw : waits h' = waits c.shared.2)
    (hd : dones h' = dones c.shared.2) (hr : released h' = released c.shared.2 ∨ sw ≠ none)
    (hshape : Shaped r') (harr : arriving r' = arriving (c.loc t))
    (hsw : Barrier.sweeps r' = Barrier.sweeps (c.loc t))
    (htest : (arrivals c.shared.2).length = barrierNum → atTest (c.loc t) = true →
      atTest r' = true) :
    Inv ⟨(m, h'), Function.update c.loc t r', asleep⟩ fl sw where
  count := by rw [hm, ha, hI.count]
  shaped := (Function.forall_update_iff c.loc fun _ => Shaped).mpr ⟨hshape, fun u _ => hI.shaped u⟩
  flight := hI.flight.same harr
  sweeps := hI.sweeps.same hsw
  test hn u hu := by
    dsimp only at hn ⊢
    rw [ha] at hn
    have := hI.test hn u hu
    by_cases e : u = t
    · rw [e, Function.update_self]
      exact htest hn (by rw [← e]; exact this)
    · rw [Function.update_of_ne e]
      exact this
  stage := hI.stage.keep ha hw hd hr

omit [DecidableEq T] in
theorem Inv.flight_eq (hI : Inv c fl sw) (h : arriving (c.loc t) = true) : fl = some t :=
  (hI.flight t).mp h

/-- Whoever is between its arrival and its wait or return has the lock. -/
theorem Inv.only (hI : Inv c fl sw) {v : CondVar T} (hv : Refines c v)
    (hst : status (c.loc t) = some true) :
    (∀ u, fl = some u → u = t) ∧ ∀ u, sw = some u → u = t := by
  have one : ∀ u, status (c.loc u) = some true → u = t := fun u hu =>
    hv.inv.held.unique (by simp [hu]) (by simp [hst])
  exact ⟨fun u hu => one u (status_of_arriving (hv.inv.wf u) ((hI.flight u).mpr hu)),
    fun u hu => one u (status_of_sweeps (hv.inv.wf u) ((hI.sweeps u).mpr hu))⟩

/-- The thread that arrived is queued. -/
theorem Inv.wait (hI : Inv c fl sw) (hc : c.loc t = .enqueue :: r') (hm : m.data = c.shared.1.data) :
    Inv ⟨(m, c.shared.2 ++ [.wait t]), Function.update c.loc t r', asleep⟩ none sw := by
  have hshape := hI.shaped t
  rw [hc] at hshape
  obtain ⟨⟨harr, hsw⟩, hshape⟩ := hshape
  obtain rfl := hI.flight_eq (t := t) (by rw [hc]; rfl)
  have hcount : arrivals (c.shared.2 ++ [.wait t]) = arrivals c.shared.2 := by simp [arrivals]
  have hwaits : waits (c.shared.2 ++ [.wait t]) = waits c.shared.2 ++ [t] := by simp [waits]
  have hrels : released (c.shared.2 ++ [.wait t]) = released c.shared.2 := by simp [released]
  have hdones : dones (c.shared.2 ++ [.wait t]) = dones c.shared.2 := by simp [dones]
  refine ⟨by rw [hm, hcount, hI.count],
    (Function.forall_update_iff c.loc fun _ => Shaped).mpr ⟨hshape, fun u _ => hI.shaped u⟩,
    hI.flight.change (fun u hu => (Option.some.inj hu).symm) (by simp) (by simp [harr]),
    hI.sweeps.same (by rw [hsw, hc]; rfl), by simp, ?_⟩
  have htest := hI.test
  cases hI.stage with
  | before _ ha hrel hd hn =>
    refine .before none ?_ (hrels.trans hrel) (hdones.trans hd) (by rw [hcount]; exact hn)
    rw [hcount, hwaits, ha]
    simp
  | full _ ha hrel hd hn =>
    have := htest hn t rfl
    rw [hc] at this
    cases this
  | after _ first last w ha hw hrel hd hfirst hn =>
    refine .after none first last (w ++ [t]) ?_ ?_ (hrels.trans hrel) (hdones.trans hd) hfirst
      (by rw [hcount]; exact hn)
    · rw [hcount, ha]
      simp
    · rw [hwaits, hw, List.append_assoc]

/-- The `Broadcast` has released the group. -/
theorem Inv.done (hI : Inv c fl sw) (hc : c.loc t = .broadcastLoop :: r')
    (hm : m.data = c.shared.1.data) (hq : waits c.shared.2 = released c.shared.2) :
    Inv ⟨(m, c.shared.2 ++ [.done t]), Function.update c.loc t r', asleep⟩ fl none := by
  have hshape := hI.shaped t
  rw [hc] at hshape
  obtain ⟨⟨harr, hsw⟩, hshape⟩ := hshape
  obtain rfl : sw = some t := (hI.sweeps t).mp (by rw [hc]; rfl)
  have hcount : arrivals (c.shared.2 ++ [.done t]) = arrivals c.shared.2 := by simp [arrivals]
  have hwaits : waits (c.shared.2 ++ [.done t]) = waits c.shared.2 := by simp [waits]
  have hrels : released (c.shared.2 ++ [.done t]) = released c.shared.2 := by simp [released]
  have hdones : dones (c.shared.2 ++ [.done t]) = dones c.shared.2 ++ [t] := by simp [dones]
  have hfl := hI.stage
  refine ⟨by rw [hm, hcount, hI.count],
    (Function.forall_update_iff c.loc fun _ => Shaped).mpr ⟨hshape, fun u _ => hI.shaped u⟩,
    hI.flight.same (by rw [harr, hc]; rfl),
    hI.sweeps.change (fun u hu => (Option.some.inj hu).symm) (by simp) (by simp [hsw]), ?_, ?_⟩
  · cases hfl
    simp
  · cases hfl with
    | sweep _ ha hd hn =>
      refine .after none (waits c.shared.2) t [] ?_ ?_ (hrels.trans hq.symm) ?_ ?_ ?_
      · rw [hcount, ha]
        rfl
      · rw [hwaits, List.append_nil]
      · rw [hdones, hd, List.nil_append]
      · rw [← hn, ha, List.length_append, List.length_singleton]
      · rw [hcount, hn]
        decide

/-- A thread arrives. -/
theorem Inv.increment (hI : Inv c fl sw) {v : CondVar T} (hv : Refines c v) {d : Int}
    (hc : c.loc t = .caller .increment :: r') (hm : m.data = c.shared.1.data + 1)
    (hC : c.shared.1.data + 1 < 2 * barrierNum) :
    Inv ⟨(m, c.shared.2 ++ [.other (t, .increment, d)]), Function.update c.loc t r', asleep⟩
      (some t) none := by
  have hshape := hI.shaped t
  have hw := hv.inv.wf t
  rw [hc] at hshape hw
  obtain ⟨htest, hshape⟩ := hshape
  have htest : atTest r' = true := htest
  obtain ⟨hfl, hsw⟩ := hI.only hv (t := t) (by rw [hc]; exact hw.1.1)
  obtain ⟨harr', hsw'⟩ : arriving r' = true ∧ Barrier.sweeps r' = false := by
    unfold atTest at htest
    split at htest
    · exact ⟨rfl, rfl⟩
    · cases htest
  -- Nobody else is on its way, and `t` was not.
  obtain rfl : fl = none := by
    cases hf : fl with
    | none => rfl
    | some u =>
      have := (hI.flight u).mpr hf
      rw [hfl u hf, hc] at this
      cases this
  obtain rfl : sw = none := by
    cases hs : sw with
    | none => rfl
    | some u =>
      have := (hI.sweeps u).mpr hs
      rw [hsw u hs, hc] at this
      cases this
  obtain ⟨h', hh⟩ : ∃ h', h' = c.shared.2 ++ [.other (t, .increment, d)] := ⟨_, rfl⟩
  have hcount : arrivals h' = arrivals c.shared.2 ++ [t] := by simp [hh, arrivals]
  have hwaits : waits h' = waits c.shared.2 := by simp [hh, waits]
  have hrels : released h' = released c.shared.2 := by simp [hh, released]
  have hdones : dones h' = dones c.shared.2 := by simp [hh, dones]
  have hlen : (arrivals h').length = (arrivals c.shared.2).length + 1 := by
    rw [hcount, List.length_append, List.length_singleton]
  rw [← hh]
  have hn := hI.count
  refine ⟨?_, (Function.forall_update_iff c.loc fun _ => Shaped).mpr
      ⟨hshape, fun u _ => hI.shaped u⟩,
    hI.flight.change hfl (fun u hu => (Option.some.inj hu).symm) (by simp [harr']),
    hI.sweeps.same (by rw [hsw', hc]; rfl), fun _ u hu => ?_, ?_⟩
  · dsimp only
    rw [hm, hn, hlen]
    rfl
  · cases hu
    show atTest (Function.update c.loc t r' t) = true
    rw [Function.update_self]
    exact htest
  · cases hI.stage with
    | before _ ha hrel hd hlt =>
      have ha' : arrivals h' = waits h' ++ [t] := by simp [hcount, hwaits, ha]
      by_cases e : (arrivals h').length = barrierNum
      · exact .full t ha' (hrels.trans hrel) (hdones.trans hd) e
      · exact .before (some t) ha' (hrels.trans hrel) (hdones.trans hd)
          (show (arrivals h').length < barrierNum by omega)
    | after _ first last w ha hw' hrel hd hfirst hlt =>
      refine .after (some t) first last w ?_ (hwaits.trans hw') (hrels.trans hrel) (hdones.trans hd)
        hfirst (show (arrivals h').length < 2 * barrierNum by omega)
      rw [hcount, ha]
      simp

/-- The thread that arrived tests `barrierNum`. -/
theorem Inv.tested (hI : Inv c fl sw) {r₀ : List (Stmt T BarrierStmt)} {d : Int}
    (hc : c.loc t = .caller .test :: r₀) (hm : m.data = c.shared.1.data)
    (hr : r' = (if c.shared.1.data = barrierNum then [Call.broadcast] else [.wait]).flatMap
      Call.code ++ r₀) :
    ∃ fl' sw', Inv ⟨(m, c.shared.2 ++ [.other (t, .test, d)]), Function.update c.loc t r', asleep⟩
      fl' sw' := by
  have hshape := hI.shaped t
  rw [hc] at hshape
  obtain ⟨⟨harr, hsw⟩, hshape⟩ := hshape
  obtain rfl := hI.flight_eq (t := t) (by rw [hc]; rfl)
  obtain ⟨h', hh⟩ : ∃ h', h' = c.shared.2 ++ [.other (t, .test, d)] := ⟨_, rfl⟩
  have hcount : arrivals h' = arrivals c.shared.2 := by simp [hh, arrivals]
  have hwaits : waits h' = waits c.shared.2 := by simp [hh, waits]
  have hrels : released h' = released c.shared.2 := by simp [hh, released]
  have hdones : dones h' = dones c.shared.2 := by simp [hh, dones]
  have hn := hI.count
  rw [← hh]
  by_cases e : c.shared.1.data = barrierNum
  · rw [if_pos e] at hr
    have hr : r' = .broadcast :: r₀ := hr
    have hflight := hI.flight
    have hsweeps := hI.sweeps
    cases hI.stage with
    | full _ ha hrel hd hlt =>
      refine ⟨none, some t, by rw [hm, hcount, hI.count],
        (Function.forall_update_iff c.loc fun _ => Shaped).mpr ⟨?_, fun u _ => hI.shaped u⟩,
        hflight.change (fun u hu => (Option.some.inj hu).symm) (by simp) ?_,
        hsweeps.change (by simp) (fun u hu => (Option.some.inj hu).symm) ?_, by simp, ?_⟩
      · rw [hr]
        exact ⟨⟨harr, hsw⟩, hshape⟩
      · simp [hr, arriving]
      · simp [hr, Barrier.sweeps]
      · exact .sweep t (by rw [hcount, hwaits, ha]) (hdones.trans hd) (by rw [hcount]; exact hlt)
    | before _ ha hrel hd hlt => omega
    | after _ first last w ha hw hrel hd hfirst hlt =>
      have := congrArg List.length ha
      simp only [List.length_append, List.length_cons, Option.toList_some, List.length_nil] at this
      omega
  · rw [if_neg e] at hr
    have hr : r' = Condition.wait ++ r₀ := by simpa [Call.code] using hr
    refine ⟨some t, sw, hI.keep hm hcount hwaits hdones (.inl hrels) ?_ ?_ ?_ ?_⟩
    · rw [hr]
      exact ⟨trivial, rfl, ⟨rfl, rfl⟩, ⟨rfl, rfl⟩, ⟨rfl, rfl⟩, ⟨rfl, rfl⟩, ⟨rfl, rfl⟩, ⟨rfl, rfl⟩,
        ⟨harr, hsw⟩, hshape⟩
    · rw [hr, hc]
      rfl
    · rw [hr, hc]
      rfl
    · exact fun hlen => absurd (by rw [hn, hlen]) e

/-- Every step that does not complete a second round. -/
theorem Inv.step (hI : Inv c fl sw) {v : CondVar T} (hv : Refines c v) (hC : FirstRounds c t)
    {c' : BarrierState T} (hs : next (record Condition.barrierStep) c t = .ok c') :
    ∃ fl' sw', Inv c' fl' sw' := by
  rcases hv.step hs with ⟨-, rfl⟩ | ⟨-, m, r', e, v', hx, rfl, hev, -⟩
  · exact ⟨fl, sw, hI⟩
  have hdid := did_exec hx
  have hshape := hI.shaped t
  cases he : event t c.shared.1 (c.loc t) with
  | none =>
    rw [he] at hdid
    obtain ⟨hm, hq⟩ := hdid
    obtain ⟨hshape', harr, hsw⟩ := hshape.quiet hq
    exact ⟨fl, sw, hI.keep hm (by simp) (by simp) (by simp) (.inl (by simp)) hshape' harr hsw
      fun _ h => atTest_quiet h hq⟩
  | some ev =>
    rw [he] at hdid hev
    cases ev with
    | wait u =>
      obtain ⟨rfl, hm, hc⟩ := hdid
      exact ⟨none, sw, hI.wait hc hm⟩
    | found u =>
      obtain ⟨rfl, hm, r₀, hc, rfl⟩ := hdid
      rw [hc] at hshape
      exact ⟨fl, sw, hI.keep hm (by simp [arrivals]) (by simp [waits]) (by simp [dones])
        (.inl (by simp [released])) hshape (by rw [hc]; rfl) (by rw [hc]; rfl) (by simp [hc, atTest])⟩
    | signal u w =>
      obtain ⟨rfl, hm, hc⟩ := hdid
      rw [hc] at hshape
      obtain ⟨hsw, hshape⟩ := hshape
      have hsw : Barrier.sweeps r' = true := hsw
      have hne : sw = some u := (hI.sweeps u).mp (by rw [hc]; exact hsw)
      exact ⟨fl, sw, hI.keep hm (by simp [arrivals]) (by simp [waits]) (by simp [dones])
        (.inr (by simp [hne])) hshape (by rw [hc, arriving_of_sweeps hsw]; rfl) (by rw [hc]; rfl)
        (by simp [hc, atTest])⟩
    | ret u =>
      obtain ⟨rfl, hm, hc⟩ := hdid
      rw [hc] at hshape
      obtain ⟨⟨harr, hsw⟩, hshape⟩ := hshape
      exact ⟨fl, sw, hI.keep hm (by simp [arrivals]) (by simp [waits]) (by simp [dones])
        (.inl (by simp [released])) hshape (by rw [harr, hc]; rfl) (by rw [hsw, hc]; rfl)
        (by simp [hc, atTest])⟩
    | broadcast u =>
      obtain ⟨rfl, hm, r₀, hc, rfl⟩ := hdid
      rw [hc] at hshape
      exact ⟨fl, sw, hI.keep hm (by simp [arrivals]) (by simp [waits]) (by simp [dones])
        (.inl (by simp [released])) hshape (by rw [hc]; rfl) (by rw [hc]; rfl) (by simp [hc, atTest])⟩
    | done u =>
      obtain ⟨rfl, hm, hc⟩ := hdid
      obtain ⟨-, -, hq, -⟩ := hev
      have hw := trace_waits hv.trace
      rw [hq, List.append_nil] at hw
      exact ⟨fl, none, hI.done hc hm hw⟩
    | other ev =>
      obtain ⟨u, a, d⟩ := ev
      obtain ⟨rfl, rfl, r₀, ks, hc, hk, rfl⟩ := hdid
      cases a with
      | increment =>
        obtain ⟨n, hn, hk⟩ := bind_eq_ok.mp hk
        obtain ⟨-, -, hn⟩ := bind_eq_ok.mp hn
        obtain ⟨hd, rfl⟩ := Prod.mk.inj (Except.ok.inj hk)
        refine ⟨some u, none, hI.increment hv hc ?_ (hC (by rw [hc]; rfl))⟩
        rw [← hd]
        exact (Except.ok.inj hn).symm
      | test =>
        obtain ⟨hd, rfl⟩ := Prod.mk.inj (Except.ok.inj hk)
        exact hI.tested hc hd.symm rfl

end

/-! ## Safety -/

omit [DecidableEq T] in
/-- Nothing is released before the first group is complete, and then it is as
soon as nobody is between its arrival and its wait or return. -/
theorem Stage.cases {h : List (Event T BarrierStmt Int)} {fl sw : Option T} (hs : Stage h fl sw) :
    ((arrivals h).length < barrierNum ∧ released h = [] ∧ dones h = []) ∨
    ((arrivals h).length = barrierNum ∧ (fl ≠ none ∨ sw ≠ none)) ∨
    (barrierNum ≤ (arrivals h).length ∧ (arrivals h).length < 2 * barrierNum ∧
      (arrivals h).take barrierNum = released h ++ dones h) := by
  cases hs with
  | before _ ha hrel hd hn => exact .inl ⟨hn, hrel, hd⟩
  | full t ha hrel hd hn => exact .inr (.inl ⟨hn, by simp⟩)
  | sweep t ha hd hn => exact .inr (.inl ⟨hn, by simp⟩)
  | after _ first last w ha hw hrel hd hfirst hn =>
    have hlen := congrArg List.length ha
    simp only [List.length_append, List.length_cons] at hlen
    refine .inr (.inr ⟨by omega, hn, ?_⟩)
    rw [ha, hrel, hd, ← hfirst, List.append_cons, List.take_left' (by simp)]

/-- Until a second round is complete the barrier is one. -/
theorem Inv.safe {c : BarrierState T} {fl sw : Option T} (hI : Inv c fl sw) {v : CondVar T}
    (hv : Refines c v) : BarrierSafe c := by
  have hN : 0 < barrierNum := by decide
  constructor
  · intro i t hi hret
    have hlt := (List.getElem?_eq_some_iff.mp hi).1
    have hle : (rets c.shared.2).count t ≤ (released c.shared.2).count t :=
      (Nat.le_add_right _ _).trans (trace_rets hv.trace t)
    have hret : ((arrivals c.shared.2).take i).count t <
      (released c.shared.2).count t + (dones c.shared.2).count t := lt_of_lt_of_le hret (by omega)
    rcases hI.stage.cases with ⟨-, hr, hd⟩ | ⟨hn, -⟩ | ⟨hn, -, htake⟩
    · rw [hr, hd] at hret
      cases hret
    · rw [Nat.div_eq_of_lt (by omega), hn]
      omega
    · by_cases hiN : i < barrierNum
      · rw [Nat.div_eq_of_lt hiN]
        omega
      · -- The group of `i` is not the one released.
        have hsub := (List.take_sublist_take_left (l := arrivals c.shared.2)
          (show barrierNum ≤ i by omega)).count_le t
        rw [htake, List.count_append] at hsub
        omega
  · intro hfree k hk i t hi hit
    have hidle : ∀ u, status (c.loc u) ≠ some true := fun u hu => by
      have := (hv.inv.held.busy u true hu).1
      omega
    rcases hI.stage.cases with ⟨hn, -, -⟩ | ⟨-, hbusy⟩ | ⟨-, hn, htake⟩
    · have hk0 : k * barrierNum < 1 * barrierNum := by omega
      have hk1 := Nat.lt_of_mul_lt_mul_right hk0
      obtain rfl : k = 0 := by omega
      omega
    · rcases hbusy with hne | hne
      · obtain ⟨u, hu⟩ := Option.ne_none_iff_exists'.mp hne
        exact absurd (status_of_arriving (hv.inv.wf u) ((hI.flight u).mpr hu)) (hidle u)
      · obtain ⟨u, hu⟩ := Option.ne_none_iff_exists'.mp hne
        exact absurd (status_of_sweeps (hv.inv.wf u) ((hI.sweeps u).mpr hu)) (hidle u)
    · have hk2 := Nat.lt_of_mul_lt_mul_right (show k * barrierNum < 2 * barrierNum by omega)
      have hkN := Nat.mul_le_mul_right barrierNum (show k ≤ 1 by omega)
      have hsub := (List.take_sublist_take_left (l := arrivals c.shared.2)
        (show i + 1 ≤ barrierNum by omega)).count_le t
      rw [List.take_add_one, hit, htake, List.count_append, List.count_append] at hsub
      simp only [Option.toList_some, List.count_singleton_self] at hsub
      exact hsub

/-- In every run in which no second round is completed, every state. -/
theorem reachable_barrierSafe {calls : T → List Nat} {c : BarrierState T}
    (h : ((system calls).restrict FirstRounds).Reachable c) : BarrierSafe c := by
  have hinv : ∃ v, Refines c v ∧ ∃ fl sw, Inv c fl sw := by
    refine h.invariant (I := fun c => ∃ v, Refines c v ∧ ∃ fl sw, Inv c fl sw) ?_ ?_
    · rintro c rfl
      exact ⟨_, refines_init 0 _, none, none, .initial calls⟩
    · rintro c t c' ⟨v, hv, fl, sw, hI⟩ ⟨hC, hs⟩
      have hI' := hI.step hv hC hs
      rcases hv.step hs with ⟨-, rfl⟩ | ⟨-, m, r, e, v', -, -, -, h'⟩
      · exact ⟨v, hv, hI'⟩
      · exact ⟨v', h', hI'⟩
  obtain ⟨v, hv, fl, sw, hI⟩ := hinv
  exact hI.safe hv

instance (h : List (Event T BarrierStmt Int)) (i : Nat) (t : T) : Decidable (Released h i t) :=
  inferInstanceAs (Decidable (_ < _))

/-- Five threads; the first four wait, and the fifth releases them. -/
theorem reachable_barrierSafe_five : ∃ c,
    ((system fun _ : Fin 5 => [1]).restrict FirstRounds).Reachable c ∧
      (arrivals c.shared.2 = [0, 1, 2, 3, 4] ∧ released c.shared.2 = [0, 1, 2, 3] ∧
        rets c.shared.2 = [0]) ∧ BarrierSafe c := by
  obtain ⟨c, hr, hp⟩ := System.exists_reachable_guarded (initial 0 (program fun _ : Fin 5 => [1]))
    (next (record Condition.barrierStep)) FirstRounds
    ([0, 1, 2, 3].flatMap (List.replicate 9) ++ List.replicate 28 4 ++ List.replicate 4 0)
    (p := fun c => arrivals c.shared.2 = [0, 1, 2, 3, 4] ∧ released c.shared.2 = [0, 1, 2, 3] ∧
      rets c.shared.2 = [0]) (by decide +kernel)
  exact ⟨c, hr, of_decide_eq_true hp, reachable_barrierSafe hr⟩

/-- Ten threads call `Barrier` once each. When the lock is free again the last
five have all arrived, and none of them is released. -/
theorem not_barrierSafe_round :
    ¬ ∀ (calls : Fin 10 → List Nat) c, (system calls).Reachable c → BarrierSafe c := by
  intro h
  obtain ⟨c, hr, hp⟩ := System.exists_reachable (initial 0 (program fun _ : Fin 10 => [1]))
    (next (record Condition.barrierStep))
    ([0, 1, 2, 3].flatMap (List.replicate 9) ++ List.replicate 28 4 ++
      [5, 6, 7, 8, 9].flatMap (List.replicate 9))
    (p := fun c => c.shared.1.lock.semaphore.value = 1 ∧
      arrivals c.shared.2 = List.finRange 10 ∧ ¬ Released c.shared.2 5 5) (by decide +kernel)
  obtain ⟨hfree, harr, hrel⟩ := of_decide_eq_true hp
  have hlen : 2 * barrierNum ≤ (arrivals c.shared.2).length := by
    rw [harr]
    decide
  exact hrel ((h _ c hr).group hfree 2 hlen 5 5 (by decide) (by rw [harr]; rfl))

end Nachos.Barrier

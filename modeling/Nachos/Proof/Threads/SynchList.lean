import Mathlib.Data.Set.Card
import Nachos.Impl.Threads.SynchList
import Nachos.Proof.Threads.Monitor

/-!
# A synchronized list is a queue, and no consumer is stuck

Any number of threads call `Append` and `RemoveFront`, in any interleaving.
Items come out in the order in which they went in, and none is lost or comes
out twice; and while a consumer waits, there are not more items in the list
than consumers that were signalled to take one (`reachable_synchList`).

The bound is one larger while the thread with the lock has appended and not
yet signalled, or was signalled and has not yet taken an item (`owes`).
-/

namespace Nachos.SynchList

open Framework Framework.Threads Monitor

variable {T X : Type}

abbrev SynchListState (T X : Type) := Monitor.State T (SynchListStmt X) (List X)

abbrev SynchListEvent (T X : Type) := Event T (SynchListStmt X) (List X)

/-- The items appended. -/
def appended (h : List (SynchListEvent T X)) : List X :=
  h.filterMap fun
    | .other (_, .append item, _) => some item
    | _ => none

/-- The items returned by `RemoveFront`. -/
def removed (h : List (SynchListEvent T X)) : List X :=
  h.filterMap fun
    | .other (_, .removeFront, list) => list.head?
    | _ => none

/-- `t` was signalled and has not yet tested `IsEmpty` again. -/
def Signalled (h : List (SynchListEvent T X)) (t : T) : Prop :=
  ∃ h₁ u h₂, h = h₁ ++ .signal u t :: h₂ ∧ ∀ list, .other (t, .isEmpty, list) ∉ h₂

/-- The list is a queue, and no consumer is stuck. -/
structure SynchListSafe (c : SynchListState T X) : Prop where
  fifo : appended c.shared.2 = removed c.shared.2 ++ c.shared.1.data
  front : ∀ t r, c.loc t = .caller .removeFront :: r → c.shared.1.data ≠ []
  stuck : c.shared.1.lock.lockHolder = none → c.shared.1.waitQueue ≠ [] →
    (c.shared.1.data.length : ℕ∞) ≤ {t | Signalled c.shared.2 t}.encard

/-- Each thread `t` makes the calls `calls t`. -/
def system [DecidableEq T] [DecidableEq X] (calls : T → List (SynchListCall X)) :
    System (SynchListState T X) T :=
  Monitor.system SynchList.step [] fun t => (calls t).map SynchListCall.body

/-! ## The code of a thread -/

/-- The list may have one item more than there are consumers to take it. -/
def owes : List (Stmt T (SynchListStmt X)) → Bool
  | .caller .isEmpty :: _ | .caller .removeFront :: _ => true
  | .signal :: _ | .removeFront :: _ | .waiterV _ :: _ => true
  | .assertHeld :: c => owes c
  | _ => false

/-- The thread is about to wait. -/
def empties : List (Stmt T (SynchListStmt X)) → Bool
  | .enqueue :: _ | .newWaiter :: _ => true
  | .assertHeld :: c => empties c
  | _ => false

/-- The thread is about to take an item. -/
def takes : List (Stmt T (SynchListStmt X)) → Bool
  | .caller .removeFront :: _ => true
  | _ => false

@[simp] theorem takes_cons (s : Stmt T (SynchListStmt X)) (c : List (Stmt T (SynchListStmt X))) :
    takes (s :: c) = match s with
      | .caller .removeFront => true
      | _ => false := by
  unfold takes
  split <;> simp_all

/-- A statement fits what comes behind it. -/
def Shape : Stmt T (SynchListStmt X) → List (Stmt T (SynchListStmt X)) → Prop
  | .caller (.append _), c | .deleteWaiter, c =>
    owes c = true ∧ empties c = false ∧ takes c = false
  | .caller .isEmpty, c => takes c = true
  | .assertHeld, c | .newWaiter, c => takes c = false
  | .broadcast, _ | .broadcastLoop, _ => False
  | _, c => empties c = false ∧ takes c = false

/-- The code of threads that share a list. -/
def Shaped : List (Stmt T (SynchListStmt X)) → Prop
  | [] => True
  | s :: c => Shape s c ∧ Shaped c

/-- The code of a thread outside the calls. -/
structure Outside (c : List (Stmt T (SynchListStmt X))) : Prop where
  shaped : Shaped c
  empties : empties c = false
  takes : takes c = false

theorem Outside.critical {c : List (Stmt T (SynchListStmt X))} (h : Outside c) (k : SynchListCall X) :
    Outside (critical k.body ++ c) := by
  obtain ⟨h₁, h₂, h₃⟩ := h
  cases k <;> constructor <;>
    simp [Nachos.critical, SynchListCall.body, append, removeFront, Call.code, Condition.signal,
      Lock.acquire, Lock.release, Shaped, Shape, owes, SynchList.empties, *]

theorem outside_program (ks : List (SynchListCall X)) :
    Outside (T := T) ((ks.map SynchListCall.body).flatMap Nachos.critical) := by
  induction ks with
  | nil => exact ⟨trivial, rfl, rfl⟩
  | cons k ks ih =>
    rw [List.map_cons, List.flatMap_cons]
    exact ih.critical k

section
variable {r : List (Stmt T (SynchListStmt X))}

/-- In each of these places the thread has the lock. -/
theorem status_of_owes (hw : Wf r) (h : owes r = true) : status r = some true := by
  cases r with
  | nil => cases h
  | cons s c =>
    have hf := hw.1
    cases s <;> simp_all [owes]

theorem status_of_empties (hw : Wf r) (h : empties r = true) : status r = some true := by
  cases r with
  | nil => cases h
  | cons s c =>
    have hf := hw.1
    cases s <;> simp_all [empties]

theorem owes_of_takes (h : takes r = true) : owes r = true ∧ empties r = false := by
  unfold takes at h
  split at h
  · exact ⟨rfl, rfl⟩
  · cases h

end

/-! ## The invariant -/

variable [DecidableEq T]

/-- The list, and the condition variable it uses. -/
structure Inv (c : SynchListState T X) (v : CondVar T) : Prop where
  shaped : ∀ t, Shaped (c.loc t)
  fifo : appended c.shared.2 = removed c.shared.2 ++ c.shared.1.data
  empty : ∀ t, empties (c.loc t) = true → c.shared.1.data = []
  full : ∀ t, takes (c.loc t) = true → c.shared.1.data ≠ []
  most : v.queue ≠ [] → c.shared.1.data.length ≤ v.woken.card + 1
  bound : v.queue ≠ [] → (∀ t, owes (c.loc t) = false) → c.shared.1.data.length ≤ v.woken.card
  signalled : ∀ t ∈ v.woken, Signalled c.shared.2 t

omit [DecidableEq T] in
theorem inv_initial (calls : T → List (SynchListCall X)) :
    Inv (initial [] fun t => (calls t).map SynchListCall.body) .empty where
  shaped t := (outside_program (calls t)).shaped
  fifo := rfl
  empty t ht := rfl
  full t ht := absurd (ht.symm.trans (outside_program (calls t)).takes) (by decide)
  most h := absurd rfl h
  bound h := absurd rfl h
  signalled t ht := by simp [CondVar.empty] at ht

omit [DecidableEq T] in
theorem Signalled.append {h : List (SynchListEvent T X)} {t : T} (hs : Signalled h t)
    {h' : List (SynchListEvent T X)} (hne : ∀ list, .other (t, .isEmpty, list) ∉ h') :
    Signalled (h ++ h') t := by
  obtain ⟨h₁, u, h₂, rfl, hn⟩ := hs
  refine ⟨h₁, u, h₂ ++ h', by simp, fun list hm => ?_⟩
  exact (List.mem_append.mp hm).elim (hn list) (hne list)

section
variable {c : SynchListState T X} {v v' : CondVar T} {m : Monitor T (List X)} {t : T}
  {r' : List (Stmt T (SynchListStmt X))} {h' : List (SynchListEvent T X)} {asleep : T → Bool}

/-- Only the thread with the lock changes the list. -/
theorem Inv.move (hI : Inv c v) (hv : Refines c v)
    (hlist : m.data = c.shared.1.data ∨ status (c.loc t) = some true) (hshape : Shaped r')
    (hfifo : appended h' = removed h' ++ m.data) (hempty : empties r' = true → m.data = [])
    (hfull : takes r' = true → m.data ≠ [])
    (hmost : v'.queue ≠ [] → m.data.length ≤ v'.woken.card + 1)
    (hbound : v'.queue ≠ [] → owes r' = false → (∀ u ≠ t, owes (c.loc u) = false) →
      m.data.length ≤ v'.woken.card)
    (hsig : ∀ u ∈ v'.woken, Signalled h' u) :
    Inv ⟨(m, h'), Function.update c.loc t r', asleep⟩ v' := by
  have one : ∀ u, status (c.loc u) = some true → u ≠ t → m.data = c.shared.1.data := fun u hu hne =>
    hlist.resolve_right fun ht => hne (hv.inv.held.unique (by simp [hu]) (by simp [ht]))
  refine ⟨(Function.forall_update_iff c.loc fun _ => Shaped).mpr ⟨hshape, fun u _ => hI.shaped u⟩,
    hfifo,
    (Function.forall_update_iff c.loc fun _ r => empties r = true → m.data = []).mpr
      ⟨hempty, fun u hu he => ?_⟩,
    (Function.forall_update_iff c.loc fun _ r => takes r = true → m.data ≠ []).mpr
      ⟨hfull, fun u hu he => ?_⟩,
    hmost, fun hq ho => ?_, hsig⟩
  · rw [one u (status_of_empties (hv.inv.wf u) he) hu]
    exact hI.empty u he
  · rw [one u (status_of_owes (hv.inv.wf u) (owes_of_takes he).1) hu]
    exact hI.full u he
  · obtain ⟨ht, hu⟩ := (Function.forall_update_iff c.loc fun _ r => owes r = false).mp ho
    exact hbound hq ht hu

/-- A step that leaves the list and the condition variable as they are. -/
theorem Inv.keep (hI : Inv c v) (hv : Refines c v) (hm : m.data = c.shared.1.data)
    (ha : appended h' = appended c.shared.2) (hr : removed h' = removed c.shared.2)
    (hq : v'.queue = v.queue) (hwo : v'.woken = v.woken) (hshape : Shaped r')
    (hempty : empties r' = true → empties (c.loc t) = true)
    (hfull : takes r' = true → takes (c.loc t) = true)
    (howes : owes r' = true ∨ owes (c.loc t) = false ∨ v.queue = [])
    (hsig : ∀ u ∈ v.woken, Signalled h' u) :
    Inv ⟨(m, h'), Function.update c.loc t r', asleep⟩ v' := by
  refine hI.move hv (.inl hm) hshape (by rw [ha, hr, hm, hI.fifo]) (fun he => ?_) (fun he => ?_)
    (fun h => ?_) (fun h hr' hu => ?_) (by rw [hwo]; exact hsig)
  · rw [hm]
    exact hI.empty t (hempty he)
  · rw [hm]
    exact hI.full t (hfull he)
  · rw [hm, hwo]
    exact hI.most (by rwa [← hq])
  · rw [hq] at h
    rw [hm, hwo]
    refine hI.bound h fun u => ?_
    by_cases e : u = t
    · rw [e]
      exact (howes.resolve_left (by simp [hr'])).resolve_right h
    · exact hu u e

/-- Whoever else has no lock owes nothing. -/
theorem Inv.bound_of (hI : Inv c v) (hv : Refines c v) (hst : status (c.loc t) = some true)
    (ho : owes (c.loc t) = false) (hq : v.queue ≠ []) : c.shared.1.data.length ≤ v.woken.card := by
  refine hI.bound hq fun u => ?_
  by_contra hu
  rw [Bool.not_eq_false] at hu
  have := hv.inv.held.unique (t := u) (u := t) (by simp [status_of_owes (hv.inv.wf u) hu])
    (by simp [hst])
  rw [this, ho] at hu
  cases hu

/-- A step without an event. -/
theorem Inv.quiet (hI : Inv c v) (hv : Refines c v) (hm : m.data = c.shared.1.data)
    (hq : Quiet (c.loc t) r') (he : event t c.shared.1 (c.loc t) = none) :
    Inv ⟨(m, c.shared.2), Function.update c.loc t r', asleep⟩ v := by
  have hshape := hI.shaped t
  obtain ⟨r, hc⟩ : ∃ r, c.loc t = r := ⟨_, rfl⟩
  rw [hc] at hq hshape he
  cases hq with
  | stay =>
    refine hI.keep hv hm rfl rfl rfl rfl hshape (by simp [hc]) (by simp [hc]) ?_ hI.signalled
    rw [hc]
    cases owes r' <;> simp
  | lock _ hs =>
    refine hI.keep hv hm rfl rfl rfl rfl hshape.2 ?_ ?_ (.inr (.inl ?_)) hI.signalled <;>
    · rw [hc]
      simp only [List.mem_cons, List.not_mem_nil, or_false] at hs
      rcases hs with rfl | rfl | rfl | rfl <;> simp [owes, hshape.1.1, hshape.1.2]
  | wait _ hs =>
    simp only [List.mem_cons, List.not_mem_nil, or_false] at hs
    rcases hs with rfl | rfl | rfl
    · refine hI.keep hv hm rfl rfl rfl rfl hshape.2 (by simp [hc, empties])
        (by simp [show takes r' = false from hshape.1]) ?_ hI.signalled
      rw [hc, owes]
      cases owes r' <;> simp
    · exact hI.keep hv hm rfl rfl rfl rfl hshape.2 (by simp [hc, empties])
        (by simp [show takes r' = false from hshape.1]) (.inr (.inl (by rw [hc]; rfl))) hI.signalled
    · exact hI.keep hv hm rfl rfl rfl rfl hshape.2 (by simp [hshape.1.1]) (by simp [hshape.1.2])
        (.inr (.inl (by rw [hc]; rfl))) hI.signalled
  | none =>
    -- The queue is empty, so nothing is owed to it.
    have hst : status (c.loc t) = some true := status_of_owes (hv.inv.wf t) (by rw [hc]; rfl)
    have hqueue : v.queue = [] := by
      rw [hv.inv.same (hv.inv.signaller_none hst (by rw [hc]; rfl))]
      by_contra hne
      simp [event, hne] at he
    exact hI.keep hv hm rfl rfl rfl rfl hshape.2 (by simp [hshape.1.1]) (by simp [hshape.1.2])
      (.inr (.inr hqueue)) hI.signalled
  | remove u =>
    exact hI.keep hv hm rfl rfl rfl rfl hshape (by simp [empties]) (by simp) (.inl rfl) hI.signalled
  | again => exact hshape.1.elim

variable [DecidableEq X]

/-- A statement on the list. -/
theorem Inv.caller (hI : Inv c v) (hv : Refines c v) {a : SynchListStmt X} {r₀ : List (Stmt T _)}
    {ks : List (Call (SynchListStmt X))} (hc : c.loc t = .caller a :: r₀)
    (hk : step t c.shared.1.data a = .ok (m.data, ks)) :
    Inv ⟨(m, c.shared.2 ++ [.other (t, a, c.shared.1.data)]),
      Function.update c.loc t (ks.flatMap Call.code ++ r₀), asleep⟩ v := by
  have hw := hv.inv.wf t
  have hshape := hI.shaped t
  rw [hc] at hw hshape
  have hst : status (c.loc t) = some true := by simpa [hc] using hw.1.1
  have hsig : ∀ u ∈ v.woken, Signalled (c.shared.2 ++ [.other (t, a, c.shared.1.data)]) u := by
    intro u hu
    refine (hI.signalled u hu).append fun list hm => ?_
    simp only [List.mem_singleton, CondEvent.other.injEq, Prod.mk.injEq] at hm
    obtain ⟨rfl, -⟩ := hm
    have := (hv.inv.woken u).mp hu
    rw [hc, show phase (.caller a :: r₀) = .idle from hw.1.2.1] at this
    simp at this
  cases a with
  | append item =>
    obtain ⟨list, hl, hk⟩ := bind_eq_ok.mp hk
    obtain ⟨hd, rfl⟩ := Prod.mk.inj (Except.ok.inj hk)
    obtain ⟨-, hl⟩ := NList.append_eq_ok.mp hl
    rw [hd] at hl
    obtain ⟨⟨ho, he, ht⟩, hshape⟩ := hshape
    refine hI.move hv (.inr hst) hshape ?_ (by simp [he]) (by simp [ht]) (fun hq => ?_)
      (fun _ h => absurd ho (by simpa using h)) hsig
    · have := hI.fifo
      simp only [appended, removed] at this
      simp [appended, removed, this, hl]
    · rw [hl, List.length_append, List.length_singleton]
      exact Nat.add_le_add_right (hI.bound_of hv hst (by rw [hc]; rfl) hq) 1
  | isEmpty =>
    obtain ⟨hd, rfl⟩ := Prod.mk.inj (Except.ok.inj hk)
    have hfifo : ∀ e : List X, appended (c.shared.2 ++ [.other (t, .isEmpty, e)]) =
        removed (c.shared.2 ++ [.other (t, .isEmpty, e)]) ++ m.data := fun e => by
      have := hI.fifo
      simp only [appended, removed] at this
      simp [appended, removed, this, hd]
    have hmost : v.queue ≠ [] → m.data.length ≤ v.woken.card + 1 := by
      rw [← hd]
      exact hI.most
    obtain ⟨ht, hshape⟩ := hshape
    have ht : takes r₀ = true := ht
    by_cases hn : c.shared.1.data = []
    · rw [if_pos hn]
      refine hI.move hv (.inr hst) ?_ (hfifo _) (fun _ => hd.symm.trans hn) ?_ hmost
        (fun _ _ _ => ?_) hsig
      · exact ⟨rfl, rfl, ⟨rfl, rfl⟩, ⟨rfl, rfl⟩, ⟨rfl, rfl⟩, ⟨rfl, rfl⟩, ⟨rfl, rfl⟩, ⟨rfl, rfl⟩,
          ⟨rfl, rfl, rfl⟩, ht, hshape⟩
      · simp [Call.code, Condition.wait]
      · rw [← hd, hn]
        exact Nat.zero_le _
    · rw [if_neg hn]
      obtain ⟨ho, he⟩ := owes_of_takes ht
      refine hI.move hv (.inr hst) hshape (hfifo _) (by simp [he]) (fun _ => ?_) hmost
        (fun _ h => absurd ho (by simpa using h)) hsig
      rw [← hd]
      exact hn
  | removeFront =>
    obtain ⟨⟨x, list⟩, hl, hk⟩ := bind_eq_ok.mp hk
    obtain ⟨hd, rfl⟩ := Prod.mk.inj (Except.ok.inj hk)
    obtain ⟨⟨he, ht⟩, hshape⟩ := hshape
    have hdata : c.shared.1.data = x :: m.data := by
      unfold NList.removeFront at hl
      split at hl
      · cases hl
      · rename_i heq
        cases hl
        rw [heq, hd]
    have hlen : v.queue ≠ [] → m.data.length ≤ v.woken.card := fun hq => by
      have := hI.most hq
      rw [hdata, List.length_cons] at this
      omega
    refine hI.move hv (.inr hst) hshape ?_ (by simp [he]) (by simp [ht])
      (fun hq => (hlen hq).trans (Nat.le_succ _)) (fun hq _ _ => hlen hq) hsig
    have := hI.fifo
    simp only [appended, removed] at this
    simp [appended, removed, this, hdata]

/-- Every step. -/
theorem Inv.step {c' : SynchListState T X} (hI : Inv c v) (hv : Refines c v)
    (hs : next (record SynchList.step) c t = .ok c') : ∃ v', Refines c' v' ∧ Inv c' v' := by
  rcases hv.step hs with ⟨-, rfl⟩ | ⟨-, m, r', e, v', hx, rfl, hev, hv'⟩
  · exact ⟨v, hv, hI⟩
  refine ⟨v', hv', ?_⟩
  have hdid := did_exec hx
  have hshape := hI.shaped t
  have hw := hv.inv.wf t
  cases he : event t c.shared.1 (c.loc t) with
  | none =>
    rw [he] at hdid hev
    cases hev
    rw [Option.toList_none, List.append_nil]
    exact hI.quiet hv hdid.1 hdid.2 he
  | some ev =>
    rw [he] at hdid hev
    cases ev with
    | wait u =>
      obtain ⟨rfl, hm, hc⟩ := hdid
      obtain ⟨-, -, -, -, rfl⟩ := hev
      rw [hc] at hshape hw
      have hd : m.data = [] := hm.trans (hI.empty u (by rw [hc]; rfl))
      refine hI.move hv (.inl hm) hshape.2 ?_ (by simp [hshape.1.1]) (by simp [hshape.1.2])
        (fun _ => by simp [hd]) (fun _ _ _ => by simp [hd])
        fun w hw => (hI.signalled w hw).append (by simp)
      rw [hm]
      simpa [appended, removed] using hI.fifo
    | found u =>
      obtain ⟨rfl, hm, r₀, hc, rfl⟩ := hdid
      obtain ⟨-, -, -, rfl⟩ := hev
      rw [hc] at hshape
      exact hI.keep hv hm (by simp [appended]) (by simp [removed]) rfl rfl hshape (by simp [empties])
        (by simp) (.inl rfl) fun w hw => (hI.signalled w hw).append (by simp)
    | signal u w =>
      obtain ⟨rfl, hm, hc⟩ := hdid
      obtain ⟨-, q, hq, rfl⟩ := hev
      rw [hc] at hshape hw
      have hnew : w ∉ v.woken := fun hmem => by
        have := (hv.inv.woken w).mp hmem
        simp [hv.inv.lined w (by simp [hq]), hq] at this
      have hlen : m.data.length ≤ (insert w v.woken).card := by
        rw [hm, Finset.card_insert_of_notMem hnew]
        exact hI.most (by simp [hq])
      refine hI.move hv (.inl hm) hshape.2 ?_ (by simp [hshape.1.1]) (by simp [hshape.1.2])
        (fun _ => hlen.trans (Nat.le_succ _)) (fun _ _ _ => hlen) fun x hx => ?_
      · rw [hm]
        simpa [appended, removed] using hI.fifo
      · rcases Finset.mem_insert.mp hx with rfl | hx
        · exact ⟨c.shared.2, u, [], rfl, by simp⟩
        · exact (hI.signalled x hx).append (by simp)
    | ret u =>
      obtain ⟨rfl, hm, hc⟩ := hdid
      obtain ⟨hmem, rfl⟩ := hev
      rw [hc] at hshape hw
      have hlen : v.queue ≠ [] → m.data.length ≤ (v.woken.erase u).card + 1 := fun hq => by
        rw [hm, Finset.card_erase_add_one hmem]
        exact hI.bound_of hv (t := u) (by rw [hc]; exact hw.1.1) (by rw [hc]; rfl) hq
      obtain ⟨⟨ho, he', ht⟩, hshape⟩ := hshape
      refine hI.move hv (.inl hm) hshape ?_ (by simp [he']) (by simp [ht]) hlen
        (fun _ h => absurd ho (by simp [h])) fun x hx =>
          (hI.signalled x (Finset.mem_of_mem_erase hx)).append (by simp)
      rw [hm]
      simpa [appended, removed] using hI.fifo
    | broadcast u =>
      obtain ⟨rfl, hm, r₀, hc, rfl⟩ := hdid
      rw [hc] at hshape
      exact hshape.1.elim
    | done u =>
      obtain ⟨rfl, hm, hc⟩ := hdid
      rw [hc] at hshape
      exact hshape.1.elim
    | other ev =>
      obtain ⟨u, a, d⟩ := ev
      obtain ⟨rfl, rfl, r₀, ks, hc, hk, rfl⟩ := hdid
      cases hev
      exact hI.caller hv hc hk

/-! ## Safety -/

omit [DecidableEq X] in
theorem Inv.safe (hI : Inv c v) (hv : Refines c v) : SynchListSafe c := by
  refine ⟨hI.fifo, fun t r hc => hI.full t (by rw [hc]; rfl), fun hfree hq => ?_⟩
  have hidle : ∀ t, status (c.loc t) ≠ some true := fun t ht => by
    have := (hv.inv.held.busy t true ht).2.1
    rw [hfree] at this
    cases this
  have hsig : v.signaller = none := by
    by_contra hne
    obtain ⟨u, hu⟩ := Option.ne_none_iff_exists'.mp hne
    exact hidle u (status_of_signalling (hv.inv.wf u) ((hv.inv.sig u).mpr hu))
  have howes : ∀ t, owes (c.loc t) = false := fun t => by
    by_contra ht
    exact hidle t (status_of_owes (hv.inv.wf t) (by simpa using ht))
  have hlen := hI.bound (by rwa [hv.inv.same hsig]) howes
  calc (c.shared.1.data.length : ℕ∞) ≤ v.woken.card := by exact_mod_cast hlen
    _ = (v.woken : Set T).encard := (Set.encard_coe_eq_coe_finsetCard v.woken).symm
    _ ≤ {t | Signalled c.shared.2 t}.encard := Set.encard_le_encard fun t ht => hI.signalled t ht

/-- Every state of every run: a queue, and no stuck consumer. -/
theorem reachable_synchList {calls : T → List (SynchListCall X)}
    (h : (system calls).Reachable c) : SynchListSafe c := by
  have hinv : ∃ v, Refines c v ∧ Inv c v := by
    refine h.invariant (I := fun c => ∃ v, Refines c v ∧ Inv c v) ?_ ?_
    · rintro c rfl
      exact ⟨_, refines_init [] _, inv_initial calls⟩
    · rintro c t c' ⟨v, hv, hI⟩ hs
      exact hI.step hv hs
  obtain ⟨v, hv, hI⟩ := hinv
  exact hI.safe hv

end

/-- `0` and `1` wait, `2` appends and signals `0`, and `3` takes the item before
`0` is back: `0` finds the list empty. -/
theorem reachable_synchList_stolen : ∃ c : SynchListState (Fin 4) Nat,
    (system fun t => if t = 2 then [.append 7, .append 8] else [.removeFront]).Reachable c ∧
      (removed c.shared.2 = [7] ∧ c.shared.1.waitQueue = [1, 0] ∧ c.shared.1.data = []) ∧
      SynchListSafe c := by
  obtain ⟨c, hr, hp⟩ := System.exists_reachable
    (initial [] fun t : Fin 4 => (if t = 2 then [.append 7, .append 8] else
      [.removeFront] : List (SynchListCall Nat)).map SynchListCall.body)
    (next (record SynchList.step))
    (List.replicate 8 0 ++ List.replicate 8 1 ++ List.replicate 9 2 ++ List.replicate 6 3 ++
      List.replicate 9 0)
    (p := fun c => removed c.shared.2 = [7] ∧ c.shared.1.waitQueue = [1, 0] ∧
      c.shared.1.data = []) (by decide)
  exact ⟨c, hr, of_decide_eq_true hp, reachable_synchList hr⟩

end Nachos.SynchList

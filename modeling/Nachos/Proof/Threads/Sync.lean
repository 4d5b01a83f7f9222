import Mathlib.Data.Finset.Card
import Nachos.Framework.System
import Nachos.Impl.Threads.Sync
import Nachos.Proof.Threads.Lock

/-!
# Code over locks and semaphores: what holds whatever the data are

For code in which each `Acquire` of a lock is followed by its `Release` (`Wf`),
over all interleavings of threads and interrupts (`Inv`): what is left of a
thread's code says which locks it holds (`status`), at most one thread holds a
lock, and the queue of each semaphore holds the threads asleep in its `P`. A step
of a thread aborts only in an action on the data, and does what `Did` says.
-/

namespace Nachos.Sync

open Framework Framework.Threads

variable {T K S A D I : Type} [DecidableEq K]

abbrev Config (T K S A D : Type) := Framework.Threads.Config (Sync T K S D) (List (SyncStmt K S A)) T

/-- Whether a thread is between the return of the `P` of the lock `l` and its `V`,
and whether `lockHolder` is set there. -/
def status (l : K) : List (SyncStmt K S A) → Option Bool
  | [] => none
  | .acquireP k :: c => if k = l then none else status l c
  | .acquireSet k :: c | .releaseV k :: c => if k = l then some false else status l c
  | .releaseCheck k :: c => if k = l then some true else status l c
  | .p _ :: c | .v _ :: c | .act _ :: c => status l c

/-- A statement fits what comes behind it. -/
def Fits : SyncStmt K S A → List (SyncStmt K S A) → Prop
  | .acquireP l, c | .releaseCheck l, c => status l c = some false
  | .acquireSet l, c => status l c = some true
  | .releaseV l, c => status l c = none
  | _, _ => True

/-- Each statement fits. -/
def Wf : List (SyncStmt K S A) → Prop
  | [] => True
  | s :: c => Fits s c ∧ Wf c

/-- The semaphore whose `P` comes next: a lock's own, or another. -/
def place : List (SyncStmt K S A) → Option (K ⊕ S)
  | .acquireP l :: _ => some (.inl l)
  | .p s :: _ => some (.inr s)
  | _ => none

/-- All semaphores. -/
def semOf (m : Sync T K S D) : K ⊕ S → Semaphore T
  | .inl l => (m.lock l).semaphore
  | .inr s => m.sem s

/-- The queue holds the threads that wait, once each. -/
structure Queued (x : Semaphore T) (waits : T → Prop) : Prop where
  mem : ∀ t, t ∈ x.queue ↔ waits t
  nodup : x.queue.Nodup

/-- As many threads as the value says are awake at the `P`. -/
def Awake (n : Int) (asleep : T → Bool) (at_ : T → Prop) : Prop :=
  ∃ F : Finset T, n ≤ F.card ∧ ∀ t ∈ F, asleep t = false ∧ at_ t

/-- Each queue holds the threads asleep in its `P`, none sleeps elsewhere, and
while threads are queued each unit of the value has a thread awake to take it. -/
structure Waiting (m : Sync T K S D) (loc : T → List (SyncStmt K S A)) (asleep : T → Bool) : Prop where
  queued : ∀ q, Queued (semOf m q) fun t => asleep t = true ∧ place (loc t) = some q
  asleepAt : ∀ t, asleep t = true → place (loc t) ≠ none
  awake : ∀ q, (semOf m q).queue ≠ [] → Awake (semOf m q).value asleep fun t => place (loc t) = some q

/-- What holds of the threads, the locks and the semaphores. -/
structure Inv (c : Config T K S A D) : Prop where
  wf : ∀ t, Wf (c.loc t)
  held : ∀ l, (c.shared.lock l).Held fun t => status l (c.loc t)
  waiting : Waiting c.shared c.loc c.asleep
  nonneg : ∀ s, 0 ≤ (c.shared.sem s).value

/-- The values of the semaphores. -/
def values (m : Sync T K S D) (s : S) : Int := (m.sem s).value

/-- A statement on a lock. -/
def IsLock : SyncStmt K S A → Prop
  | .acquireP _ | .acquireSet _ | .releaseCheck _ | .releaseV _ => True
  | _ => False

/-- What a step of `t` does to the data, the values of the semaphores and the
code that is left. -/
inductive Did [DecidableEq S] (act : T → D → A → Except Abort D) (t : T) :
    D → (S → Int) → List (SyncStmt K S A) → D → (S → Int) → List (SyncStmt K S A) → Prop
  | stay (d : D) (v : S → Int) (r : List (SyncStmt K S A)) : Did act t d v r d v r
  | lock (d : D) (v : S → Int) {s : SyncStmt K S A} (r : List (SyncStmt K S A)) (h : IsLock s) :
    Did act t d v (s :: r) d v r
  | p (d : D) {v : S → Int} {s : S} (r : List (SyncStmt K S A)) (h : v s ≠ 0) :
    Did act t d v (.p s :: r) d (Function.update v s (v s - 1)) r
  | v (d : D) (v : S → Int) (s : S) (r : List (SyncStmt K S A)) :
    Did act t d v (.v s :: r) d (Function.update v s (v s + 1)) r
  | act {d d' : D} (v : S → Int) {a : A} (r : List (SyncStmt K S A)) (h : act t d a = .ok d') :
    Did act t d v (.act a :: r) d' v r

section
variable {x x' : Semaphore T} {w w' : T → Prop} {t : T}

theorem Queued.congr (h : Queued x w) (hq : x'.queue = x.queue) (hw : ∀ u, w' u ↔ w u) :
    Queued x' w' :=
  ⟨fun u => by rw [hq, h.mem, hw], hq ▸ h.nodup⟩

/-- A thread is queued. -/
theorem Queued.append (h : Queued x w) (ht : t ∉ x.queue) (hq : x'.queue = x.queue ++ [t])
    (hw : ∀ u, w' u ↔ w u ∨ u = t) : Queued x' w' := by
  refine ⟨fun u => ?_, ?_⟩
  · rw [hq, List.mem_append, List.mem_singleton, h.mem, hw]
  · rw [hq, ← List.concat_eq_append]
    exact h.nodup.concat ht

/-- `V` takes the first one. -/
theorem Queued.v (h : Queued x w) (hw : ∀ u, w' u ↔ w u ∧ x.v.2 ≠ some u) : Queued x.v.1 w' := by
  have hm := h.mem
  have hn := h.nodup
  rw [Semaphore.v_eq] at hw ⊢
  cases hq : x.queue with
  | nil =>
    simp only [hq, List.head?_nil] at hw hm
    exact ⟨fun u => by rw [hw, ← hm]; simp, .nil⟩
  | cons y q =>
    rw [hq] at hm hn hw
    obtain ⟨hy, hn⟩ := List.nodup_cons.mp hn
    refine ⟨fun u => ?_, hn⟩
    rw [hw, ← hm]
    simp only [List.tail_cons, List.mem_cons, List.head?_cons, ne_eq, Option.some.injEq]
    constructor
    · intro hu
      exact ⟨.inr hu, fun e => hy (e ▸ hu)⟩
    · rintro ⟨rfl | hu, hne⟩
      · exact absurd rfl hne
      · exact hu

end

/-! ## Code -/

section
variable {r c : List (SyncStmt K S A)}

/-- Code that holds no lock. -/
structure Balanced (r : List (SyncStmt K S A)) : Prop where
  wf : Wf r
  free : ∀ l, status l r = none

theorem status_append {l : K} (hc : status l c = none) : status l (r ++ c) = status l r := by
  induction r with
  | nil => exact hc
  | cons s r ih =>
    rw [List.cons_append]
    cases s <;> simp only [status, ih]

theorem fits_append {s : SyncStmt K S A} (hc : ∀ l, status l c = none) (h : Fits s r) :
    Fits s (r ++ c) := by
  cases s <;> simp only [Fits, status_append (hc _)] at h ⊢ <;> exact h

theorem wf_append (hr : Wf r) (hc : Balanced c) : Wf (r ++ c) := by
  induction r with
  | nil => exact hc.wf
  | cons s r ih => exact ⟨fits_append hc.free hr.1, ih hr.2⟩

theorem Balanced.nil : Balanced ([] : List (SyncStmt K S A)) := ⟨trivial, fun _ => rfl⟩

theorem Balanced.append (hr : Balanced r) (hc : Balanced c) : Balanced (r ++ c) :=
  ⟨wf_append hr.wf hc, fun l => (status_append (hc.free l)).trans (hr.free l)⟩

end

/-! ## Who waits -/

section
variable {m m' : Sync T K S D} {loc : T → List (SyncStmt K S A)} {asleep : T → Bool} {t : T}
  {r : List (SyncStmt K S A)} {q : K ⊕ S}

omit [DecidableEq K] in
theorem Waiting.not_queued (h : Waiting m loc asleep) (ht : asleep t = false) :
    t ∉ (semOf m q).queue := by
  rw [(h.queued q).mem]
  simp [ht]

omit [DecidableEq K] in
/-- The thread that a `V` wakes sleeps in this semaphore's `P`. -/
theorem Waiting.woken (h : Waiting m loc asleep) {u : T} (hu : (semOf m q).v.2 = some u) :
    asleep u = true ∧ place (loc u) = some q := by
  rw [Semaphore.v_eq] at hu
  exact ((h.queued q).mem u).mp (List.mem_of_mem_head? hu)

omit [DecidableEq K] in
/-- When no thread can run, a semaphore that a thread sleeps at is used up. -/
theorem Waiting.stuck (h : Waiting m loc asleep) (hs : ∀ u, loc u = [] ∨ asleep u = true)
    (ht : asleep t = true) (hp : place (loc t) = some q) : (semOf m q).value ≤ 0 := by
  have hne : (semOf m q).queue ≠ [] :=
    List.ne_nil_of_mem (((h.queued q).mem t).mpr ⟨ht, hp⟩)
  obtain ⟨F, hc, hF⟩ := h.awake q hne
  have he : F = ∅ := by
    refine Finset.eq_empty_of_forall_notMem fun u hu => ?_
    obtain ⟨ha, hp⟩ := hF u hu
    rcases hs u with hn | hs
    · simp [hn, place] at hp
    · simp [ha] at hs
  simpa [he] using hc

variable [DecidableEq T]

omit [DecidableEq K] in
theorem queued_move (h : Waiting m loc asleep) (ht : asleep t = false) (q : K ⊕ S) {x : Semaphore T}
    (hq : x.queue = (semOf m q).queue) :
    Queued x fun u => asleep u = true ∧ place (Function.update loc t r u) = some q := by
  refine (h.queued q).congr hq fun u => ?_
  rw [Function.update_apply]
  split
  · rename_i e
    simp [e, ht]
  · exact Iff.rfl

omit [DecidableEq K] in
theorem asleepAt_move (h : Waiting m loc asleep) (ht : asleep t = false) (u : T)
    (hu : asleep u = true) : place (Function.update loc t r u) ≠ none := by
  have hne : u ≠ t := by
    rintro rfl
    exact absurd hu (by simp [ht])
  rw [Function.update_of_ne hne]
  exact h.asleepAt u hu

omit [DecidableEq K] in
/-- A thread leaves, at most from its place in the set. -/
theorem Awake.move {n k : Int} (h : Awake n asleep fun u => place (loc u) = some q)
    (hk : k ≤ n ∧ place (loc t) ≠ some q ∨ k + 1 ≤ n) :
    Awake k asleep fun u => place (Function.update loc t r u) = some q := by
  obtain ⟨F, hc, hF⟩ := h
  refine ⟨F.erase t, ?_, fun u hu => ?_⟩
  · rcases hk with ⟨hk, hp⟩ | hk
    · rw [Finset.erase_eq_of_notMem fun ht => hp (hF t ht).2]
      omega
    · have := F.pred_card_le_card_erase (a := t)
      omega
  · obtain ⟨hu, hF'⟩ := Finset.mem_erase.mp hu
    refine ⟨(hF u hF').1, ?_⟩
    simp only [Function.update_of_ne hu]
    exact (hF u hF').2

omit [DecidableEq K] in
/-- A thread that is awake and not at a `P` moves on. -/
theorem Waiting.move (h : Waiting m loc asleep) (ht : asleep t = false) (hp : place (loc t) = none)
    (hq : ∀ q, semOf m' q = semOf m q) : Waiting m' (Function.update loc t r) asleep := by
  refine ⟨fun q => queued_move h ht q (by rw [hq]), asleepAt_move h ht, fun q hn => ?_⟩
  rw [hq] at hn ⊢
  exact (h.awake q hn).move (.inl ⟨le_rfl, by simp [hp]⟩)

omit [DecidableEq K] in
/-- A thread takes a unit of the semaphore whose `P` it is at. -/
theorem Waiting.take (h : Waiting m loc asleep) (ht : asleep t = false)
    (hq : semOf m' q = { semOf m q with value := (semOf m q).value - 1 })
    (hp : place (loc t) = some q) (ho : ∀ q' ≠ q, semOf m' q' = semOf m q') :
    Waiting m' (Function.update loc t r) asleep := by
  refine ⟨fun q' => queued_move h ht q' ?_, asleepAt_move h ht, fun q' hn => ?_⟩
  · by_cases e : q' = q
    · rw [e, hq]
    · rw [ho q' e]
  · by_cases e : q' = q
    · subst e
      rw [hq] at hn ⊢
      exact (h.awake q' hn).move (.inr (by simp only; omega))
    · rw [ho q' e] at hn ⊢
      exact (h.awake q' hn).move (.inl ⟨le_rfl, by simp [hp, Ne.symm e]⟩)

omit [DecidableEq K] in
/-- A thread goes to sleep in the `P` it is at. -/
theorem Waiting.sleep (h : Waiting m loc asleep) (ht : asleep t = false)
    (hp : place (loc t) = some q) (hv : (semOf m q).value = 0)
    (hq : semOf m' q = { semOf m q with queue := (semOf m q).queue ++ [t] })
    (ho : ∀ q' ≠ q, semOf m' q' = semOf m q') :
    Waiting m' loc (Function.update asleep t true) := by
  have hw : ∀ q' u, (Function.update asleep t true u = true ∧ place (loc u) = some q') ↔
      (asleep u = true ∧ place (loc u) = some q') ∨ u = t ∧ place (loc t) = some q' := by
    intro q' u
    rw [Function.update_apply]
    split
    · rename_i e
      simp [e, ht]
    · rename_i e
      simp [e]
  refine ⟨fun q' => ?_, fun u hu => ?_, fun q' hn => ?_⟩
  · by_cases e : q' = q
    · subst e
      refine (h.queued q').append (h.not_queued ht) (by rw [hq]) fun u => ?_
      rw [hw]
      simp [hp]
    · refine (h.queued q').congr (by rw [ho q' e]) fun u => ?_
      rw [hw, hp]
      simp [Ne.symm e]
  · by_cases e : u = t
    · rw [e, hp]
      simp
    · exact h.asleepAt u (by rwa [Function.update_of_ne e] at hu)
  · by_cases e : q' = q
    · subst e
      rw [hq]
      exact ⟨∅, by simp [hv], by simp⟩
    · rw [ho q' e] at hn ⊢
      obtain ⟨F, hc, hF⟩ := h.awake q' hn
      refine ⟨F, hc, fun u hu => ⟨?_, (hF u hu).2⟩⟩
      have hne : u ≠ t := by
        rintro rfl
        exact e (Option.some.inj ((hF u hu).2.symm.trans hp))
      rw [Function.update_of_ne hne]
      exact (hF u hu).1

/-- Who sleeps after a `V` wakes `o`. -/
def wake (o : Option T) (asleep : T → Bool) : T → Bool :=
  match o with
  | none => asleep
  | some u => Function.update asleep u false

theorem wake_iff {o : Option T} {u : T} :
    wake o asleep u = true ↔ asleep u = true ∧ o ≠ some u := by
  cases o with
  | none => simp [wake]
  | some w =>
    simp only [wake, Function.update_apply]
    split
    · rename_i e
      simp [e]
    · rename_i e
      simp [Ne.symm e]

theorem wake_awake {o : Option T} (ht : asleep t = false) : wake o asleep t = false := by
  rw [← Bool.not_eq_true, wake_iff]
  simp [ht]

/-- The thread woken can take the unit that `V` adds. -/
theorem Awake.wake {n : Int} {p : T → Prop} {u : T} (h : Awake n asleep p)
    (hu : asleep u = true) (hp : p u) : Awake (n + 1) (Sync.wake (some u) asleep) p := by
  obtain ⟨F, hc, hF⟩ := h
  have hn : u ∉ F := fun hm => by simp [(hF u hm).1] at hu
  refine ⟨insert u F, ?_, fun w hw => ?_⟩
  · rw [Finset.card_insert_of_notMem hn]
    push_cast
    omega
  · rcases Finset.mem_insert.mp hw with rfl | hw
    · exact ⟨by simp [Sync.wake], hp⟩
    · exact ⟨wake_awake (hF w hw).1, (hF w hw).2⟩

omit [DecidableEq K] in
/-- A `V` wakes the first thread of its queue. -/
theorem Waiting.wake (h : Waiting m loc asleep) (hq : semOf m' q = (semOf m q).v.1)
    (ho : ∀ q' ≠ q, semOf m' q' = semOf m q') :
    Waiting m' loc (Sync.wake (semOf m q).v.2 asleep) := by
  refine ⟨fun q' => ?_, fun u hu => h.asleepAt u (wake_iff.mp hu).1, fun q' hn => ?_⟩
  · by_cases e : q' = q
    · subst e
      rw [hq]
      refine (h.queued q').v fun u => ?_
      rw [wake_iff]
      exact and_right_comm
    · refine (h.queued q').congr (by rw [ho q' e]) fun u => ?_
      rw [wake_iff]
      constructor
      · rintro ⟨⟨hu, -⟩, hp⟩
        exact ⟨hu, hp⟩
      · rintro ⟨hu, hp⟩
        refine ⟨⟨hu, fun hw => e ?_⟩, hp⟩
        exact Option.some.inj (hp.symm.trans (h.woken hw).2)
  · by_cases e : q' = q
    · subst e
      rw [hq, Semaphore.v_eq] at hn ⊢
      -- a queue that is still not empty had a first thread
      obtain ⟨u, hu⟩ : ∃ u, (semOf m q').queue.head? = some u := by
        cases hl : (semOf m q').queue with
        | nil => simp [hl] at hn
        | cons u l => exact ⟨u, rfl⟩
      have hw := h.woken (q := q') (u := u) (by rw [Semaphore.v_eq]; exact hu)
      have hne : (semOf m q').queue ≠ [] := fun e => by simp [e] at hu
      simp only [hu]
      exact (h.awake q' hne).wake hw.1 hw.2
    · rw [ho q' e] at hn ⊢
      obtain ⟨F, hc, hF⟩ := h.awake q' hn
      exact ⟨F, hc, fun u hu => ⟨wake_awake (hF u hu).1, (hF u hu).2⟩⟩

end

/-! ## Steps -/

section
variable {c : Config T K S A D} {t : T} {s : SyncStmt K S A} {r : List (SyncStmt K S A)} {l : K}

theorem Inv.wf_tail (h : Inv c) (hs : c.loc t = s :: r) : Fits s r ∧ Wf r := by
  have := h.wf t
  rwa [hs] at this

/-- With one lock, a thread that may sleep and is not at a semaphore does not hold it. -/
theorem status_of_place {r : List (SyncStmt Unit S A)} (hp : place r ≠ none)
    (hs : ∀ k, place r ≠ some (.inr k)) : status () r = none := by
  cases r with
  | nil => rfl
  | cons s r =>
    cases s with
    | acquireP l => rfl
    | p k => exact absurd rfl (hs k)
    | _ => exact absurd rfl hp

/-- When no thread can run, and no thread that may sleep holds the lock, nobody waits
for it. -/
theorem Inv.stuck_lock (h : Inv c) (hs : ∀ u, c.loc u = [] ∨ c.asleep u = true)
    (hf : ∀ u, place (c.loc u) ≠ none → status l (c.loc u) = none) (t : T) :
    place (c.loc t) ≠ some (.inl l) := by
  intro hp
  have ht : c.asleep t = true := (hs t).resolve_left fun e => by simp [e, place] at hp
  have hv := h.waiting.stuck hs ht hp
  have hfree := ((h.held l).free fun u => ?_).1
  · simp only [semOf, hfree] at hv
    omega
  · rcases hs u with hu | hu
    · rw [hu]
      rfl
    · exact hf u (h.waiting.asleepAt u hu)

/-- The data are not read. -/
theorem Inv.setData (h : Inv c) (d : D) : Inv { c with shared := { c.shared with data := d } } :=
  ⟨h.wf, h.held, ⟨h.waiting.queued, h.waiting.asleepAt, h.waiting.awake⟩, h.nonneg⟩

theorem semOf_setLock_self (m : Sync T K S D) (l : K) (x : Lock T) :
    semOf (m.setLock l x) (.inl l) = x.semaphore := by
  simp [semOf, setLock]

theorem semOf_setLock_of_ne (m : Sync T K S D) (x : Lock T) {q : K ⊕ S} (h : q ≠ .inl l) :
    semOf (m.setLock l x) q = semOf m q := by
  cases q with
  | inl k =>
    have hk : k ≠ l := fun e => h (congrArg _ e)
    simp [semOf, setLock, hk]
  | inr s => rfl

theorem semOf_setLock {m : Sync T K S D} {x : Lock T} (hx : x.semaphore = (m.lock l).semaphore)
    (q : K ⊕ S) : semOf (m.setLock l x) q = semOf m q := by
  by_cases e : q = .inl l
  · subst e
    rw [semOf_setLock_self, hx]
    rfl
  · exact semOf_setLock_of_ne m x e

variable [DecidableEq T]

theorem apply_wake (o : Option T) (asleep : T → Bool) :
    (Effect.wake o).apply t asleep = Sync.wake o asleep := by
  cases o <;> rfl

theorem status_update (l : K) (loc : T → List (SyncStmt K S A)) :
    (fun u => status l (Function.update loc t r u)) =
      Function.update (fun u => status l (loc u)) t (status l r) := by
  funext u
  exact Function.apply_update (fun _ => status l) loc t r u

/-- A lock that the statement does not touch. -/
theorem held_other {x : Lock T} {loc : T → List (SyncStmt K S A)}
    (h : x.Held fun u => status l (loc u)) (hr : status l r = status l (loc t)) :
    x.Held fun u => status l (Function.update loc t r u) := by
  rw [status_update, hr, Function.update_eq_self]
  exact h

/-- A statement on the lock `l`. -/
theorem Inv.held_setLock (h : Inv c) {x : Lock T}
    (hx : x.Held (Function.update (fun u => status l (c.loc u)) t (status l r)))
    (ho : ∀ k ≠ l, status k r = status k (c.loc t)) (k : K) :
    ((c.shared.setLock l x).lock k).Held fun u => status k (Function.update c.loc t r u) := by
  show (Function.update c.shared.lock l x k).Held _
  by_cases e : k = l
  · subst e
    rw [Function.update_self, status_update]
    exact hx
  · rw [Function.update_of_ne e]
    exact held_other (h.held k) (ho k e)

theorem wf_update {loc : T → List (SyncStmt K S A)} (h : ∀ u, Wf (loc u)) (hr : Wf r) (u : T) :
    Wf (Function.update loc t r u) := by
  rw [Function.update_apply]
  split
  · exact hr
  · exact h u

/-- A statement on a lock that does not change its semaphore. -/
theorem Inv.moveLock (h : Inv c) (ht : c.asleep t = false) (hr : Wf r) (hp : place (c.loc t) = none)
    {x : Lock T} (hx : x.Held (Function.update (fun u => status l (c.loc u)) t (status l r)))
    (ho : ∀ k ≠ l, status k r = status k (c.loc t))
    (hq : x.semaphore = (c.shared.lock l).semaphore) :
    Inv ⟨c.shared.setLock l x, Function.update c.loc t r, c.asleep⟩ where
  wf := wf_update h.wf hr
  held := h.held_setLock hx ho
  waiting := h.waiting.move ht hp (semOf_setLock hq)
  nonneg := h.nonneg

/-- A thread that is awake goes past a statement that is not on a lock and not a
`P`. -/
theorem Inv.move (h : Inv c) (ht : c.asleep t = false) (hr : Wf r) (hp : place (c.loc t) = none)
    (hl : ∀ l, status l r = status l (c.loc t)) :
    Inv ⟨c.shared, Function.update c.loc t r, c.asleep⟩ where
  wf := wf_update h.wf hr
  held l := held_other (h.held l) (hl l)
  waiting := h.waiting.move ht hp fun _ => rfl
  nonneg := h.nonneg

/-- A lock's `P`. -/
theorem Inv.acquireP (h : Inv c) (ht : c.asleep t = false) (hs : c.loc t = .acquireP l :: r)
    {x : Lock T} {b : Bool} (hx : (c.shared.lock l).acquireP t = .ok (x, b)) :
    Inv ⟨c.shared.setLock l x, Function.update c.loc t (if b then r else .acquireP l :: r),
      (if b then Effect.go else .sleep).apply t c.asleep⟩ := by
  obtain ⟨hf, hr⟩ := h.wf_tail hs
  have hp : place (c.loc t) = some (.inl l) := by rw [hs]; rfl
  have ho : ∀ q ≠ Sum.inl l, semOf (c.shared.setLock l x) q = semOf c.shared q :=
    fun q hq => semOf_setLock_of_ne _ _ hq
  rcases Lock.acquireP_cases hx with ⟨rfl, -, he⟩ | ⟨rfl, hv, -, he⟩
  · refine ⟨wf_update h.wf hr, h.held_setLock ?_ ?_, h.waiting.take ht ?_ hp ho, h.nonneg⟩
    · rw [if_pos rfl, show status l r = some false from hf]
      exact (h.held l).acquire hx
    · intro k hk
      simp [hs, status, Ne.symm hk]
    · rw [semOf_setLock_self, he]
      rfl
  · simp only [Bool.false_eq_true, if_false, ← hs, Function.update_eq_self]
    refine ⟨h.wf, fun k => ?_, h.waiting.sleep ht hp hv ?_ ho, h.nonneg⟩
    · show (Function.update c.shared.lock l x k).Held _
      by_cases e : k = l
      · subst e
        rw [Function.update_self]
        exact (h.held k).wait hx
      · rw [Function.update_of_ne e]
        exact h.held k
    · rw [semOf_setLock_self, he]
      rfl

/-- A lock's `V`. -/
theorem Inv.releaseV (h : Inv c) (ht : c.asleep t = false) (hs : c.loc t = .releaseV l :: r) :
    Inv ⟨c.shared.setLock l (c.shared.lock l).releaseV.1, Function.update c.loc t r,
      Sync.wake (c.shared.lock l).releaseV.2 c.asleep⟩ := by
  obtain ⟨hf, hr⟩ := h.wf_tail hs
  refine ⟨wf_update h.wf hr, h.held_setLock ?_ ?_, ?_, h.nonneg⟩
  · rw [show status l r = none from hf]
    exact (h.held l).post (by simp [hs, status])
  · intro k hk
    simp [hs, status, Ne.symm hk]
  · refine (h.waiting.wake (q := .inl l) (semOf_setLock_self _ l _) fun q hq => ?_).move (wake_awake ht)
      (by rw [hs]; rfl) fun _ => rfl
    rw [semOf_setLock_of_ne _ _ hq]

variable [DecidableEq S]

omit [DecidableEq K] [DecidableEq T] in
theorem semOf_setSem_self (m : Sync T K S D) (k : S) (x : Semaphore T) :
    semOf (m.setSem k x) (.inr k) = x := by
  simp [semOf, setSem]

omit [DecidableEq K] [DecidableEq T] in
theorem semOf_setSem_of_ne (m : Sync T K S D) {k : S} (x : Semaphore T) {q : K ⊕ S}
    (h : q ≠ .inr k) : semOf (m.setSem k x) q = semOf m q := by
  cases q with
  | inl l => rfl
  | inr j =>
    have hj : j ≠ k := fun e => h (congrArg _ e)
    simp [semOf, setSem, hj]

omit [DecidableEq K] [DecidableEq T] in
theorem values_setSem (m : Sync T K S D) (k : S) (x : Semaphore T) :
    values (m.setSem k x) = Function.update (values m) k x.value := by
  funext j
  exact Function.apply_update (fun _ y => y.value) m.sem k x j

omit [DecidableEq K] [DecidableEq T] in
theorem nonneg_setSem {m : Sync T K S D} (h : ∀ s, 0 ≤ (m.sem s).value) {k : S} {x : Semaphore T}
    (hx : 0 ≤ x.value) (s : S) : 0 ≤ ((m.setSem k x).sem s).value := by
  show 0 ≤ (Function.update m.sem k x s).value
  rw [Function.update_apply]
  split
  · exact hx
  · exact h s

/-- A `V` of the semaphore `k`. -/
theorem Inv.post (h : Inv c) (k : S) :
    Inv ⟨c.shared.setSem k (c.shared.sem k).v.1, c.loc,
      Sync.wake (c.shared.sem k).v.2 c.asleep⟩ where
  wf := h.wf
  held := h.held
  waiting := h.waiting.wake (q := .inr k) (semOf_setSem_self _ k _)
    fun q hq => by rw [semOf_setSem_of_ne _ _ hq]
  nonneg := nonneg_setSem h.nonneg (by
    rw [Semaphore.v_eq]
    exact Int.add_nonneg (h.nonneg k) (by decide))

/-- A semaphore's `P`. -/
theorem Inv.p (h : Inv c) (ht : c.asleep t = false) {k : S} (hs : c.loc t = .p k :: r)
    {x : Semaphore T} {b : Bool} (hx : (c.shared.sem k).p t = .ok (x, b)) :
    Inv ⟨c.shared.setSem k x, Function.update c.loc t (if b then r else .p k :: r),
      (if b then Effect.go else .sleep).apply t c.asleep⟩ := by
  have hp : place (c.loc t) = some (.inr k) := by rw [hs]; rfl
  have ho : ∀ q ≠ Sum.inr k, semOf (c.shared.setSem k x) q = semOf c.shared q :=
    fun q hq => semOf_setSem_of_ne _ _ hq
  rcases Semaphore.p_cases hx with ⟨rfl, hv, he⟩ | ⟨rfl, hv, -, he⟩
  · have hn := h.nonneg k
    refine ⟨wf_update h.wf (h.wf_tail hs).2, fun l => held_other (h.held l) (by simp [hs, status]),
      h.waiting.take ht ?_ hp ho, nonneg_setSem h.nonneg ?_⟩
    · rw [semOf_setSem_self, he]
      rfl
    · rw [he]
      simp only
      omega
  · simp only [Bool.false_eq_true, if_false, ← hs, Function.update_eq_self]
    refine ⟨h.wf, h.held, h.waiting.sleep ht hp hv ?_ ho, nonneg_setSem h.nonneg ?_⟩
    · rw [semOf_setSem_self, he]
      rfl
    · rw [he]
      exact h.nonneg k

variable {act : T → D → A → Except Abort D} {e : Effect T} {m : Sync T K S D}

omit [DecidableEq K] in
/-- What one statement does to the data, the values and the code. -/
theorem exec_did [DecidableEq K] {m' : Sync T K S D} {r' : List (SyncStmt K S A)}
    (he : exec act t m r = .ok (m', r', e)) : Did act t m.data (values m) r m'.data (values m') r' := by
  cases r with
  | nil =>
    cases he
    exact .stay _ _ _
  | cons s r =>
    cases s with
    | acquireP l =>
      obtain ⟨⟨x, b⟩, -, he⟩ := bind_eq_ok.mp he
      cases he
      cases b with
      | true => exact .lock _ _ r trivial
      | false => exact .stay _ _ _
    | acquireSet l =>
      cases he
      exact .lock _ _ _ trivial
    | releaseCheck l =>
      obtain ⟨x, -, he⟩ := bind_eq_ok.mp he
      cases he
      exact .lock _ _ _ trivial
    | releaseV l =>
      cases he
      exact .lock _ _ _ trivial
    | p k =>
      obtain ⟨⟨x, b⟩, hx, he⟩ := bind_eq_ok.mp he
      cases he
      rcases Semaphore.p_cases hx with ⟨rfl, hv, rfl⟩ | ⟨rfl, -, -, rfl⟩
      · rw [values_setSem]
        exact .p _ _ hv
      · rw [values_setSem, show (m.sem k).value = values m k from rfl, Function.update_eq_self]
        exact .stay _ _ _
    | v k =>
      cases he
      rw [values_setSem, Semaphore.v_eq]
      exact .v _ _ _ _
    | act a =>
      obtain ⟨d, hd, he⟩ := bind_eq_ok.mp he
      cases he
      exact .act _ _ hd

/-- What one statement of a thread that is awake keeps. -/
theorem Inv.exec (h : Inv c) (ht : c.asleep t = false)
    (he : Sync.exec act t c.shared (c.loc t) = .ok (m, r, e)) :
    Inv ⟨m, Function.update c.loc t r, e.apply t c.asleep⟩ := by
  cases hs : c.loc t with
  | nil =>
    rw [hs] at he
    cases he
    rw [← hs, Function.update_eq_self]
    exact h
  | cons s r₀ =>
    rw [hs] at he
    cases s with
    | acquireP l =>
      obtain ⟨⟨x, b⟩, hx, he⟩ := bind_eq_ok.mp he
      cases he
      exact h.acquireP ht hs hx
    | acquireSet l =>
      cases he
      obtain ⟨hf, hr⟩ := h.wf_tail hs
      refine h.moveLock ht hr (by rw [hs]; rfl) ?_ ?_ rfl
      · rw [show status l r = some true from hf]
        exact (h.held l).set (by simp [hs, status])
      · intro k hk
        simp [hs, status, Ne.symm hk]
    | releaseCheck l =>
      obtain ⟨hf, hr⟩ := h.wf_tail hs
      obtain ⟨hx, hh⟩ := (h.held l).check (t := t) (by simp [hs, status])
      simp only [Sync.exec, hx, ok_bind] at he
      cases he
      refine h.moveLock ht hr (by rw [hs]; rfl) ?_ ?_ rfl
      · rw [show status l r = some false from hf]
        exact hh
      · intro k hk
        simp [hs, status, Ne.symm hk]
    | releaseV l =>
      cases he
      rw [apply_wake]
      exact h.releaseV ht hs
    | p k =>
      obtain ⟨⟨x, b⟩, hx, he⟩ := bind_eq_ok.mp he
      cases he
      exact h.p ht hs hx
    | v k =>
      cases he
      rw [apply_wake]
      exact (h.post k).move (wake_awake ht) (h.wf_tail hs).2 (by rw [hs]; rfl) fun l => by
        simp [hs, status]
    | act a =>
      obtain ⟨d, -, he⟩ := bind_eq_ok.mp he
      cases he
      exact (h.setData d).move ht (h.wf_tail hs).2 (by rw [hs]; rfl) fun l => by simp [hs, status]

/-- Only an action aborts. -/
theorem Inv.exec_error (h : Inv c) (ht : c.asleep t = false) {e : Abort}
    (he : Sync.exec act t c.shared (c.loc t) = .error e) :
    ∃ a r, c.loc t = .act a :: r ∧ act t c.shared.data a = .error e := by
  cases hs : c.loc t with
  | nil =>
    rw [hs] at he
    cases he
  | cons s r =>
    rw [hs] at he
    cases s with
    | acquireP l =>
      obtain ⟨x, hx⟩ := Lock.acquireP_ok (h.waiting.not_queued (q := .inl l) ht)
      simp only [Sync.exec, hx, ok_bind] at he
      cases he
    | releaseCheck l =>
      have hx := ((h.held l).check (t := t) (by simp [hs, status])).1
      simp only [Sync.exec, hx, ok_bind] at he
      cases he
    | p k =>
      obtain ⟨x, hx⟩ : ∃ x, (c.shared.sem k).p t = .ok x :=
        Semaphore.p_ok (h.waiting.not_queued (q := .inr k) ht)
      simp only [Sync.exec, hx, ok_bind] at he
      cases he
    | act a =>
      refine ⟨a, r, rfl, ?_⟩
      cases hd : act t c.shared.data a with
      | error e' =>
        simp only [Sync.exec, hd, error_bind] at he
        rw [Except.error.inj he]
      | ok d =>
        simp only [Sync.exec, hd, ok_bind] at he
        cases he
    | acquireSet l => cases he
    | releaseV l => cases he
    | v k => cases he

/-! ## Runs -/

variable {interrupt : I → D → Except Abort (Option (D × Option S))} {c' : Config T K S A D}

/-- What a step of a thread does. -/
theorem Inv.next_thread (h : Inv c) (hn : next act interrupt c (.inl t) = .ok c') :
    Inv c' ∧ ∃ r, c'.loc = Function.update c.loc t r ∧
      Did act t c.shared.data (values c.shared) (c.loc t) c'.shared.data (values c'.shared) r := by
  rcases Framework.Threads.next_cases hn with ⟨-, rfl⟩ | ⟨ht, m, r, e, he, rfl⟩
  · exact ⟨h, c'.loc t, (Function.update_eq_self t c'.loc).symm, .stay _ _ _⟩
  · exact ⟨h.exec ht he, r, rfl, exec_did he⟩

/-- What an interrupt does: its handler changes the data and may call `V`. -/
inductive Handled (interrupt : I → D → Except Abort (Option (D × Option S))) (i : I) (d : D)
    (v : S → Int) : D → (S → Int) → Prop
  | none (h : interrupt i d = .ok none) : Handled interrupt i d v d v
  | quiet {d' : D} (h : interrupt i d = .ok (some (d', .none))) : Handled interrupt i d v d' v
  | post {d' : D} {k : S} (h : interrupt i d = .ok (some (d', some k))) :
    Handled interrupt i d v d' (Function.update v k (v k + 1))

theorem Inv.next_interrupt (h : Inv c) {i : I} (hn : next act interrupt c (.inr i) = .ok c') :
    Inv c' ∧ c'.loc = c.loc ∧ Handled interrupt i c.shared.data (values c.shared) c'.shared.data
      (values c'.shared) := by
  obtain ⟨o, ho, hn⟩ := bind_eq_ok.mp hn
  rcases o with - | ⟨d, - | k⟩
  · cases hn
    exact ⟨h, rfl, .none ho⟩
  · cases hn
    exact ⟨h.setData d, rfl, .quiet ho⟩
  · cases hn
    refine ⟨(h.setData d).post k, rfl, ?_⟩
    show Handled _ _ _ _ _ (values (setSem _ k _))
    rw [values_setSem, Semaphore.v_eq]
    exact .post ho

/-- A step aborts only in an action or a handler. -/
theorem Inv.next_error (h : Inv c) {j : T ⊕ I} {e : Abort} (hn : next act interrupt c j = .error e) :
    (∃ t a r, j = .inl t ∧ c.loc t = .act a :: r ∧ act t c.shared.data a = .error e) ∨
      ∃ i, j = .inr i ∧ interrupt i c.shared.data = .error e := by
  cases j with
  | inl t =>
    obtain ⟨ht, he⟩ := Framework.Threads.next_error hn
    obtain ⟨a, r, hs, ha⟩ := h.exec_error ht he
    exact .inl ⟨t, a, r, rfl, hs, ha⟩
  | inr i =>
    refine .inr ⟨i, rfl, ?_⟩
    cases ho : interrupt i c.shared.data with
    | error e' =>
      simp only [next, ho, error_bind] at hn
      rw [Except.error.inj hn]
    | ok o =>
      simp only [next, ho, ok_bind] at hn
      split at hn <;> cases hn

omit [DecidableEq T] [DecidableEq S] in
theorem inv_start {v : S → Int} {prog : T → List (SyncStmt K S A)} (d : D) (hv : ∀ k, 0 ≤ v k)
    (hp : ∀ t, Balanced (prog t)) : Inv (start v d prog) where
  wf t := (hp t).wf
  held l := by
    have hf : (fun t => status l (prog t)) = fun _ => none := funext fun t => (hp t).free l
    show Lock.Held Lock.new fun t => status l (prog t)
    rw [hf]
    exact Lock.held_new
  waiting := by
    have hq : ∀ q, (semOf (start v d prog).shared q).queue = [] := fun q => by cases q <;> rfl
    refine ⟨fun q => ⟨fun t => ?_, ?_⟩, fun t ht => ?_, fun q hn => absurd (hq q) hn⟩
    · rw [hq]
      simp [start]
    · rw [hq]
      exact .nil
    · cases ht
  nonneg := hv

end

end Nachos.Sync

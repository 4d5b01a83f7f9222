import Mathlib.Data.Finset.Card
import Nachos.Impl.Threads.ReaderWriter
import Nachos.Proof.Threads.Lock

/-!
# Readers and writers over all interleavings

`Safe` is what the first readers-writers protocol is for: no `ASSERT` fails,
a writer writes alone, and `readerCount` counts the readers.

It fails (`not_safe_two_readers`): the first reader in acquires `wLock` and
is recorded as its `lockHolder`, the last reader out releases it, and when
these are different threads the `ASSERT` of `Lock::Release` is false.

It holds in every run in which each group of readers is closed by the reader
that opened it (`reachable_safe_readers`). The invariant follows the group's opener:
from its `P` on `wLock` to its `V` the opener holds `wLock`, wherever in its
loop it is meanwhile.
-/

namespace Nachos.Proof.ReaderWriter

open Framework Framework.Threads Lock

variable {T : Type} [DecidableEq T]

/-- A writer between `Acquire` and `Release`. -/
def writing : RWLocal → Bool
  | .writer .write _ _ | .writer .releaseWrite _ _ => true
  | _ => false

/-- A reader past the locking part of its entry section and not yet at the
count of its exit section. -/
def reading : RWLocal → Bool
  | .reader pc _ _ => match pc with
    | .releaseMutex | .postMutex | .read | .acquireMutex' | .setMutex' | .decrement => true
    | _ => false
  | .writer .. => false

/-- A reader between its two updates of `readerCount`. -/
def counted : RWLocal → Bool
  | .reader pc _ _ => match pc with
    | .testFirst | .acquireWrite | .setWrite | .releaseMutex | .postMutex | .read | .acquireMutex'
    | .setMutex' | .decrement => true
    | _ => false
  | .writer .. => false

abbrev RWConfig (T : Type) := Threads.Config (RWShared T) RWLocal T

/-- The protocol's safety, in one state. -/
structure Safe (c : RWConfig T) : Prop where
  noAbort : ∀ t e, next rwExec c t ≠ .error e
  alone : ∀ w r, writing (c.loc w) = true → reading (c.loc r) = false
  oneWriter : ∀ w w', writing (c.loc w) = true → writing (c.loc w') = true → w = w'
  count : ∃ R : Finset T, (∀ t, t ∈ R ↔ counted (c.loc t) = true) ∧ c.shared.readerCount = R.card

/-- Two readers, `true` and `false`. -/
def twoReaders : RWConfig Bool := myReaderWriter (fun _ => true) (fun _ => 0) (fun _ => 10)

/-- `true` enters and opens the group, `false` enters, `true` leaves, and
`false` leaves last. -/
def crossing : List Bool :=
  List.replicate 9 true ++ List.replicate 7 false ++ List.replicate 7 true ++ List.replicate 5 false

theorem crossing_aborts : ∃ c, crossing.foldlM (next rwExec) twoReaders = .ok c ∧
    next rwExec c false = .error .assert :=
  ⟨_, rfl, rfl⟩

/-- The two readers cross: the last one's `Release` aborts. -/
theorem not_safe_two_readers :
    ¬ ∀ c, (System.ofFun twoReaders (next rwExec)).Reachable c → Safe c := by
  intro h
  obtain ⟨c, hr, ha⟩ := crossing_aborts
  exact (h c (System.reachable_foldlM (.init rfl) hr)).noAbort false .assert ha

/-! ## Runs in which the opener closes -/

/-- Who opened the current group of readers: the reader that counted from 0,
until a reader gives `wLock` back. -/
def opener (c : RWConfig T) (t : T) (o : Option T) : Option T :=
  if c.asleep t then o
  else match c.loc t with
    | .reader .increment _ _ => if c.shared.readerCount = 0 then some t else o
    | .reader .postWrite _ _ => none
    | _ => o

/-- The protocol, with the group's opener recorded beside it. -/
def nextOpener (c : RWConfig T × Option T) (t : T) : Except Abort (RWConfig T × Option T) :=
  (next rwExec c.1 t).map fun c' => (c', opener c.1 t c.2)

def system (isReader : T → Bool) (which stop : T → Int) : System (RWConfig T × Option T) T :=
  .ofFun (myReaderWriter isReader which stop, none) nextOpener

/-- The reader that counts down to 0 is the one that opened the group. -/
def OpenerCloses (c : RWConfig T × Option T) (t : T) : Prop :=
  match c.1.loc t with
  | .reader .decrement _ _ => c.1.shared.readerCount = 1 → c.2 = some t
  | _ => True

instance (c : RWConfig T × Option T) (t : T) : Decidable (OpenerCloses c t) :=
  match h : c.1.loc t with
  | .reader pc _ _ =>
    if hc : pc = .decrement ∧ c.1.shared.readerCount = 1 ∧ c.2 ≠ some t then
      .isFalse fun ho => by
        simp only [OpenerCloses, h, hc.1] at ho
        exact hc.2.2 (ho hc.2.1)
    else .isTrue (by
      simp only [OpenerCloses, h]
      cases pc <;> simp_all)
  | .writer .. => .isTrue (by simp [OpenerCloses, h])

/-- Whether a thread holds `rwMutex`, and is recorded as its holder. -/
def holdsMutex : RWLocal → Option Bool
  | .reader pc _ _ => match pc with
    | .setMutex | .postMutex | .setMutex' | .postMutex' => some false
    | .increment | .testFirst | .acquireWrite | .setWrite | .releaseMutex | .decrement | .testLast
    | .releaseWrite | .postWrite | .releaseMutex' => some true
    | .top | .acquireMutex | .read | .acquireMutex' => none
  | .writer .. => none

/-- Whether a thread holds `wLock`: a writer by its place in the loop, a
reader when it is the opener and past its `P`. -/
def holdsWrite (o : Option T) (n : Int) (t : T) : RWLocal → Option Bool
  | .reader pc _ _ => if o = some t then
      match pc with
      | .acquireWrite => none
      | .testFirst => if n = 1 then none else some true
      | .setWrite | .postWrite => some false
      | _ => some true
    else none
  | .writer pc _ _ => match pc with
    | .top | .acquireWrite => none
    | .setWrite | .postWrite => some false
    | .write | .releaseWrite => some true

/-- A thread waits for `rwMutex`. -/
def waitsMutex : RWLocal → Bool
  | .reader .acquireMutex _ _ | .reader .acquireMutex' _ _ => true
  | _ => false

/-- A thread waits for `wLock`. -/
def waitsWrite : RWLocal → Bool
  | .reader .acquireWrite _ _ | .writer .acquireWrite _ _ => true
  | _ => false

/-- What a thread's place says of the group's opener `o` and the count `n`. -/
def Session (o : Option T) (n : Int) (t : T) : RWLocal → Prop
  | .reader pc _ _ => match pc with
    | .acquireWrite | .setWrite => o = some t ∧ n = 1
    | .testFirst => n ≠ 0 ∧ (n = 1 → o = some t)
    | .testLast => n = 0 → o = some t
    | .releaseWrite | .postWrite => o = some t ∧ n = 0
    | _ => o = some t → n ≠ 0
  | .writer .. => o ≠ some t

/-- The invariant of the runs in which the opener closes. -/
structure Inv (c : RWConfig T) (o : Option T) : Prop where
  mutex : c.shared.rwMutex.Held fun t => holdsMutex (c.loc t)
  write : c.shared.wLock.Held fun t => holdsWrite o c.shared.readerCount t (c.loc t)
  mutexQ : c.shared.rwMutex.Queued c.asleep c.loc waitsMutex
  writeQ : c.shared.wLock.Queued c.asleep c.loc waitsWrite
  count : ∃ R : Finset T, (∀ t, t ∈ R ↔ counted (c.loc t) = true) ∧ c.shared.readerCount = R.card
  session : ∀ t, Session o c.shared.readerCount t (c.loc t)
  idle : o = none → c.shared.readerCount = 0

theorem inv_init (isReader : T → Bool) (which stop : T → Int) :
    Inv (myReaderWriter isReader which stop) none := by
  have hm : (fun t => holdsMutex ((myReaderWriter isReader which stop).loc t)) = fun _ => none := by
    funext t
    simp only [myReaderWriter]
    split <;> rfl
  have hw : (fun t => holdsWrite none 0 t ((myReaderWriter isReader which stop).loc t)) =
      fun _ => none := by
    funext t
    simp only [myReaderWriter]
    split <;> simp [holdsWrite]
  refine ⟨hm ▸ Lock.held_new, hw ▸ Lock.held_new, Lock.queued_new, Lock.queued_new, ⟨∅, fun t => ?_, rfl⟩,
    fun t => ?_, fun _ => rfl⟩
  all_goals
    simp only [myReaderWriter]
    split <;> simp [counted, Session]

theorem update_comp {β : Type} (g : T → RWLocal → β) (loc : T → RWLocal) (t : T) (l : RWLocal) :
    (fun u => g u (Function.update loc t l u)) =
      Function.update (fun u => g u (loc u)) t (g t l) := by
  funext u
  by_cases e : u = t
  · subst e; simp
  · simp [e]

/-- A step of `t` that keeps the count and the opener. -/
theorem Inv.move {c : RWConfig T} {o : Option T} (h : Inv c o) {t : T} {l : RWLocal}
    {s : RWShared T} {asleep : T → Bool} (hn : s.readerCount = c.shared.readerCount)
    (hm : s.rwMutex.Held (Function.update (fun u => holdsMutex (c.loc u)) t (holdsMutex l)))
    (hw : s.wLock.Held (Function.update (fun u => holdsWrite o c.shared.readerCount u (c.loc u)) t
      (holdsWrite o c.shared.readerCount t l)))
    (hmq : s.rwMutex.Queued asleep (Function.update c.loc t l) waitsMutex)
    (hwq : s.wLock.Queued asleep (Function.update c.loc t l) waitsWrite)
    (hc : counted l = counted (c.loc t)) (hs : Session o c.shared.readerCount t l) :
    Inv ⟨s, Function.update c.loc t l, asleep⟩ o where
  mutex := by
    rw [update_comp fun _ => holdsMutex]
    exact hm
  write := by
    simp only [hn]
    rw [update_comp (holdsWrite o c.shared.readerCount)]
    exact hw
  mutexQ := hmq
  writeQ := hwq
  count := by
    obtain ⟨R, hR, hcard⟩ := h.count
    refine ⟨R, fun u => ?_, hn ▸ hcard⟩
    rw [hR u]
    by_cases e : u = t
    · subst e; simp [hc]
    · simp [e]
  session u := by
    simp only [hn]
    by_cases e : u = t
    · subst e; simpa using hs
    · simpa [e] using h.session u
  idle ho := hn ▸ h.idle ho

/-- A step that touches neither lock. -/
theorem Inv.moveLocal {c : RWConfig T} {o : Option T} (h : Inv c o) {t : T} (ht : c.asleep t = false)
    {l : RWLocal} (hm : holdsMutex l = holdsMutex (c.loc t))
    (hw : holdsWrite o c.shared.readerCount t l = holdsWrite o c.shared.readerCount t (c.loc t))
    (hc : counted l = counted (c.loc t)) (hs : Session o c.shared.readerCount t l)
    {f : Int → Int} :
    Inv ⟨{ c.shared with readContent := f }, Function.update c.loc t l, c.asleep⟩ o := by
  refine h.move rfl ?_ ?_ (h.mutexQ.move ht rfl) (h.writeQ.move ht rfl) hc hs
  · rw [hm, Function.update_eq_self]; exact h.mutex
  · rw [hw, Function.update_eq_self]; exact h.write

/-! ## The locks' steps -/

theorem waitsWrite_of_waitsMutex {l : RWLocal} (h : waitsMutex l = true) : waitsWrite l = false := by
  cases l with
  | reader pc i stop => cases pc <;> simp_all [waitsMutex, waitsWrite]
  | writer pc i stop => simp [waitsMutex] at h

theorem waitsMutex_of_waitsWrite {l : RWLocal} (h : waitsWrite l = true) : waitsMutex l = false := by
  cases hm : waitsMutex l with
  | false => rfl
  | true => rw [waitsWrite_of_waitsMutex hm] at h; cases h

section
variable {c : RWConfig T} {o : Option T} (h : Inv c o) {t : T} (ht : c.asleep t = false)
  {l : RWLocal}

include h ht

/-- `rwMutex->Acquire()`, first step, from a `P` to `l`. -/
theorem Inv.acquireMutex {m : Lock T} {b : Bool} (hp : c.shared.rwMutex.acquireP t = .ok (m, b))
    (hl : waitsMutex (c.loc t) = true) (hl' : waitsWrite (c.loc t) = false)
    (hm : holdsMutex l = some false)
    (hw : holdsWrite o c.shared.readerCount t l = holdsWrite o c.shared.readerCount t (c.loc t))
    (hc : counted l = counted (c.loc t)) (hs : Session o c.shared.readerCount t l) :
    Inv ⟨{ c.shared with rwMutex := m }, Function.update c.loc t (if b then l else c.loc t),
      (ofP b).apply t c.asleep⟩ o := by
  cases b with
  | true =>
    have hq : m.semaphore.queue = c.shared.rwMutex.semaphore.queue := by
      rcases Lock.acquireP_cases hp with ⟨-, -, rfl⟩ | ⟨hb, -⟩ <;> [rfl; cases hb]
    refine h.move rfl ?_ ?_ (h.mutexQ.move ht hq) (h.writeQ.move ht rfl) hc hs
    · simp only [ite_true, hm]; exact h.mutex.acquire hp
    · simp only [ite_true, hw, Function.update_eq_self]; exact h.write
  | false =>
    refine h.move rfl ?_ ?_ (h.mutexQ.sleep hp hl) (h.writeQ.sleep_other ht hl') rfl (h.session t)
    · simp only [Bool.false_eq_true, ite_false, Function.update_eq_self]; exact h.mutex.wait hp
    · simp only [Bool.false_eq_true, ite_false, Function.update_eq_self]; exact h.write

/-- `rwMutex->Acquire()`, second step. -/
theorem Inv.setMutex (hl : holdsMutex (c.loc t) = some false) (hm : holdsMutex l = some true)
    (hw : holdsWrite o c.shared.readerCount t l = holdsWrite o c.shared.readerCount t (c.loc t))
    (hc : counted l = counted (c.loc t)) (hs : Session o c.shared.readerCount t l) :
    Inv ⟨{ c.shared with rwMutex := c.shared.rwMutex.acquireSet t }, Function.update c.loc t l,
      c.asleep⟩ o := by
  refine h.move rfl ?_ ?_ (h.mutexQ.move ht rfl) (h.writeQ.move ht rfl) hc hs
  · rw [hm]; exact h.mutex.set hl
  · rw [hw, Function.update_eq_self]; exact h.write

/-- `rwMutex->Release()`, first step. -/
theorem Inv.releaseMutex {m : Lock T} (hp : c.shared.rwMutex.releaseCheck t = .ok m)
    (hl : holdsMutex (c.loc t) = some true) (hm : holdsMutex l = some false)
    (hw : holdsWrite o c.shared.readerCount t l = holdsWrite o c.shared.readerCount t (c.loc t))
    (hc : counted l = counted (c.loc t)) (hs : Session o c.shared.readerCount t l) :
    Inv ⟨{ c.shared with rwMutex := m }, Function.update c.loc t l, c.asleep⟩ o := by
  obtain ⟨hk, hh⟩ := h.mutex.check hl
  obtain rfl := Except.ok.inj (hk.symm.trans hp)
  refine h.move rfl ?_ ?_ (h.mutexQ.move ht rfl) (h.writeQ.move ht rfl) hc hs
  · rw [hm]; exact hh
  · rw [hw, Function.update_eq_self]; exact h.write

/-- `rwMutex->Release()`, second step. -/
theorem Inv.postMutex (hl : holdsMutex (c.loc t) = some false) (hm : holdsMutex l = none)
    (hw : holdsWrite o c.shared.readerCount t l = holdsWrite o c.shared.readerCount t (c.loc t))
    (hc : counted l = counted (c.loc t)) (hs : Session o c.shared.readerCount t l) :
    Inv ⟨{ c.shared with rwMutex := c.shared.rwMutex.releaseV.1 }, Function.update c.loc t l,
      (Effect.wake c.shared.rwMutex.releaseV.2).apply t c.asleep⟩ o := by
  refine h.move rfl ?_ ?_ (h.mutexQ.post ht) (h.writeQ.post_other ht fun u hu => ?_) hc hs
  · rw [hm]; exact h.mutex.post hl
  · rw [hw, Function.update_eq_self]; exact h.write
  · exact waitsWrite_of_waitsMutex (h.mutexQ.woken hu)

/-- `wLock->Acquire()`, first step, from a `P` to `l`. -/
theorem Inv.acquireWrite {m : Lock T} {b : Bool} (hp : c.shared.wLock.acquireP t = .ok (m, b))
    (hl : waitsWrite (c.loc t) = true) (hl' : waitsMutex (c.loc t) = false)
    (hm : holdsMutex l = holdsMutex (c.loc t))
    (hw : holdsWrite o c.shared.readerCount t l = some false)
    (hc : counted l = counted (c.loc t)) (hs : Session o c.shared.readerCount t l) :
    Inv ⟨{ c.shared with wLock := m }, Function.update c.loc t (if b then l else c.loc t),
      (ofP b).apply t c.asleep⟩ o := by
  cases b with
  | true =>
    have hq : m.semaphore.queue = c.shared.wLock.semaphore.queue := by
      rcases Lock.acquireP_cases hp with ⟨-, -, rfl⟩ | ⟨hb, -⟩ <;> [rfl; cases hb]
    refine h.move rfl ?_ ?_ (h.mutexQ.move ht rfl) (h.writeQ.move ht hq) hc hs
    · simp only [ite_true, hm, Function.update_eq_self]; exact h.mutex
    · simp only [ite_true, hw]; exact h.write.acquire hp
  | false =>
    refine h.move rfl ?_ ?_ (h.mutexQ.sleep_other ht hl') (h.writeQ.sleep hp hl) rfl (h.session t)
    · simp only [Bool.false_eq_true, ite_false, Function.update_eq_self]; exact h.mutex
    · simp only [Bool.false_eq_true, ite_false, Function.update_eq_self]; exact h.write.wait hp

/-- `wLock->Acquire()`, second step. -/
theorem Inv.setWrite (hl : holdsWrite o c.shared.readerCount t (c.loc t) = some false)
    (hm : holdsMutex l = holdsMutex (c.loc t))
    (hw : holdsWrite o c.shared.readerCount t l = some true)
    (hc : counted l = counted (c.loc t)) (hs : Session o c.shared.readerCount t l) :
    Inv ⟨{ c.shared with wLock := c.shared.wLock.acquireSet t }, Function.update c.loc t l,
      c.asleep⟩ o := by
  refine h.move rfl ?_ ?_ (h.mutexQ.move ht rfl) (h.writeQ.move ht rfl) hc hs
  · rw [hm, Function.update_eq_self]; exact h.mutex
  · rw [hw]; exact h.write.set hl

/-- `wLock->Release()`, first step. -/
theorem Inv.releaseWrite {m : Lock T} (hp : c.shared.wLock.releaseCheck t = .ok m)
    (hl : holdsWrite o c.shared.readerCount t (c.loc t) = some true)
    (hm : holdsMutex l = holdsMutex (c.loc t))
    (hw : holdsWrite o c.shared.readerCount t l = some false)
    (hc : counted l = counted (c.loc t)) (hs : Session o c.shared.readerCount t l) :
    Inv ⟨{ c.shared with wLock := m }, Function.update c.loc t l, c.asleep⟩ o := by
  obtain ⟨hk, hh⟩ := h.write.check hl
  obtain rfl := Except.ok.inj (hk.symm.trans hp)
  refine h.move rfl ?_ ?_ (h.mutexQ.move ht rfl) (h.writeQ.move ht rfl) hc hs
  · rw [hm, Function.update_eq_self]; exact h.mutex
  · rw [hw]; exact hh

/-- `wLock->Release()` of a writer, second step. -/
theorem Inv.postWrite (hl : holdsWrite o c.shared.readerCount t (c.loc t) = some false)
    (hm : holdsMutex l = holdsMutex (c.loc t))
    (hw : holdsWrite o c.shared.readerCount t l = none)
    (hc : counted l = counted (c.loc t)) (hs : Session o c.shared.readerCount t l) :
    Inv ⟨{ c.shared with wLock := c.shared.wLock.releaseV.1 }, Function.update c.loc t l,
      (Effect.wake c.shared.wLock.releaseV.2).apply t c.asleep⟩ o := by
  refine h.move rfl ?_ ?_ (h.mutexQ.post_other ht fun u hu => ?_) (h.writeQ.post ht) hc hs
  · rw [hm, Function.update_eq_self]; exact h.mutex
  · rw [hw]; exact h.write.post hl
  · exact waitsMutex_of_waitsWrite (h.writeQ.woken hu)

end

/-! ## The count and the opener

A thread that changes `readerCount` or the opener holds `rwMutex`, so every
other thread is outside of it. -/

omit [DecidableEq T] in
/-- Outside `rwMutex` only the opener's identity matters. -/
theorem holdsWrite_outside {l : RWLocal} (hl : holdsMutex l = none) {o o' : Option T} {n n' : Int}
    {u : T} [DecidableEq T] (ho : o' = some u ↔ o = some u) :
    holdsWrite o' n' u l = holdsWrite o n u l := by
  cases l with
  | reader pc i stop => cases pc <;> simp_all [holdsMutex, holdsWrite]
  | writer pc i stop => rfl

omit [DecidableEq T] in
theorem session_outside {l : RWLocal} (hl : holdsMutex l = none) {o o' : Option T} {n n' : Int}
    {u : T} (h : Session o n u l) (ho : o' = some u ↔ o = some u) (hn : o' = some u → n' ≠ 0) :
    Session o' n' u l := by
  cases l with
  | reader pc i stop => cases pc <;> simp_all [holdsMutex, Session]
  | writer pc i stop => simpa [Session, ho] using h

omit [DecidableEq T] in
/-- Outside `rwMutex`, the opener of a group sees a count. -/
theorem session_ne {l : RWLocal} (hl : holdsMutex l = none) {o : Option T} {n : Int} {u : T}
    (h : Session o n u l) : o = some u → n ≠ 0 := by
  cases l with
  | reader pc i stop => cases pc <;> simp_all [holdsMutex, Session]
  | writer pc i stop => exact fun ho => absurd ho h

/-- A step of the holder of `rwMutex` that changes the count or the opener. -/
theorem Inv.change {c : RWConfig T} {o : Option T} (h : Inv c o) {t : T} {l : RWLocal} {o' : Option T}
    {s : RWShared T} {asleep : T → Bool} {b : Bool} (hb : holdsMutex (c.loc t) = some b)
    (hl : holdsMutex l = some b) (hm : s.rwMutex = c.shared.rwMutex)
    (hw : s.wLock.Held (Function.update (fun u => holdsWrite o c.shared.readerCount u (c.loc u)) t
      (holdsWrite o' s.readerCount t l)))
    (hmq : s.rwMutex.Queued asleep (Function.update c.loc t l) waitsMutex)
    (hwq : s.wLock.Queued asleep (Function.update c.loc t l) waitsWrite)
    (ho : ∀ u ≠ t, o' = some u ↔ o = some u) (hn : ∀ u ≠ t, o' = some u → s.readerCount ≠ 0)
    (hc : ∃ R : Finset T, (∀ u, u ∈ R ↔ counted (Function.update c.loc t l u) = true) ∧
      s.readerCount = R.card)
    (hs : Session o' s.readerCount t l) (hi : o' = none → s.readerCount = 0) :
    Inv ⟨s, Function.update c.loc t l, asleep⟩ o' := by
  have hout : ∀ u ≠ t, holdsMutex (c.loc u) = none := (h.mutex.busy t b hb).2.2
  refine ⟨?_, ?_, hmq, hwq, hc, fun u => ?_, hi⟩
  · simp only [hm]
    rw [update_comp fun _ => holdsMutex, hl, ← hb, Function.update_eq_self]
    exact h.mutex
  · convert hw using 1
    rw [update_comp (holdsWrite o' s.readerCount)]
    funext u
    by_cases e : u = t
    · subst e; simp
    · simp only [Function.update_of_ne e]
      exact holdsWrite_outside (hout u e) (ho u e)
  · by_cases e : u = t
    · subst e; simpa using hs
    · simp only [Function.update_of_ne e]
      exact session_outside (hout u e) (h.session u) (ho u e) (hn u e)

theorem Inv.count_pos {c : RWConfig T} {o : Option T} (h : Inv c o) {t : T}
    (ht : counted (c.loc t) = true) : 0 < c.shared.readerCount := by
  obtain ⟨R, hR, hn⟩ := h.count
  have := Finset.card_pos.mpr ⟨t, (hR t).mpr ht⟩
  omega

theorem Inv.count_nonneg {c : RWConfig T} {o : Option T} (h : Inv c o) :
    0 ≤ c.shared.readerCount := by
  obtain ⟨R, -, hn⟩ := h.count
  omega

/-- `++readerCount`: the reader that counts from 0 is the opener. -/
theorem Inv.increment {c : RWConfig T} {o : Option T} (h : Inv c o) {t : T} {i stop : Int}
    (ht : c.asleep t = false) (hl : c.loc t = .reader .increment i stop) :
    Inv ⟨{ c.shared with readerCount := c.shared.readerCount + 1 },
      Function.update c.loc t (.reader .testFirst i stop), c.asleep⟩
      (if c.shared.readerCount = 0 then some t else o) := by
  have hn := h.count_nonneg
  have hst := h.session t
  simp only [hl, Session] at hst
  refine h.change (b := true) (by rw [hl]; rfl) rfl rfl ?_ (h.mutexQ.move ht rfl)
    (h.writeQ.move ht rfl) (fun u hu => ?_) (fun u hu _ => ?_) ?_ ?_ ?_
  · convert h.write using 1
    rw [Function.update_eq_self_iff]
    simp only [hl, holdsWrite]
    by_cases h0 : c.shared.readerCount = 0
    · have ho : o ≠ some t := fun e => hst e h0
      simp [h0, ho]
    · have h1 : c.shared.readerCount + 1 ≠ 1 := by omega
      simp only [h0, h1, ite_false]
  · split
    · rename_i h0
      have := session_ne ((h.mutex.busy t true (by simp only [hl]; rfl)).2.2 u hu) (h.session u)
      simp only [Option.some.injEq, hu.symm, false_iff]
      exact fun e => this e h0
    · rfl
  · simp only; omega
  · obtain ⟨R, hR, hcard⟩ := h.count
    have htR : t ∉ R := by rw [hR t, hl]; simp [counted]
    refine ⟨insert t R, fun u => ?_, ?_⟩
    · rw [Finset.mem_insert, hR u]
      by_cases e : u = t
      · subst e; simp [counted]
      · simp [e]
    · rw [Finset.card_insert_of_notMem htR, hcard]
      push_cast
      rfl
  · simp only [Session]
    refine ⟨by omega, fun h1 => ?_⟩
    rw [if_pos (by omega)]
  · split
    · simp
    · rename_i h0
      exact fun ho => absurd (h.idle ho) h0

/-- `--readerCount`, under the condition that the opener closes. -/
theorem Inv.decrement {c : RWConfig T} {o : Option T} (h : Inv c o) {t : T} {i stop : Int}
    (ht : c.asleep t = false) (hl : c.loc t = .reader .decrement i stop)
    (hcond : c.shared.readerCount = 1 → o = some t) :
    Inv ⟨{ c.shared with readerCount := c.shared.readerCount - 1 },
      Function.update c.loc t (.reader .testLast i stop), c.asleep⟩ o := by
  have hpos := h.count_pos (t := t) (by rw [hl]; rfl)
  refine h.change (b := true) (by rw [hl]; rfl) rfl rfl ?_ (h.mutexQ.move ht rfl)
    (h.writeQ.move ht rfl) (fun _ _ => Iff.rfl) (fun u hu ho => ?_) ?_ ?_ fun ho => ?_
  · convert h.write using 1
    rw [Function.update_eq_self_iff]
    simp only [hl, holdsWrite]
  · simp only
    intro h0
    rw [hcond (by omega), Option.some.injEq] at ho
    exact hu ho.symm
  · obtain ⟨R, hR, hcard⟩ := h.count
    have htR : t ∈ R := by rw [hR t, hl]; rfl
    refine ⟨R.erase t, fun u => ?_, ?_⟩
    · rw [Finset.mem_erase, hR u]
      by_cases e : u = t
      · subst e; simp [counted]
      · simp [e]
    · have := Finset.card_erase_add_one htR
      simp only
      omega
  · exact fun h0 => hcond (by simp only at h0; omega)
  · have := h.idle ho
    omega

/-- The opener's `wLock->Release()`, second step: the group is closed. -/
theorem Inv.close {c : RWConfig T} {o : Option T} (h : Inv c o) {t : T} {i stop : Int}
    (ht : c.asleep t = false) (hl : c.loc t = .reader .postWrite i stop) :
    Inv ⟨{ c.shared with wLock := c.shared.wLock.releaseV.1 },
      Function.update c.loc t (.reader .releaseMutex' i stop),
      (Effect.wake c.shared.wLock.releaseV.2).apply t c.asleep⟩ none := by
  have hst := h.session t
  simp only [hl, Session] at hst
  obtain ⟨rfl, hn⟩ := hst
  refine h.change (b := true) (by rw [hl]; rfl) rfl rfl ?_
    (h.mutexQ.post_other ht fun u hu => waitsMutex_of_waitsWrite (h.writeQ.woken hu))
    (h.writeQ.post ht) (fun u hu => by simp [hu.symm]) nofun ?_ nofun fun _ => hn
  · have : holdsWrite none c.shared.readerCount t (.reader .releaseMutex' i stop) = none := by
      simp [holdsWrite]
    simp only [this]
    exact h.write.post (by simp [hl, holdsWrite])
  · obtain ⟨R, hR, hcard⟩ := h.count
    refine ⟨R, fun u => ?_, hcard⟩
    rw [hR u]
    by_cases e : u = t
    · subst e; simp [hl, counted]
    · simp [e]

/-! ## Every step keeps the invariant -/

/-- A step of a reader that is awake. -/
theorem inv_reader {c : RWConfig T} {o : Option T} (h : Inv c o) {t : T} (ht : c.asleep t = false)
    {pc : ReaderPc} {i stop : Int} (hl : c.loc t = .reader pc i stop)
    (hcond : OpenerCloses (c, o) t) {s : RWShared T} {l : RWLocal} {e : Effect T}
    (hx : myReader t c.shared pc i stop = .ok (s, l, e)) :
    Inv ⟨s, Function.update c.loc t l, e.apply t c.asleep⟩ (opener c t o) := by
  have hst := h.session t
  simp only [opener, ht, Bool.false_eq_true, ite_false, hl]
  rw [hl] at hst
  cases pc with
  | top =>
    obtain ⟨rfl, rfl, rfl⟩ := hx
    by_cases hi : i < stop
    · simp only [hi, ite_true]
      exact h.moveLocal ht (l := .reader .acquireMutex i stop) (by rw [hl]; rfl) (by rw [hl]; rfl)
        (by rw [hl]; rfl) hst
    · simp only [hi, ite_false]
      exact h.moveLocal ht (l := .reader .top i stop) (by rw [hl]) (by rw [hl]) (by rw [hl]) hst
  | acquireMutex =>
    obtain ⟨⟨m, b⟩, hp, hx⟩ := bind_eq_ok.mp hx
    obtain ⟨rfl, rfl, rfl⟩ := hx
    have := h.acquireMutex ht (l := .reader .setMutex i stop) hp (by rw [hl]; rfl) (by rw [hl]; rfl)
      rfl (by rw [hl]; rfl) (by rw [hl]; rfl) hst
    rw [hl] at this
    cases b <;> exact this
  | setMutex =>
    obtain ⟨rfl, rfl, rfl⟩ := hx
    exact h.setMutex ht (by rw [hl]; rfl) rfl (by rw [hl]; rfl) (by rw [hl]; rfl) hst
  | increment =>
    obtain ⟨rfl, rfl, rfl⟩ := hx
    exact h.increment ht hl
  | testFirst =>
    obtain ⟨rfl, rfl, rfl⟩ := hx
    by_cases hn : c.shared.readerCount = 1
    · simp only [hn, ite_true]
      refine h.moveLocal ht (by rw [hl]; rfl) (by rw [hl, hn]; simp [holdsWrite]) (by rw [hl]; rfl) ?_
      exact ⟨hst.2 hn, hn⟩
    · simp only [hn, ite_false]
      refine h.moveLocal ht (by rw [hl]; rfl) (by rw [hl]; simp [holdsWrite, hn]) (by rw [hl]; rfl) ?_
      exact fun _ => hst.1
  | acquireWrite =>
    obtain ⟨⟨m, b⟩, hp, hx⟩ := bind_eq_ok.mp hx
    obtain ⟨rfl, rfl, rfl⟩ := hx
    have := h.acquireWrite ht (l := .reader .setWrite i stop) hp (by rw [hl]; rfl) (by rw [hl]; rfl)
      (by rw [hl]; rfl) (by simp [holdsWrite, hst.1]) (by rw [hl]; rfl) hst
    rw [hl] at this
    cases b <;> exact this
  | setWrite =>
    obtain ⟨rfl, rfl, rfl⟩ := hx
    refine h.setWrite ht (by simp [hl, holdsWrite, hst.1]) (by rw [hl]; rfl)
      (by simp [holdsWrite, hst.1]) (by rw [hl]; rfl) fun _ => ?_
    rw [hst.2]
    decide
  | releaseMutex =>
    obtain ⟨m, hp, hx⟩ := bind_eq_ok.mp hx
    obtain ⟨rfl, rfl, rfl⟩ := hx
    exact h.releaseMutex ht hp (by rw [hl]; rfl) rfl (by rw [hl]; rfl) (by rw [hl]; rfl) hst
  | postMutex =>
    obtain ⟨rfl, rfl, rfl⟩ := hx
    exact h.postMutex ht (by rw [hl]; rfl) rfl (by rw [hl]; rfl) (by rw [hl]; rfl) hst
  | read =>
    obtain ⟨rfl, rfl, rfl⟩ := hx
    exact h.moveLocal ht (l := .reader .acquireMutex' i stop) (by rw [hl]; rfl) (by rw [hl]; rfl)
      (by rw [hl]; rfl) hst
  | acquireMutex' =>
    obtain ⟨⟨m, b⟩, hp, hx⟩ := bind_eq_ok.mp hx
    obtain ⟨rfl, rfl, rfl⟩ := hx
    have := h.acquireMutex ht (l := .reader .setMutex' i stop) hp (by rw [hl]; rfl) (by rw [hl]; rfl)
      rfl (by rw [hl]; rfl) (by rw [hl]; rfl) hst
    rw [hl] at this
    cases b <;> exact this
  | setMutex' =>
    obtain ⟨rfl, rfl, rfl⟩ := hx
    exact h.setMutex ht (by rw [hl]; rfl) rfl (by rw [hl]; rfl) (by rw [hl]; rfl) hst
  | decrement =>
    obtain ⟨rfl, rfl, rfl⟩ := hx
    simp only [OpenerCloses, hl] at hcond
    exact h.decrement ht hl hcond
  | testLast =>
    obtain ⟨rfl, rfl, rfl⟩ := hx
    by_cases hn : c.shared.readerCount = 0
    · simp only [hn, ite_true]
      exact h.moveLocal ht (l := .reader .releaseWrite i stop) (by rw [hl]; rfl) (by rw [hl]; rfl)
        (by rw [hl]; rfl) ⟨hst hn, hn⟩
    · simp only [hn, ite_false]
      exact h.moveLocal ht (l := .reader .releaseMutex' i stop) (by rw [hl]; rfl) (by rw [hl]; rfl)
        (by rw [hl]; rfl) fun _ => hn
  | releaseWrite =>
    obtain ⟨m, hp, hx⟩ := bind_eq_ok.mp hx
    obtain ⟨rfl, rfl, rfl⟩ := hx
    exact h.releaseWrite ht hp (by simp [hl, holdsWrite, hst.1]) (by rw [hl]; rfl)
      (by simp [holdsWrite, hst.1]) (by rw [hl]; rfl) hst
  | postWrite =>
    obtain ⟨rfl, rfl, rfl⟩ := hx
    exact h.close ht hl
  | releaseMutex' =>
    obtain ⟨m, hp, hx⟩ := bind_eq_ok.mp hx
    obtain ⟨rfl, rfl, rfl⟩ := hx
    exact h.releaseMutex ht hp (by rw [hl]; rfl) rfl (by rw [hl]; rfl) (by rw [hl]; rfl) hst
  | postMutex' =>
    obtain ⟨rfl, rfl, rfl⟩ := hx
    exact h.postMutex ht (by rw [hl]; rfl) rfl (by rw [hl]; rfl) (by rw [hl]; rfl) hst

/-- A step of a writer that is awake. -/
theorem inv_writer {c : RWConfig T} {o : Option T} (h : Inv c o) {t : T} (ht : c.asleep t = false)
    {pc : WriterPc} {i stop : Int} (hl : c.loc t = .writer pc i stop) {s : RWShared T} {l : RWLocal}
    {e : Effect T} (hx : myWriter t c.shared pc i stop = .ok (s, l, e)) :
    Inv ⟨s, Function.update c.loc t l, e.apply t c.asleep⟩ (opener c t o) := by
  have hst := h.session t
  simp only [opener, ht, Bool.false_eq_true, ite_false, hl]
  rw [hl] at hst
  cases pc with
  | top =>
    obtain ⟨rfl, rfl, rfl⟩ := hx
    by_cases hi : i < stop
    · simp only [hi, ite_true]
      exact h.moveLocal ht (l := .writer .acquireWrite i stop) (by rw [hl]; rfl) (by rw [hl]; rfl)
        (by rw [hl]; rfl) hst
    · simp only [hi, ite_false]
      exact h.moveLocal ht (l := .writer .top i stop) (by rw [hl]) (by rw [hl]) (by rw [hl]) hst
  | acquireWrite =>
    obtain ⟨⟨m, b⟩, hp, hx⟩ := bind_eq_ok.mp hx
    obtain ⟨rfl, rfl, rfl⟩ := hx
    have := h.acquireWrite ht (l := .writer .setWrite i stop) hp (by rw [hl]; rfl) (by rw [hl]; rfl)
      (by rw [hl]; rfl) rfl (by rw [hl]; rfl) hst
    rw [hl] at this
    cases b <;> exact this
  | setWrite =>
    obtain ⟨rfl, rfl, rfl⟩ := hx
    exact h.setWrite ht (by rw [hl]; rfl) (by rw [hl]; rfl) rfl (by rw [hl]; rfl) hst
  | write =>
    obtain ⟨rfl, rfl, rfl⟩ := hx
    exact h.moveLocal ht (l := .writer .releaseWrite i stop) (by rw [hl]; rfl) (by rw [hl]; rfl)
      (by rw [hl]; rfl) hst
  | releaseWrite =>
    obtain ⟨m, hp, hx⟩ := bind_eq_ok.mp hx
    obtain ⟨rfl, rfl, rfl⟩ := hx
    exact h.releaseWrite ht hp (by rw [hl]; rfl) (by rw [hl]; rfl) rfl (by rw [hl]; rfl) hst
  | postWrite =>
    obtain ⟨rfl, rfl, rfl⟩ := hx
    exact h.postWrite ht (by rw [hl]; rfl) (by rw [hl]; rfl) rfl (by rw [hl]; rfl) hst

/-- One step of any thread. -/
theorem inv_step {c : RWConfig T} {o : Option T} (h : Inv c o) {t : T} (hcond : OpenerCloses (c, o) t)
    {c' : RWConfig T × Option T} (hx : nextOpener (c, o) t = .ok c') : Inv c'.1 c'.2 := by
  cases hn : next rwExec c t with
  | error e => simp [nextOpener, hn, Except.map] at hx
  | ok c₁ =>
    simp only [nextOpener, hn, Except.map, Except.ok.injEq] at hx
    subst hx
    rcases next_cases hn with ⟨ha, rfl⟩ | ⟨ha, s, l, e, he, rfl⟩
    · simpa [opener, ha] using h
    · cases hl : c.loc t with
      | reader pc i stop =>
        rw [hl] at he
        exact inv_reader h ha hl hcond he
      | writer pc i stop =>
        rw [hl] at he
        exact inv_writer h ha hl he

/-! ## The invariant gives safety -/

/-- Every `ASSERT` the next statement of an awake thread checks holds. -/
theorem Inv.noAbort {c : RWConfig T} {o : Option T} (h : Inv c o) (t : T) (e : Abort) :
    next rwExec c t ≠ .error e := by
  intro hx
  obtain ⟨ht, hx⟩ := next_error hx
  have hm := acquireP_ok (h.mutexQ.not_mem ht)
  have hw := acquireP_ok (h.writeQ.not_mem ht)
  have hst := h.session t
  obtain ⟨_, hm⟩ := hm
  obtain ⟨_, hw⟩ := hw
  cases hl : c.loc t with
  | reader pc i stop =>
    rw [hl] at hx hst
    cases pc
    case releaseMutex | releaseMutex' =>
      simp [rwExec, myReader, (h.mutex.check (t := t) (by rw [hl]; rfl)).1] at hx
    case releaseWrite =>
      simp [rwExec, myReader, (h.write.check (t := t) (by simp [hl, holdsWrite, hst.1])).1] at hx
    all_goals simp [rwExec, myReader, hm, hw] at hx
  | writer pc i stop =>
    rw [hl] at hx
    cases pc
    case releaseWrite =>
      simp [rwExec, myWriter, (h.write.check (t := t) (by rw [hl]; rfl)).1] at hx
    all_goals simp [rwExec, myWriter, hw] at hx

theorem holdsWrite_of_writing {l : RWLocal} (h : writing l = true) (o : Option T) (n : Int) (t : T) :
    (holdsWrite o n t l).isSome := by
  cases l with
  | reader pc i stop => cases h
  | writer pc i stop => cases pc <;> first | rfl | cases h

omit [DecidableEq T] in
theorem counted_of_reading {l : RWLocal} (h : reading l = true) : counted l = true := by
  cases l with
  | reader pc i stop => cases pc <;> first | rfl | cases h
  | writer pc i stop => cases h

/-- While a reader reads, the opener of its group holds `wLock`. -/
theorem Inv.opener_holds {c : RWConfig T} {o : Option T} (h : Inv c o) {r : T}
    (hr : reading (c.loc r) = true) :
    ∃ p, o = some p ∧ (∀ pc i stop, c.loc p ≠ .writer pc i stop) ∧
      (holdsWrite o c.shared.readerCount p (c.loc p)).isSome := by
  have hpos := h.count_pos (counted_of_reading hr)
  cases o with
  | none => exact absurd (h.idle rfl) (by omega)
  | some p =>
    have hp := h.session p
    refine ⟨p, rfl, fun pc i stop e => by rw [e] at hp; exact hp rfl, ?_⟩
    -- Before its own `P` on `wLock` the opener is the only reader counted.
    have hone : c.shared.readerCount = 1 → counted (c.loc p) = true → reading (c.loc p) = true := by
      intro h1 hc
      obtain ⟨R, hR, hcard⟩ := h.count
      obtain ⟨a, rfl⟩ := Finset.card_eq_one.mp (show R.card = 1 by omega)
      have hra := Finset.mem_singleton.mp ((hR r).mpr (counted_of_reading hr))
      have hpa := Finset.mem_singleton.mp ((hR p).mpr hc)
      rwa [hpa, ← hra]
    cases hl : c.loc p with
    | writer pc i stop => rw [hl] at hp; exact absurd rfl hp
    | reader pc i stop =>
      rw [hl] at hp hone
      cases pc
      case acquireWrite => exact absurd (hone hp.2 rfl) (by simp [reading])
      case testFirst =>
        have : c.shared.readerCount ≠ 1 := fun h1 => absurd (hone h1 rfl) (by simp [reading])
        simp [holdsWrite, this]
      all_goals simp [holdsWrite]

theorem Inv.safe {c : RWConfig T} {o : Option T} (h : Inv c o) : Safe c where
  noAbort := h.noAbort
  alone w r hw := by
    rw [Bool.eq_false_iff]
    intro hr
    obtain ⟨p, -, hp, hpw⟩ := h.opener_holds hr
    obtain rfl := h.write.unique hpw (holdsWrite_of_writing hw _ _ _)
    cases hl : c.loc p with
    | reader pc i stop => rw [hl] at hw; cases hw
    | writer pc i stop => exact hp _ _ _ hl
  oneWriter w w' hw hw' :=
    h.write.unique (holdsWrite_of_writing hw _ _ _) (holdsWrite_of_writing hw' _ _ _)
  count := h.count

/-- Every state of every run in which each group of readers is closed by its
opener is safe. -/
theorem reachable_safe_readers (isReader : T → Bool) (which stop : T → Int) {c : RWConfig T} {o : Option T}
    (h : ((system isReader which stop).restrict OpenerCloses).Reachable (c, o)) : Safe c := by
  have hinv : Inv (c, o).1 (c, o).2 := by
    refine h.invariant (I := fun c => Inv c.1 c.2) ?_ ?_
    · rintro _ rfl
      exact inv_init isReader which stop
    · rintro ⟨c, o⟩ t c' hc ⟨hcond, hs⟩
      exact inv_step hc hcond hs
  exact hinv.safe

/-- `true` opens the group, `false` enters and leaves, and `true` leaves last. -/
def nested : List Bool :=
  List.replicate 9 true ++ List.replicate 14 false ++ List.replicate 9 true

theorem reachable_safe_nested :
    ∃ c o, nested.foldlM (System.guarded nextOpener OpenerCloses) (twoReaders, none) = some (c, o) ∧
      c.loc true = .reader .top 1 10 ∧ Safe c :=
  ⟨_, _, rfl, rfl, reachable_safe_readers (fun _ => true) (fun _ => 0) (fun _ => 10)
    (System.reachable_guarded nested (.init rfl) rfl)⟩

end Nachos.Proof.ReaderWriter

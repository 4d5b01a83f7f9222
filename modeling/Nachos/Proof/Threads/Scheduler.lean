import Mathlib.Data.List.Perm.Lattice
import Mathlib.Order.BooleanAlgebra.Set
import Mathlib.Tactic.Common
import Nachos.Framework.System
import Nachos.Impl.Threads.Scheduler

/-!
# The scheduler's lists over all runs

`Safe` is the bookkeeping the dispatcher relies on: the lists hold only
threads that exist, and every forked thread that neither runs nor waits to be
destroyed is in exactly one of them, the ready structure of this `typeno` or
`blockList`, with the status to match.

It fails (`not_safe_finish`): `Finish` blocks the thread as `Sleep` does, so
that the thread is still in `blockList` when `CheckToBeDestroyed` deletes it.
It holds in every run in which no finished thread is destroyed
(`reachable_safe_lists`). In all other runs the threads left behind in `blockList`
are the only exception, which `Wf` says with the list of the deleted.
-/

namespace Nachos

open Framework

variable {P : Type} [DecidableEq P]

namespace Kernel

/-- A thread exists. -/
def Registered (k : Kernel P) (t : P) : Prop := some t ∈ k.threadArray

instance (k : Kernel P) (t : P) : Decidable (k.Registered t) :=
  inferInstanceAs (Decidable (some t ∈ k.threadArray))

/-- The ready structure that `FindNextToRun` consults. -/
def ready (typeno : Policy) (k : Kernel P) : List P :=
  match typeno with
  | .fifo | .timeSlice => k.readyList
  | .priority => k.sortedReadyList
  | .feedback => k.threadArrQueue.flatten

/-- The ready structures that it does not consult. -/
def unread (typeno : Policy) (k : Kernel P) : List P :=
  match typeno with
  | .fifo | .timeSlice => k.sortedReadyList ++ k.threadArrQueue.flatten
  | .priority => k.readyList ++ k.threadArrQueue.flatten
  | .feedback => k.readyList ++ k.sortedReadyList

/-- All lists, one after the other. -/
def lists (k : Kernel P) : List P :=
  k.readyList ++ k.sortedReadyList ++ k.threadArrQueue.flatten ++ k.suspendList ++ k.blockList

/-- A thread is where its status says. -/
def Placed (typeno : Policy) (k : Kernel P) (t : P) : Prop :=
  (t ∈ k.ready typeno ∧ (k.thread t).status = .ready) ∨
    (t ∈ k.blockList ∧ (k.thread t).status = .blocked)

/-- The scheduler's bookkeeping, in one state. -/
structure Safe (typeno : Policy) (k : Kernel P) : Prop where
  existing : ∀ t ∈ k.lists, k.Registered t
  placed : ∀ t, k.Registered t → (k.thread t).stack = true → t ≠ k.currentThread →
    k.toBeDestroyed ≠ some t → k.lists.count t = 1 ∧ k.Placed typeno t

omit [DecidableEq P] in
theorem lists_perm (typeno : Policy) (k : Kernel P) :
    k.lists.Perm (k.ready typeno ++ k.unread typeno ++ k.suspendList ++ k.blockList) := by
  refine List.Perm.append_right _ (List.Perm.append_right _ ?_)
  cases typeno with
  | fifo => simp [ready, unread]
  | timeSlice => simp [ready, unread]
  | priority =>
    simp only [ready, unread, ← List.append_assoc]
    exact List.Perm.append_right _ List.perm_append_comm
  | feedback =>
    simp only [ready, unread]
    exact List.perm_append_comm

/-! ## What the scheduler's functions do -/

@[simp] theorem setThread_registered (k : Kernel P) (t : P) (f : Thread → Thread) (u : P) :
    (k.setThread t f).Registered u ↔ k.Registered u := Iff.rfl

@[simp] theorem setThread_thread (k : Kernel P) (t : P) (f : Thread → Thread) :
    (k.setThread t f).thread = Function.update k.thread t (f (k.thread t)) := rfl

/-- `k'` is `k` with `t` made ready. -/
structure Readied (typeno : Policy) (t : P) (k k' : Kernel P) : Prop where
  status : (k'.thread t).status = .ready
  threadID : (k'.thread t).threadID = (k.thread t).threadID
  thread : ∀ u ≠ t, k'.thread u = k.thread u
  ready : (k'.ready typeno).Perm (t :: k.ready typeno)
  unread : k'.unread typeno = k.unread typeno
  blockList : k'.blockList = k.blockList.erase t
  suspendList : k'.suspendList = k.suspendList
  threadArray : k'.threadArray = k.threadArray
  currentThread : k'.currentThread = k.currentThread
  toBeDestroyed : k'.toBeDestroyed = k.toBeDestroyed

omit [DecidableEq P] in
theorem mem_flatten_of_getD {qs : List (List P)} {n : Nat} {t : P} (h : t ∈ qs.getD n []) :
    t ∈ qs.flatten := by
  rw [List.getD_eq_getElem?_getD] at h
  cases hq : qs[n]? with
  | none => simp [hq] at h
  | some q =>
    rw [hq] at h
    exact List.mem_flatten.mpr ⟨q, List.mem_of_getElem? hq, h⟩

omit [DecidableEq P] in
theorem flatten_set_perm {qs : List (List P)} {i : Nat} (hi : i < qs.length) (t : P) :
    (qs.set i (qs.getD i [] ++ [t])).flatten.Perm (t :: qs.flatten) := by
  induction qs generalizing i with
  | nil => cases hi
  | cons q qs ih =>
    cases i with
    | zero =>
      simp only [List.set_cons_zero, List.getD_cons_zero, List.flatten_cons, List.append_assoc]
      exact List.perm_middle
    | succ i =>
      simp only [List.set_cons_succ, List.getD_cons_succ, List.flatten_cons]
      exact ((ih (Nat.lt_of_succ_lt_succ hi)).append_left q).trans List.perm_middle

variable {typeno : Policy} {k k' : Kernel P} {t : P}

/-- What `ReadyToRun` does to the ready structure. -/
theorem enqueue_perm (h : enqueue typeno k t = .ok k') :
    (k'.ready typeno).Perm (t :: k.ready typeno) := by
  cases typeno with
  | fifo | timeSlice =>
    obtain ⟨q, hq, h⟩ := bind_eq_ok.mp h
    obtain ⟨-, rfl⟩ := NList.append_eq_ok.mp hq
    cases h
    exact List.perm_append_singleton t _
  | priority =>
    obtain ⟨q, hq, h⟩ := bind_eq_ok.mp h
    obtain ⟨-, rfl⟩ := NList.insert_eq_ok.mp hq
    cases h
    exact NList.insertWalk_perm _ t _
  | feedback =>
    obtain ⟨_, hd, h⟩ := bind_eq_ok.mp h
    obtain ⟨q, hq, h⟩ := bind_eq_ok.mp h
    obtain ⟨-, rfl⟩ := NList.append_eq_ok.mp hq
    cases h
    exact flatten_set_perm (defined_eq_ok.mp hd).2 t

theorem readied_enqueue (h : enqueue typeno k t = .ok k') (hs : (k.thread t).status = .ready)
    (ht : t ∉ k.blockList) : Readied typeno t k k' := by
  have hb : k.blockList = k.blockList.erase t := (List.erase_of_not_mem ht).symm
  have hperm := enqueue_perm h
  cases typeno with
  | fifo | priority =>
    obtain ⟨q, -, h⟩ := bind_eq_ok.mp h
    cases h
    exact ⟨hs, rfl, fun _ _ => rfl, hperm, rfl, hb, rfl, rfl, rfl, rfl⟩
  | timeSlice =>
    obtain ⟨q, -, h⟩ := bind_eq_ok.mp h
    cases h
    exact ⟨by simp [hs], by simp, fun u hu => by simp [hu], hperm, rfl, hb, rfl, rfl, rfl, rfl⟩
  | feedback =>
    obtain ⟨_, -, h⟩ := bind_eq_ok.mp h
    obtain ⟨q, -, h⟩ := bind_eq_ok.mp h
    cases h
    exact ⟨by simp [hs], by simp, fun u hu => by simp [hu], hperm, rfl, hb, rfl, rfl, rfl, rfl⟩

/-- `ReadyToRun`, the thread being at most once in `blockList`. -/
theorem readied_readyToRun (h : readyToRun typeno k t = .ok k') (hn : k.blockList.Nodup) :
    Readied typeno t k k' := by
  obtain ⟨b, hb, h⟩ := bind_eq_ok.mp h
  have hb' : b = k.blockList.erase t := by
    split at hb
    · exact (NList.remove_eq_ok.mp hb).2.2
    · rename_i ht
      cases hb
      exact (List.erase_of_not_mem ht).symm
  subst hb'
  have := readied_enqueue h (by simp) (by simpa [setThread] using hn.not_mem_erase)
  obtain ⟨h₁, h₂, h₃, h₄, h₅, h₆, h₇, h₈, h₉, h₁₀⟩ := this
  refine ⟨h₁, by simpa using h₂, fun u hu => by simpa [hu] using h₃ u hu, ?_, ?_, ?_, h₇, h₈, h₉, h₁₀⟩
  · cases typeno <;> exact h₄
  · cases typeno <;> exact h₅
  · rw [h₆]
    exact List.erase_of_not_mem hn.not_mem_erase

omit [DecidableEq P] in
theorem firstQueued_perm {qs qs' : List (List P)} (h : firstQueued qs = some (t, qs')) :
    qs.flatten = t :: qs'.flatten := by
  induction qs generalizing qs' with
  | nil => cases h
  | cons q qs ih =>
    cases q with
    | cons u q => cases h; rfl
    | nil =>
      obtain ⟨⟨u, r⟩, hr, he⟩ := Option.map_eq_some_iff.mp h
      cases he
      simpa using ih hr

/-- `k'` is `k` with `t` taken off the ready structure. -/
structure Taken (typeno : Policy) (t : P) (k k' : Kernel P) : Prop where
  thread : k'.thread = k.thread
  ready : k.ready typeno = t :: k'.ready typeno
  unread : k'.unread typeno = k.unread typeno
  blockList : k'.blockList = k.blockList
  suspendList : k'.suspendList = k.suspendList
  threadArray : k'.threadArray = k.threadArray
  currentThread : k'.currentThread = k.currentThread
  toBeDestroyed : k'.toBeDestroyed = k.toBeDestroyed

omit [DecidableEq P] in
theorem taken_findNextToRun (h : findNextToRun typeno k = some (t, k')) : Taken typeno t k k' := by
  cases typeno with
  | fifo | timeSlice =>
    simp only [findNextToRun] at h
    split at h <;> [cases h; skip]
    rename_i hq
    cases h
    exact ⟨rfl, hq, rfl, rfl, rfl, rfl, rfl, rfl⟩
  | priority =>
    simp only [findNextToRun] at h
    split at h <;> [cases h; skip]
    rename_i hq
    cases h
    exact ⟨rfl, hq, rfl, rfl, rfl, rfl, rfl, rfl⟩
  | feedback =>
    obtain ⟨⟨u, r⟩, hr, he⟩ := Option.map_eq_some_iff.mp h
    cases he
    exact ⟨rfl, firstQueued_perm hr, rfl, rfl, rfl, rfl, rfl, rfl⟩

/-! ## Well-formed lists -/

/-- The lists are well formed, but for the threads of `out`, which are in no
list, and those of `deleted`, which may be left behind in `blockList`. -/
structure Wf (typeno : Policy) (k : Kernel P) (deleted : List P) (out : Set P) : Prop where
  unread : k.unread typeno = []
  suspendList : k.suspendList = []
  nodup : (k.ready typeno ++ k.blockList).Nodup
  ids : ∀ i u, k.threadArray[i]? = some (some u) → (k.thread u).threadID = i
  ready : ∀ u ∈ k.ready typeno, k.Registered u ∧ (k.thread u).status = .ready
  blocked : ∀ u ∈ k.blockList, k.Registered u ∧ (k.thread u).status = .blocked ∨ u ∈ deleted
  away : ∀ u ∈ out, k.Registered u ∧ u ∉ k.ready typeno ∧ u ∉ k.blockList ∧
    (k.thread u).status ≠ .justCreated
  placed : ∀ u, k.Registered u → (k.thread u).status ≠ .justCreated → u ∉ out → k.Placed typeno u
  stack : ∀ u, k.Registered u → (k.thread u).stack = true → (k.thread u).status ≠ .justCreated

variable {deleted : List P} {out : Set P}

/-- `ReadyToRun` of a thread that is not in the ready structure. -/
theorem Wf.readied (h : Wf typeno k deleted out) (ht : k.Registered t) (hr : t ∉ k.ready typeno)
    (hk : Readied typeno t k k') : Wf typeno k' deleted (out \ {t}) := by
  have hreg : ∀ u, k'.Registered u ↔ k.Registered u := fun u => by rw [Registered, hk.threadArray]; rfl
  have hn := List.nodup_append.mp h.nodup
  have hmem : ∀ u, u ∈ k'.ready typeno ↔ u = t ∨ u ∈ k.ready typeno := fun u => by
    rw [hk.ready.mem_iff, List.mem_cons]
  have hblk : ∀ u, u ∈ k'.blockList ↔ u ≠ t ∧ u ∈ k.blockList := fun u => by
    rw [hk.blockList, hn.2.1.mem_erase_iff]
  refine ⟨hk.unread.trans h.unread, hk.suspendList.trans h.suspendList, ?_, fun i u hu => ?_,
    fun u hu => ?_, fun u hu => ?_, fun u hu => ?_, fun u hu hs ho => ?_, fun u hu hs => ?_⟩
  · rw [List.nodup_append]
    refine ⟨hk.ready.nodup_iff.mpr (List.nodup_cons.mpr ⟨hr, hn.1⟩), ?_, fun a ha b hb e => ?_⟩
    · rw [hk.blockList]
      exact hn.2.1.erase t
    · subst e
      obtain ⟨hne, hb⟩ := (hblk a).mp hb
      rcases (hmem a).mp ha with e | ha
      · exact hne e
      · exact hn.2.2 a ha a hb rfl
  · rw [hk.threadArray] at hu
    by_cases e : u = t
    · subst e; rw [hk.threadID]; exact h.ids i u hu
    · rw [hk.thread u e]; exact h.ids i u hu
  · rw [hreg]
    by_cases e : u = t
    · subst e; exact ⟨ht, hk.status⟩
    · rw [hk.thread u e]
      exact h.ready u (((hmem u).mp hu).resolve_left e)
  · obtain ⟨hne, hb⟩ := (hblk u).mp hu
    rw [hreg, hk.thread u hne]
    exact h.blocked u hb
  · obtain ⟨hr', hnr, hnb, hj⟩ := h.away u hu.1
    rw [hreg, hmem, hblk, hk.thread u hu.2]
    exact ⟨hr', fun e => e.elim hu.2 hnr, fun e => hnb e.2, hj⟩
  · rw [hreg] at hu
    by_cases e : u = t
    · subst e; exact .inl ⟨(hmem u).mpr (.inl rfl), hk.status⟩
    · rw [Placed, hmem, hblk, hk.thread u e]
      rw [hk.thread u e] at hs
      rcases h.placed u hu hs (fun hu => ho ⟨hu, e⟩) with ⟨h₁, h₂⟩ | ⟨h₁, h₂⟩
      · exact .inl ⟨.inr h₁, h₂⟩
      · exact .inr ⟨⟨e, h₁⟩, h₂⟩
  · by_cases e : u = t
    · subst e; rw [hk.status]; decide
    · rw [hk.thread u e] at hs ⊢
      exact h.stack u ((hreg u).mp hu) hs

omit [DecidableEq P] in
/-- `FindNextToRun`. -/
theorem Wf.taken (h : Wf typeno k deleted out) (hk : Taken typeno t k k') :
    Wf typeno k' deleted (insert t out) := by
  have hreg : ∀ u, k'.Registered u ↔ k.Registered u := fun u => by rw [Registered, hk.threadArray]; rfl
  have hn := h.nodup
  have hready := h.ready
  have hout := h.away
  have hplaced := h.placed
  simp only [Placed, hk.ready] at hn hready hout hplaced
  obtain ⟨ht, hn⟩ := List.nodup_cons.mp hn
  refine ⟨hk.unread.trans h.unread, hk.suspendList.trans h.suspendList, hk.blockList ▸ hn,
    fun i u hu => ?_, fun u hu => ?_, fun u hu => ?_, fun u hu => ?_, fun u hu hs ho => ?_,
    fun u hu => ?_⟩
  · rw [hk.thread]
    exact h.ids i u (hk.threadArray ▸ hu)
  · rw [hreg, hk.thread]
    exact hready u (List.mem_cons_of_mem _ hu)
  · rw [hreg, hk.thread]
    exact h.blocked u (hk.blockList ▸ hu)
  · rw [hreg, hk.thread, hk.blockList]
    rcases hu with rfl | hu
    · obtain ⟨hr, hs⟩ := hready u List.mem_cons_self
      exact ⟨hr, fun hm => ht (List.mem_append_left _ hm), fun hm => ht (List.mem_append_right _ hm),
        by rw [hs]; decide⟩
    · obtain ⟨h₁, h₂, h₃⟩ := hout u hu
      exact ⟨h₁, fun hm => h₂ (List.mem_cons_of_mem _ hm), h₃⟩
  · rw [Placed, hk.thread, hk.blockList]
    rw [hk.thread] at hs
    rcases hplaced u ((hreg u).mp hu) hs (fun hu => ho (.inr hu)) with ⟨h₁, h₂⟩ | h₁
    · exact .inl ⟨(List.mem_cons.mp h₁).resolve_left fun e => ho (.inl e), h₂⟩
    · exact .inr h₁
  · rw [hk.thread]
    exact h.stack u ((hreg u).mp hu)

/-- A thread in no list gets another status. -/
theorem Wf.setStatus (h : Wf typeno k deleted out) (ht : t ∈ out) {st : ThreadStatus}
    (hst : st ≠ .justCreated) :
    Wf typeno (k.setThread t fun th => { th with status := st }) deleted out := by
  obtain ⟨hr, hnr, hnb, hj⟩ := h.away t ht
  have hready : (k.setThread t fun th => { th with status := st }).ready typeno = k.ready typeno := by
    cases typeno <;> rfl
  refine ⟨by cases typeno <;> exact h.unread, h.suspendList, hready ▸ h.nodup, fun i u hu => ?_,
    fun u hu => ?_, fun u hu => ?_, fun u hu => ?_, fun u hu hs ho => ?_, fun u hu hs => ?_⟩
  · have := h.ids i u hu
    by_cases e : u = t
    · subst e; simpa using this
    · simpa [e] using this
  · rw [hready] at hu
    have e : u ≠ t := fun e => hnr (e ▸ hu)
    simpa [e] using h.ready u hu
  · have e : u ≠ t := fun e => hnb (e ▸ hu)
    simpa [e] using h.blocked u hu
  · rw [hready]
    obtain ⟨h₁, h₂, h₃, h₄⟩ := h.away u hu
    refine ⟨h₁, h₂, h₃, ?_⟩
    by_cases e : u = t
    · subst e; simpa using hst
    · simpa [e] using h₄
  · have e : u ≠ t := fun e => ho (e ▸ ht)
    rw [Placed, hready]
    simp only [setThread_thread, Function.update_of_ne e] at hs ⊢
    exact h.placed u hu hs ho
  · by_cases e : u = t
    · subst e; simpa using hst
    · simp only [setThread_thread, Function.update_of_ne e] at hs ⊢
      exact h.stack u hu hs

/-- `blockAThread` of a thread in no list. -/
theorem Wf.block (h : Wf typeno k deleted out) (ht : t ∈ out) (hk : k.blockAThread t = .ok k') :
    Wf typeno k' deleted (out \ {t}) := by
  obtain ⟨b, hb, hk⟩ := bind_eq_ok.mp hk
  obtain ⟨-, rfl⟩ := NList.append_eq_ok.mp hb
  cases hk
  have h' := h.setStatus ht (show ThreadStatus.blocked ≠ .justCreated by decide)
  obtain ⟨hr, hnr, hnb, -⟩ := h'.away t ht
  have hready : ∀ l, Kernel.ready typeno { k.setThread t fun th => { th with status := .blocked } with
      blockList := l } = (k.setThread t fun th => { th with status := .blocked }).ready typeno :=
    fun l => by cases typeno <;> rfl
  refine ⟨by cases typeno <;> exact h'.unread, h'.suspendList, ?_, h'.ids, hready _ ▸ h'.ready,
    fun u hu => ?_, fun u hu => ?_, fun u hu hs ho => ?_, h'.stack⟩
  · rw [hready, ← List.append_assoc, List.nodup_append]
    refine ⟨h'.nodup, List.nodup_singleton t, fun a ha b hb e => ?_⟩
    obtain rfl := List.mem_singleton.mp hb
    subst e
    exact (List.mem_append.mp ha).elim hnr hnb
  · rcases List.mem_append.mp hu with hu | hu
    · exact h'.blocked u hu
    · obtain rfl := List.mem_singleton.mp hu
      exact .inl ⟨hr, by simp⟩
  · rw [hready]
    obtain ⟨h₁, h₂, h₃, h₄⟩ := h'.away u hu.1
    refine ⟨h₁, h₂, fun hm => ?_, h₄⟩
    rcases List.mem_append.mp hm with hm | hm
    · exact h₃ hm
    · exact hu.2 (List.mem_singleton.mp hm)
  · rw [Placed, hready]
    by_cases e : u = t
    · subst e; exact .inr ⟨by simp, by simp⟩
    · rcases h'.placed u hu hs fun hu => ho ⟨hu, e⟩ with h₁ | ⟨h₁, h₂⟩
      · exact .inl h₁
      · exact .inr ⟨List.mem_append_left _ h₁, h₂⟩

theorem run_eq {finishing : Bool} (hk : k.run t finishing = .ok k') :
    k' = { k with
      currentThread := t
      toBeDestroyed := if finishing then some k.currentThread else k.toBeDestroyed }.setThread t
        fun th => { th with status := .running } := by
  obtain ⟨k₁, h₁, hk⟩ := bind_eq_ok.mp hk
  cases hk
  cases finishing with
  | false => cases h₁; rfl
  | true =>
    obtain ⟨_, -, h₁⟩ := bind_eq_ok.mp h₁
    cases h₁
    rfl

/-- `Run` to a thread in no list. -/
theorem Wf.run (h : Wf typeno k deleted out) (ht : t ∈ out) {finishing : Bool}
    (hk : k.run t finishing = .ok k') : Wf typeno k' deleted out := by
  have hw : Wf typeno { k with
      currentThread := t
      toBeDestroyed := if finishing then some k.currentThread else k.toBeDestroyed } deleted out :=
    ⟨by cases typeno <;> exact h.unread, h.suspendList, by cases typeno <;> exact h.nodup,
      h.ids, by cases typeno <;> exact h.ready, h.blocked, by cases typeno <;> exact h.away,
      by cases typeno <;> exact h.placed, h.stack⟩
  rw [run_eq hk]
  exact hw.setStatus ht (by decide)

/-- `Yield` that does not switch. -/
theorem yield_false (hk : k.yield typeno = .ok (k', false)) : k' = k := by
  unfold Kernel.yield at hk
  split at hk
  · cases hk
    rfl
  · obtain ⟨k₁, -, hk⟩ := bind_eq_ok.mp hk
    obtain ⟨k₂, -, hk⟩ := bind_eq_ok.mp hk
    cases hk

theorem forkRest_false (hk : k.forkRest typeno = .ok (k', false)) : k' = k := by
  unfold Kernel.forkRest at hk
  split at hk
  · split at hk
    · cases hk
    · split at hk
      · exact yield_false hk
      · cases hk
        rfl
  · cases hk
    rfl

theorem dispatch_false {finishing : Bool} (hk : k.dispatch typeno finishing = .ok (k', false)) :
    k' = k := by
  unfold Kernel.dispatch at hk
  split at hk
  · cases hk
    rfl
  · obtain ⟨k₁, -, hk⟩ := bind_eq_ok.mp hk
    cases hk

/-- `Fork` makes ready a thread that is in no ready structure. -/
theorem readied_fork (hk : k.fork typeno t = .ok k') (hn : k.blockList.Nodup) :
    Readied typeno t k k' := by
  obtain ⟨h₁, h₂, h₃, h₄, h₅, h₆, h₇, h₈, h₉, h₁₀⟩ := readied_readyToRun hk hn
  exact ⟨h₁, by simpa using h₂, fun u hu => by simpa [hu] using h₃ u hu,
    by cases typeno <;> exact h₄, by cases typeno <;> exact h₅, h₆, h₇, h₈, h₉, h₁₀⟩

/-- An update of a thread's priority or of its time slice. -/
def Quiet (f : Thread → Thread) : Prop :=
  ∀ th, (f th).threadID = th.threadID ∧ (f th).status = th.status ∧ (f th).stack = th.stack

theorem setThread_quiet {f : Thread → Thread} (hf : Quiet f) (u : P) :
    ((k.setThread t f).thread u).threadID = (k.thread u).threadID ∧
      ((k.setThread t f).thread u).status = (k.thread u).status ∧
      ((k.setThread t f).thread u).stack = (k.thread u).stack := by
  by_cases e : u = t
  · subst e
    simpa using hf (k.thread u)
  · simp [e]

theorem Wf.setThread (h : Wf typeno k deleted out) {f : Thread → Thread} (hf : Quiet f) :
    Wf typeno (k.setThread t f) deleted out := by
  have hth := fun u => setThread_quiet (k := k) (t := t) hf u
  have hready : (k.setThread t f).ready typeno = k.ready typeno := by
    cases typeno <;> rfl
  refine ⟨by cases typeno <;> exact h.unread, h.suspendList, hready ▸ h.nodup, fun i u hu => ?_,
    fun u hu => ?_, fun u hu => ?_, fun u hu => ?_, fun u hu hs ho => ?_, fun u hu hs => ?_⟩
  · rw [(hth u).1]
    exact h.ids i u hu
  · rw [(hth u).2.1]
    exact h.ready u (hready ▸ hu)
  · rw [(hth u).2.1]
    exact h.blocked u hu
  · rw [(hth u).2.1, hready]
    exact h.away u hu
  · rw [(hth u).2.1] at hs
    rw [Placed, (hth u).2.1, hready]
    exact h.placed u hu hs ho
  · rw [(hth u).2.2] at hs
    rw [(hth u).2.1]
    exact h.stack u hu hs

omit [DecidableEq P] in
theorem registered_iff : k.Registered t ↔ ∃ i : Nat, k.threadArray[i]? = some (some t) := by
  rw [Registered, List.mem_iff_getElem?]

/-- `Thread::Thread` takes a free slot. -/
theorem newThread_cases (hk : k.newThread typeno t = .ok k') : ∃ i,
    k' = { k with threadArray := k.threadArray.set i (some t) }.setThread t (Thread.new typeno i) ∧
    ∀ (j : Nat) u, (k.threadArray.set i (some t))[j]? = some (some u) ↔
      j = i ∧ u = t ∨ k.threadArray[j]? = some (some u) := by
  unfold newThread at hk
  split at hk <;> [skip; cases hk]
  rename_i i a ha
  cases hk
  obtain ⟨hi, rfl⟩ := addAThread_eq_some ha
  have hlt : i < k.threadArray.length := (List.getElem?_eq_some_iff.mp hi).1
  refine ⟨i, rfl, fun j u => ?_⟩
  by_cases e : i = j
  · subst e
    rw [List.getElem?_set_self hlt, hi]
    simp [eq_comm]
  · simp [List.getElem?_set_ne e, Ne.symm e]

theorem newThread_registered (hk : k.newThread typeno t = .ok k') (u : P) :
    k'.Registered u ↔ u = t ∨ k.Registered u := by
  obtain ⟨i, rfl, hget⟩ := newThread_cases hk
  rw [registered_iff, registered_iff]
  simp only [setThread, hget]
  constructor
  · rintro ⟨j, ⟨rfl, rfl⟩ | hj⟩
    · exact .inl rfl
    · exact .inr ⟨j, hj⟩
  · rintro (rfl | ⟨j, hj⟩)
    · exact ⟨i, .inl ⟨rfl, rfl⟩⟩
    · exact ⟨j, .inr hj⟩

/-- `Thread::Thread` at an address where no thread exists. -/
theorem Wf.new (h : Wf typeno k deleted out) (ht : ¬ k.Registered t)
    (hk : k.newThread typeno t = .ok k') :
    Wf typeno k' deleted out ∧ (∀ u, k.Registered u → k'.Registered u) ∧
      (∀ u ≠ t, k'.thread u = k.thread u) ∧ k'.blockList = k.blockList ∧
      k'.currentThread = k.currentThread ∧ k'.toBeDestroyed = k.toBeDestroyed := by
  have hreg := newThread_registered hk
  obtain ⟨i, rfl, hget⟩ := newThread_cases hk
  refine ⟨?_, fun u hu => (hreg u).mpr (.inr hu), fun u hu => by simp [hu], rfl, rfl, rfl⟩
  have hready : ∀ f, Kernel.ready typeno ({ k with threadArray := k.threadArray.set i (some t)
      }.setThread t f) = k.ready typeno := fun f => by
    cases typeno <;> rfl
  refine ⟨by cases typeno <;> exact h.unread, h.suspendList, by rw [hready]; exact h.nodup,
    fun j u hu => ?_, fun u hu => ?_, fun u hu => ?_, fun u hu => ?_, fun u hu hs ho => ?_,
    fun u hu hs => ?_⟩
  · rcases (hget j u).mp hu with ⟨rfl, rfl⟩ | hu
    · simp
    · have e : u ≠ t := fun e => ht (registered_iff.mpr ⟨j, e ▸ hu⟩)
      simpa [e] using h.ids j u hu
  · rw [hready] at hu
    obtain ⟨h₁, h₂⟩ := h.ready u hu
    have e : u ≠ t := fun e => ht (e ▸ h₁)
    exact ⟨(hreg u).mpr (.inr h₁), by simpa [e] using h₂⟩
  · rcases h.blocked u hu with ⟨h₁, h₂⟩ | hd
    · have e : u ≠ t := fun e => ht (e ▸ h₁)
      exact .inl ⟨(hreg u).mpr (.inr h₁), by simpa [e] using h₂⟩
    · exact .inr hd
  · obtain ⟨h₁, h₂, h₃, h₄⟩ := h.away u hu
    have e : u ≠ t := fun e => ht (e ▸ h₁)
    rw [hready]
    exact ⟨(hreg u).mpr (.inr h₁), h₂, h₃, by simpa [e] using h₄⟩
  · by_cases e : u = t
    · subst e; simp at hs
    · rw [Placed, hready]
      simp only [setThread_thread, Function.update_of_ne e] at hs ⊢
      exact h.placed u (((hreg u).mp hu).resolve_left e) hs ho
  · by_cases e : u = t
    · subst e; simp at hs
    · simp only [setThread_thread, Function.update_of_ne e] at hs ⊢
      exact h.stack u (((hreg u).mp hu).resolve_left e) hs

/-- `CheckToBeDestroyed` clears the slot of the thread. -/
theorem checkToBeDestroyed_cases
    (hids : ∀ (i : Nat) u, k.threadArray[i]? = some (some u) → (k.thread u).threadID = i) (ht : k.Registered t) (hd : k.toBeDestroyed = some t)
    (hk : k.checkToBeDestroyed = .ok k') : ∃ i,
    k' = { k with threadArray := k.threadArray.set i none, toBeDestroyed := none } ∧
    ∀ (j : Nat) u, (k.threadArray.set i none)[j]? = some (some u) ↔
      u ≠ t ∧ k.threadArray[j]? = some (some u) := by
  unfold checkToBeDestroyed at hk
  rw [hd] at hk
  obtain ⟨_, -, hk⟩ := bind_eq_ok.mp hk
  cases hk
  obtain ⟨i, hi⟩ := registered_iff.mp ht
  have hlt : i < k.threadArray.length := (List.getElem?_eq_some_iff.mp hi).1
  refine ⟨i, by rw [hids i t hi]; rfl, fun j u => ?_⟩
  by_cases e : i = j
  · subst e
    rw [List.getElem?_set_self hlt, hi]
    simp +contextual [eq_comm]
  · rw [List.getElem?_set_ne e]
    refine ⟨fun hu => ⟨?_, hu⟩, And.right⟩
    rintro rfl
    exact e ((hids i u hi).symm.trans (hids j u hu))

/-- `CheckToBeDestroyed` of a blocked thread. -/
theorem Wf.destroy (h : Wf typeno k deleted out) (ht : k.Registered t) (hb : t ∈ k.blockList)
    (hd : k.toBeDestroyed = some t) (hk : k.checkToBeDestroyed = .ok k') :
    Wf typeno k' (t :: deleted) out ∧ (∀ u ≠ t, k.Registered u → k'.Registered u) ∧
      k'.thread = k.thread ∧ k'.blockList = k.blockList ∧ k'.currentThread = k.currentThread ∧
      k'.toBeDestroyed = none := by
  obtain ⟨i, rfl, hget⟩ := checkToBeDestroyed_cases h.ids ht hd hk
  have hreg : ∀ u, some u ∈ k.threadArray.set i none ↔ u ≠ t ∧ k.Registered u := fun u => by
    rw [registered_iff, List.mem_iff_getElem?]
    simp only [hget]
    exact ⟨fun ⟨j, h₁, h₂⟩ => ⟨h₁, j, h₂⟩, fun ⟨h₁, j, h₂⟩ => ⟨j, h₁, h₂⟩⟩
  have hn := (List.nodup_append.mp h.nodup).2.2
  refine ⟨?_, fun u hu hr => (hreg u).mpr ⟨hu, hr⟩, rfl, rfl, rfl, rfl⟩
  refine ⟨by cases typeno <;> exact h.unread, h.suspendList, by cases typeno <;> exact h.nodup,
    fun j u hu => h.ids j u ((hget j u).mp hu).2, fun u hu => ?_, fun u hu => ?_, fun u hu => ?_,
    fun u hu hs ho => ?_, fun u hu => h.stack u ((hreg u).mp hu).2⟩
  · have hu : u ∈ k.ready typeno := by cases typeno <;> exact hu
    obtain ⟨h₁, h₂⟩ := h.ready u hu
    exact ⟨(hreg u).mpr ⟨fun e => hn u hu t hb e, h₁⟩, h₂⟩
  · by_cases e : u = t
    · exact .inr (e ▸ List.mem_cons_self)
    · rcases h.blocked u hu with ⟨h₁, h₂⟩ | hd
      · exact .inl ⟨(hreg u).mpr ⟨e, h₁⟩, h₂⟩
      · exact .inr (List.mem_cons_of_mem _ hd)
  · obtain ⟨h₁, h₂, h₃, h₄⟩ := h.away u hu
    exact ⟨(hreg u).mpr ⟨fun e => h₃ (e ▸ hb), h₁⟩, by cases typeno <;> exact h₂, h₃, h₄⟩
  · have := h.placed u ((hreg u).mp hu).2 hs ho
    cases typeno <;> exact this

/-- Without deleted threads, well-formed lists are what `Safe` says. -/
theorem Wf.safe (h : Wf typeno k [] out) (ho : out ⊆ {k.currentThread}) : k.Safe typeno := by
  have hperm := k.lists_perm typeno
  rw [h.unread, h.suspendList, List.append_nil, List.append_nil] at hperm
  refine ⟨fun t ht => ?_, fun t hr hst hc _ => ?_⟩
  · rcases List.mem_append.mp (hperm.mem_iff.mp ht) with ht | ht
    · exact (h.ready t ht).1
    · rcases h.blocked t ht with h₁ | hd
      · exact h₁.1
      · cases hd
  · have hp := h.placed t hr (h.stack t hr hst) fun hu => hc (ho hu)
    refine ⟨List.count_eq_one_of_mem (hperm.nodup_iff.mpr h.nodup) (hperm.mem_iff.mpr ?_), hp⟩
    exact List.mem_append.mpr (hp.imp And.left And.left)

end Kernel

/-! ## Runs -/

namespace Proof.Scheduler

open Kernel

/-- Where the processor is: in the code of `currentThread`, in its loop in
`Sleep`, or behind `SWITCH`, before `CheckToBeDestroyed`. -/
inductive Phase
  | running
  | sleeping (finishing : Bool)
  | switched
  deriving DecidableEq

/-- The kernel; the threads queued at semaphores, which `P` queues before it
calls `Sleep(FALSE)`; the threads inside `Fork`, behind `SetLevel`; and the
deleted ones. -/
structure State (P : Type) where
  kernel : Kernel P
  phase : Phase
  waiting : List P
  forking : P → Bool
  deleted : List P

/-- The operations. `yield` is also the timer's. -/
inductive Op (P : Type)
  | newThread (t : P)
  | setPriority (t : P) (n : Int)
  | fork (t : P)
  | forkRest
  | yield
  | sleep
  | finish
  | dispatch
  | wake (t : P)
  | resume
  deriving DecidableEq

/-- `currentThread` runs its own code, outside `Fork`. -/
def State.inCode (s : State P) : Bool :=
  s.phase = .running ∧ s.forking s.kernel.currentThread = false

/-- When an operation can happen. An address is new while no thread exists
there, a thread is forked once, and `V` wakes a thread that waits. -/
def enabled (s : State P) : Op P → Bool
  | .newThread t => s.inCode && !s.kernel.Registered t
  | .setPriority t _ | .fork t =>
    s.inCode && s.kernel.Registered t && (s.kernel.thread t).status = .justCreated
  | .forkRest => s.phase = .running && s.forking s.kernel.currentThread
  | .yield => s.phase = .running
  | .sleep | .finish => s.inCode
  | .dispatch => s.phase = .sleeping true || s.phase = .sleeping false
  | .wake t => s.phase ≠ .switched && t ∈ s.waiting
  | .resume => s.phase = .switched

/-- What an operation does. -/
def exec (typeno : Policy) (s : State P) : Op P → Except Abort (State P)
  | .newThread t => do
    let k ← s.kernel.newThread typeno t
    return { s with kernel := k }
  | .setPriority t n =>
    return { s with kernel := s.kernel.setThread t fun th => { th with priority := n } }
  | .fork t => do
    let k ← s.kernel.fork typeno t
    return { s with
      kernel := k, forking := Function.update s.forking s.kernel.currentThread true }
  | .forkRest => do
    let (k, b) ← s.kernel.forkRest typeno
    return { s with
      kernel := k, phase := if b then .switched else .running
      forking := Function.update s.forking s.kernel.currentThread false }
  | .yield => do
    let (k, b) ← s.kernel.yield typeno
    return { s with kernel := k, phase := if b then .switched else .running }
  | .sleep => do
    let k ← s.kernel.sleep
    return { s with
      kernel := k, phase := .sleeping false, waiting := s.waiting ++ [s.kernel.currentThread] }
  | .finish => do
    let k ← s.kernel.sleep
    return { s with kernel := k, phase := .sleeping true }
  | .dispatch => do
    let (k, b) ← s.kernel.dispatch typeno (s.phase = .sleeping true)
    return { s with kernel := k, phase := if b then .switched else s.phase }
  | .wake t => do
    let k ← s.kernel.readyToRun typeno t
    return { s with kernel := k, waiting := s.waiting.erase t }
  | .resume => do
    let k ← s.kernel.checkToBeDestroyed
    return { s with
      kernel := k, phase := .running, deleted := s.kernel.toBeDestroyed.toList ++ s.deleted }

/-- One operation; one that cannot happen changes nothing. -/
def next (typeno : Policy) (s : State P) (op : Op P) : Except Abort (State P) :=
  if enabled s op then exec typeno s op else .ok s

/-- The kernel after `Kernel::Initialize`, over any contents `mem` of memory. -/
def start (typeno : Policy) (mem : P → Thread) (main : P) : State P where
  kernel := initializeKernel typeno mem main
  phase := .running
  waiting := []
  forking _ := false
  deleted := []

def system (typeno : Policy) (mem : P → Thread) (main : P) : System (State P) (Op P) :=
  .ofFun (start typeno mem main) (next typeno)

/-! ## The invariant -/

/-- A thread that exists and is blocked. -/
def Blocked (k : Kernel P) (t : P) : Prop :=
  k.Registered t ∧ t ∈ k.blockList ∧ (k.thread t).status = .blocked

/-- The threads in no list. -/
def away (s : State P) : Set P :=
  match s.phase with
  | .sleeping _ => ∅
  | _ => {s.kernel.currentThread}

/-- The invariant of every run, whether threads are destroyed or not. -/
structure Inv (typeno : Policy) (s : State P) : Prop where
  wf : Wf typeno s.kernel s.deleted (away s)
  finishing : s.phase = .sleeping true →
    Blocked s.kernel s.kernel.currentThread ∧ s.kernel.currentThread ∉ s.waiting
  destroyed : ∀ t, s.kernel.toBeDestroyed = some t →
    s.phase = .switched ∧ Blocked s.kernel t ∧ t ∉ s.waiting
  waiting : ∀ t ∈ s.waiting, Blocked s.kernel t
  nodup : s.waiting.Nodup

theorem Blocked.readied {typeno : Policy} {k k' : Kernel P} {t u : P} (h : Blocked k u)
    (hk : Readied typeno t k k') (hu : u ≠ t) : Blocked k' u := by
  obtain ⟨h₁, h₂, h₃⟩ := h
  refine ⟨by rw [Registered, hk.threadArray]; exact h₁, ?_, by rw [hk.thread u hu]; exact h₃⟩
  rw [hk.blockList]
  exact (List.mem_erase_of_ne hu).mpr h₂

omit [DecidableEq P] in
theorem Blocked.taken {typeno : Policy} {k k' : Kernel P} {t u : P} (h : Blocked k u)
    (hk : Taken typeno t k k') : Blocked k' u := by
  rw [Blocked, Registered, hk.threadArray, hk.blockList, hk.thread]
  exact h

theorem Blocked.run {k k' : Kernel P} {t u : P} {finishing : Bool} (h : Blocked k u)
    (hk : k.run t finishing = .ok k') (hu : u ≠ t) : Blocked k' u := by
  rw [run_eq hk]
  exact ⟨h.1, h.2.1, by simpa [hu] using h.2.2⟩

theorem Blocked.block {k k' : Kernel P} {t u : P} (h : Blocked k u) (hk : k.blockAThread t = .ok k')
    (hu : u ≠ t) : Blocked k' u := by
  obtain ⟨b, hb, hk⟩ := bind_eq_ok.mp hk
  obtain ⟨-, rfl⟩ := NList.append_eq_ok.mp hb
  cases hk
  exact ⟨h.1, List.mem_append_left _ h.2.1, by simpa [hu] using h.2.2⟩

theorem blocked_block {k k' : Kernel P} {t : P} (ht : k.Registered t)
    (hk : k.blockAThread t = .ok k') :
    Blocked k' t ∧ k'.currentThread = k.currentThread ∧ k'.toBeDestroyed = k.toBeDestroyed := by
  obtain ⟨b, hb, hk⟩ := bind_eq_ok.mp hk
  obtain ⟨-, rfl⟩ := NList.append_eq_ok.mp hb
  cases hk
  exact ⟨⟨ht, by simp, by simp⟩, rfl, rfl⟩

theorem inv_init (typeno : Policy) (mem : P → Thread) (main : P) : Inv typeno (start typeno mem main) := by
  have hreg : ∀ i u, (start typeno mem main).kernel.threadArray[i]? = some (some u) → i = 0 ∧ u = main := by
    intro i u hu
    simp only [start, initializeKernel] at hu
    by_cases e : 0 = i
    · subst e
      simpa [maxThreadNum, eq_comm] using hu
    · simp [List.getElem?_set_ne e, List.getElem?_replicate] at hu
  have hr : ∀ u, (start typeno mem main).kernel.Registered u → u = main := fun u hu => by
    obtain ⟨i, hi⟩ := registered_iff.mp hu
    exact (hreg i u hi).2
  have hready : (start typeno mem main).kernel.ready typeno = [] := by
    cases typeno <;> rfl
  refine ⟨⟨?_, rfl, ?_, fun i u hu => ?_, fun u hu => ?_, nofun, fun u hu => ?_, fun u hu hs ho => ?_,
    fun u hu hs => ?_⟩, nofun, nofun, nofun, .nil⟩
  · cases typeno <;> rfl
  · rw [hready]
    exact .nil
  · obtain ⟨rfl, rfl⟩ := hreg i u hu
    simp [start, initializeKernel]
  · rw [hready] at hu
    cases hu
  · cases hu
    exact ⟨by simp [start, initializeKernel, Registered, maxThreadNum],
      by rw [hready]; exact List.not_mem_nil, List.not_mem_nil, by simp [start, initializeKernel]⟩
  · exact absurd (hr u hu) ho
  · rw [hr u hu] at hs
    simp [start, initializeKernel] at hs

section
variable {typeno : Policy} {k k' : Kernel P} {deleted : List P}

/-- `Yield`: nothing changed, or another thread is behind `SWITCH`. -/
theorem wf_yield (h : Wf typeno k deleted {k.currentThread}) {b : Bool}
    (hk : k.yield typeno = .ok (k', b)) :
    Wf typeno k' deleted {k'.currentThread} ∧ k'.toBeDestroyed = k.toBeDestroyed ∧
      ∀ u, Blocked k u → Blocked k' u := by
  unfold Kernel.yield at hk
  split at hk
  · cases hk
    exact ⟨h, rfl, fun _ => id⟩
  · rename_i t k₁ hf
    obtain ⟨k₂, h₂, hk⟩ := bind_eq_ok.mp hk
    obtain ⟨k₃, h₃, hk⟩ := bind_eq_ok.mp hk
    cases hk
    have ht := taken_findNextToRun hf
    have h₁ := h.taken ht
    have hn := (List.nodup_append.mp h₁.nodup).2.1
    have hr := readied_readyToRun h₂ hn
    -- The current thread runs and is in no list; the next one was ready.
    have hc := h.away _ rfl
    have hne : t ≠ k.currentThread := fun e => hc.2.1 (e ▸ ht.ready ▸ List.mem_cons_self)
    have hc₁ := h₁.away k₁.currentThread (.inr (by rw [ht.currentThread]; rfl))
    have h₂' := h₁.readied hc₁.1 hc₁.2.1 hr
    have hout : insert t {k.currentThread} \ {k₁.currentThread} = ({t} : Set P) := by
      ext u
      simp only [ht.currentThread, Set.mem_sdiff, Set.mem_insert_iff, Set.mem_singleton_iff]
      constructor
      · rintro ⟨rfl | h, h'⟩
        · rfl
        · exact absurd h h'
      · rintro rfl
        exact ⟨.inl rfl, hne⟩
    rw [hout] at h₂'
    have h₃' := h₂'.run rfl h₃
    have hrun := run_eq h₃
    refine ⟨by rw [hrun] at h₃' ⊢; exact h₃', ?_, fun u hu => ?_⟩
    · rw [hrun]
      exact hr.toBeDestroyed.trans ht.toBeDestroyed
    · have hut : u ≠ t := fun e =>
        (h₁.away t (Set.mem_insert _ _)).2.2.1 (by rw [ht.blockList]; exact e ▸ hu.2.1)
      have huc : u ≠ k₁.currentThread := by
        rw [ht.currentThread]
        exact fun e => hc.2.2.1 (e ▸ hu.2.1)
      exact ((hu.taken ht).readied hr huc).run h₃ hut

/-- One turn of the loop of `Sleep`. -/
theorem wf_dispatch (h : Wf typeno k deleted ∅) {finishing b : Bool}
    (hk : k.dispatch typeno finishing = .ok (k', b)) :
    (b = false ∧ k' = k) ∨ (b = true ∧ Wf typeno k' deleted {k'.currentThread} ∧
      k'.toBeDestroyed = (if finishing then some k.currentThread else k.toBeDestroyed) ∧
      ∀ u, Blocked k u → Blocked k' u) := by
  unfold Kernel.dispatch at hk
  split at hk
  · cases hk
    exact .inl ⟨rfl, rfl⟩
  · rename_i t k₁ hf
    obtain ⟨k₂, h₂, hk⟩ := bind_eq_ok.mp hk
    cases hk
    have ht := taken_findNextToRun hf
    have h₁ := h.taken ht
    have h₂' := h₁.run (Set.mem_insert _ _) h₂
    have hrun := run_eq h₂
    rw [insert_empty_eq] at h₁ h₂'
    refine .inr ⟨rfl, by rw [hrun] at h₂' ⊢; exact h₂', ?_, fun u hu => ?_⟩
    · rw [hrun]
      simp only [setThread, ht.currentThread, ht.toBeDestroyed]
    · have hut : u ≠ t := fun e =>
        (h₁.away t rfl).2.2.1 (by rw [ht.blockList]; exact e ▸ hu.2.1)
      exact (hu.taken ht).run h₂ hut

end

/-! ## Every operation keeps the invariant -/

section
variable {typeno : Policy} {s s' : State P}

omit [DecidableEq P] in
theorem Inv.wf_running (h : Inv typeno s) (hp : s.phase = .running) :
    Wf typeno s.kernel s.deleted {s.kernel.currentThread} := by
  have := h.wf
  rwa [away, hp] at this

omit [DecidableEq P] in
theorem Inv.none_destroyed (h : Inv typeno s) (hp : s.phase ≠ .switched) :
    s.kernel.toBeDestroyed = none := by
  cases hd : s.kernel.toBeDestroyed with
  | none => rfl
  | some t => exact absurd (h.destroyed t hd).1 hp

omit [DecidableEq P] in
/-- An operation of the running thread, up to where it goes on or switches. -/
theorem Inv.runs (h : Inv typeno s) (hp : s.phase = .running) {k : Kernel P} {f : P → Bool}
    (hk : Wf typeno k s.deleted {k.currentThread}) (hd : k.toBeDestroyed = s.kernel.toBeDestroyed)
    (hb : ∀ u, Blocked s.kernel u → Blocked k u) (b : Bool) :
    Inv typeno { s with kernel := k, forking := f, phase := if b then .switched else .running } where
  wf := by cases b <;> exact hk
  finishing := by cases b <;> exact nofun
  destroyed t ht := by
    rw [hd, h.none_destroyed (by rw [hp]; decide)] at ht
    cases ht
  waiting t ht := hb t (h.waiting t ht)
  nodup := h.nodup

theorem inv_newThread (h : Inv typeno s) {t : P} (he : enabled s (.newThread t) = true)
    (hs : exec typeno s (.newThread t) = .ok s') : Inv typeno s' := by
  simp only [enabled, State.inCode, Bool.and_eq_true, decide_eq_true_eq, Bool.not_eq_true',
    decide_eq_false_iff_not] at he
  obtain ⟨⟨hp, -⟩, hr⟩ := he
  obtain ⟨k, hk, hs⟩ := bind_eq_ok.mp hs
  cases hs
  obtain ⟨hw, hreg, hth, hbl, hc, hd⟩ := (h.wf_running hp).new hr hk
  rw [← hc] at hw
  have := h.runs hp hw hd (fun u hu => ?_) false (f := s.forking)
  · simpa [hp] using this
  · have hut : u ≠ t := fun e => hr (e ▸ hu.1)
    exact ⟨hreg u hu.1, hbl ▸ hu.2.1, by rw [hth u hut]; exact hu.2.2⟩

theorem inv_setThread (h : Inv typeno s) {t : P} {f : Thread → Thread} (hf : Quiet f) :
    Inv typeno { s with kernel := s.kernel.setThread t f } := by
  have hb : ∀ u, Blocked s.kernel u → Blocked (s.kernel.setThread t f) u := fun u hu =>
    ⟨hu.1, hu.2.1, by rw [(setThread_quiet hf u).2.1]; exact hu.2.2⟩
  exact ⟨h.wf.setThread hf, fun hp => ⟨hb _ (h.finishing hp).1, (h.finishing hp).2⟩,
    fun u hu => ⟨(h.destroyed u hu).1, hb u (h.destroyed u hu).2.1, (h.destroyed u hu).2.2⟩,
    fun u hu => hb u (h.waiting u hu), h.nodup⟩

theorem inv_fork (h : Inv typeno s) {t : P} (he : enabled s (.fork t) = true)
    (hs : exec typeno s (.fork t) = .ok s') : Inv typeno s' := by
  simp only [enabled, State.inCode, Bool.and_eq_true, decide_eq_true_eq] at he
  obtain ⟨⟨⟨hp, -⟩, hr⟩, hj⟩ := he
  obtain ⟨k, hk, hs⟩ := bind_eq_ok.mp hs
  cases hs
  have hw := h.wf_running hp
  have hk := readied_fork hk (List.nodup_append.mp hw.nodup).2.1
  have hready : t ∉ s.kernel.ready typeno := fun hm => by
    have := (hw.ready t hm).2
    rw [hj] at this
    cases this
  have hout : ({s.kernel.currentThread} : Set P) \ {t} = {k.currentThread} := by
    rw [hk.currentThread]
    refine Set.sdiff_singleton_eq_self fun e => ?_
    exact (hw.away t e).2.2.2 hj
  have := h.runs hp (hout ▸ hw.readied hr hready hk) hk.toBeDestroyed (fun u hu => ?_) false
    (f := Function.update s.forking s.kernel.currentThread true)
  · simpa [hp] using this
  · have hut : u ≠ t := fun e => by
      have := hu.2.2
      rw [e, hj] at this
      cases this
    exact hu.readied hk hut

theorem inv_yield (h : Inv typeno s) (hp : s.phase = .running) {k : Kernel P} {b : Bool}
    (hk : s.kernel.yield typeno = .ok (k, b)) (f : P → Bool) :
    Inv typeno { s with kernel := k, forking := f, phase := if b then .switched else .running } := by
  obtain ⟨hw, hd, hb⟩ := wf_yield (h.wf_running hp) hk
  exact h.runs hp hw hd hb b

theorem inv_forkRest (h : Inv typeno s) (he : enabled s .forkRest = true)
    (hs : exec typeno s .forkRest = .ok s') : Inv typeno s' := by
  simp only [enabled, Bool.and_eq_true, decide_eq_true_eq] at he
  obtain ⟨⟨k, b⟩, hk, hs⟩ := bind_eq_ok.mp hs
  cases hs
  have hid := h.runs he.1 (h.wf_running he.1) rfl (fun _ => id) false
    (f := Function.update s.forking s.kernel.currentThread false)
  unfold Kernel.forkRest at hk
  split at hk
  · split at hk <;> [cases hk; skip]
    split at hk
    · exact inv_yield h he.1 hk _
    · cases hk; exact hid
  · cases hk; exact hid

/-- `Sleep`: the current thread is blocked, and waits or finishes. -/
theorem inv_block (h : Inv typeno s) (hp : s.phase = .running) {k : Kernel P}
    (hk : s.kernel.sleep = .ok k) (finishing : Bool) {w : List P}
    (hw : w = if finishing then s.waiting else s.waiting ++ [s.kernel.currentThread]) :
    Inv typeno { s with kernel := k, phase := .sleeping finishing, waiting := w } := by
  have hwf := h.wf_running hp
  have hc := hwf.away _ rfl
  obtain ⟨hb, hcur, hd⟩ := blocked_block hc.1 hk
  have hnw : s.kernel.currentThread ∉ s.waiting := fun hm => hc.2.2.1 (h.waiting _ hm).2.1
  have hold : ∀ u ∈ s.waiting, Blocked k u := fun u hu =>
    (h.waiting u hu).block hk fun e => hnw (e ▸ hu)
  refine ⟨?_, fun hf => ?_, fun t ht => ?_, fun u hu => ?_, ?_⟩
  · have := hwf.block (t := s.kernel.currentThread) rfl hk
    rwa [Set.sdiff_self] at this
  · cases hf
    simp only [ite_true] at hw
    rw [hcur, hw]
    exact ⟨hb, hnw⟩
  · rw [hd, h.none_destroyed (by rw [hp]; decide)] at ht
    cases ht
  · subst hw
    cases finishing with
    | true => exact hold u hu
    | false =>
      rcases List.mem_append.mp hu with hu | hu
      · exact hold u hu
      · rw [List.mem_singleton.mp hu]
        exact hb
  · subst hw
    cases finishing with
    | true => exact h.nodup
    | false =>
      rw [← List.concat_eq_append]
      exact h.nodup.concat hnw

theorem inv_dispatch (h : Inv typeno s) (he : enabled s .dispatch = true)
    (hs : exec typeno s .dispatch = .ok s') : Inv typeno s' := by
  simp only [enabled, Bool.or_eq_true, decide_eq_true_eq] at he
  obtain ⟨⟨k, b⟩, hk, hs⟩ := bind_eq_ok.mp hs
  cases hs
  have hwf : Wf typeno s.kernel s.deleted ∅ := by
    have := h.wf
    rw [away] at this
    rcases he with hp | hp <;> rwa [hp] at this
  have hns : s.phase ≠ .switched := by
    rcases he with hp | hp <;> rw [hp] <;> decide
  rcases wf_dispatch hwf hk with ⟨rfl, rfl⟩ | ⟨rfl, hw, hd, hb⟩
  · exact h
  · refine ⟨hw, nofun, fun t ht => ⟨rfl, ?_⟩, fun u hu => hb u (h.waiting u hu), h.nodup⟩
    rw [hd] at ht
    split at ht
    · rename_i hf
      obtain rfl := Option.some.inj ht
      obtain ⟨h₁, h₂⟩ := h.finishing (decide_eq_true_eq.mp hf)
      exact ⟨hb _ h₁, h₂⟩
    · rw [h.none_destroyed hns] at ht
      cases ht

theorem inv_wake (h : Inv typeno s) {t : P} (he : enabled s (.wake t) = true)
    (hs : exec typeno s (.wake t) = .ok s') : Inv typeno s' := by
  simp only [enabled, Bool.and_eq_true, decide_eq_true_eq] at he
  obtain ⟨hp, ht⟩ := he
  obtain ⟨k, hk, hs⟩ := bind_eq_ok.mp hs
  cases hs
  have hn := List.nodup_append.mp h.wf.nodup
  have hk := readied_readyToRun hk hn.2.1
  have hbt := h.waiting t ht
  have hout : away s \ {t} = away { s with kernel := k, waiting := s.waiting.erase t } := by
    simp only [away, hk.currentThread]
    have := h.wf.away t
    simp only [away] at this
    split at this
    · exact Set.empty_sdiff _
    · exact Set.sdiff_singleton_eq_self fun hm => (this hm).2.2.1 hbt.2.1
  have hmem : ∀ u, u ∈ s.waiting.erase t ↔ u ≠ t ∧ u ∈ s.waiting := fun u => h.nodup.mem_erase_iff
  refine ⟨hout ▸ h.wf.readied hbt.1 (fun hm => hn.2.2 t hm t hbt.2.1 rfl) hk, fun hf => ?_,
    fun u hu => ?_, fun u hu => ?_, h.nodup.erase t⟩
  · obtain ⟨h₁, h₂⟩ := h.finishing hf
    simp only [hk.currentThread, hmem]
    exact ⟨h₁.readied hk fun e => h₂ (e ▸ ht), fun hm => h₂ hm.2⟩
  · rw [hk.toBeDestroyed, h.none_destroyed hp] at hu
    cases hu
  · obtain ⟨hut, hu⟩ := (hmem u).mp hu
    exact (h.waiting u hu).readied hk hut

theorem inv_resume (h : Inv typeno s) (he : enabled s .resume = true)
    (hs : exec typeno s .resume = .ok s') : Inv typeno s' := by
  simp only [enabled, decide_eq_true_eq] at he
  obtain ⟨k, hk, hs⟩ := bind_eq_ok.mp hs
  cases hs
  have hwf : Wf typeno s.kernel s.deleted {s.kernel.currentThread} := by
    have := h.wf
    rwa [away, he] at this
  cases hd : s.kernel.toBeDestroyed with
  | none =>
    simp only [checkToBeDestroyed, hd] at hk
    cases hk
    refine ⟨hwf, nofun, fun t ht => ?_, h.waiting, h.nodup⟩
    rw [hd] at ht
    cases ht
  | some t =>
    obtain ⟨-, hb, hw⟩ := h.destroyed t hd
    obtain ⟨hwf', hreg, hth, hbl, hc, hd'⟩ := hwf.destroy hb.1 hb.2.1 hd hk
    rw [← hc] at hwf'
    refine ⟨hwf', nofun, fun u hu => ?_, fun u hu => ?_, h.nodup⟩
    · rw [hd'] at hu
      cases hu
    · obtain ⟨h₁, h₂, h₃⟩ := h.waiting u hu
      exact ⟨hreg u (fun e => hw (e ▸ hu)) h₁, by rw [hbl]; exact h₂, by rw [hth]; exact h₃⟩

theorem inv_step (h : Inv typeno s) {op : Op P} (hs : next typeno s op = .ok s') : Inv typeno s' := by
  unfold next at hs
  split at hs <;> [skip; (cases hs; exact h)]
  rename_i he
  cases op with
  | newThread t => exact inv_newThread h he hs
  | setPriority t n =>
    cases hs
    exact inv_setThread h fun _ => ⟨rfl, rfl, rfl⟩
  | fork t => exact inv_fork h he hs
  | forkRest => exact inv_forkRest h he hs
  | yield =>
    simp only [enabled, decide_eq_true_eq] at he
    obtain ⟨⟨k, b⟩, hk, hs⟩ := bind_eq_ok.mp hs
    cases hs
    exact inv_yield h he hk _
  | sleep =>
    simp only [enabled, State.inCode, decide_eq_true_eq] at he
    obtain ⟨k, hk, hs⟩ := bind_eq_ok.mp hs
    cases hs
    exact inv_block h he.1 hk false rfl
  | finish =>
    simp only [enabled, State.inCode, decide_eq_true_eq] at he
    obtain ⟨k, hk, hs⟩ := bind_eq_ok.mp hs
    cases hs
    exact inv_block h he.1 hk true rfl
  | dispatch => exact inv_dispatch h he hs
  | wake t => exact inv_wake h he hs
  | resume => exact inv_resume h he hs

end

/-- No finished thread is destroyed. -/
def NoneDestroyed (s : State P) (op : Op P) : Prop :=
  op = .resume → s.kernel.toBeDestroyed = none

instance (s : State P) (op : Op P) : Decidable (NoneDestroyed s op) :=
  inferInstanceAs (Decidable (_ → _))

theorem deleted_step {typeno : Policy} {s s' : State P} {op : Op P} (hc : NoneDestroyed s op)
    (hs : next typeno s op = .ok s') : s'.deleted = s.deleted := by
  unfold next at hs
  split at hs <;> [skip; (cases hs; rfl)]
  cases op
  case resume =>
    obtain ⟨k, -, hs⟩ := bind_eq_ok.mp hs
    cases hs
    simp [hc rfl]
  case setPriority => cases hs; rfl
  all_goals
    obtain ⟨_, -, hs⟩ := bind_eq_ok.mp hs
    cases hs
    rfl

/-- Every state of every run in which no finished thread is destroyed is
safe. -/
theorem reachable_safe_lists (typeno : Policy) (mem : P → Thread) (main : P) {s : State P}
    (h : ((system typeno mem main).restrict NoneDestroyed).Reachable s) : s.kernel.Safe typeno := by
  have hinv : Inv typeno s ∧ s.deleted = [] := by
    refine h.invariant (I := fun s => Inv typeno s ∧ s.deleted = []) ?_ ?_
    · rintro _ rfl
      exact ⟨inv_init typeno mem main, rfl⟩
    · rintro s op s' ⟨hi, hd⟩ ⟨hc, hs⟩
      exact ⟨inv_step hi hs, (deleted_step hc hs).trans hd⟩
  obtain ⟨hi, hd⟩ := hinv
  have hwf := hi.wf
  rw [hd] at hwf
  refine hwf.safe ?_
  rw [away]
  split
  · exact Set.empty_subset _
  · exact subset_rfl

/-- What is at an address before a thread is made there. -/
def blank : Thread := ⟨0, 0, 0, .justCreated, false⟩

/-- `main`, at address 0, forks a thread, at address 1, and yields; the thread
finishes. -/
def finished : List (Op Nat) := [.newThread 1, .fork 1, .forkRest, .yield, .resume, .finish, .dispatch]

/-- `main` destroys the finished thread, which stays in `blockList`. -/
theorem not_safe_finish :
    ¬ ∀ s, (system .fifo (fun _ => blank) 0).Reachable s → s.kernel.Safe .fifo := by
  intro h
  obtain ⟨s, hr, hs⟩ := System.exists_reachable (start .fifo (fun _ => blank) 0)
    (next .fifo) (finished ++ [.resume])
    (p := fun s => 1 ∈ s.kernel.lists ∧ ¬ s.kernel.Registered 1) (by decide)
  obtain ⟨hm, hn⟩ := of_decide_eq_true hs
  exact hn ((h s hr).existing 1 hm)

/-- Before it is destroyed all is well. -/
theorem reachable_safe_finished :
    ∃ s, ((system .fifo (fun _ => blank) 0).restrict NoneDestroyed).Reachable s ∧
      s.kernel.toBeDestroyed = some 1 ∧ s.kernel.Safe .fifo := by
  obtain ⟨s, hr, hs⟩ := System.exists_reachable_guarded (start .fifo (fun _ => blank) 0)
    (next .fifo) NoneDestroyed finished
    (p := fun s => s.kernel.toBeDestroyed = some 1) (by decide)
  exact ⟨s, hr, of_decide_eq_true hs, reachable_safe_lists _ _ _ hr⟩

end Proof.Scheduler

end Nachos

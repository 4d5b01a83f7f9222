import Nachos.Proof.Lib.List
import Nachos.Proof.Threads.Scheduler
import Nachos.Spec.ReadyQueue

/-!
# The queue discipline of the four policies

Any sequence of `ReadyToRun` and `FindNextToRun` from the empty scheduler is
one of the abstract queue, with a key that `typeno` chooses
(`reachable_discipline`): none for 0 and 2, the priority for 1, and for 3 the
level, which goes up by one each time a thread is made ready, to
`QueueNum - 1`.

Each structure is the queue sorted by the key (`Sorts`): `SortedList::Insert`
puts a thread behind those of its own priority, and the levels of
`threadArrQueue`, one behind the other, are sorted by level.
-/

namespace Nachos

open Framework Framework.StableQueue

namespace Kernel

variable {P : Type} [DecidableEq P] {typeno : Policy} {k k' : Kernel P} {t : P} {arr : List P}

omit [DecidableEq P] in
theorem cmp_lt (k : Kernel P) (t u : P) :
    k.cmp t u < 0 ↔ (k.thread t).priority < (k.thread u).priority := by
  unfold cmp
  split
  · simpa
  · split <;> simp_all

/-- What `typeno` sorts by. -/
def key (typeno : Policy) (k : Kernel P) (t : P) : Int :=
  match typeno with
  | .fifo | .timeSlice => 0
  | .priority | .feedback => (k.thread t).priority

/-- The threads of `threadArrQueue[i]` have priority `i` and its time slice. -/
structure Levels (k : Kernel P) : Prop where
  length : k.threadArrQueue.length = queueNum
  level : ∀ (i : Nat) q t, k.threadArrQueue[i]? = some q → t ∈ q →
    (k.thread t).priority = i ∧ (k.thread t).timeSliceRemain = threadArrTimeSlice.getD i 0

omit [DecidableEq P] in
theorem Levels.take (h : Levels k) {n : Nat} (ht : t ∈ (k.threadArrQueue.take n).flatten) :
    (k.thread t).priority < n := by
  obtain ⟨q, hq, ht⟩ := List.mem_flatten.mp ht
  obtain ⟨i, hi⟩ := List.mem_iff_getElem?.mp hq
  rw [List.getElem?_take] at hi
  split at hi
  · rw [(h.level i q t hi ht).1]
    omega
  · cases hi

omit [DecidableEq P] in
theorem Levels.drop (h : Levels k) {n : Nat} (ht : t ∈ (k.threadArrQueue.drop n).flatten) :
    n ≤ (k.thread t).priority := by
  obtain ⟨q, hq, ht⟩ := List.mem_flatten.mp ht
  obtain ⟨i, hi⟩ := List.mem_iff_getElem?.mp hq
  rw [List.getElem?_drop] at hi
  rw [(h.level _ q t hi ht).1]
  omega

omit [DecidableEq P] in
theorem flatten_set {qs : List (List P)} {i : Nat} (hi : i < qs.length) (t : P) :
    (qs.set i (qs.getD i [] ++ [t])).flatten =
      (qs.take (i + 1)).flatten ++ t :: (qs.drop (i + 1)).flatten := by
  induction qs generalizing i with
  | nil => cases hi
  | cons q qs ih =>
    cases i with
    | zero => simp
    | succ i => simpa using ih (Nat.lt_of_succ_lt_succ hi)

/-- The ready structure is the queue `arr`, sorted. -/
structure Ordered (typeno : Policy) (k : Kernel P) (arr : List P) : Prop where
  sorts : Sorts (key typeno k) (k.ready typeno) arr
  levels : typeno = .feedback → Levels k

omit [DecidableEq P] in
/-- Only the queued threads' priorities and time slices count. -/
theorem Ordered.congr (h : Ordered typeno k arr) (hr : k'.ready typeno = k.ready typeno)
    (hq : k'.threadArrQueue = k.threadArrQueue)
    (ht : ∀ u ∈ arr, (k'.thread u).priority = (k.thread u).priority ∧
      (k'.thread u).timeSliceRemain = (k.thread u).timeSliceRemain) : Ordered typeno k' arr := by
  refine ⟨?_, fun e => ?_⟩
  · rw [hr]
    refine h.sorts.congr fun u hu => ?_
    unfold key
    rw [(ht u hu).1]
  · obtain ⟨hlen, hlev⟩ := h.levels e
    subst e
    refine ⟨by rw [hq, hlen], fun i q u hi hu => ?_⟩
    rw [hq] at hi
    have hmem : u ∈ k.ready .feedback :=
      List.mem_flatten.mpr ⟨q, List.mem_of_getElem? hi, hu⟩
    obtain ⟨h₁, h₂⟩ := ht u (h.sorts.mem_iff.mp hmem)
    rw [h₁, h₂]
    exact hlev i q u hi hu

/-- A change to a thread that is not queued. -/
theorem Ordered.setThread (h : Ordered typeno k arr) (ht : t ∉ arr) (f : Thread → Thread) :
    Ordered typeno (k.setThread t f) arr := by
  refine h.congr (by cases typeno <;> rfl) rfl fun u hu => ?_
  have hne : u ≠ t := fun e => ht (e ▸ hu)
  rw [setThread_thread, Function.update_of_ne hne]
  exact ⟨rfl, rfl⟩

omit [DecidableEq P] in
/-- A thread goes to the end of its level. -/
theorem Ordered.append (h : Ordered .feedback k arr) {i : Nat} (hi : i < k.threadArrQueue.length)
    (hp : (k.thread t).priority = i)
    (hr : (k.thread t).timeSliceRemain = threadArrTimeSlice.getD i 0) :
    Ordered .feedback { k with
      threadArrQueue := k.threadArrQueue.set i (k.threadArrQueue.getD i [] ++ [t]) } (arr ++ [t]) := by
  have hl := h.levels rfl
  refine ⟨?_, fun _ => ⟨by simpa using hl.length, fun j q u hj hu => ?_⟩⟩
  · have hs := h.sorts
    simp only [ready] at hs ⊢
    rw [← List.take_append_drop (i + 1) k.threadArrQueue, List.flatten_append] at hs
    rw [flatten_set hi]
    refine hs.insert (fun y hy => ?_) fun y hy => ?_
    · have := hl.take hy
      simp only [key, hp]
      omega
    · have := hl.drop hy
      simp only [key, hp]
      omega
  · by_cases e : i = j
    · subst e
      rw [List.getElem?_set_self hi] at hj
      cases hj
      rcases List.mem_append.mp hu with hu | hu
      · refine hl.level i _ u ?_ hu
        rw [List.getD_eq_getElem?_getD, List.getElem?_eq_getElem hi]
        rfl
      · obtain rfl := List.mem_singleton.mp hu
        exact ⟨hp, hr⟩
    · rw [List.getElem?_set_ne e] at hj
      exact hl.level j q u hj hu

/-- The level a thread goes to. -/
def nextLevel (p : Int) : Int := if p ≠ queueNum - 1 then p + 1 else p

/-- A thread after `ReadyToRun`. -/
def readied (typeno : Policy) (th : Thread) : Thread :=
  match typeno with
  | .fifo | .priority => th
  | .timeSlice => { th with timeSliceRemain := timeSlice }
  | .feedback => { th with
      priority := nextLevel th.priority
      timeSliceRemain := threadArrTimeSlice.getD (nextLevel th.priority).toNat 0 }

/-- `ReadyToRun` puts a thread at the end of the queue. -/
theorem Ordered.enqueue (h : Ordered typeno k arr) (ht : t ∉ arr)
    (hk : enqueue typeno k t = .ok k') :
    Ordered typeno k' (arr ++ [t]) ∧ k'.thread = Function.update k.thread t (readied typeno (k.thread t)) := by
  have hs := h.sorts
  cases typeno with
  | fifo =>
    obtain ⟨q, hq, hk⟩ := bind_eq_ok.mp hk
    obtain ⟨-, rfl⟩ := NList.append_eq_ok.mp hq
    cases hk
    refine ⟨⟨?_, by simp⟩, by simp [readied]⟩
    have hs' : Sorts (key .fifo k) (k.readyList ++ []) arr := by simpa [ready] using hs
    exact hs'.insert (fun _ _ => le_rfl) (by simp)
  | timeSlice =>
    obtain ⟨q, hq, hk⟩ := bind_eq_ok.mp hk
    obtain ⟨-, rfl⟩ := NList.append_eq_ok.mp hq
    cases hk
    refine ⟨⟨?_, by simp⟩, by simp [readied]⟩
    have hs' : Sorts (key .timeSlice k) (k.readyList ++ []) arr := by simpa [ready] using hs
    exact hs'.insert (fun _ _ => le_rfl) (by simp)
  | priority =>
    obtain ⟨q, hq, hk⟩ := bind_eq_ok.mp hk
    obtain ⟨-, rfl⟩ := NList.insert_eq_ok.mp hq
    cases hk
    exact ⟨⟨NList.insertWalk_sorts hs (k.cmp_lt t), by simp⟩, by simp [readied]⟩
  | feedback =>
    obtain ⟨_, hd, hk⟩ := bind_eq_ok.mp hk
    obtain ⟨q, hq, hk⟩ := bind_eq_ok.mp hk
    obtain ⟨-, rfl⟩ := NList.append_eq_ok.mp hq
    cases hk
    obtain ⟨hp, hlt⟩ := defined_eq_ok.mp hd
    refine ⟨?_, by simp [readied, nextLevel]⟩
    refine (h.setThread ht _).append hlt ?_ ?_
    · simpa using (Int.toNat_of_nonneg hp).symm
    · simp

/-- `ReadyToRun`, whether or not the thread is blocked. -/
theorem Ordered.readyToRun (h : Ordered typeno k arr) (ht : t ∉ arr)
    (hk : readyToRun typeno k t = .ok k') :
    Ordered typeno k' (arr ++ [t]) ∧ k'.thread = Function.update k.thread t
      (readied typeno { k.thread t with status := .ready }) := by
  obtain ⟨b, -, hk⟩ := bind_eq_ok.mp hk
  have hb : Ordered typeno { k with blockList := b } arr :=
    h.congr (by cases typeno <;> rfl) rfl fun u _ => ⟨rfl, rfl⟩
  obtain ⟨ho, hth⟩ := (hb.setThread ht _).enqueue ht hk
  refine ⟨ho, ?_⟩
  rw [hth]
  simp

/-- It does not abort. -/
theorem Ordered.enqueue_ok (h : Ordered typeno k arr) (ht : t ∉ arr)
    (hp : typeno = .feedback → -1 ≤ (k.thread t).priority ∧ (k.thread t).priority < queueNum) :
    ∃ k', Kernel.enqueue typeno k t = .ok k' := by
  have hmem : t ∉ k.ready typeno := fun hm => ht (h.sorts.mem_iff.mp hm)
  cases typeno with
  | fifo => exact ⟨_, bind_eq_ok.mpr ⟨_, NList.append_eq_ok.mpr ⟨hmem, rfl⟩, rfl⟩⟩
  | timeSlice => exact ⟨_, bind_eq_ok.mpr ⟨_, NList.append_eq_ok.mpr ⟨hmem, rfl⟩, rfl⟩⟩
  | priority => exact ⟨_, bind_eq_ok.mpr ⟨_, NList.insert_eq_ok.mpr ⟨hmem, rfl⟩, rfl⟩⟩
  | feedback =>
    obtain ⟨h₁, h₂⟩ := hp rfl
    have hlen := (h.levels rfl).length
    have hrange : 0 ≤ nextLevel (k.thread t).priority ∧
        (nextLevel (k.thread t).priority).toNat < k.threadArrQueue.length := by
      rw [hlen]
      unfold nextLevel queueNum at *
      split <;> omega
    have hq : t ∉ k.threadArrQueue.getD (nextLevel (k.thread t).priority).toNat [] := fun hm =>
      hmem (mem_flatten_of_getD hm)
    exact ⟨_, bind_eq_ok.mpr ⟨(), defined_eq_ok.mpr hrange,
      bind_eq_ok.mpr ⟨_, NList.append_eq_ok.mpr ⟨hq, rfl⟩, rfl⟩⟩⟩

omit [DecidableEq P] in
/-- The search takes the front of one level. -/
theorem firstQueued_set {qs qs' : List (List P)} (h : firstQueued qs = some (t, qs')) :
    ∃ i q, qs[i]? = some (t :: q) ∧ qs' = qs.set i q := by
  induction qs generalizing qs' with
  | nil => cases h
  | cons q qs ih =>
    cases q with
    | cons u q =>
      cases h
      exact ⟨0, q, rfl, rfl⟩
    | nil =>
      obtain ⟨⟨u, r⟩, hr, he⟩ := Option.map_eq_some_iff.mp h
      cases he
      obtain ⟨i, q, hi, rfl⟩ := ih hr
      exact ⟨i + 1, q, hi, rfl⟩

omit [DecidableEq P] in
theorem firstQueued_eq_none {qs : List (List P)} : firstQueued qs = none ↔ qs.flatten = [] := by
  induction qs with
  | nil => simp [firstQueued]
  | cons q qs ih =>
    cases q with
    | cons u q => simp [firstQueued]
    | nil => simpa [firstQueued] using ih

omit [DecidableEq P] in
theorem findNextToRun_eq_none : findNextToRun typeno k = none ↔ k.ready typeno = [] := by
  cases typeno with
  | fifo | timeSlice | priority =>
    simp only [Kernel.findNextToRun, ready]
    split <;> simp_all
  | feedback => simp [Kernel.findNextToRun, ready, firstQueued_eq_none]

omit [DecidableEq P] in
theorem Levels.findNextToRun (h : Levels k) (hk : findNextToRun .feedback k = some (t, k')) :
    Levels k' := by
  obtain ⟨⟨u, qs⟩, hq, he⟩ := Option.map_eq_some_iff.mp hk
  cases he
  obtain ⟨i, q, hi, rfl⟩ := firstQueued_set hq
  have hlt := (List.getElem?_eq_some_iff.mp hi).1
  refine ⟨by simpa using h.length, fun j q' u hj hu => ?_⟩
  by_cases e : i = j
  · subst e
    rw [List.getElem?_set_self hlt] at hj
    cases hj
    exact h.level i _ u hi (List.mem_cons_of_mem _ hu)
  · rw [List.getElem?_set_ne e] at hj
    exact h.level j q' u hj hu

omit [DecidableEq P] in
/-- `FindNextToRun` takes the oldest thread of the smallest key. -/
theorem Ordered.findNextToRun (h : Ordered typeno k arr)
    (hk : findNextToRun typeno k = some (t, k')) :
    ∃ arr', Takes (key typeno k) arr t arr' ∧ Ordered typeno k' arr' ∧ k'.thread = k.thread := by
  have hs := h.sorts
  obtain ⟨hth, hr, -⟩ := taken_findNextToRun hk
  rw [hr] at hs
  obtain ⟨arr', ht, hs⟩ := hs.takes
  refine ⟨arr', ht, ⟨?_, fun e => ?_⟩, hth⟩
  · have : key typeno k' = key typeno k := by
      unfold key
      rw [hth]
    rw [this]
    exact hs
  · subst e
    exact (h.levels rfl).findNextToRun hk

end Kernel

/-! ## Runs -/

namespace Discipline

open Kernel

variable {P : Type} [DecidableEq P]

/-- The calls of the scheduler. -/
inductive SchedulerCall (P : Type)
  | readyToRun (t : P)
  | findNextToRun

/-- A call, with the events so far. -/
def next (typeno : Policy) (s : Kernel P × List (QueueEvent P)) :
    SchedulerCall P → Except Abort (Kernel P × List (QueueEvent P))
  | .readyToRun t => do
    let k ← s.1.readyToRun typeno t
    return (k, s.2 ++ [.ready t])
  | .findNextToRun => match s.1.findNextToRun typeno with
    | none => return (s.1, s.2 ++ [.found none])
    | some (t, k) => return (k, s.2 ++ [.found (some t)])

/-- The calls from the state `k`. -/
def system (typeno : Policy) (k : Kernel P) : System (Kernel P × List (QueueEvent P)) (SchedulerCall P) :=
  .ofFun (k, []) (next typeno)

/-- The scheduler is empty and the threads are as `Thread::Thread` makes them;
with `typeno` 1 they may have any priorities. -/
structure Empty (typeno : Policy) (k : Kernel P) : Prop where
  ready : k.ready typeno = []
  queues : k.threadArrQueue = List.replicate queueNum []
  blockList : k.blockList = []
  priority : typeno = .feedback → ∀ t, (k.thread t).priority = -1

/-- A thread that is made ready is not queued. -/
def NotQueued (typeno : Policy) (s : Kernel P × List (QueueEvent P)) : SchedulerCall P → Prop
  | .readyToRun t => t ∉ s.1.ready typeno
  | .findNextToRun => True

/-- The level of a thread that was made ready `n` times. -/
def level (n : Nat) : Int := min (queueNum - 1) (n - 1)

/-- What each policy goes by. -/
def policyKey (typeno : Policy) (k : Kernel P) (t : P) (n : Nat) : Int :=
  match typeno with
  | .fifo | .timeSlice => 0
  | .priority => (k.thread t).priority
  | .feedback => level n

/-- The threads made ready. -/
def made (h : List (QueueEvent P)) : List P :=
  h.filterMap fun
    | .ready t => some t
    | .found _ => none

/-- The threads returned. -/
def returned (h : List (QueueEvent P)) : List P :=
  h.filterMap fun
    | .found t => t
    | .ready _ => none

/-- The discipline of `typeno`, from the state `k`. -/
structure Disciplined (typeno : Policy) (k : Kernel P) (s : Kernel P × List (QueueEvent P)) : Prop where
  /-- The calls and their results are those of the abstract queue. -/
  trace : ∃ q, (ReadyQueue.system (policyKey typeno k)).Trace s.2 q ∧ (s.1.ready typeno).Perm q.queue
  order : typeno = .fifo ∨ typeno = .timeSlice → made s.2 = returned s.2 ++ s.1.ready typeno
  levels : typeno = .feedback → Levels s.1 ∧
    ∀ t ∈ s.1.ready typeno, (s.1.thread t).priority = level ((made s.2).count t)
  once : ∀ t, (returned s.2).count t ≤ (made s.2).count t
  null : s.1.findNextToRun typeno = none ↔ s.1.ready typeno = []
  total : ∀ t ∉ s.1.ready typeno, ∃ k', s.1.readyToRun typeno t = .ok k'

/-! ### The invariant -/

omit [DecidableEq P] in
theorem nextLevel_level (n : Nat) : nextLevel (level n) = level (n + 1) := by
  unfold nextLevel level queueNum
  split <;> omega

/-- The ready structure and the abstract queue. -/
structure Inv (typeno : Policy) (k : Kernel P) (s : Kernel P × List (QueueEvent P)) (q : ReadyQueue P) :
    Prop where
  trace : (ReadyQueue.system (policyKey typeno k)).Trace s.2 q
  ordered : Ordered typeno s.1 q.queue
  keys : ∀ t, key typeno s.1 t = policyKey typeno k t (q.times t)
  blockList : s.1.blockList = []

theorem inv_init {typeno : Policy} {k : Kernel P} (h : Empty typeno k) : Inv typeno k (k, []) .empty := by
  refine ⟨.init rfl, ⟨?_, fun e => ?_⟩, fun t => ?_, h.blockList⟩
  · rw [h.ready]
    exact Sorts.nil
  · refine ⟨by simp [h.queues], fun i q t hi ht => ?_⟩
    rw [h.queues, List.getElem?_replicate] at hi
    split at hi
    · cases hi
      cases ht
    · cases hi
  · cases typeno with
    | fifo | timeSlice | priority => rfl
    | feedback => exact h.priority rfl t

section
variable {typeno : Policy} {k k' : Kernel P} {s s' : Kernel P × List (QueueEvent P)} {q : ReadyQueue P}
  {t : P}

/-- `ReadyToRun` of a thread that is not queued. -/
theorem Inv.readyToRun (hI : Inv typeno k s q) (ht : t ∉ s.1.ready typeno) :
    ∃ k', s.1.readyToRun typeno t = .ok k' ∧ Inv typeno k (k', s.2 ++ [.ready t])
      ⟨q.queue ++ [t], Function.update q.times t (q.times t + 1)⟩ := by
  have hq : t ∉ q.queue := fun hm => ht (hI.ordered.sorts.mem_iff.mpr hm)
  have hord := hI.ordered.setThread hq fun th => { th with status := .ready }
  have hkey := hI.keys t
  obtain ⟨k', hk⟩ := hord.enqueue_ok hq fun e => by
    subst e
    simp only [key, policyKey, level] at hkey
    simp only [setThread_thread, Function.update_self, hkey, queueNum]
    omega
  obtain ⟨hord', hth⟩ := hord.enqueue hq hk
  refine ⟨k', ?_, .step hI.trace ⟨hq, rfl⟩, hord', fun u => ?_, ?_⟩
  · simp only [Kernel.readyToRun, hI.blockList, List.not_mem_nil, ite_false, pure_eq_ok, ok_bind]
    have hb : { s.1 with blockList := [] } = s.1 := by rw [← hI.blockList]
    rw [hb]
    exact hk
  · have hu := hI.keys u
    by_cases e : u = t
    · subst e
      cases typeno with
      | fifo | timeSlice => rfl
      | priority => simpa [key, policyKey, hth, readied] using hu
      | feedback =>
        simp only [key, policyKey] at hu
        simp [key, policyKey, hth, readied, hu, nextLevel_level]
    · cases typeno with
      | fifo | timeSlice => rfl
      | priority | feedback =>
        simp only [key, policyKey] at hu
        simp [key, policyKey, hth, e, hu]
  · have := (readied_enqueue hk (by simp) (by simp [Kernel.setThread, hI.blockList])).blockList
    simpa [Kernel.setThread, hI.blockList] using this

/-- `FindNextToRun`. -/
theorem Inv.findNextToRun (hI : Inv typeno k s q)
    (hs : next typeno s .findNextToRun = .ok s') : ∃ q', Inv typeno k s' q' := by
  simp only [next] at hs
  split at hs
  · rename_i hn
    cases hs
    have hnil := hI.ordered.sorts.eq_nil_iff.mp (findNextToRun_eq_none.mp hn)
    exact ⟨q, .step hI.trace ⟨hnil, rfl⟩, hI.ordered, hI.keys, hI.blockList⟩
  · rename_i t k' hk
    cases hs
    obtain ⟨rest, htake, hord, hth⟩ := hI.ordered.findNextToRun hk
    have hkeys : key typeno s.1 = fun u => policyKey typeno k u (q.times u) := funext hI.keys
    rw [hkeys] at htake
    refine ⟨{ q with queue := rest }, .step hI.trace ⟨rest, htake, rfl⟩, hord, fun u => ?_, ?_⟩
    · rw [← hI.keys u]
      unfold key
      rw [hth]
    · rw [(taken_findNextToRun hk).blockList]
      exact hI.blockList

theorem Inv.step {c : SchedulerCall P} (hI : Inv typeno k s q) (hc : NotQueued typeno s c)
    (hs : next typeno s c = .ok s') : ∃ q', Inv typeno k s' q' := by
  cases c with
  | readyToRun t =>
    obtain ⟨k', hk, hI'⟩ := hI.readyToRun hc
    simp only [next, hk, ok_bind, pure_eq_ok, Except.ok.injEq] at hs
    exact ⟨_, hs ▸ hI'⟩
  | findNextToRun => exact hI.findNextToRun hs

end

/-! ### What the abstract queue does -/

section
variable {key : P → Nat → Int} {h : List (QueueEvent P)} {q : ReadyQueue P}

theorem trace_times (ht : (ReadyQueue.system key).Trace h q) (t : P) : q.times t = (made h).count t := by
  induction ht with
  | init h => rw [h]; rfl
  | step ht hs ih =>
    rename_i h q q' e
    rw [made, List.filterMap_append, ← made, List.count_append, ← ih]
    cases e with
    | ready u =>
      obtain ⟨-, rfl⟩ := hs
      by_cases e : t = u
      · subst e
        simp
      · simp [e, Ne.symm e]
    | found o =>
      cases o with
      | none =>
        obtain ⟨-, rfl⟩ := hs
        simp
      | some u =>
        obtain ⟨rest, -, rfl⟩ := hs
        simp

/-- A thread is returned or still queued, once for each time it was made ready. -/
theorem trace_count (ht : (ReadyQueue.system key).Trace h q) (t : P) :
    (returned h).count t + q.queue.count t = (made h).count t := by
  induction ht with
  | init h => rw [h]; rfl
  | step ht hs ih =>
    rename_i h q q' e
    rw [made, returned, List.filterMap_append, List.filterMap_append, ← made, ← returned,
      List.count_append, List.count_append]
    cases e with
    | ready u =>
      obtain ⟨-, rfl⟩ := hs
      simp only [List.filterMap_cons, List.filterMap_nil, List.count_nil, List.count_append]
      omega
    | found o =>
      cases o with
      | none =>
        obtain ⟨-, rfl⟩ := hs
        simpa using ih
      | some u =>
        obtain ⟨rest, ⟨a₁, a₂, hq, hr, -⟩, rfl⟩ := hs
        simp only [hq, hr, List.count_append, List.count_cons, List.filterMap_cons,
          List.filterMap_nil, List.count_nil] at ih ⊢
        omega

/-- With one key for all, threads are returned in the order in which they were
made ready. -/
theorem trace_order (hkey : ∀ t n u m, key t n = key u m) (ht : (ReadyQueue.system key).Trace h q) :
    made h = returned h ++ q.queue := by
  induction ht with
  | init h => rw [h]; rfl
  | step ht hs ih =>
    rename_i h q q' e
    rw [made, returned, List.filterMap_append, List.filterMap_append, ← made, ← returned, ih]
    cases e with
    | ready u =>
      obtain ⟨-, rfl⟩ := hs
      simp
    | found o =>
      cases o with
      | none =>
        obtain ⟨-, rfl⟩ := hs
        simp
      | some u =>
        obtain ⟨rest, ⟨a₁, a₂, hq, hr, hlt, -⟩, rfl⟩ := hs
        cases a₁ with
        | nil => simp [hq, hr]
        | cons y a₁ => exact absurd (hkey u _ y _) (hlt y List.mem_cons_self).ne

end

/-- Every state of every sequence of calls. -/
theorem reachable_discipline {typeno : Policy} {k : Kernel P} (h₀ : Empty typeno k)
    {s : Kernel P × List (QueueEvent P)}
    (h : ((system typeno k).restrict (NotQueued typeno)).Reachable s) : Disciplined typeno k s := by
  have hinv : ∃ q, Inv typeno k s q := by
    refine h.invariant (I := fun s => ∃ q, Inv typeno k s q) ?_ ?_
    · rintro s rfl
      exact ⟨_, inv_init h₀⟩
    · rintro s c s' ⟨q, hI⟩ ⟨hc, hs⟩
      exact hI.step hc hs
  obtain ⟨q, hI⟩ := hinv
  refine ⟨⟨q, hI.trace, hI.ordered.sorts.perm⟩, fun e => ?_, fun e => ?_, fun t => ?_,
    findNextToRun_eq_none, fun t ht => ?_⟩
  · have hkey : ∀ t n u m, policyKey typeno k t n = policyKey typeno k u m := fun t n u m => by
      rcases e with rfl | rfl <;> rfl
    have hq : s.1.ready typeno = q.queue := hI.ordered.sorts.eq_of_const fun t u => by
      rw [hI.keys t, hI.keys u]
      exact hkey _ _ _ _
    rw [hq]
    exact trace_order hkey hI.trace
  · subst e
    refine ⟨hI.ordered.levels rfl, fun t _ => ?_⟩
    rw [← trace_times hI.trace t]
    exact hI.keys t
  · have := trace_count hI.trace t
    omega
  · obtain ⟨k', hk, -⟩ := hI.readyToRun ht
    exact ⟨k', hk⟩

instance (typeno : Policy) (s : Kernel P × List (QueueEvent P)) (c : SchedulerCall P) :
    Decidable (NotQueued typeno s c) :=
  match c with
  | .readyToRun t => inferInstanceAs (Decidable (t ∉ s.1.ready typeno))
  | .findNextToRun => inferInstanceAs (Decidable True)

/-- The scheduler's constructor, with new threads at all addresses. -/
def fresh (typeno : Policy) : Kernel Nat where
  thread t := Thread.new typeno t ⟨0, 0, 0, .justCreated, false⟩
  threadArray := []
  currentThread := 0
  readyList := []
  sortedReadyList := []
  threadArrQueue := List.replicate queueNum []
  suspendList := []
  blockList := []
  toBeDestroyed := none

/-- Thread 1 is made ready a second time and is then behind thread 2, which was
made ready later. -/
theorem reachable_discipline_levels : ∃ s,
    ((system .feedback (fresh .feedback)).restrict (NotQueued .feedback)).Reachable s ∧
      s.2 = [.ready 1, .found (some 1), .ready 1, .ready 2, .found (some 2), .found (some 1),
        .found none] ∧
      Disciplined .feedback (fresh .feedback) s := by
  obtain ⟨s, hr, hp⟩ := System.exists_reachable_guarded (fresh .feedback, []) (next .feedback)
    (NotQueued .feedback)
    [.readyToRun 1, .findNextToRun, .readyToRun 1, .readyToRun 2, .findNextToRun, .findNextToRun,
      .findNextToRun]
    (p := fun s => s.2 = [.ready 1, .found (some 1), .ready 1, .ready 2, .found (some 2),
      .found (some 1), .found none]) (by decide)
  exact ⟨s, hr, of_decide_eq_true hp, reachable_discipline ⟨rfl, rfl, rfl, fun _ _ => rfl⟩ hr⟩

end Discipline

end Nachos

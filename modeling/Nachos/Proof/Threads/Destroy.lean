import Nachos.Proof.Threads.Scheduler

/-!
# Deferred destruction over all runs

The scheduler's runs, with the story of every thread beside them: a thread is an
address and a number, which says how often a thread has been made there. `left`
says to whom a finished thread left the processor, and `deleted` who deleted it.

In every run (`reachable_deferred`) a finished thread is deleted by the thread it
left the processor to, before this one is back in its own code; it is deleted once,
no assertion on the way fails, and the slots of `threadArray` hold just the threads
that are not deleted, each under its `threadID`.
-/

namespace Nachos.Destroy

open Framework Kernel Proof.Scheduler

variable {P : Type} [DecidableEq P]

/-- The scheduler, how many threads have been made at each address, and the
threads that finished, left the processor and were deleted, the last one first. -/
structure State (P : Type) where
  base : Proof.Scheduler.State P
  made : P → Nat
  finished : List (P × Nat)
  left : List ((P × Nat) × P)
  deleted : List ((P × Nat) × P)

/-- The thread that is at an address now. -/
def State.life (s : State P) (t : P) : P × Nat := (t, s.made t)

/-- The thread that runs, or the one behind `SWITCH`. -/
def State.current (s : State P) : P := s.base.kernel.currentThread

/-- What an operation of the scheduler adds to the story; `b` is the scheduler
after it. -/
def State.track (s : State P) (b : Proof.Scheduler.State P) : Op P → State P
  | .newThread t => { s with base := b, made := Function.update s.made t (s.made t + 1) }
  | .finish => { s with base := b, finished := s.life s.current :: s.finished }
  | .dispatch => { s with
    base := b
    left := if s.base.phase = .sleeping true ∧ b.phase = .switched then
        (s.life s.current, b.kernel.currentThread) :: s.left
      else s.left }
  | .resume => { s with
    base := b
    deleted := (s.base.kernel.toBeDestroyed.toList.map fun t => (s.life t, s.current)) ++ s.deleted }
  | _ => { s with base := b }

/-- One operation; one that cannot happen changes nothing. -/
def next (typeno : Policy) (s : State P) (op : Op P) : Except Abort (State P) :=
  if enabled s.base op then do
    let b ← exec typeno s.base op
    return s.track b op
  else .ok s

/-- The kernel after `Kernel::Initialize`, with the main thread. -/
def start (typeno : Policy) (mem : P → Thread) (main : P) : State P where
  base := Proof.Scheduler.start typeno mem main
  made := Function.update (fun _ => 0) main 1
  finished := []
  left := []
  deleted := []

def system (typeno : Policy) (mem : P → Thread) (main : P) : System (State P) (Op P) :=
  .ofFun (start typeno mem main) (next typeno)

/-- The thread in the loop of `Sleep(TRUE)`. -/
def State.finishing (s : State P) : List (P × Nat) :=
  if s.base.phase = .sleeping true then [s.life s.current] else []

/-- The thread that is to be deleted next, and by whom. -/
def State.pending (s : State P) : List ((P × Nat) × P) :=
  s.base.kernel.toBeDestroyed.toList.map fun t => (s.life t, s.current)

/-- The threads that were deleted. -/
def State.gone (s : State P) : List (P × Nat) := s.deleted.map Prod.fst

/-- What the code promises of finished threads. The first two are the assertions
in `Scheduler::Run` and `~Thread`. -/
structure Deferred (typeno : Policy) (s : State P) : Prop where
  run : s.base.phase = .sleeping true → ∀ t k, s.base.kernel.findNextToRun typeno = some (t, k) →
    ∃ k', k.run t true = .ok k'
  destructor : s.base.phase = .switched → ∃ k, s.base.kernel.checkToBeDestroyed = .ok k
  finished : s.finished = s.finishing ++ s.left.map Prod.fst
  left : s.left = s.pending ++ s.deleted
  pending : s.base.phase ≠ .switched → s.pending = []
  once : s.gone.Nodup
  slot : ∀ (i : Nat) t, s.base.kernel.threadArray[i]? = some (some t) →
    (s.base.kernel.thread t).threadID = i ∧ 0 < s.made t ∧ s.life t ∉ s.gone
  live : ∀ t n, 0 < n → n ≤ s.made t → (t, n) ∉ s.gone →
    n = s.made t ∧ ∃! i : Nat, s.base.kernel.threadArray[i]? = some (some t)

/-- The invariant: the threads that exist are those not deleted. -/
structure Inv (typeno : Policy) (s : State P) : Prop where
  base : Proof.Scheduler.Inv typeno s.base
  finished : s.finished = s.finishing ++ s.left.map Prod.fst
  left : s.left = s.pending ++ s.deleted
  once : s.gone.Nodup
  gone : ∀ x ∈ s.gone, 0 < x.2 ∧ x.2 ≤ s.made x.1
  exist : ∀ t, s.base.kernel.Registered t ↔ 0 < s.made t ∧ s.life t ∉ s.gone
  past : ∀ t n, 0 < n → n < s.made t → (t, n) ∈ s.gone

section
variable {typeno : Policy} {s s' : State P} {x b : Proof.Scheduler.State P}

/-- The table of threads and the thread to be deleted are as before. -/
def Kept (x b : Proof.Scheduler.State P) : Prop :=
  b.kernel.threadArray = x.kernel.threadArray ∧ b.kernel.toBeDestroyed = x.kernel.toBeDestroyed

theorem kept_yield {k k' : Kernel P} {r : Bool} (hk : k.yield typeno = .ok (k', r))
    (hn : k.blockList.Nodup) :
    k'.threadArray = k.threadArray ∧ k'.toBeDestroyed = k.toBeDestroyed := by
  unfold Kernel.yield at hk
  split at hk
  · cases hk
    exact ⟨rfl, rfl⟩
  · rename_i t k₁ hf
    obtain ⟨k₂, h₂, hk⟩ := bind_eq_ok.mp hk
    obtain ⟨k₃, h₃, hk⟩ := bind_eq_ok.mp hk
    cases hk
    have ht := taken_findNextToRun hf
    have hr := readied_readyToRun h₂ (ht.blockList ▸ hn)
    rw [run_eq h₃]
    exact ⟨hr.threadArray.trans ht.threadArray, hr.toBeDestroyed.trans ht.toBeDestroyed⟩

/-- The operations that neither make nor finish nor delete a thread. -/
theorem kept_exec {op : Op P} (hb : exec typeno x op = .ok b) (hn : x.kernel.blockList.Nodup)
    (h₁ : ∀ t, op ≠ .newThread t) (h₂ : op ≠ .dispatch) (h₃ : op ≠ .resume) : Kept x b := by
  cases op with
  | newThread t => exact absurd rfl (h₁ t)
  | dispatch => exact absurd rfl h₂
  | resume => exact absurd rfl h₃
  | setPriority t n =>
    cases hb
    exact ⟨rfl, rfl⟩
  | fork t =>
    obtain ⟨k, hk, hb⟩ := bind_eq_ok.mp hb
    cases hb
    have hr := readied_fork hk hn
    exact ⟨hr.threadArray, hr.toBeDestroyed⟩
  | wake t =>
    obtain ⟨k, hk, hb⟩ := bind_eq_ok.mp hb
    cases hb
    have hr := readied_readyToRun hk hn
    exact ⟨hr.threadArray, hr.toBeDestroyed⟩
  | yield =>
    obtain ⟨⟨k, r⟩, hk, hb⟩ := bind_eq_ok.mp hb
    cases hb
    exact kept_yield hk hn
  | forkRest =>
    obtain ⟨⟨k, r⟩, hk, hb⟩ := bind_eq_ok.mp hb
    cases hb
    unfold Kernel.forkRest at hk
    split at hk
    · split at hk <;> [cases hk; skip]
      split at hk
      · exact kept_yield hk hn
      · cases hk
        exact ⟨rfl, rfl⟩
    · cases hk
      exact ⟨rfl, rfl⟩
  | sleep | finish =>
    obtain ⟨k, hk, hb⟩ := bind_eq_ok.mp hb
    cases hb
    obtain ⟨q, -, hk⟩ := bind_eq_ok.mp hk
    cases hk
    exact ⟨rfl, rfl⟩

omit [DecidableEq P] in
theorem Inv.blockList_nodup (h : Inv typeno s) : s.base.kernel.blockList.Nodup :=
  (List.nodup_append.mp h.base.wf.nodup).2.1

omit [DecidableEq P] in
theorem registered_congr {k k' : Kernel P} (h : k'.threadArray = k.threadArray) (t : P) :
    k'.Registered t ↔ k.Registered t := by
  rw [Registered, Registered, h]

omit [DecidableEq P] in
theorem pending_of_none (h : s.base.kernel.toBeDestroyed = none) : s.pending = [] := by
  rw [State.pending, h]
  rfl

omit [DecidableEq P] in
theorem pending_of_some {t : P} (h : s.base.kernel.toBeDestroyed = some t) :
    s.pending = [(s.life t, s.current)] := by
  rw [State.pending, h]
  rfl

omit [DecidableEq P] in
theorem Inv.left_deleted (h : Inv typeno s) (hp : s.base.phase ≠ .switched) : s.left = s.deleted := by
  rw [h.left, pending_of_none (h.base.none_destroyed hp)]
  rfl

omit [DecidableEq P] in
/-- An operation that makes and deletes no thread. -/
theorem Inv.kept (h : Inv typeno s) (hb : Proof.Scheduler.Inv typeno b) (hk : Kept s.base b)
    (hp : s.base.phase ≠ .switched) {fs : List (P × Nat)}
    (hf : fs = ({ s with base := b } : State P).finishing ++ s.left.map Prod.fst) :
    Inv typeno { s with base := b, finished := fs } where
  base := hb
  finished := hf
  left := by
    rw [pending_of_none (hk.2.trans (h.base.none_destroyed hp))]
    exact h.left_deleted hp
  once := h.once
  gone := h.gone
  exist t := (registered_congr hk.1 t).trans (h.exist t)
  past := h.past

omit [DecidableEq P] in
theorem finishing_nil (h : s.base.phase ≠ .sleeping true) : s.finishing = [] := if_neg h

/-- The phase that an operation of the running thread leaves. -/
theorem phase_exec {op : Op P} (hb : exec typeno x op = .ok b) (hp : x.phase = .running)
    (hf : op ≠ .finish) (hd : op ≠ .dispatch) : b.phase ≠ .sleeping true := by
  cases op with
  | finish => exact absurd rfl hf
  | dispatch => exact absurd rfl hd
  | setPriority t n =>
    cases hb
    rw [hp]
    decide
  | newThread t | fork t | wake t =>
    obtain ⟨k, -, hb⟩ := bind_eq_ok.mp hb
    cases hb
    rw [hp]
    decide
  | sleep =>
    obtain ⟨k, -, hb⟩ := bind_eq_ok.mp hb
    cases hb
    exact (by decide : Phase.sleeping false ≠ .sleeping true)
  | resume =>
    obtain ⟨k, -, hb⟩ := bind_eq_ok.mp hb
    cases hb
    exact (by decide : Phase.running ≠ .sleeping true)
  | yield | forkRest =>
    obtain ⟨⟨k, r⟩, -, hb⟩ := bind_eq_ok.mp hb
    cases hb
    exact (by decide : ∀ r, (if r then Phase.switched else .running) ≠ .sleeping true) r

/-- The operations of the running thread that make and finish none. -/
theorem Inv.running (h : Inv typeno s) {op : Op P} (hb : exec typeno s.base op = .ok b)
    (hI : Proof.Scheduler.Inv typeno b) (hp : s.base.phase = .running)
    (hn : ∀ t, op ≠ .newThread t) (hf : op ≠ .finish) (hd : op ≠ .dispatch) (hr : op ≠ .resume) :
    Inv typeno { s with base := b } := by
  have hsw : s.base.phase ≠ .switched := by
    rw [hp]
    decide
  refine h.kept hI (kept_exec hb h.blockList_nodup hn hd hr) hsw ?_
  rw [h.finished, finishing_nil (by rw [hp]; decide), finishing_nil (phase_exec hb hp hf hd)]

/-! ## What the operations do to the table -/

theorem exec_newThread {t : P} (hb : exec typeno x (.newThread t) = .ok b) :
    (∀ u, b.kernel.Registered u ↔ u = t ∨ x.kernel.Registered u) ∧ b.phase = x.phase ∧
      b.kernel.toBeDestroyed = x.kernel.toBeDestroyed := by
  obtain ⟨k, hk, hb⟩ := bind_eq_ok.mp hb
  cases hb
  have hreg := newThread_registered hk
  obtain ⟨i, rfl, -⟩ := newThread_cases hk
  exact ⟨hreg, rfl, rfl⟩

theorem exec_finish (hb : exec typeno x .finish = .ok b) :
    b.kernel.currentThread = x.kernel.currentThread ∧ b.phase = .sleeping true := by
  obtain ⟨k, hk, hb⟩ := bind_eq_ok.mp hb
  cases hb
  obtain ⟨q, -, hk⟩ := bind_eq_ok.mp hk
  cases hk
  exact ⟨rfl, rfl⟩

theorem exec_wake {t : P} (hb : exec typeno x (.wake t) = .ok b) (hn : x.kernel.blockList.Nodup) :
    b.kernel.currentThread = x.kernel.currentThread ∧ b.phase = x.phase := by
  obtain ⟨k, hk, hb⟩ := bind_eq_ok.mp hb
  cases hb
  exact ⟨(readied_readyToRun hk hn).currentThread, rfl⟩

/-- One turn of the loop of `Sleep`: nothing, or a switch. -/
theorem exec_dispatch (hb : exec typeno x .dispatch = .ok b) :
    b = x ∨ (b.phase = .switched ∧ b.kernel.threadArray = x.kernel.threadArray ∧
      b.kernel.toBeDestroyed = if x.phase = .sleeping true then some x.kernel.currentThread
        else x.kernel.toBeDestroyed) := by
  obtain ⟨⟨k, r⟩, hk, hb⟩ := bind_eq_ok.mp hb
  cases hb
  unfold Kernel.dispatch at hk
  split at hk
  · cases hk
    exact .inl rfl
  · rename_i t k₁ hf
    obtain ⟨k₂, h₂, hk⟩ := bind_eq_ok.mp hk
    cases hk
    have ht := taken_findNextToRun hf
    rw [run_eq h₂]
    refine .inr ⟨rfl, ht.threadArray, ?_⟩
    simp only [setThread, ht.currentThread, ht.toBeDestroyed, decide_eq_true_eq]

/-- `CheckToBeDestroyed`. -/
theorem exec_resume (h : Proof.Scheduler.Inv typeno x) (hb : exec typeno x .resume = .ok b) :
    (∀ u, b.kernel.Registered u ↔ x.kernel.toBeDestroyed ≠ some u ∧ x.kernel.Registered u) ∧
      b.phase = .running ∧ b.kernel.toBeDestroyed = none := by
  obtain ⟨k, hk, hb⟩ := bind_eq_ok.mp hb
  cases hb
  cases hd : x.kernel.toBeDestroyed with
  | none =>
    simp only [checkToBeDestroyed, hd] at hk
    cases hk
    exact ⟨fun u => by simp, rfl, hd⟩
  | some t =>
    obtain ⟨-, hbl, -⟩ := h.destroyed t hd
    obtain ⟨i, rfl, hget⟩ := checkToBeDestroyed_cases h.wf.ids hbl.1 hd hk
    refine ⟨fun u => ?_, rfl, rfl⟩
    rw [registered_iff, registered_iff]
    simp only [hget, ne_eq, Option.some.injEq, eq_comm (a := t)]
    exact exists_and_left

/-! ## Every operation keeps the invariant -/

/-- `Thread::Thread`: the next thread at this address. -/
theorem Inv.newThread (h : Inv typeno s) {t : P} (hp : s.base.phase = .running)
    (hr : ¬ s.base.kernel.Registered t) (hb : exec typeno s.base (.newThread t) = .ok b)
    (hI : Proof.Scheduler.Inv typeno b) : Inv typeno (s.track b (.newThread t)) := by
  have hsw : s.base.phase ≠ .switched := by
    rw [hp]
    decide
  obtain ⟨hreg, hphase, hd⟩ := exec_newThread hb
  have hd : b.kernel.toBeDestroyed = none := hd.trans (h.base.none_destroyed hsw)
  have hother : ∀ {u}, u ≠ t → (s.track b (.newThread t)).made u = s.made u := fun hu =>
    Function.update_of_ne hu ..
  have hself : (s.track b (.newThread t)).made t = s.made t + 1 := Function.update_self ..
  refine ⟨hI, ?_, ?_, h.once, fun y hy => ?_, fun u => (hreg u).trans ?_, fun u n h₀ hu => ?_⟩
  · rw [finishing_nil (s := s.track b _) (by rw [State.track, hphase, hp]; decide)]
    exact h.finished.trans (by rw [finishing_nil (by rw [hp]; decide)]; rfl)
  · rw [pending_of_none (s := s.track b (.newThread t)) hd]
    exact h.left_deleted hsw
  · obtain ⟨h₁, h₂⟩ := h.gone y hy
    refine ⟨h₁, ?_⟩
    by_cases e : y.1 = t
    · rw [e] at h₂ ⊢
      rw [hself]
      exact Nat.le_succ_of_le h₂
    · rw [hother e]
      exact h₂
  · by_cases e : u = t
    · subst e
      -- No thread with the new number has been deleted.
      have hnew : (u, s.made u + 1) ∉ s.gone := fun hm => absurd (h.gone _ hm).2 (Nat.not_succ_le_self _)
      rw [State.life, hself]
      exact iff_of_true (.inl rfl) ⟨Nat.succ_pos _, hnew⟩
    · rw [State.life, hother e, or_iff_right e]
      exact h.exist u
  · by_cases e : u = t
    · subst e
      rw [hself] at hu
      rcases Nat.lt_succ_iff_lt_or_eq.mp hu with hu | rfl
      · exact h.past u n h₀ hu
      · exact Classical.byContradiction fun hm => hr ((h.exist u).mpr ⟨h₀, hm⟩)
    · rw [hother e] at hu
      exact h.past u n h₀ hu

/-- `Finish`, up to the loop of `Sleep`. -/
theorem Inv.finish (h : Inv typeno s) (hp : s.base.phase = .running)
    (hb : exec typeno s.base .finish = .ok b) (hI : Proof.Scheduler.Inv typeno b) :
    Inv typeno (s.track b .finish) := by
  refine h.kept hI (kept_exec hb h.blockList_nodup nofun nofun nofun) (by rw [hp]; decide) ?_
  obtain ⟨hcur, hphase⟩ := exec_finish hb
  have hf := h.finished
  rw [finishing_nil (by rw [hp]; decide)] at hf
  simp [State.finishing, State.life, State.current, hcur, hphase, hf]

/-- A handler wakes a thread. -/
theorem Inv.wake (h : Inv typeno s) {t : P} (hp : s.base.phase ≠ .switched)
    (hb : exec typeno s.base (.wake t) = .ok b) (hI : Proof.Scheduler.Inv typeno b) :
    Inv typeno (s.track b (.wake t)) := by
  refine h.kept hI (kept_exec hb h.blockList_nodup nofun nofun nofun) hp ?_
  obtain ⟨hcur, hphase⟩ := exec_wake hb h.blockList_nodup
  rw [h.finished]
  simp only [State.finishing, State.life, State.current, hcur, hphase]

/-- `SWITCH` in `Sleep`: a thread that finishes leaves the processor to the next
one. -/
theorem Inv.dispatch (h : Inv typeno s) (hp : s.base.phase ≠ .switched)
    (hb : exec typeno s.base .dispatch = .ok b) (hI : Proof.Scheduler.Inv typeno b) :
    Inv typeno (s.track b .dispatch) := by
  rcases exec_dispatch hb with rfl | ⟨hphase, harr, hd⟩
  · simp only [State.track, hp, and_false, ite_false]
    exact h
  · have hl := h.left_deleted hp
    have hnil : (s.track b .dispatch).finishing = [] :=
      finishing_nil (s := s.track b .dispatch) (by rw [State.track, hphase]; decide)
    refine ⟨hI, ?_, ?_, h.once, h.gone, fun u => (registered_congr harr u).trans (h.exist u), h.past⟩
    · rw [hnil, State.track, h.finished, State.finishing]
      by_cases hs : s.base.phase = .sleeping true
      · rw [if_pos hs, if_pos ⟨hs, hphase⟩]
        rfl
      · rw [if_neg hs, if_neg fun hc => hs hc.1]
    · by_cases hs : s.base.phase = .sleeping true
      · rw [if_pos hs] at hd
        rw [pending_of_some (s := s.track b .dispatch) hd, State.track, if_pos ⟨hs, hphase⟩, hl]
        rfl
      · rw [if_neg hs, h.base.none_destroyed hp] at hd
        rw [pending_of_none (s := s.track b .dispatch) hd, State.track, if_neg fun hc => hs hc.1, hl]
        rfl

/-- `CheckToBeDestroyed`, behind `SWITCH`. -/
theorem Inv.resume (h : Inv typeno s) (hp : s.base.phase = .switched)
    (hb : exec typeno s.base .resume = .ok b) (hI : Proof.Scheduler.Inv typeno b) :
    Inv typeno (s.track b .resume) := by
  obtain ⟨hreg, hphase, hd⟩ := exec_resume h.base hb
  have hdel : (s.track b .resume).deleted = s.pending ++ s.deleted := rfl
  have hgone : (s.track b .resume).gone = s.pending.map Prod.fst ++ s.gone := List.map_append
  -- What is deleted is the thread that is now at its address, and exists.
  have hpend : ∀ y ∈ s.pending.map Prod.fst, s.base.kernel.toBeDestroyed = some y.1 ∧
      y = s.life y.1 ∧ s.base.kernel.Registered y.1 := by
    intro y hy
    cases hd : s.base.kernel.toBeDestroyed with
    | none => simp [pending_of_none hd] at hy
    | some t =>
      simp only [pending_of_some hd, List.map_cons, List.map_nil, List.mem_singleton] at hy
      subst hy
      exact ⟨rfl, rfl, (h.base.destroyed t hd).2.1.1⟩
  refine ⟨hI, ?_, ?_, ?_, fun y hy => ?_, fun u => (hreg u).trans ?_, fun u n h₀ hu => ?_⟩
  · rw [finishing_nil (s := s.track b .resume) (by rw [State.track, hphase]; decide)]
    exact h.finished.trans (by rw [finishing_nil (by rw [hp]; decide)]; rfl)
  · rw [pending_of_none (s := s.track b .resume) hd, hdel]
    exact h.left
  · rw [hgone]
    refine List.nodup_append.mpr ⟨?_, h.once, fun y hy z hz e => ?_⟩
    · cases hd : s.base.kernel.toBeDestroyed with
      | none => simp [pending_of_none hd]
      | some t => simp [pending_of_some hd]
    · obtain ⟨-, hy, hr⟩ := hpend y hy
      exact ((h.exist y.1).mp hr).2 (hy ▸ e ▸ hz)
  · rw [hgone] at hy
    rcases List.mem_append.mp hy with hy | hy
    · obtain ⟨-, hy, hr⟩ := hpend y hy
      rw [hy]
      exact ⟨((h.exist y.1).mp hr).1, Nat.le_refl _⟩
    · exact h.gone y hy
  · rw [h.exist u, hgone]
    have hmem : s.life u ∈ s.pending.map Prod.fst ↔ s.base.kernel.toBeDestroyed = some u := by
      refine ⟨fun hm => (hpend _ hm).1, fun hm => ?_⟩
      rw [pending_of_some hm]
      exact List.mem_singleton.mpr rfl
    rw [List.mem_append, not_or]
    show _ ↔ 0 < s.made u ∧ s.life u ∉ _ ∧ s.life u ∉ s.gone
    rw [hmem]
    exact and_left_comm
  · rw [hgone]
    exact List.mem_append_right _ (h.past u n h₀ hu)

theorem Inv.step (h : Inv typeno s) {op : Op P} (hs : next typeno s op = .ok s') : Inv typeno s' := by
  unfold next at hs
  split at hs <;> [skip; (cases hs; exact h)]
  rename_i he
  obtain ⟨b, hb, hs⟩ := bind_eq_ok.mp hs
  cases hs
  have hnext : Proof.Scheduler.next typeno s.base op = .ok b := by
    rw [Proof.Scheduler.next, if_pos he]
    exact hb
  have hI : Proof.Scheduler.Inv typeno b := inv_step h.base hnext
  cases op with
  | newThread t =>
    simp only [enabled, Proof.Scheduler.State.inCode, Bool.and_eq_true, decide_eq_true_eq,
      Bool.not_eq_true', decide_eq_false_iff_not] at he
    exact h.newThread he.1.1 he.2 hb hI
  | setPriority t n | fork t =>
    simp only [enabled, Proof.Scheduler.State.inCode, Bool.and_eq_true, decide_eq_true_eq] at he
    exact h.running hb hI he.1.1.1 (by simp) (by simp) (by simp) (by simp)
  | forkRest =>
    simp only [enabled, Bool.and_eq_true, decide_eq_true_eq] at he
    exact h.running hb hI he.1 (by simp) (by simp) (by simp) (by simp)
  | yield =>
    simp only [enabled, decide_eq_true_eq] at he
    exact h.running hb hI he (by simp) (by simp) (by simp) (by simp)
  | sleep =>
    simp only [enabled, Proof.Scheduler.State.inCode, decide_eq_true_eq] at he
    exact h.running hb hI he.1 (by simp) (by simp) (by simp) (by simp)
  | finish =>
    simp only [enabled, Proof.Scheduler.State.inCode, decide_eq_true_eq] at he
    exact h.finish he.1 hb hI
  | dispatch =>
    simp only [enabled, Bool.or_eq_true, decide_eq_true_eq] at he
    refine h.dispatch (fun hsw => ?_) hb hI
    rcases he with hp | hp <;> rw [hsw] at hp <;> cases hp
  | wake t =>
    simp only [enabled, Bool.and_eq_true, decide_eq_true_eq] at he
    exact h.wake he.1 hb hI
  | resume =>
    simp only [enabled, decide_eq_true_eq] at he
    exact h.resume he hb hI

theorem inv_init (typeno : Policy) (mem : P → Thread) (main : P) :
    Inv typeno (start typeno mem main) where
  base := Proof.Scheduler.inv_init typeno mem main
  finished := rfl
  left := rfl
  once := .nil
  gone := nofun
  exist t := by
    have hreg : (Proof.Scheduler.start typeno mem main).kernel.Registered t ↔ t = main := by
      simp [Proof.Scheduler.start, initializeKernel, Registered, maxThreadNum]
    refine hreg.trans ?_
    by_cases e : t = main
    · simp [start, State.gone, e]
    · simp [start, e]
  past t n h₀ hn := by
    by_cases e : t = main
    · subst e
      simp only [start, Function.update_self] at hn
      omega
    · simp only [start, Function.update_of_ne e] at hn
      omega

theorem run_ok {k : Kernel P} (t : P) (h : k.toBeDestroyed = none) : ∃ k', k.run t true = .ok k' := by
  unfold Kernel.run
  rw [if_pos rfl, h, assert_of rfl]
  exact ⟨_, rfl⟩

/-- A thread to be deleted is in `blockList`, and the current thread is not. -/
theorem checkToBeDestroyed_ok (h : Proof.Scheduler.Inv typeno x) (hp : x.phase = .switched) :
    ∃ k, x.kernel.checkToBeDestroyed = .ok k := by
  unfold Kernel.checkToBeDestroyed
  split
  · exact ⟨_, rfl⟩
  · rename_i t hd
    have hout : x.kernel.currentThread ∈ away x := by
      rw [away, hp]
      rfl
    have hne : t ≠ x.kernel.currentThread := fun e =>
      (h.wf.away _ hout).2.2.1 (e ▸ (h.destroyed t hd).2.1.2.1)
    rw [assert_of hne]
    exact ⟨_, rfl⟩

/-- The invariant says all that is promised. -/
theorem Inv.deferred (h : Inv typeno s) : Deferred typeno s where
  run hp t k hf := by
    have hnone : s.base.kernel.toBeDestroyed = none := h.base.none_destroyed (by rw [hp]; decide)
    exact run_ok t ((taken_findNextToRun hf).toBeDestroyed.trans hnone)
  destructor hp := checkToBeDestroyed_ok h.base hp
  finished := h.finished
  left := h.left
  pending hp := pending_of_none (h.base.none_destroyed hp)
  once := h.once
  slot i t ht := ⟨h.base.wf.ids i t ht, (h.exist t).mp (registered_iff.mpr ⟨i, ht⟩)⟩
  live t n h₀ hn hg := by
    rcases Nat.lt_or_eq_of_le hn with hlt | rfl
    · exact absurd (h.past t n h₀ hlt) hg
    · obtain ⟨i, hi⟩ := registered_iff.mp ((h.exist t).mpr ⟨h₀, hg⟩)
      refine ⟨rfl, i, hi, fun j hj => ?_⟩
      exact (h.base.wf.ids j t hj).symm.trans (h.base.wf.ids i t hi)

end

/-- In every run every finished thread is deleted once, by the next thread and
before that one's own code, and the table holds the others. -/
theorem reachable_deferred (typeno : Policy) (mem : P → Thread) (main : P) {s : State P}
    (h : (system typeno mem main).Reachable s) : Deferred typeno s := by
  have hI : Inv typeno s := by
    refine h.invariant (I := Inv typeno) ?_ ?_
    · rintro _ rfl
      exact inv_init typeno mem main
    · intro s op s' hi hs
      exact hi.step hs
  exact hI.deferred

/-- `main` deletes a finished thread and makes another one at its address, with
the same `threadID`. -/
theorem reachable_deferred_again :
    ∃ s, (system .fifo (fun _ => blank) 0).Reachable s ∧ s.gone = [(1, 1)] ∧
      s.base.kernel.threadArray[1]? = some (some 1) ∧ Deferred .fifo s := by
  obtain ⟨s, hr, hs⟩ := System.exists_reachable (start .fifo (fun _ => blank) 0) (next .fifo)
    (Proof.Scheduler.finished ++ [.resume, .newThread 1])
    (p := fun s => s.gone = [(1, 1)] ∧ s.base.kernel.threadArray[1]? = some (some 1))
    (by decide +kernel)
  obtain ⟨hg, ht⟩ := of_decide_eq_true hs
  exact ⟨s, hr, hg, ht, reachable_deferred _ _ _ hr⟩

end Nachos.Destroy

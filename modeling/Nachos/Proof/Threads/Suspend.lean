import Mathlib.Data.Fintype.Basic
import Nachos.Impl.Threads.Synch
import Nachos.Proof.Threads.Scheduler

/-!
# Suspension and semaphores

Threads wait in `Semaphore::P` while others call `V`, `suspendAThread`,
`restoreAThread` and `awakeAThead`. `NoConflict` says that a thread is in at
most one of the scheduler's lists, that no suspended thread runs, and that no
`ASSERT` of `List::Append` fails.

It fails (`not_noConflict_suspended`): these operations take threads off
`blockList` and `suspendList` that are still in a semaphore's queue. It holds in
every run in which they do not: `V` wakes no suspended thread, and `awakeAThead`
and `restoreAThread` take no thread that a semaphore has queued
(`reachable_noConflict`).
-/

namespace Nachos

open Framework

namespace Kernel

variable {P : Type} [DecidableEq P] {typeno : Policy} {k k' : Kernel P} {t u : P}

/-- A thread that exists and was forked. -/
def Live (k : Kernel P) (t : P) : Prop := k.Registered t ∧ (k.thread t).status ≠ .justCreated

instance (k : Kernel P) (t : P) : Decidable (k.Live t) :=
  inferInstanceAs (Decidable (_ ∧ _))

/-- The thread is blocked or suspended. -/
def Parked (k : Kernel P) (t : P) : Prop := k.Live t ∧ (t ∈ k.blockList ∨ t ∈ k.suspendList)

/-- All lists but `blockList`. -/
def others (typeno : Policy) (k : Kernel P) : List P :=
  k.ready typeno ++ k.unread typeno ++ k.suspendList

/-- Each thread is in one list at most, and what is not in `blockList` is live. -/
structure Places (typeno : Policy) (k : Kernel P) : Prop where
  nodup : (k.others typeno ++ k.blockList).Nodup
  ids : ∀ i u, k.threadArray[i]? = some (some u) → (k.thread u).threadID = i
  live : ∀ u ∈ k.others typeno, k.Live u

omit [DecidableEq P] in
theorem Places.not_others (h : Places typeno k) (ht : t ∈ k.blockList) : t ∉ k.others typeno :=
  fun hm => (List.nodup_append.mp h.nodup).2.2 t hm t ht rfl

omit [DecidableEq P] in
theorem Places.not_live (h : Places typeno k) (ht : ¬ k.Live t) : t ∉ k.others typeno :=
  fun hm => ht (h.live t hm)

omit [DecidableEq P] in
theorem Places.blockList_nodup (h : Places typeno k) : k.blockList.Nodup :=
  (List.nodup_append.mp h.nodup).2.1

/-- `k'` is `k` with other fields in thread `t`. -/
structure Changed (typeno : Policy) (t : P) (k k' : Kernel P) : Prop where
  threadArray : k'.threadArray = k.threadArray
  thread : ∀ u ≠ t, k'.thread u = k.thread u
  threadID : (k'.thread t).threadID = (k.thread t).threadID
  status : (k'.thread t).status ≠ .justCreated

omit [DecidableEq P] in
theorem Changed.live (h : Changed typeno t k k') (hu : k.Live u) : k'.Live u := by
  obtain ⟨hr, hs⟩ := hu
  refine ⟨by rw [Registered, h.threadArray]; exact hr, ?_⟩
  by_cases e : u = t
  · rw [e]
    exact h.status
  · rw [h.thread u e]
    exact hs

omit [DecidableEq P] in
/-- A step that moves `t`. -/
theorem Places.change (h : Places typeno k) (hk : Changed typeno t k k')
    (hn : (k'.others typeno ++ k'.blockList).Nodup)
    (ho : ∀ u ∈ k'.others typeno, u ∈ k.others typeno ∨ u = t ∧ k.Registered t) :
    Places typeno k' := by
  refine ⟨hn, fun i u hu => ?_, fun u hu => ?_⟩
  · rw [hk.threadArray] at hu
    by_cases e : u = t
    · rw [e, hk.threadID, ← e]
      exact h.ids i u hu
    · rw [hk.thread u e]
      exact h.ids i u hu
  · rcases ho u hu with hu | ⟨rfl, hr⟩
    · exact hk.live (h.live u hu)
    · exact ⟨by rw [Registered, hk.threadArray]; exact hr, hk.status⟩

omit [DecidableEq P] in
theorem Parked.change (hu : k.Parked u) (hk : Changed typeno t k k')
    (hm : u ∈ k.blockList ∨ u ∈ k.suspendList → u ∈ k'.blockList ∨ u ∈ k'.suspendList) :
    k'.Parked u :=
  ⟨hk.live hu.1, hm hu.2⟩

/-- A step that keeps the lists well formed and moves no thread but `t`. -/
structure Moves (typeno : Policy) (t : P) (k k' : Kernel P) : Prop where
  places : Places typeno k'
  parked : ∀ u ≠ t, k.Parked u → k'.Parked u
  live : ∀ u, k.Live u → k'.Live u
  mem : ∀ u, u ∈ k'.others typeno ++ k'.blockList → u = t ∨ u ∈ k.others typeno ++ k.blockList

/-- `ReadyToRun`. -/
theorem Places.readied (h : Places typeno k) (hk : Readied typeno t k k') (hr : k.Registered t)
    (ht : t ∉ k.others typeno) : Moves typeno t k k' := by
  have hc : Changed typeno t k k' := ⟨hk.threadArray, hk.thread, hk.threadID, by rw [hk.status]; decide⟩
  have hperm : (k'.others typeno).Perm (t :: k.others typeno) := by
    rw [others, hk.unread, hk.suspendList]
    exact (hk.ready.append_right _).append_right _
  have hb := h.blockList_nodup
  refine ⟨h.change hc ?_ fun u hu => ?_, fun u hu hp => hp.change hc ?_, fun u => hc.live,
    fun u hu => ?_⟩
  · rw [hk.blockList]
    refine (hperm.append_right _).nodup_iff.mpr (List.nodup_cons.mpr ⟨fun hm => ?_, ?_⟩)
    · exact (List.mem_append.mp hm).elim ht hb.not_mem_erase
    · exact h.nodup.sublist ((List.Sublist.refl _).append List.erase_sublist)
  · rcases List.mem_cons.mp (hperm.mem_iff.mp hu) with rfl | hu
    · exact .inr ⟨rfl, hr⟩
    · exact .inl hu
  · rw [hk.blockList, hk.suspendList, List.mem_erase_of_ne hu]
    exact id
  · rw [hk.blockList] at hu
    rcases List.mem_append.mp hu with hu | hu
    · rcases List.mem_cons.mp (hperm.mem_iff.mp hu) with rfl | hu
      · exact .inl rfl
      · exact .inr (List.mem_append_left _ hu)
    · exact .inr (List.mem_append_right _ (List.mem_of_mem_erase hu))

omit [DecidableEq P] in
/-- `FindNextToRun`. -/
theorem Places.taken (h : Places typeno k) (hk : Taken typeno t k k') :
    Moves typeno t k k' ∧ k'.Live t ∧ t ∉ k'.others typeno ++ k'.blockList := by
  have hlive : ∀ u, k.Live u → k'.Live u := fun u hu => by
    rw [Live, Registered, hk.threadArray, hk.thread]
    exact hu
  have ho : k.others typeno = t :: k'.others typeno := by
    rw [others, hk.ready, others, hk.unread, hk.suspendList]
    rfl
  have hn := h.nodup
  rw [ho, List.cons_append, List.nodup_cons, ← hk.blockList] at hn
  refine ⟨⟨⟨hn.2, fun i u hu => ?_, fun u hu => hlive u (h.live u ?_)⟩, fun u _ hp => ?_, hlive,
    fun u hu => .inr ?_⟩, hlive t (h.live t (by rw [ho]; exact List.mem_cons_self)), hn.1⟩
  · rw [hk.thread]
    exact h.ids i u (by rwa [← hk.threadArray])
  · rw [ho]
    exact List.mem_cons_of_mem _ hu
  · exact ⟨hlive u hp.1, by rw [hk.blockList, hk.suspendList]; exact hp.2⟩
  · rw [ho, ← hk.blockList]
    exact List.mem_cons_of_mem _ hu

/-- `blockAThread` of a thread in no list. -/
theorem Places.block (h : Places typeno k) (hr : k.Registered t)
    (ht : t ∉ k.others typeno ++ k.blockList) :
    ∃ k', k.blockAThread t = .ok k' ∧ Moves typeno t k k' ∧ k'.Live t ∧ t ∈ k'.blockList ∧
      k'.suspendList = k.suspendList ∧ k'.currentThread = k.currentThread ∧
      k'.toBeDestroyed = k.toBeDestroyed := by
  have hb : t ∉ k.blockList := fun hm => ht (List.mem_append_right _ hm)
  obtain ⟨k', hk⟩ : ∃ k', k' = { k.setThread t fun th => { th with status := .blocked } with
      blockList := k.blockList ++ [t] } := ⟨_, rfl⟩
  have hc : Changed typeno t k k' := by
    rw [hk]
    exact ⟨rfl, fun u hu => by simp [hu], by simp, by simp⟩
  have ho : k'.others typeno = k.others typeno := by
    rw [hk]
    cases typeno <;> rfl
  have hbl : k'.blockList = k.blockList ++ [t] := by rw [hk]
  refine ⟨k', ?_, ⟨h.change hc ?_ fun u hu => .inl (by rwa [← ho]), fun u _ hp => hp.change hc ?_,
    fun u => hc.live, fun u hu => ?_⟩, ?_, ?_, ?_, ?_, ?_⟩
  · exact bind_eq_ok.mpr ⟨_, NList.append_eq_ok.mpr ⟨hb, rfl⟩, by rw [hk]; rfl⟩
  · rw [ho, hbl, ← List.append_assoc, ← List.concat_eq_append]
    exact h.nodup.concat ht
  · rw [hbl, hk, List.mem_append]
    exact fun hm => hm.imp_left .inl
  · rw [ho, hbl, ← List.append_assoc, List.mem_append, List.mem_singleton] at hu
    exact hu.symm
  · exact ⟨by rw [Registered, hc.threadArray]; exact hr, hc.status⟩
  · rw [hbl]
    exact List.mem_append_right _ (List.mem_singleton_self t)
  all_goals rw [hk]; rfl

/-- `Run`. -/
theorem Places.run (h : Places typeno k) {finishing : Bool}
    (hk : k.run t finishing = .ok k') :
    Moves typeno t k k' ∧ k'.others typeno = k.others typeno ∧ k'.blockList = k.blockList ∧
      k'.suspendList = k.suspendList := by
  obtain rfl := run_eq hk
  have ho : others typeno ({ k with
      currentThread := t
      toBeDestroyed := if finishing then some k.currentThread else k.toBeDestroyed }.setThread t
        fun th => { th with status := .running }) = k.others typeno := by cases typeno <;> rfl
  have hc : Changed typeno t k ({ k with
      currentThread := t
      toBeDestroyed := if finishing then some k.currentThread else k.toBeDestroyed }.setThread t
        fun th => { th with status := .running }) :=
    ⟨rfl, fun u hu => by simp [hu], by simp, by simp⟩
  refine ⟨⟨h.change hc (by rw [ho]; exact h.nodup) fun u hu => .inl (by rwa [← ho]),
    fun u _ hp => hp.change hc id, fun u => hc.live, fun u hu => .inr ?_⟩, ho, rfl, rfl⟩
  rw [ho] at hu
  exact hu

variable (typeno t) in
/-- `readyList` is one of the lists, whatever `typeno` is. -/
theorem others_append (k : Kernel P) (q : List P) :
    (others typeno { k with suspendList := q, readyList := k.readyList ++ [t] }).Perm
      (t :: others typeno { k with suspendList := q }) := by
  refine List.perm_iff_count.mpr fun u => ?_
  cases typeno <;>
    simp only [others, ready, unread, List.count_append, List.count_cons, List.count_nil] <;> omega

omit [DecidableEq P] in
theorem mem_others_ready (ht : t ∈ k.ready typeno) : t ∈ k.others typeno := by
  simp [others, ht]

omit [DecidableEq P] in
theorem mem_others_readyList (ht : t ∈ k.readyList) : t ∈ k.others typeno := by
  cases typeno <;> simp [others, ready, unread, ht]

/-- `awakeAThead` of a live thread. -/
theorem Places.awake (h : Places typeno k) {b : List P} (hb : k.blockList = t :: b) (hl : k.Live t) :
    ∃ k', k.awakeAThead = .ok k' ∧ Moves typeno t k k' ∧ k'.currentThread = k.currentThread ∧
      k'.toBeDestroyed = k.toBeDestroyed := by
  have ht : t ∉ k.others typeno := h.not_others (by rw [hb]; exact List.mem_cons_self)
  have hr : t ∉ k.readyList := fun hm => ht (mem_others_readyList hm)
  obtain ⟨k', hk⟩ : ∃ k', k' = { k with
      blockList := b, readyList := k.readyList ++ [t] }.setThread t
        fun th => { th with status := .ready } := ⟨_, rfl⟩
  have hc : Changed typeno t k k' := by
    rw [hk]
    exact ⟨rfl, fun u hu => by simp [hu], by simp, by simp⟩
  have ho : (k'.others typeno).Perm (t :: k.others typeno) := by
    rw [hk]
    have := others_append typeno t k k.suspendList
    cases typeno <;> exact this
  have hbl : k'.blockList = b := by rw [hk]; rfl
  have hperm : (k'.others typeno ++ k'.blockList).Perm (k.others typeno ++ k.blockList) := by
    rw [hbl, hb]
    exact (ho.append_right b).trans List.perm_middle.symm
  refine ⟨k', ?_, ⟨h.change hc (hperm.nodup_iff.mpr h.nodup) fun u hu => ?_,
    fun u hu hp => hp.change hc ?_, fun u => hc.live, fun u hu => .inr (hperm.mem_iff.mp hu)⟩, ?_, ?_⟩
  · unfold awakeAThead
    rw [hb]
    exact bind_eq_ok.mpr ⟨_, rfl, bind_eq_ok.mpr ⟨_, NList.append_eq_ok.mpr ⟨hr, rfl⟩, by rw [hk]; rfl⟩⟩
  · rcases List.mem_cons.mp (ho.mem_iff.mp hu) with rfl | hu
    · exact .inr ⟨rfl, hl.1⟩
    · exact .inl hu
  · rw [hbl, hb, hk]
    exact fun hm => hm.imp_left fun hm => (List.mem_cons.mp hm).resolve_left hu
  all_goals rw [hk]; rfl

/-- `suspendAThread` of a live thread. -/
theorem Places.suspend (h : Places typeno k) {b : List P} (hb : k.blockList = t :: b) (hl : k.Live t) :
    ∃ k', k.suspendAThread = .ok k' ∧ Moves typeno t k k' ∧ k'.Parked t ∧
      k'.currentThread = k.currentThread ∧ k'.toBeDestroyed = k.toBeDestroyed := by
  have ht : t ∉ k.others typeno := h.not_others (by rw [hb]; exact List.mem_cons_self)
  have hs : t ∉ k.suspendList := fun hm => ht (List.mem_append_right _ hm)
  obtain ⟨k', hk⟩ : ∃ k', k' = { k with
      blockList := b, suspendList := k.suspendList ++ [t] }.setThread t
        fun th => { th with status := .suspended } := ⟨_, rfl⟩
  have hc : Changed typeno t k k' := by
    rw [hk]
    exact ⟨rfl, fun u hu => by simp [hu], by simp, by simp⟩
  have ho : k'.others typeno = k.others typeno ++ [t] := by
    rw [hk]
    cases typeno <;> simp [others, ready, unread, setThread]
  have hbl : k'.blockList = b := by rw [hk]; rfl
  have hsl : k'.suspendList = k.suspendList ++ [t] := by rw [hk]; rfl
  have hsame : k'.others typeno ++ k'.blockList = k.others typeno ++ k.blockList := by
    rw [ho, hbl, hb, List.append_assoc]
    rfl
  refine ⟨k', ?_, ⟨h.change hc (by rw [hsame]; exact h.nodup) fun u hu => ?_,
    fun u hu hp => hp.change hc ?_, fun u => hc.live, fun u hu => .inr (by rwa [← hsame])⟩, ?_, ?_, ?_⟩
  · unfold suspendAThread
    rw [hb]
    exact bind_eq_ok.mpr ⟨_, rfl, bind_eq_ok.mpr ⟨_, NList.append_eq_ok.mpr ⟨hs, rfl⟩, by rw [hk]; rfl⟩⟩
  · rw [ho] at hu
    rcases List.mem_append.mp hu with hu | hu
    · exact .inl hu
    · exact .inr ⟨List.mem_singleton.mp hu, hl.1⟩
  · rw [hbl, hsl, hb]
    exact fun hm => hm.imp (fun hm => (List.mem_cons.mp hm).resolve_left hu) (List.mem_append_left _)
  · exact ⟨hc.live hl, .inr (by rw [hsl]; exact List.mem_append_right _ (List.mem_singleton_self t))⟩
  all_goals rw [hk]; rfl

/-- `restoreAThread`. -/
theorem Places.restore (h : Places typeno k) {q : List P} (hq : k.suspendList = t :: q) :
    ∃ k', k.restoreAThread = .ok k' ∧ Moves typeno t k k' ∧ k'.currentThread = k.currentThread ∧
      k'.toBeDestroyed = k.toBeDestroyed := by
  have hmem : t ∈ k.others typeno := List.mem_append_right _ (by rw [hq]; exact List.mem_cons_self)
  have hperm₀ : (k.others typeno).Perm (t :: others typeno { k with suspendList := q }) := by
    rw [others, hq]
    refine List.perm_middle.trans ?_
    cases typeno <;> exact .refl _
  have hr : t ∉ k.readyList := fun hm => by
    have := (hperm₀.nodup_iff.mp (List.nodup_append.mp h.nodup).1)
    rw [List.nodup_cons] at this
    exact this.1 (mem_others_readyList hm)
  obtain ⟨k', hk⟩ : ∃ k', k' = { k with
      suspendList := q, readyList := k.readyList ++ [t] }.setThread t
        fun th => { th with status := .ready } := ⟨_, rfl⟩
  have hc : Changed typeno t k k' := by
    rw [hk]
    exact ⟨rfl, fun u hu => by simp [hu], by simp, by simp⟩
  have ho : (k'.others typeno).Perm (k.others typeno) := by
    rw [hk]
    have := (others_append typeno t k q).trans hperm₀.symm
    cases typeno <;> exact this
  have hbl : k'.blockList = k.blockList := by rw [hk]; rfl
  have hperm : (k'.others typeno ++ k'.blockList).Perm (k.others typeno ++ k.blockList) := by
    rw [hbl]
    exact ho.append_right _
  refine ⟨k', ?_, ⟨h.change hc (hperm.nodup_iff.mpr h.nodup) fun u hu => .inl (ho.mem_iff.mp hu),
    fun u hu hp => hp.change hc ?_, fun u => hc.live, fun u hu => .inr (hperm.mem_iff.mp hu)⟩, ?_, ?_⟩
  · unfold restoreAThread
    rw [hq]
    exact bind_eq_ok.mpr ⟨_, rfl, bind_eq_ok.mpr ⟨_, NList.append_eq_ok.mpr ⟨hr, rfl⟩, by rw [hk]; rfl⟩⟩
  · rw [hbl, hq, hk]
    exact fun hm => hm.imp_right fun hm => (List.mem_cons.mp hm).resolve_left hu
  all_goals rw [hk]; rfl

/-- A thread gets another priority. -/
theorem Places.setPriority (h : Places typeno k) (n : Int) :
    Moves typeno t k (k.setThread t fun th => { th with priority := n }) := by
  have hth : ∀ u, ((k.setThread t fun th => { th with priority := n }).thread u).status =
      (k.thread u).status ∧
    ((k.setThread t fun th => { th with priority := n }).thread u).threadID =
      (k.thread u).threadID := fun u => by
    by_cases e : u = t
    · subst e
      simp
    · simp [e]
  have ho : others typeno (k.setThread t fun th => { th with priority := n }) = k.others typeno := by
    cases typeno <;> rfl
  have hlive : ∀ u, k.Live u → (k.setThread t fun th => { th with priority := n }).Live u := fun u hu =>
    ⟨hu.1, by rw [(hth u).1]; exact hu.2⟩
  refine ⟨⟨by rw [ho]; exact h.nodup, fun i u hu => ?_, fun u hu => ?_⟩,
    fun u _ hp => ⟨hlive u hp.1, hp.2⟩, hlive, fun u hu => .inr ?_⟩
  · rw [(hth u).2]
    exact h.ids i u hu
  · rw [ho] at hu
    exact hlive u (h.live u hu)
  · rw [ho] at hu
    exact hu

/-- `Thread::Thread` at an address where no thread exists. -/
theorem Places.new (h : Places typeno k) (ht : ¬ k.Registered t)
    (hk : k.newThread typeno t = .ok k') :
    Moves typeno t k k' ∧ k'.others typeno = k.others typeno ∧ k'.blockList = k.blockList ∧
      k'.currentThread = k.currentThread ∧ k'.toBeDestroyed = k.toBeDestroyed := by
  have hreg := newThread_registered hk
  obtain ⟨i, rfl, hget⟩ := newThread_cases hk
  obtain ⟨k', hk'⟩ : ∃ k', k' = { k with threadArray := k.threadArray.set i (some t) }.setThread t
    (Thread.new typeno i) := ⟨_, rfl⟩
  rw [← hk']
  have hth : ∀ u ≠ t, k'.thread u = k.thread u := fun u hu => by simp [hk', hu]
  have ho : k'.others typeno = k.others typeno := by
    rw [hk']
    cases typeno <;> rfl
  have hbl : k'.blockList = k.blockList := by rw [hk']; rfl
  have hlive : ∀ u, k.Live u → k'.Live u := fun u hu => by
    have hne : u ≠ t := fun e => ht (e ▸ hu.1)
    refine ⟨?_, by rw [hth u hne]; exact hu.2⟩
    rw [hk']
    exact (hreg u).mpr (.inr hu.1)
  refine ⟨⟨⟨by rw [ho, hbl]; exact h.nodup, fun j u hu => ?_, fun u hu => ?_⟩, fun u _ hp => ?_, hlive,
    fun u hu => .inr (by rwa [← ho, ← hbl])⟩, ho, hbl, by rw [hk']; rfl, by rw [hk']; rfl⟩
  · rw [hk'] at hu
    rcases (hget j u).mp hu with ⟨rfl, rfl⟩ | hu
    · simp [hk']
    · have hne : u ≠ t := fun e => ht (registered_iff.mpr ⟨j, e ▸ hu⟩)
      rw [hth u hne]
      exact h.ids j u hu
  · rw [ho] at hu
    exact hlive u (h.live u hu)
  · refine ⟨hlive u hp.1, ?_⟩
    rw [hbl, hk']
    exact hp.2

/-- `CheckToBeDestroyed` of a thread in `blockList`. -/
theorem Places.destroy (h : Places typeno k) (hd : k.toBeDestroyed = some t) (hr : k.Registered t)
    (hb : t ∈ k.blockList) (hk : k.checkToBeDestroyed = .ok k') :
    Places typeno k' ∧ (∀ u ≠ t, k.Parked u → k'.Parked u) ∧ (∀ u ≠ t, k.Live u → k'.Live u) ∧
      k'.others typeno = k.others typeno ∧ k'.blockList = k.blockList ∧
      k'.currentThread = k.currentThread ∧ k'.toBeDestroyed = none := by
  obtain ⟨i, rfl, hget⟩ := checkToBeDestroyed_cases h.ids hr hd hk
  obtain ⟨k', hk'⟩ : ∃ k', k' = { k with
    threadArray := k.threadArray.set i none, toBeDestroyed := none } := ⟨_, rfl⟩
  rw [← hk']
  have ho : k'.others typeno = k.others typeno := by
    rw [hk']
    cases typeno <;> rfl
  have hlive : ∀ u ≠ t, k.Live u → k'.Live u := fun u hne hu => by
    obtain ⟨j, hj⟩ := registered_iff.mp hu.1
    rw [hk']
    exact ⟨registered_iff.mpr ⟨j, (hget j u).mpr ⟨hne, hj⟩⟩, hu.2⟩
  refine ⟨⟨?_, fun j u hu => ?_, fun u hu => ?_⟩, fun u hne hp => ⟨hlive u hne hp.1, ?_⟩, hlive, ho, ?_,
    ?_, ?_⟩
  · rw [ho, hk']
    exact h.nodup
  · rw [hk'] at hu ⊢
    exact h.ids j u ((hget j u).mp hu).2
  · rw [ho] at hu
    exact hlive u (fun e => h.not_others hb (e ▸ hu)) (h.live u hu)
  · rw [hk']
    exact hp.2
  all_goals rw [hk']

omit [DecidableEq P] in
theorem Places.parked_not_ready (h : Places typeno k) (hp : k.Parked t) : t ∉ k.ready typeno := by
  have hn := h.nodup
  simp only [others, List.append_assoc] at hn
  intro hm
  refine (List.nodup_append.mp hn).2.2 t hm t ?_ rfl
  rcases hp.2 with hb | hs
  · simp [hb]
  · simp [hs]

omit [DecidableEq P] in
theorem Parked.mem (hp : k.Parked t) : t ∈ k.others typeno ++ k.blockList := by
  rcases hp.2 with hb | hs
  · exact List.mem_append_right _ hb
  · exact List.mem_append_left _ (List.mem_append_right _ hs)

/-- `Yield`: the same thread or another one runs. -/
theorem Places.yield (h : Places typeno k) (hl : k.Live k.currentThread)
    (hc : k.currentThread ∉ k.others typeno ++ k.blockList) {b : Bool}
    (hk : k.yield typeno = .ok (k', b)) :
    Places typeno k' ∧ (k'.Live k'.currentThread ∧
      k'.currentThread ∉ k'.others typeno ++ k'.blockList) ∧
      k'.toBeDestroyed = k.toBeDestroyed ∧ ∀ u, k.Parked u → k'.Parked u := by
  unfold Kernel.yield at hk
  split at hk
  · cases hk
    exact ⟨h, ⟨hl, hc⟩, rfl, fun _ => id⟩
  · rename_i t k₁ hf
    obtain ⟨k₂, h₂, hk⟩ := bind_eq_ok.mp hk
    obtain ⟨k₃, h₃, hk⟩ := bind_eq_ok.mp hk
    cases hk
    have ht := taken_findNextToRun hf
    obtain ⟨m₁, hlive, hnot⟩ := h.taken ht
    have hr := readied_readyToRun h₂ m₁.places.blockList_nodup
    have hc₁ : k₁.currentThread ∉ k₁.others typeno := fun hm => by
      rcases m₁.mem _ (List.mem_append_left _ hm) with e | hm
      · exact hnot (e ▸ List.mem_append_left _ hm)
      · rw [ht.currentThread] at hm
        exact hc hm
    have m₂ := m₁.places.readied hr (m₁.live _ (by rw [ht.currentThread]; exact hl)).1 hc₁
    obtain ⟨m₃, ho, hbl, -⟩ := m₂.places.run h₃
    have hne : t ≠ k₁.currentThread := by
      rw [ht.currentThread]
      rintro rfl
      exact hc (List.mem_append_left _ (mem_others_ready (by rw [ht.ready]; exact List.mem_cons_self)))
    have hrun := run_eq h₃
    have hcur : k'.currentThread = t := by rw [hrun]; rfl
    refine ⟨m₃.places, ⟨?_, ?_⟩, ?_, fun u hu => ?_⟩
    · rw [hcur]
      exact m₃.live t (m₂.live t hlive)
    · rw [hcur, ho, hbl]
      exact fun hm => (m₂.mem t hm).elim hne hnot
    · rw [hrun]
      exact hr.toBeDestroyed.trans ht.toBeDestroyed
    · have hut : u ≠ t := fun e => h.parked_not_ready hu (by rw [e, ht.ready]; exact List.mem_cons_self)
      have huc : u ≠ k₁.currentThread := fun e => hc (by rw [← ht.currentThread, ← e]; exact hu.mem)
      exact m₃.parked u hut (m₂.parked u huc (m₁.parked u hut hu))

/-- One turn of the loop of `Sleep`. -/
theorem Places.dispatch (h : Places typeno k) {finishing b : Bool}
    (hk : k.dispatch typeno finishing = .ok (k', b)) :
    (b = false ∧ k' = k) ∨ (b = true ∧ Places typeno k' ∧ (k'.Live k'.currentThread ∧
      k'.currentThread ∉ k'.others typeno ++ k'.blockList) ∧
      k'.toBeDestroyed = (if finishing then some k.currentThread else k.toBeDestroyed) ∧
      (∀ u, k.Parked u → k'.Parked u) ∧ (∀ u, k.Live u → k'.Live u) ∧
      k'.blockList = k.blockList) := by
  unfold Kernel.dispatch at hk
  split at hk
  · cases hk
    exact .inl ⟨rfl, rfl⟩
  · rename_i t k₁ hf
    obtain ⟨k₂, h₂, hk⟩ := bind_eq_ok.mp hk
    cases hk
    have ht := taken_findNextToRun hf
    obtain ⟨m₁, hlive, hnot⟩ := h.taken ht
    obtain ⟨m₂, ho, hbl, -⟩ := m₁.places.run h₂
    have hrun := run_eq h₂
    have hcur : k'.currentThread = t := by rw [hrun]; rfl
    refine .inr ⟨rfl, m₂.places, ⟨?_, ?_⟩, ?_, fun u hu => ?_, fun u hu => m₂.live u (m₁.live u hu), ?_⟩
    · rw [hcur]
      exact m₂.live t hlive
    · rw [hcur, ho, hbl]
      exact hnot
    · rw [hrun]
      simp only [setThread, ht.currentThread, ht.toBeDestroyed]
    · have hut : u ≠ t := fun e => h.parked_not_ready hu (by rw [e, ht.ready]; exact List.mem_cons_self)
      exact m₂.parked u hut (m₁.parked u hut hu)
    · rw [hbl, ht.blockList]

theorem append_ne {xs : List P} (ht : t ∉ xs) : NList.append xs t ≠ .error .assert := by
  rw [NList.append_eq_ok.mpr ⟨ht, rfl⟩]
  simp

theorem insert_ne {compare : P → P → Int} {xs : List P} (ht : t ∉ xs) :
    NList.insert compare xs t ≠ .error .assert := by
  rw [NList.insert_eq_ok.mpr ⟨ht, rfl⟩]
  simp

theorem defined_ne {p : Prop} [Decidable p] : defined p ≠ .error .assert := by
  unfold defined
  split <;> simp

/-- `ReadyToRun` fails no `ASSERT`. -/
theorem readyToRun_ne (hn : k.blockList.Nodup) (hr : t ∉ k.ready typeno) :
    k.readyToRun typeno t ≠ .error .assert := by
  refine bind_ne_error ?_ fun b _ => ?_
  · split
    · rename_i hb
      rw [NList.remove_eq_ok.mpr ⟨hb, hn.not_mem_erase, rfl⟩]
      simp
    · simp
  · cases typeno with
    | fifo | timeSlice => exact bind_ne_error (append_ne hr) fun q _ => by simp
    | priority => exact bind_ne_error (insert_ne hr) fun q _ => by simp
    | feedback =>
      exact bind_ne_error defined_ne fun _ _ =>
        bind_ne_error (append_ne fun hm => hr (mem_flatten_of_getD hm)) fun q _ => by simp

theorem run_ne {finishing : Bool} (h : finishing = true → k.toBeDestroyed = none) :
    k.run t finishing ≠ .error .assert := by
  refine bind_ne_error ?_ fun k' _ => by simp
  cases finishing with
  | false => simp
  | true =>
    rw [if_pos rfl, assert_of (h rfl)]
    simp

/-- Nor does `Yield`. -/
theorem Places.yield_ne (h : Places typeno k)
    (hc : k.currentThread ∉ k.others typeno ++ k.blockList) : k.yield typeno ≠ .error .assert := by
  unfold Kernel.yield
  split
  · simp
  · rename_i t k₁ hf
    have ht := taken_findNextToRun hf
    have hr : k₁.currentThread ∉ k₁.ready typeno := fun hm => hc <| by
      rw [ht.currentThread] at hm
      refine List.mem_append_left _ (mem_others_ready ?_)
      rw [ht.ready]
      exact List.mem_cons_of_mem _ hm
    refine bind_ne_error (readyToRun_ne (by rw [ht.blockList]; exact h.blockList_nodup) hr) fun k₂ _ => ?_
    exact bind_ne_error (run_ne (by simp)) fun k₃ _ => by simp

end Kernel

/-! ## Runs -/

namespace Suspend

open Kernel

variable {P S : Type} [DecidableEq P] [DecidableEq S]

/-- The scheduler, the semaphores, and the semaphore in whose `P` a thread
sleeps. -/
structure State (P S : Type) where
  base : Proof.Scheduler.State P
  semaphore : S → Semaphore P
  sleepsIn : P → Option S

/-- The operations: those of the scheduler but for the wake-ups, and those of
the semaphores and of `machine/mipssim.cc`. -/
inductive Op (P S : Type)
  | base (op : Proof.Scheduler.Op P)
  | p (q : S)
  | v (q : S)
  | awake
  | suspend
  | restore
  deriving DecidableEq

/-- The thread whose code runs is not in the loop of a `P`. -/
def State.free (s : State P S) : Bool := s.sleepsIn s.base.kernel.currentThread = none

/-- When an operation can happen. A thread that slept in `P` tests the value
again before all else; `V` is called by threads and by interrupt handlers, also
while the machine idles. -/
def enabled (s : State P S) : Op P S → Bool
  | .base (.wake _) => false
  | .base .dispatch => Proof.Scheduler.enabled s.base .dispatch
  | .base .resume => Proof.Scheduler.enabled s.base .resume
  | .base op => Proof.Scheduler.enabled s.base op && s.free
  | .p q => s.base.inCode &&
    (s.free || s.sleepsIn s.base.kernel.currentThread = some q)
  | .v _ => s.base.phase ≠ .switched && (s.base.phase ≠ .running || s.free)
  | .awake | .suspend => s.base.inCode && s.free && !s.base.kernel.blockList.isEmpty
  | .restore => s.base.inCode && s.free && !s.base.kernel.suspendList.isEmpty

/-- `V` makes the thread that it takes off the queue ready. -/
def wake (typeno : Policy) (k : Kernel P) : Option P → Except Abort (Kernel P)
  | none => return k
  | some t => k.readyToRun typeno t

/-- What an operation does. -/
def exec (typeno : Policy) (s : State P S) : Op P S → Except Abort (State P S)
  | .base op => do
    let b ← Proof.Scheduler.exec typeno s.base op
    return { s with base := b }
  | .p q => do
    let t := s.base.kernel.currentThread
    let (sem, b) ← (s.semaphore q).p t
    let s := { s with semaphore := Function.update s.semaphore q sem }
    if b then return { s with sleepsIn := Function.update s.sleepsIn t none }
    else do
      let k ← s.base.kernel.sleep
      return { s with
        base := { s.base with kernel := k, phase := .sleeping false }
        sleepsIn := Function.update s.sleepsIn t (some q) }
  | .v q => do
    let k ← wake typeno s.base.kernel (s.semaphore q).v.2
    return { s with
      base := { s.base with kernel := k }
      semaphore := Function.update s.semaphore q (s.semaphore q).v.1 }
  | .awake => do
    let k ← s.base.kernel.awakeAThead
    return { s with base := { s.base with kernel := k } }
  | .suspend => do
    let k ← s.base.kernel.suspendAThread
    return { s with base := { s.base with kernel := k } }
  | .restore => do
    let k ← s.base.kernel.restoreAThread
    return { s with base := { s.base with kernel := k } }

/-- One operation; one that cannot happen changes nothing. -/
def next (typeno : Policy) (s : State P S) (op : Op P S) : Except Abort (State P S) :=
  if enabled s op then exec typeno s op else .ok s

/-- The kernel after `Kernel::Initialize`, with semaphores of the given values. -/
def start (typeno : Policy) (mem : P → Thread) (main : P) (value : S → Int) : State P S where
  base := Proof.Scheduler.start typeno mem main
  semaphore q := .new (value q)
  sleepsIn _ := none

def system (typeno : Policy) (mem : P → Thread) (main : P) (value : S → Int) :
    System (State P S) (Op P S) :=
  .ofFun (start typeno mem main value) (next typeno)

/-- Suspension does not conflict with wake-ups; `C` are the operations that may
come next. A full `threadArray` is the only `ASSERT` that may fail. -/
structure NoConflict (typeno : Policy) (C : State P S → Op P S → Prop) (s : State P S) : Prop where
  lists : s.base.kernel.lists.Nodup
  suspended : (∀ b, s.base.phase ≠ .sleeping b) →
    s.base.kernel.currentThread ∉ s.base.kernel.suspendList
  append : ∀ op, C s op → enabled s op = true → (∀ t, op ≠ .base (.newThread t)) →
    exec typeno s op ≠ .error .assert

/-- `V` wakes no suspended thread; `awakeAThead` and `restoreAThread` take no
thread that a semaphore has queued; and what `awakeAThead` and `suspendAThread`
take is a thread that still exists. -/
def Separate (s : State P S) : Op P S → Prop
  | .v q => ∀ t, (s.semaphore q).queue.head? = some t → t ∉ s.base.kernel.suspendList
  | .awake => ∀ t, s.base.kernel.blockList.head? = some t →
    s.base.kernel.Live t ∧ ∀ q, t ∉ (s.semaphore q).queue
  | .suspend => ∀ t, s.base.kernel.blockList.head? = some t → s.base.kernel.Live t
  | .restore => ∀ t, s.base.kernel.suspendList.head? = some t → ∀ q, t ∉ (s.semaphore q).queue
  | _ => True

/-! ## The invariant -/

/-- Every state of a run with `Separate` operations. -/
structure Inv (typeno : Policy) (s : State P S) : Prop where
  places : Places typeno s.base.kernel
  running : (∀ b, s.base.phase ≠ .sleeping b) → s.base.kernel.Live s.base.kernel.currentThread ∧
    s.base.kernel.currentThread ∉ s.base.kernel.others typeno ++ s.base.kernel.blockList
  finishing : s.base.phase = .sleeping true → s.base.kernel.Live s.base.kernel.currentThread ∧
    s.base.kernel.currentThread ∈ s.base.kernel.blockList ∧
    ∀ q, s.base.kernel.currentThread ∉ (s.semaphore q).queue
  destroyed : ∀ t, s.base.kernel.toBeDestroyed = some t → s.base.phase = .switched ∧
    s.base.kernel.Live t ∧ t ∈ s.base.kernel.blockList ∧ ∀ q, t ∉ (s.semaphore q).queue
  queued : ∀ q, (s.semaphore q).queue.Nodup ∧
    ∀ t ∈ (s.semaphore q).queue, s.sleepsIn t = some q ∧ s.base.kernel.Parked t

section
variable {typeno : Policy} {s s' : State P S} {k : Kernel P} {t : P}

omit [DecidableEq P] [DecidableEq S] in
theorem Inv.not_queued (h : Inv typeno s)
    (ht : t ∉ s.base.kernel.blockList) (ht' : t ∉ s.base.kernel.suspendList) (q : S) :
    t ∉ (s.semaphore q).queue := fun hm => ((h.queued q).2 t hm).2.2.elim ht ht'

omit [DecidableEq P] [DecidableEq S] in
theorem Inv.not_queued_of_not_live (h : Inv typeno s) (ht : ¬ s.base.kernel.Live t) (q : S) :
    t ∉ (s.semaphore q).queue := fun hm => ht ((h.queued q).2 t hm).2.1

omit [DecidableEq P] [DecidableEq S] in
/-- The running thread is in no queue. -/
theorem Inv.current_not_queued (h : Inv typeno s) (hp : ∀ b, s.base.phase ≠ .sleeping b) (q : S) :
    s.base.kernel.currentThread ∉ (s.semaphore q).queue := by
  have hc := (h.running hp).2
  refine h.not_queued (fun hm => hc (List.mem_append_right _ hm)) (fun hm => hc ?_) q
  exact List.mem_append_left _ (List.mem_append_right _ hm)

omit [DecidableEq P] [DecidableEq S] in
theorem Inv.none_destroyed (h : Inv typeno s) (hp : s.base.phase ≠ .switched) :
    s.base.kernel.toBeDestroyed = none := by
  cases hd : s.base.kernel.toBeDestroyed with
  | none => rfl
  | some t => exact absurd (h.destroyed t hd).1 hp

omit [DecidableEq P] [DecidableEq S] in
/-- A step of the running thread that moves threads in no queue, and after which
it or another one runs. -/
theorem Inv.runs (h : Inv typeno s) (hp : s.base.phase = .running) {b : Proof.Scheduler.State P}
    (hpl : Places typeno b.kernel)
    (hpk : ∀ q, ∀ u ∈ (s.semaphore q).queue, b.kernel.Parked u)
    (hrun : b.kernel.Live b.kernel.currentThread ∧
      b.kernel.currentThread ∉ b.kernel.others typeno ++ b.kernel.blockList)
    (hphase : ∀ f, b.phase ≠ .sleeping f)
    (hd : b.kernel.toBeDestroyed = s.base.kernel.toBeDestroyed) : Inv typeno { s with base := b } := by
  refine ⟨hpl, fun _ => hrun, fun hf => absurd hf (hphase true), fun t ht => ?_, fun q =>
    ⟨(h.queued q).1, fun u hu => ⟨((h.queued q).2 u hu).1, hpk q u hu⟩⟩⟩
  rw [hd, h.none_destroyed (by rw [hp]; decide)] at ht
  cases ht

omit [DecidableEq P] [DecidableEq S] in
/-- The same, for a step that moves one thread, which is in no queue. -/
theorem Inv.moves (h : Inv typeno s) (hp : s.base.phase = .running) (hm : Moves typeno t s.base.kernel k)
    (ht : ∀ q, t ∉ (s.semaphore q).queue) (hne : t ≠ s.base.kernel.currentThread)
    (hc : k.currentThread = s.base.kernel.currentThread)
    (hd : k.toBeDestroyed = s.base.kernel.toBeDestroyed) {f : P → Bool} :
    Inv typeno { s with base := { s.base with kernel := k, forking := f } } := by
  obtain ⟨hl, hn⟩ := h.running (by rw [hp]; simp)
  refine h.runs hp (b := { s.base with kernel := k, forking := f }) hm.places
    (fun q u hu => hm.parked u (fun e => ht q (e ▸ hu)) ((h.queued q).2 u hu).2) ?_
    (by simp [hp]) hd
  simp only [hc]
  exact ⟨hm.live _ hl, fun hmem => (hm.mem _ hmem).elim (fun e => hne e.symm) hn⟩

omit [DecidableEq S] in
/-- `Yield`. -/
theorem Inv.yield (h : Inv typeno s) (hp : s.base.phase = .running) {b : Bool}
    (hk : s.base.kernel.yield typeno = .ok (k, b)) (f : P → Bool) :
    Inv typeno { s with base := { s.base with
      kernel := k, forking := f, phase := if b then .switched else .running } } := by
  obtain ⟨hl, hn⟩ := h.running (by rw [hp]; simp)
  obtain ⟨hpl, hrun, hd, hpk⟩ := h.places.yield hl hn hk
  exact h.runs hp hpl (fun q u hu => hpk u ((h.queued q).2 u hu).2) hrun (by cases b <;> simp) hd

omit [DecidableEq S] in
/-- `Sleep`, up to its loop. -/
theorem Inv.sleep (h : Inv typeno s) (hp : s.base.phase = .running)
    (hk : s.base.kernel.sleep = .ok k) (finishing : Bool) (w : List P) :
    Inv typeno { s with base := { s.base with
      kernel := k, phase := .sleeping finishing, waiting := w } } := by
  have hrunning : ∀ b, s.base.phase ≠ .sleeping b := by rw [hp]; simp
  obtain ⟨hl, hn⟩ := h.running hrunning
  obtain ⟨k', hk', hm, hlive, hmem, -, hc, hd⟩ := h.places.block hl.1 hn
  obtain rfl : k = k' := Except.ok.inj (hk.symm.trans hk')
  have hq := h.current_not_queued hrunning
  refine ⟨hm.places, fun hf => absurd rfl (hf finishing), fun _ => ?_, fun t ht => ?_, fun q =>
    ⟨(h.queued q).1, fun u hu => ⟨((h.queued q).2 u hu).1,
      hm.parked u (fun e => hq q (e ▸ hu)) ((h.queued q).2 u hu).2⟩⟩⟩
  · simp only [hc]
    exact ⟨hlive, hmem, hq⟩
  · rw [hd, h.none_destroyed (by rw [hp]; decide)] at ht
    cases ht

omit [DecidableEq S] in
/-- The loop of `Sleep`. -/
theorem Inv.dispatch (h : Inv typeno s) {finishing b : Bool} (hp : s.base.phase = .sleeping finishing)
    (hk : s.base.kernel.dispatch typeno finishing = .ok (k, b)) :
    Inv typeno { s with base := { s.base with
      kernel := k, phase := if b then .switched else s.base.phase } } := by
  rcases h.places.dispatch hk with ⟨rfl, rfl⟩ | ⟨rfl, hpl, hrun, hd, hpk, hlive, hbl⟩
  · exact h
  · refine ⟨hpl, fun _ => hrun, fun hf => by simp at hf, fun t ht => ⟨rfl, ?_⟩, fun q =>
      ⟨(h.queued q).1, fun u hu => ⟨((h.queued q).2 u hu).1, hpk u ((h.queued q).2 u hu).2⟩⟩⟩
    rw [hd, h.none_destroyed (by rw [hp]; simp)] at ht
    cases finishing with
    | false => cases ht
    | true =>
      cases ht
      obtain ⟨h₁, h₂, h₃⟩ := h.finishing hp
      exact ⟨hlive _ h₁, by rw [hbl]; exact h₂, h₃⟩

omit [DecidableEq S] in
/-- Behind `SWITCH`. -/
theorem Inv.resume (h : Inv typeno s) (hp : s.base.phase = .switched)
    (hk : s.base.kernel.checkToBeDestroyed = .ok k) (d : List P) :
    Inv typeno { s with base := { s.base with kernel := k, phase := .running, deleted := d } } := by
  obtain ⟨hl, hn⟩ := h.running (by rw [hp]; simp)
  cases hd : s.base.kernel.toBeDestroyed with
  | none =>
    simp only [checkToBeDestroyed, hd] at hk
    cases hk
    refine ⟨h.places, fun _ => ⟨hl, hn⟩, by simp, fun t ht => ?_, h.queued⟩
    rw [hd] at ht
    cases ht
  | some t =>
    obtain ⟨-, htl, htb, htq⟩ := h.destroyed t hd
    obtain ⟨hpl, hpk, hlive, ho, hbl, hc, hd'⟩ := h.places.destroy hd htl.1 htb hk
    have hne : s.base.kernel.currentThread ≠ t := fun e => hn (e ▸ List.mem_append_right _ htb)
    refine ⟨hpl, fun _ => ?_, by simp, fun u hu => ?_, fun q => ⟨(h.queued q).1, fun u hu =>
      ⟨((h.queued q).2 u hu).1, hpk u (fun e => htq q (e ▸ hu)) ((h.queued q).2 u hu).2⟩⟩⟩
    · simp only [hc, ho, hbl]
      exact ⟨hlive _ hne hl, hn⟩
    · rw [hd'] at hu
      cases hu

/-- The scheduler's own operations. -/
theorem Inv.base (h : Inv typeno s) {op : Proof.Scheduler.Op P} (he : enabled s (.base op) = true)
    (hs : exec typeno s (.base op) = .ok s') : Inv typeno s' := by
  obtain ⟨b, hb, hs⟩ := bind_eq_ok.mp hs
  cases hs
  cases op with
  | newThread t =>
    simp only [enabled, Proof.Scheduler.enabled, Proof.Scheduler.State.inCode, Bool.and_eq_true,
      decide_eq_true_eq, Bool.not_eq_true', decide_eq_false_iff_not] at he
    obtain ⟨⟨⟨hp, -⟩, hr⟩, -⟩ := he
    obtain ⟨k, hk, hb⟩ := bind_eq_ok.mp hb
    cases hb
    obtain ⟨hm, -, -, hc, hd⟩ := h.places.new hr hk
    exact h.moves hp hm (h.not_queued_of_not_live fun hl => hr hl.1)
      (fun e => hr (e ▸ (h.running (by rw [hp]; simp)).1.1)) hc hd
  | setPriority t n =>
    simp only [enabled, Proof.Scheduler.enabled, Proof.Scheduler.State.inCode, Bool.and_eq_true,
      decide_eq_true_eq] at he
    obtain ⟨⟨⟨⟨hp, -⟩, -⟩, hj⟩, -⟩ := he
    cases hb
    exact h.moves hp (h.places.setPriority n) (h.not_queued_of_not_live fun hl => hl.2 hj)
      (fun e => (h.running (by rw [hp]; simp)).1.2 (e ▸ hj)) rfl rfl
  | fork t =>
    simp only [enabled, Proof.Scheduler.enabled, Proof.Scheduler.State.inCode, Bool.and_eq_true,
      decide_eq_true_eq] at he
    obtain ⟨⟨⟨⟨hp, -⟩, hr⟩, hj⟩, -⟩ := he
    obtain ⟨k, hk, hb⟩ := bind_eq_ok.mp hb
    cases hb
    have hnl : ¬ s.base.kernel.Live t := fun hl => hl.2 hj
    have hr' := readied_fork hk h.places.blockList_nodup
    exact h.moves hp (h.places.readied hr' hr (h.places.not_live hnl)) (h.not_queued_of_not_live hnl)
      (fun e => hnl (e ▸ (h.running (by rw [hp]; simp)).1)) hr'.currentThread hr'.toBeDestroyed
  | forkRest =>
    simp only [enabled, Proof.Scheduler.enabled, Bool.and_eq_true, decide_eq_true_eq] at he
    obtain ⟨⟨hp, -⟩, -⟩ := he
    obtain ⟨⟨k, y⟩, hk, hb⟩ := bind_eq_ok.mp hb
    cases hb
    obtain ⟨hl, hn⟩ := h.running (by rw [hp]; simp)
    have hid : Inv typeno { s with base := { s.base with
        forking := Function.update s.base.forking s.base.kernel.currentThread false
        phase := .running } } :=
      h.runs hp h.places (fun q u hu => ((h.queued q).2 u hu).2) ⟨hl, hn⟩ (by simp) rfl
    unfold Kernel.forkRest at hk
    split at hk
    · split at hk <;> [cases hk; skip]
      split at hk
      · exact h.yield hp hk _
      · cases hk
        exact hid
    · cases hk
      exact hid
  | yield =>
    simp only [enabled, Proof.Scheduler.enabled, Bool.and_eq_true, decide_eq_true_eq] at he
    obtain ⟨⟨k, y⟩, hk, hb⟩ := bind_eq_ok.mp hb
    cases hb
    exact h.yield he.1 hk _
  | sleep =>
    simp only [enabled, Proof.Scheduler.enabled, Proof.Scheduler.State.inCode, Bool.and_eq_true,
      decide_eq_true_eq] at he
    obtain ⟨k, hk, hb⟩ := bind_eq_ok.mp hb
    cases hb
    exact h.sleep he.1.1 hk false _
  | finish =>
    simp only [enabled, Proof.Scheduler.enabled, Proof.Scheduler.State.inCode, Bool.and_eq_true,
      decide_eq_true_eq] at he
    obtain ⟨k, hk, hb⟩ := bind_eq_ok.mp hb
    cases hb
    exact h.sleep he.1.1 hk true _
  | dispatch =>
    simp only [enabled, Proof.Scheduler.enabled, Bool.or_eq_true, decide_eq_true_eq] at he
    obtain ⟨⟨k, y⟩, hk, hb⟩ := bind_eq_ok.mp hb
    cases hb
    rcases he with hp | hp
    · exact h.dispatch hp (by simpa [hp] using hk)
    · exact h.dispatch hp (by simpa [hp] using hk)
  | wake t => cases he
  | resume =>
    simp only [enabled, Proof.Scheduler.enabled, decide_eq_true_eq] at he
    obtain ⟨k, hk, hb⟩ := bind_eq_ok.mp hb
    cases hb
    exact h.resume he hk _

/-- `P`, from its first test or from a later one. -/
theorem Inv.p (h : Inv typeno s) {q : S} (he : enabled s (.p q) = true)
    (hs : exec typeno s (.p q) = .ok s') : Inv typeno s' := by
  simp only [enabled, Proof.Scheduler.State.inCode, Bool.and_eq_true, decide_eq_true_eq] at he
  obtain ⟨⟨hp, -⟩, -⟩ := he
  have hrunning : ∀ b, s.base.phase ≠ .sleeping b := by rw [hp]; simp
  have hcq := h.current_not_queued hrunning
  obtain ⟨⟨sem, b⟩, hsem, hs⟩ := bind_eq_ok.mp hs
  rcases Semaphore.p_cases hsem with ⟨rfl, -, rfl⟩ | ⟨rfl, -, -, rfl⟩
  · cases hs
    -- Only the value changes, and who is in a `P` does not count while it runs.
    have hqueue : ∀ q', (Function.update s.semaphore q
        { s.semaphore q with value := (s.semaphore q).value - 1 } q').queue =
          (s.semaphore q').queue := fun q' => by
      by_cases e : q' = q
      · subst e
        simp
      · simp [e]
    refine ⟨h.places, h.running, fun hf => absurd hf (hrunning true), fun t ht => ?_, fun q' => ?_⟩
    · simp only [hqueue]
      exact h.destroyed t ht
    · simp only [hqueue]
      refine ⟨(h.queued q').1, fun u hu => ?_⟩
      have hne : u ≠ s.base.kernel.currentThread := fun e => hcq q' (e ▸ hu)
      rw [Function.update_of_ne hne]
      exact (h.queued q').2 u hu
  · obtain ⟨k, hk, hs⟩ := bind_eq_ok.mp hs
    cases hs
    obtain ⟨hl, hn⟩ := h.running hrunning
    obtain ⟨k', hk', hm, hlive, hmem, -, hc, hd⟩ := h.places.block hl.1 hn
    obtain rfl : k = k' := Except.ok.inj (hk.symm.trans hk')
    refine ⟨hm.places, fun hf => absurd rfl (hf false), fun hf => by simp at hf, fun t ht => ?_,
      fun q' => ?_⟩
    · rw [hd, h.none_destroyed (by rw [hp]; decide)] at ht
      cases ht
    · have hold : ∀ u ∈ (s.semaphore q').queue, Function.update s.sleepsIn
          s.base.kernel.currentThread (some q) u = some q' ∧ k.Parked u := fun u hu => by
        have hne : u ≠ s.base.kernel.currentThread := fun e => hcq q' (e ▸ hu)
        rw [Function.update_of_ne hne]
        exact ⟨((h.queued q').2 u hu).1, hm.parked u hne ((h.queued q').2 u hu).2⟩
      by_cases e : q' = q
      · subst e
        simp only [Function.update_self]
        rw [← List.concat_eq_append]
        refine ⟨(h.queued q').1.concat (hcq q'), fun u hu => ?_⟩
        rw [List.concat_eq_append] at hu
        rcases List.mem_append.mp hu with hu | hu
        · exact hold u hu
        · obtain rfl := List.mem_singleton.mp hu
          exact ⟨Function.update_self .., hlive, .inl hmem⟩
      · simp only [Function.update_of_ne e]
        exact ⟨(h.queued q').1, hold⟩

/-- `V`, which wakes no suspended thread. -/
theorem Inv.v (h : Inv typeno s) {q : S} (he : enabled s (.v q) = true) (hc : Separate s (.v q))
    (hs : exec typeno s (.v q) = .ok s') : Inv typeno s' := by
  simp only [enabled, Bool.and_eq_true, decide_eq_true_eq] at he
  obtain ⟨hp, -⟩ := he
  obtain ⟨k, hk, hs⟩ := bind_eq_ok.mp hs
  cases hs
  rw [Semaphore.v_eq] at hk ⊢
  cases hq : (s.semaphore q).queue with
  | nil =>
    simp only [hq, List.head?_nil] at hk
    cases hk
    have hqueue : ∀ q', (Function.update s.semaphore q
        ⟨(s.semaphore q).value + 1, ([] : List P).tail⟩ q').queue = (s.semaphore q').queue := fun q' => by
      by_cases e : q' = q
      · subst e
        simp [hq]
      · simp [e]
    refine ⟨h.places, h.running, ?_, ?_, fun q' => ?_⟩
    · simp only [hqueue]
      exact h.finishing
    · simp only [hqueue]
      exact h.destroyed
    · simp only [hqueue]
      exact h.queued q'
  | cons t l =>
    simp only [hq, List.head?_cons] at hk
    obtain ⟨hsl, hpk⟩ := (h.queued q).2 t (by rw [hq]; exact List.mem_cons_self)
    have hns := hc t (by rw [hq]; rfl)
    have htb : t ∈ s.base.kernel.blockList := hpk.2.resolve_right hns
    have hr := readied_readyToRun hk h.places.blockList_nodup
    have hm := h.places.readied hr hpk.1.1 (h.places.not_others htb)
    have hqueue : ∀ q', ∀ u ∈ (Function.update s.semaphore q
        ⟨(s.semaphore q).value + 1, (t :: l).tail⟩ q').queue, u ≠ t ∧ u ∈ (s.semaphore q').queue := by
      intro q' u hu
      by_cases e : q' = q
      · subst e
        rw [Function.update_self] at hu
        have hnd := (h.queued q').1
        rw [hq, List.nodup_cons] at hnd
        refine ⟨fun e => hnd.1 (e ▸ hu), ?_⟩
        rw [hq]
        exact List.mem_cons_of_mem _ hu
      · rw [Function.update_of_ne e] at hu
        refine ⟨fun hut => e ?_, hu⟩
        have := ((h.queued q').2 u hu).1
        rw [hut, hsl] at this
        exact (Option.some.inj this).symm
    refine ⟨hm.places, fun hf => ?_, fun hf => ?_, fun d hd => ?_, fun q' => ⟨?_, fun u hu => ?_⟩⟩
    · obtain ⟨hl, hn⟩ := h.running hf
      simp only [hr.currentThread]
      refine ⟨hm.live _ hl, fun hmem => (hm.mem _ hmem).elim (fun e => hn ?_) hn⟩
      rw [e]
      exact List.mem_append_right _ htb
    · obtain ⟨h₁, h₂, h₃⟩ := h.finishing hf
      have hne : s.base.kernel.currentThread ≠ t := fun e => h₃ q (by rw [hq, e]; exact List.mem_cons_self)
      simp only [hr.currentThread, hr.blockList]
      exact ⟨hm.live _ h₁, (List.mem_erase_of_ne hne).mpr h₂, fun q' hu => h₃ q' (hqueue q' _ hu).2⟩
    · rw [hr.toBeDestroyed, h.none_destroyed hp] at hd
      cases hd
    · by_cases e : q' = q
      · subst e
        have hnd := (h.queued q').1
        rw [hq, List.nodup_cons] at hnd
        simpa using hnd.2
      · simp only [Function.update_of_ne e]
        exact (h.queued q').1
    · obtain ⟨hne, hu⟩ := hqueue q' u hu
      obtain ⟨h₁, h₂⟩ := (h.queued q').2 u hu
      exact ⟨h₁, hm.parked u hne h₂⟩

/-- `awakeAThead`, of a thread in no queue. -/
theorem Inv.awake (h : Inv typeno s) (he : enabled s (.awake : Op P S) = true)
    (hc : Separate s (.awake : Op P S)) : ∃ s', exec typeno s .awake = .ok s' ∧ Inv typeno s' := by
  simp only [enabled, Proof.Scheduler.State.inCode, Bool.and_eq_true, decide_eq_true_eq,
    Bool.not_eq_true'] at he
  obtain ⟨⟨⟨hp, -⟩, -⟩, hb⟩ := he
  obtain ⟨t, b, hb⟩ := List.exists_cons_of_ne_nil (List.isEmpty_eq_false_iff.mp hb)
  obtain ⟨hl, hq⟩ := hc t (by rw [hb]; rfl)
  obtain ⟨k, hk, hm, hcur, hd⟩ := h.places.awake hb hl
  refine ⟨_, bind_eq_ok.mpr ⟨k, hk, rfl⟩, h.moves hp hm hq (fun e => ?_) hcur hd⟩
  exact (h.running (by rw [hp]; simp)).2 (List.mem_append_right _ (by rw [hb, e]; exact List.mem_cons_self))

/-- `restoreAThread`, of a thread in no queue. -/
theorem Inv.restore (h : Inv typeno s) (he : enabled s (.restore : Op P S) = true)
    (hc : Separate s (.restore : Op P S)) : ∃ s', exec typeno s .restore = .ok s' ∧ Inv typeno s' := by
  simp only [enabled, Proof.Scheduler.State.inCode, Bool.and_eq_true, decide_eq_true_eq,
    Bool.not_eq_true'] at he
  obtain ⟨⟨⟨hp, -⟩, -⟩, hb⟩ := he
  obtain ⟨t, b, hb⟩ := List.exists_cons_of_ne_nil (List.isEmpty_eq_false_iff.mp hb)
  obtain ⟨k, hk, hm, hcur, hd⟩ := h.places.restore hb
  refine ⟨_, bind_eq_ok.mpr ⟨k, hk, rfl⟩, h.moves hp hm (hc t (by rw [hb]; rfl)) (fun e => ?_) hcur hd⟩
  exact (h.running (by rw [hp]; simp)).2 (List.mem_append_left _ (List.mem_append_right _
    (by rw [hb, e]; exact List.mem_cons_self)))

/-- `suspendAThread`, also of a thread that a semaphore has queued. -/
theorem Inv.suspend (h : Inv typeno s) (he : enabled s (.suspend : Op P S) = true)
    (hc : Separate s (.suspend : Op P S)) : ∃ s', exec typeno s .suspend = .ok s' ∧ Inv typeno s' := by
  simp only [enabled, Proof.Scheduler.State.inCode, Bool.and_eq_true, decide_eq_true_eq,
    Bool.not_eq_true'] at he
  obtain ⟨⟨⟨hp, -⟩, -⟩, hb⟩ := he
  obtain ⟨t, b, hb⟩ := List.exists_cons_of_ne_nil (List.isEmpty_eq_false_iff.mp hb)
  obtain ⟨k, hk, hm, hpt, hcur, hd⟩ := h.places.suspend hb (hc t (by rw [hb]; rfl))
  obtain ⟨hl, hn⟩ := h.running (by rw [hp]; simp)
  have hne : s.base.kernel.currentThread ≠ t := fun e =>
    hn (List.mem_append_right _ (by rw [hb, e]; exact List.mem_cons_self))
  refine ⟨_, bind_eq_ok.mpr ⟨k, hk, rfl⟩, h.runs hp (b := { s.base with kernel := k }) hm.places
    (fun q u hu => ?_) ?_ (by simp [hp]) hd⟩
  · by_cases e : u = t
    · rw [e]
      exact hpt
    · exact hm.parked u e ((h.queued q).2 u hu).2
  · simp only [hcur]
    exact ⟨hm.live _ hl, fun hmem => (hm.mem _ hmem).elim hne hn⟩

theorem Inv.step (h : Inv typeno s) {op : Op P S} (hc : Separate s op)
    (hs : next typeno s op = .ok s') : Inv typeno s' := by
  unfold next at hs
  split at hs
  · rename_i he
    cases op with
    | base op => exact h.base he hs
    | p q => exact h.p he hs
    | v q => exact h.v he hc hs
    | awake =>
      obtain ⟨s₁, hx, hI⟩ := h.awake he hc
      rwa [Except.ok.inj (hs.symm.trans hx)]
    | suspend =>
      obtain ⟨s₁, hx, hI⟩ := h.suspend he hc
      rwa [Except.ok.inj (hs.symm.trans hx)]
    | restore =>
      obtain ⟨s₁, hx, hI⟩ := h.restore he hc
      rwa [Except.ok.inj (hs.symm.trans hx)]
  · cases hs
    exact h

/-- The scheduler's operations fail no `ASSERT` but that of `addAThread`. -/
theorem Inv.base_ne (h : Inv typeno s) {op : Proof.Scheduler.Op P} (he : enabled s (.base op) = true)
    (hn : ∀ t, op ≠ .newThread t) : exec typeno s (.base op) ≠ .error .assert := by
  refine bind_ne_error ?_ fun b _ => by simp
  have hsleep : s.base.phase = .running → s.base.kernel.sleep ≠ .error .assert := fun hp => by
    obtain ⟨hl, hc⟩ := h.running (by rw [hp]; simp)
    obtain ⟨k, hk, -⟩ := h.places.block hl.1 hc
    rw [Kernel.sleep, hk]
    simp
  have hyield : s.base.phase = .running → s.base.kernel.yield typeno ≠ .error .assert := fun hp =>
    h.places.yield_ne (h.running (by rw [hp]; simp)).2
  cases op with
  | newThread t => exact absurd rfl (hn t)
  | setPriority t n => simp [Proof.Scheduler.exec]
  | fork t =>
    simp only [enabled, Proof.Scheduler.enabled, Bool.and_eq_true, decide_eq_true_eq] at he
    have hnl : ¬ s.base.kernel.Live t := fun hl => hl.2 he.1.2
    refine bind_ne_error (readyToRun_ne h.places.blockList_nodup fun hm => ?_) fun k _ => by simp
    refine h.places.not_live hnl (mem_others_ready ?_)
    cases typeno <;> exact hm
  | forkRest =>
    simp only [enabled, Proof.Scheduler.enabled, Bool.and_eq_true, decide_eq_true_eq] at he
    refine bind_ne_error ?_ fun k _ => by simp
    unfold Kernel.forkRest
    split
    · split
      · simp
      · split
        · exact hyield he.1.1
        · simp
    · simp
  | yield =>
    simp only [enabled, Proof.Scheduler.enabled, Bool.and_eq_true, decide_eq_true_eq] at he
    exact bind_ne_error (hyield he.1) fun k _ => by simp
  | sleep | finish =>
    simp only [enabled, Proof.Scheduler.enabled, Proof.Scheduler.State.inCode, Bool.and_eq_true,
      decide_eq_true_eq] at he
    exact bind_ne_error (hsleep he.1.1) fun k _ => by simp
  | dispatch =>
    simp only [enabled, Proof.Scheduler.enabled, Bool.or_eq_true, decide_eq_true_eq] at he
    have hp : s.base.phase ≠ .switched := by
      rcases he with he | he <;> rw [he] <;> simp
    refine bind_ne_error ?_ fun k _ => by simp
    unfold Kernel.dispatch
    split
    · simp
    · rename_i t k hf
      refine bind_ne_error (run_ne fun _ => ?_) fun k _ => by simp
      rw [(taken_findNextToRun hf).toBeDestroyed]
      exact h.none_destroyed hp
  | wake t => cases he
  | resume =>
    simp only [enabled, Proof.Scheduler.enabled, decide_eq_true_eq] at he
    refine bind_ne_error ?_ fun k _ => by simp
    unfold Kernel.checkToBeDestroyed
    split
    · simp
    · rename_i t hd
      have hne : t ≠ s.base.kernel.currentThread := fun e =>
        (h.running (by rw [he]; simp)).2 (List.mem_append_right _ (e ▸ (h.destroyed t hd).2.2.1))
      rw [assert_of hne]
      simp

/-- Nor do `P` and `V`. -/
theorem Inv.exec_ne (h : Inv typeno s) {op : Op P S} (he : enabled s op = true) (hc : Separate s op)
    (hn : ∀ t, op ≠ .base (.newThread t)) : exec typeno s op ≠ .error .assert := by
  cases op with
  | base op => exact h.base_ne he fun t e => hn t (congrArg _ e)
  | p q =>
    simp only [enabled, Proof.Scheduler.State.inCode, Bool.and_eq_true, decide_eq_true_eq] at he
    have hrunning : ∀ b, s.base.phase ≠ .sleeping b := by rw [he.1.1]; simp
    obtain ⟨hl, hcur⟩ := h.running hrunning
    obtain ⟨k, hk, -⟩ := h.places.block hl.1 hcur
    have hsleep : s.base.kernel.sleep ≠ .error .assert := by
      rw [Kernel.sleep, hk]
      simp
    refine bind_ne_error ?_ fun r _ => ?_
    · unfold Semaphore.p
      split
      · exact bind_ne_error (append_ne (h.current_not_queued hrunning q)) fun l _ => by simp
      · simp
    · obtain ⟨sem, b⟩ := r
      cases b with
      | true => simp
      | false => exact bind_ne_error hsleep fun k _ => by simp
  | v q =>
    refine bind_ne_error ?_ fun k _ => by simp
    rw [Semaphore.v_eq]
    cases hq : (s.semaphore q).queue with
    | nil => simp [wake]
    | cons t l =>
      have hpk := ((h.queued q).2 t (by rw [hq]; exact List.mem_cons_self)).2
      exact readyToRun_ne h.places.blockList_nodup (h.places.parked_not_ready hpk)
  | awake =>
    obtain ⟨s', hs, -⟩ := h.awake he hc
    simp [hs]
  | suspend =>
    obtain ⟨s', hs, -⟩ := h.suspend he hc
    simp [hs]
  | restore =>
    obtain ⟨s', hs, -⟩ := h.restore he hc
    simp [hs]

end

omit [DecidableEq S] in
theorem inv_init (typeno : Policy) (mem : P → Thread) (main : P) (value : S → Int) :
    Inv typeno (start typeno mem main value) := by
  have hids := (Proof.Scheduler.inv_init typeno mem main).wf.ids
  have ho : (start typeno mem main value).base.kernel.others typeno = [] := by cases typeno <;> rfl
  refine ⟨⟨?_, hids, fun u hu => ?_⟩, fun _ => ⟨?_, ?_⟩, fun hf => ?_, fun t ht => ?_, fun q => ⟨.nil,
    fun u hu => ?_⟩⟩
  · rw [ho]
    exact .nil
  · rw [ho] at hu
    cases hu
  · simp [start, Proof.Scheduler.start, initializeKernel, Live, Registered, maxThreadNum]
  · rw [ho]
    exact List.not_mem_nil
  · cases hf
  · cases ht
  · cases hu

/-- In every run with `Separate` operations, suspension never conflicts with the
semaphores. -/
theorem reachable_noConflict (typeno : Policy) (mem : P → Thread) (main : P) (value : S → Int)
    {s : State P S} (h : ((system typeno mem main value).restrict Separate).Reachable s) :
    NoConflict typeno Separate s := by
  have hI : Inv typeno s := by
    refine h.invariant (I := Inv typeno) ?_ ?_
    · rintro _ rfl
      exact inv_init typeno mem main value
    · rintro s op s' hi ⟨hc, hs⟩
      exact hi.step hc hs
  refine ⟨(lists_perm typeno _).nodup_iff.mpr hI.places.nodup, fun hp hm => ?_,
    fun op hc he hn => hI.exec_ne he hc hn⟩
  exact (hI.running hp).2 (List.mem_append_left _ (List.mem_append_right _ hm))

instance [Fintype S] (s : State P S) (op : Op P S) : Decidable (Separate s op) :=
  match op with
  | .v q => inferInstanceAs (Decidable (∀ t ∈ (s.semaphore q).queue.head?,
      t ∉ s.base.kernel.suspendList))
  | .awake => inferInstanceAs (Decidable (∀ t ∈ s.base.kernel.blockList.head?,
      s.base.kernel.Live t ∧ ∀ q, t ∉ (s.semaphore q).queue))
  | .suspend => inferInstanceAs (Decidable (∀ t ∈ s.base.kernel.blockList.head?,
      s.base.kernel.Live t))
  | .restore => inferInstanceAs (Decidable (∀ t ∈ s.base.kernel.suspendList.head?,
      ∀ q, t ∉ (s.semaphore q).queue))
  | .base _ | .p _ => isTrue trivial

/-- Thread 0 forks a thread and gives up the processor to it. -/
def forkAndYield (t : Nat) : List (Op Nat Unit) :=
  [.base (.newThread t), .base (.fork t), .base .forkRest, .base .yield, .base .resume]

/-- Thread 1 waits in `P` and thread 2 sleeps. `V` wakes the one, and the other
is suspended and restored. -/
theorem reachable_noConflict_restored : ∃ s : State Nat Unit,
    ((system .fifo (fun _ => Proof.Scheduler.blank) 0 fun _ => 0).restrict Separate).Reachable s ∧
      (s.base.kernel.readyList = [1, 2] ∧ s.base.kernel.suspendList = [] ∧
        s.base.kernel.blockList = []) ∧ NoConflict .fifo Separate s := by
  obtain ⟨s, hr, hp⟩ := System.exists_reachable_guarded
    (start .fifo (fun _ => Proof.Scheduler.blank) 0 fun _ => 0) (next .fifo) Separate
    (forkAndYield 1 ++ ([.p (), .base .dispatch, .base .resume] : List (Op Nat Unit)) ++
      forkAndYield 2 ++ ([.base .sleep, .base .dispatch, .base .resume] : List (Op Nat Unit)) ++
      ([.v (), .suspend, .restore] : List (Op Nat Unit)))
    (p := fun s => s.base.kernel.readyList = [1, 2] ∧ s.base.kernel.suspendList = [] ∧
      s.base.kernel.blockList = []) (by decide +kernel)
  exact ⟨s, hr, of_decide_eq_true hp, reachable_noConflict _ _ _ _ hr⟩

/-- Thread 1 waits in `P`, is suspended, and `V` makes it ready: it is in two
lists. -/
theorem not_noConflict_suspended :
    ¬ ∀ (typeno : Policy) (mem : Nat → Thread) (main : Nat) (value : Unit → Int) s,
      (system typeno mem main value).Reachable s → NoConflict typeno (fun _ _ => True) s := by
  intro h
  obtain ⟨s, hr, hp⟩ := System.exists_reachable
    (start .fifo (fun _ => Proof.Scheduler.blank) 0 fun _ : Unit => 0) (next .fifo)
    (forkAndYield 1 ++
      ([.p (), .base .dispatch, .base .resume, .suspend, .v ()] : List (Op Nat Unit)))
    (p := fun s => ¬ s.base.kernel.lists.Nodup) (by decide +kernel)
  exact of_decide_eq_true hp (h _ _ _ _ s hr).lists

end Suspend

end Nachos

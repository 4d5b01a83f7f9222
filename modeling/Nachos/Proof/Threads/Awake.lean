import Nachos.Proof.Threads.ReadyQueue

/-!
# Threads that `awakeAThead` and `restoreAThread` move

Both append the thread to `readyList`, whatever `typeno` is. The dispatcher
sees it (`Visible`) if `readyList` is what `FindNextToRun` reads; with `typeno`
1 and 3 it is lost (`not_visible_priority`), unless it was in the structure
already (`visible_iff`).
-/

namespace Nachos

open Framework

namespace Kernel

variable {P : Type} [DecidableEq P] {typeno : Policy} {k k' : Kernel P} {t u : P}

theorem readyToRun_perm (h : readyToRun typeno k t = .ok k') :
    (k'.ready typeno).Perm (t :: k.ready typeno) := by
  obtain ⟨b, -, h⟩ := bind_eq_ok.mp h
  have hperm := enqueue_perm h
  cases typeno <;> exact hperm

omit [DecidableEq P] in
theorem isReadyListEmpty_iff : k.isReadyListEmpty typeno = true ↔ k.ready typeno = [] := by
  cases typeno <;> simp [isReadyListEmpty, ready]

/-- `t` is moved by `awakeAThead` or by `restoreAThread`. -/
def Moved (k : Kernel P) (t : P) (k' : Kernel P) : Prop :=
  (k.blockList.head? = some t ∧ k.awakeAThead = .ok k') ∨
    (k.suspendList.head? = some t ∧ k.restoreAThread = .ok k')

/-- Both append the thread to `readyList` and leave the other ready structures
as they are. -/
theorem Moved.readyList (h : Moved k t k') :
    t ∉ k.readyList ∧ k'.readyList = k.readyList ++ [t] ∧
      k'.sortedReadyList = k.sortedReadyList ∧ k'.threadArrQueue = k.threadArrQueue := by
  rcases h with ⟨hf, h⟩ | ⟨hf, h⟩
  · obtain ⟨b, hb⟩ := List.head?_eq_some_iff.mp hf
    obtain ⟨⟨u, b'⟩, hu, h⟩ := bind_eq_ok.mp h
    rw [hb] at hu
    cases hu
    obtain ⟨q, hq, h⟩ := bind_eq_ok.mp h
    obtain ⟨hn, rfl⟩ := NList.append_eq_ok.mp hq
    cases h
    exact ⟨hn, rfl, rfl, rfl⟩
  · obtain ⟨b, hb⟩ := List.head?_eq_some_iff.mp hf
    obtain ⟨⟨u, b'⟩, hu, h⟩ := bind_eq_ok.mp h
    rw [hb] at hu
    cases hu
    obtain ⟨q, hq, h⟩ := bind_eq_ok.mp h
    obtain ⟨hn, rfl⟩ := NList.append_eq_ok.mp hq
    cases h
    exact ⟨hn, rfl, rfl, rfl⟩

end Kernel

namespace Discipline

open Kernel

variable {P : Type} [DecidableEq P] {typeno : Policy} {k k' : Kernel P} {t : P}

/-- The dispatcher sees `t`: there is a thread to run, and in any sequence of
calls that ends with a `NULL`, `t` is returned once, and once more for each
time it is made ready in the sequence. -/
def Visible (typeno : Policy) (k : Kernel P) (t : P) : Prop :=
  k.isReadyListEmpty typeno = false ∧
    ∀ (calls : List (SchedulerCall P)) s, calls.foldlM (next typeno) (k, []) = .ok s →
      s.2.getLast? = some (.found none) → (returned s.2).count t = 1 + (made s.2).count t

/-- No call makes a thread up or loses one. -/
theorem count_foldlM {calls : List (SchedulerCall P)} {s s' : Kernel P × List (QueueEvent P)}
    (h : calls.foldlM (next typeno) s = .ok s') (t : P) :
    (returned s'.2).count t + (s'.1.ready typeno).count t + (made s.2).count t =
      (returned s.2).count t + (s.1.ready typeno).count t + (made s'.2).count t := by
  induction calls generalizing s with
  | nil =>
    cases h
    rfl
  | cons c calls ih =>
    rw [List.foldlM_cons] at h
    obtain ⟨s₁, hs, h⟩ := bind_eq_ok.mp h
    have ih := ih h
    cases c with
    | readyToRun u =>
      obtain ⟨k, hk, hs⟩ := bind_eq_ok.mp hs
      cases hs
      have := (readyToRun_perm hk).count_eq t
      simp only [made, returned, List.filterMap_append, List.filterMap_cons, List.filterMap_nil,
        List.count_append, List.count_nil, List.count_cons] at ih this ⊢
      omega
    | findNextToRun =>
      simp only [next] at hs
      split at hs
      · cases hs
        simp only [made, returned, List.filterMap_append, List.filterMap_cons, List.filterMap_nil,
          List.count_append, List.count_nil] at ih ⊢
        omega
      · rename_i u k hk
        cases hs
        have := congrArg (List.count t) (taken_findNextToRun hk).ready
        simp only [made, returned, List.filterMap_append, List.filterMap_cons, List.filterMap_nil,
          List.count_append, List.count_nil, List.count_cons] at ih this ⊢
        omega

/-- After a `NULL` no thread is queued. -/
theorem null_foldlM {calls : List (SchedulerCall P)} {s s' : Kernel P × List (QueueEvent P)}
    (h : calls.foldlM (next typeno) s = .ok s')
    (hs : s.2.getLast? = some (.found none) → s.1.ready typeno = []) :
    s'.2.getLast? = some (.found none) → s'.1.ready typeno = [] := by
  induction calls generalizing s with
  | nil =>
    cases h
    exact hs
  | cons c calls ih =>
    rw [List.foldlM_cons] at h
    obtain ⟨s₁, hn, h⟩ := bind_eq_ok.mp h
    refine ih h ?_
    cases c with
    | readyToRun u =>
      obtain ⟨k, hk, hn⟩ := bind_eq_ok.mp hn
      cases hn
      simp
    | findNextToRun =>
      simp only [next] at hn
      split at hn
      · rename_i hnone
        cases hn
        exact fun _ => findNextToRun_eq_none.mp hnone
      · cases hn
        simp

/-- Without other calls, `FindNextToRun` returns each queued thread and then
`NULL`. -/
theorem drain (typeno : Policy) (n : Nat) (s : Kernel P × List (QueueEvent P))
    (hn : (s.1.ready typeno).length = n) :
    ∃ k', (List.replicate (n + 1) SchedulerCall.findNextToRun).foldlM (next typeno) s =
      .ok (k', s.2 ++ (s.1.ready typeno).map (fun t => .found (some t)) ++ [.found none]) := by
  induction n generalizing s with
  | zero =>
    have hnil := List.length_eq_zero_iff.mp hn
    refine ⟨s.1, ?_⟩
    simp [next, findNextToRun_eq_none.mpr hnil, hnil]
  | succ n ih =>
    cases hf : findNextToRun typeno s.1 with
    | none =>
      rw [findNextToRun_eq_none.mp hf] at hn
      cases hn
    | some r =>
      obtain ⟨t, k⟩ := r
      have htake := (taken_findNextToRun hf).ready
      rw [htake, List.length_cons] at hn
      obtain ⟨k', hk⟩ := ih (k, s.2 ++ [.found (some t)]) (Nat.succ.inj hn)
      refine ⟨k', ?_⟩
      rw [List.replicate_succ, List.foldlM_cons]
      simp only [next, hf, pure_eq_ok, ok_bind]
      rw [hk, htake]
      simp

/-- `t` is visible exactly if it is once in what `FindNextToRun` reads. -/
theorem visible_iff_count : Visible typeno k t ↔ (k.ready typeno).count t = 1 := by
  constructor
  · rintro ⟨-, h⟩
    obtain ⟨k', hk⟩ := drain typeno _ (k, []) rfl
    have := h _ _ hk (by simp)
    simpa [returned, made, List.filterMap_map, Function.comp_def] using this
  · intro hc
    refine ⟨?_, fun calls s hs hlast => ?_⟩
    · by_contra he
      rw [Bool.not_eq_false, isReadyListEmpty_iff] at he
      rw [he] at hc
      cases hc
    · have hcount := count_foldlM hs t
      rw [null_foldlM hs (by simp) hlast] at hcount
      simp only [made, returned, List.filterMap_nil, List.count_nil] at hcount ⊢
      omega

/-- A thread that was moved is visible with `typeno` 0 and 2, and otherwise only
if it was in the ready structure before. -/
theorem visible_iff (h : Moved k t k') : Visible typeno k' t ↔
    typeno = .fifo ∨ typeno = .timeSlice ∨ (k.ready typeno).count t = 1 := by
  obtain ⟨hn, hr, hs, hq⟩ := h.readyList
  rw [visible_iff_count]
  cases typeno with
  | fifo | timeSlice => simp [ready, hr, List.count_eq_zero.mpr hn]
  | priority => simp [ready, hs]
  | feedback => simp [ready, hq]

/-- With `typeno` 0 a thread that sleeps and is moved is visible. -/
theorem visible_iff_fifo : ∃ k k' : Kernel Nat, Moved k 1 k' ∧ Visible .fifo k' 1 := by
  obtain ⟨k, hk⟩ : ∃ k, k = { fresh .fifo with blockList := [1] } := ⟨_, rfl⟩
  have hm : Moved k 1 { k with
      blockList := [], readyList := [1]
      thread := Function.update k.thread 1 { k.thread 1 with status := .ready } } :=
    .inl ⟨by rw [hk]; rfl, by rw [hk]; rfl⟩
  exact ⟨k, _, hm, (visible_iff hm).mpr (.inl rfl)⟩

/-- With `typeno` 1, `main` forks a thread and yields; the thread sleeps. Back in
`main`, `awakeAThead` moves it to `readyList`, and there is nothing to run. -/
theorem not_visible_priority :
    ¬ ∀ (typeno : Policy) (s : Proof.Scheduler.State Nat),
      (Proof.Scheduler.system typeno (fun _ => Proof.Scheduler.blank) 0).Reachable s →
      ∀ t k', Moved s.kernel t k' → Visible typeno k' t := by
  intro h
  obtain ⟨s, hr, hp⟩ := System.exists_reachable
    (Proof.Scheduler.start .priority (fun _ => Proof.Scheduler.blank) 0)
    (Proof.Scheduler.next .priority)
    [.newThread 1, .fork 1, .forkRest, .yield, .resume, .sleep, .dispatch, .resume]
    (p := fun s => s.kernel.blockList = [1] ∧ s.kernel.readyList = [] ∧
      s.kernel.sortedReadyList = []) (by decide)
  obtain ⟨hb, hrl, hs⟩ := of_decide_eq_true hp
  have hk : s.kernel.awakeAThead = .ok ({ s.kernel with
      blockList := [], readyList := [1] }.setThread 1 fun th => { th with status := .ready }) := by
    simp [awakeAThead, hb, NList.removeFront, setThread, hrl, NList.append, assert]
  have hm : Moved s.kernel 1 _ := .inl ⟨by rw [hb]; rfl, hk⟩
  have := visible_iff_count.mp (h .priority s hr 1 _ hm)
  simp [ready, setThread, hs] at this

end Discipline

end Nachos

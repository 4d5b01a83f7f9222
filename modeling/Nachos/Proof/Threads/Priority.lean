import Nachos.Proof.Threads.ReadyQueue

/-!
# Preemptive priority scheduling

With `typeno` 1 the running thread should have the highest priority, the
smallest value, of all that are ready, right after each scheduling decision
(`Highest`).

It fails (`not_highest_yield`): `Yield`, which every timer interrupt calls,
takes the next thread off the list before it puts the running one back, so
that a thread of lower priority gets the processor. That is the only way it
fails: `highest_iff` says that in every run all decisions are right exactly if
no thread yields to one of lower priority. `Fork` looks at the priorities first
and is always right.
-/

namespace Nachos.Proof.Scheduler

open Framework Framework.StableQueue Kernel

variable {P : Type} [DecidableEq P] {k k' : Kernel P} {t : P} {arr : List P}

/-- No ready thread has a higher priority than the running one. -/
def Highest (k : Kernel P) : Prop :=
  ∀ t ∈ k.sortedReadyList, (k.thread k.currentThread).priority ≤ (k.thread t).priority

/-- The next thread is not of lower priority than the running one. -/
def NotLower (k : Kernel P) : Prop :=
  ∀ t, k.sortedReadyList.head? = some t →
    (k.thread t).priority ≤ (k.thread k.currentThread).priority

/-- The step is a scheduling decision: `Yield`, the end of `Fork`, or the loop
of `Sleep`. -/
def decides (s : State P) (op : Op P) : Bool :=
  enabled s op && (op = .yield || op = .forkRest || op = .dispatch)

theorem run_ordered (h : Ordered .priority k arr) {finishing : Bool}
    (hk : k.run t finishing = .ok k') :
    Ordered .priority k' arr ∧ k'.currentThread = t ∧
      ∀ u, (k'.thread u).priority = (k.thread u).priority := by
  rw [run_eq hk]
  have hp : ∀ u, (({ k with
      currentThread := t
      toBeDestroyed := if finishing then some k.currentThread else k.toBeDestroyed
      }.setThread t fun th => { th with status := .running }).thread u).priority =
        (k.thread u).priority ∧ (({ k with
      currentThread := t
      toBeDestroyed := if finishing then some k.currentThread else k.toBeDestroyed
      }.setThread t fun th => { th with status := .running }).thread u).timeSliceRemain =
        (k.thread u).timeSliceRemain := fun u => by
    by_cases e : u = t
    · subst e
      simp
    · simp [e]
  exact ⟨h.congr rfl rfl fun u _ => hp u, rfl, fun u => (hp u).1⟩

/-- One turn of the loop of `Sleep`. -/
theorem dispatch_highest (h : Ordered .priority k arr) {finishing b : Bool}
    (hk : k.dispatch .priority finishing = .ok (k', b)) :
    (∃ arr', Ordered .priority k' arr') ∧ Highest k' := by
  unfold Kernel.dispatch at hk
  split at hk
  · rename_i hn
    cases hk
    refine ⟨⟨arr, h⟩, fun u hu => ?_⟩
    rw [show k.sortedReadyList = [] from findNextToRun_eq_none.mp hn] at hu
    cases hu
  · rename_i t k₁ hf
    obtain ⟨k₂, hr, hk⟩ := bind_eq_ok.mp hk
    cases hk
    obtain ⟨arr', ⟨a₁, a₂, -, rfl, hlt, hle⟩, ho, hth⟩ := h.findNextToRun hf
    obtain ⟨ho', hc, hp⟩ := run_ordered ho hr
    refine ⟨⟨_, ho'⟩, fun u hu => ?_⟩
    rw [hc, hp, hp, hth]
    rcases List.mem_append.mp (ho'.sorts.mem_iff.mp hu) with hu | hu
    · exact (hlt u hu).le
    · exact hle u hu

/-- `Yield` is right exactly if the next thread is not of lower priority. -/
theorem yield_highest (h : Ordered .priority k arr) (hc : k.currentThread ∉ arr) {b : Bool}
    (hk : k.yield .priority = .ok (k', b)) :
    (∃ arr', Ordered .priority k' arr') ∧ (Highest k' ↔ NotLower k) := by
  unfold Kernel.yield at hk
  split at hk
  · rename_i hn
    cases hk
    have hnil : k.sortedReadyList = [] := findNextToRun_eq_none.mp hn
    refine ⟨⟨arr, h⟩, fun _ u hu => ?_, fun _ u hu => ?_⟩
    · rw [hnil] at hu
      cases hu
    · rw [hnil] at hu
      cases hu
  · rename_i t k₁ hf
    obtain ⟨k₂, hr, hk⟩ := bind_eq_ok.mp hk
    obtain ⟨k₃, hrun, hk⟩ := bind_eq_ok.mp hk
    cases hk
    have htaken := taken_findNextToRun hf
    obtain ⟨arr', ⟨a₁, a₂, harr, rfl, hlt, hle⟩, ho, hth⟩ := h.findNextToRun hf
    have hc' : k₁.currentThread ∉ a₁ ++ a₂ := fun hm => hc <| by
      rw [htaken.currentThread] at hm
      rw [harr]
      simpa [or_assoc, or_left_comm] using Or.inr hm
    obtain ⟨ho', hth'⟩ := ho.readyToRun hc' hr
    obtain ⟨ho'', hcur, hp⟩ := run_ordered ho' hrun
    have hprio : ∀ u, (k'.thread u).priority = (k.thread u).priority := fun u => by
      rw [hp, hth', hth]
      by_cases e : u = k₁.currentThread
      · simp [e, readied]
      · simp [e]
    have hfront : k.sortedReadyList.head? = some t := by
      rw [show k.sortedReadyList = t :: _ from htaken.ready]
      rfl
    refine ⟨⟨_, ho''⟩, fun hh u hu => ?_, fun hl u hu => ?_⟩
    · rw [hfront] at hu
      cases hu
      have := hh k.currentThread (ho''.sorts.mem_iff.mpr (by simp [htaken.currentThread]))
      rwa [hcur, hprio, hprio] at this
    · rw [hcur, hprio, hprio]
      rcases List.mem_append.mp (ho''.sorts.mem_iff.mp hu) with hu | hu
      · rcases List.mem_append.mp hu with hu | hu
        · exact (hlt u hu).le
        · exact hle u hu
      · rw [List.mem_singleton.mp hu, htaken.currentThread]
        exact hl t hfront

/-- `Fork` yields only to a thread of higher priority. -/
theorem forkRest_highest (h : Ordered .priority k arr) (hc : k.currentThread ∉ arr) {b : Bool}
    (hk : k.forkRest .priority = .ok (k', b)) :
    (∃ arr', Ordered .priority k' arr') ∧ Highest k' := by
  simp only [Kernel.forkRest, ite_true] at hk
  split at hk
  · cases hk
  · rename_i t hf
    have hf : k.sortedReadyList.head? = some t := hf
    split at hk
    · rename_i hlt
      obtain ⟨ho, hh⟩ := yield_highest h hc hk
      refine ⟨ho, hh.mpr fun u hu => ?_⟩
      rw [hf] at hu
      cases hu
      exact hlt.le
    · rename_i hle
      cases hk
      refine ⟨⟨arr, h⟩, fun u hu => ?_⟩
      have hs := h.sorts.sorted
      obtain ⟨l, hl⟩ := List.head?_eq_some_iff.mp hf
      rw [show k.ready .priority = t :: l from hl] at hs
      rw [hl] at hu
      have htu : (k.thread t).priority ≤ (k.thread u).priority := by
        rcases List.mem_cons.mp hu with rfl | hu
        · exact le_rfl
        · exact (List.pairwise_cons.mp hs).1 u hu
      omega

/-! ## Runs -/

/-- The invariant of every run: the list is sorted. -/
structure Sorted (s : State P) : Prop where
  inv : Inv .priority s
  ordered : ∃ arr, Ordered .priority s.kernel arr

section
variable {s s' : State P}

omit [DecidableEq P] in
theorem Sorted.current (h : Sorted s) (hp : s.phase = .running) {arr : List P}
    (ho : Ordered .priority s.kernel arr) : s.kernel.currentThread ∉ arr := fun hm =>
  ((h.inv.wf_running hp).away _ rfl).2.1 (ho.sorts.mem_iff.mpr hm)

omit [DecidableEq P] in
theorem Sorted.not_created (h : Sorted s) {arr : List P} (ho : Ordered .priority s.kernel arr)
    (hj : (s.kernel.thread t).status = .justCreated) : t ∉ arr := fun hm => by
  have := (h.inv.wf.ready t (ho.sorts.mem_iff.mpr hm)).2
  rw [hj] at this
  cases this

/-- Every decision, by what it finds. -/
theorem Sorted.decides {op : Op P} (h : Sorted s) (hd : decides s op = true)
    (hs : next .priority s op = .ok s') :
    (∃ arr, Ordered .priority s'.kernel arr) ∧
      (Highest s'.kernel ↔ (op = .yield → NotLower s.kernel)) := by
  obtain ⟨arr, ho⟩ := h.ordered
  simp only [Scheduler.decides, Bool.and_eq_true] at hd
  obtain ⟨he, hd⟩ := hd
  rw [next, if_pos he] at hs
  cases op with
  | yield =>
    simp only [enabled, decide_eq_true_eq] at he
    obtain ⟨⟨k, b⟩, hk, hs⟩ := bind_eq_ok.mp hs
    cases hs
    obtain ⟨ho', hh⟩ := yield_highest ho (h.current he ho) hk
    exact ⟨ho', by simpa using hh⟩
  | forkRest =>
    simp only [enabled, Bool.and_eq_true, decide_eq_true_eq] at he
    obtain ⟨⟨k, b⟩, hk, hs⟩ := bind_eq_ok.mp hs
    cases hs
    obtain ⟨ho', hh⟩ := forkRest_highest ho (h.current he.1 ho) hk
    exact ⟨ho', by simpa using hh⟩
  | dispatch =>
    obtain ⟨⟨k, b⟩, hk, hs⟩ := bind_eq_ok.mp hs
    cases hs
    obtain ⟨ho', hh⟩ := dispatch_highest ho hk
    exact ⟨ho', by simpa using hh⟩
  | newThread | setPriority | fork | sleep | finish | wake | resume => simp at hd

theorem Sorted.step {op : Op P} (h : Sorted s) (hs : next .priority s op = .ok s') : Sorted s' := by
  refine ⟨inv_step h.inv hs, ?_⟩
  by_cases hd : Scheduler.decides s op = true
  · exact (h.decides hd hs).1
  obtain ⟨arr, ho⟩ := h.ordered
  unfold next at hs
  split at hs
  · rename_i he
    simp only [Scheduler.decides, he, Bool.true_and] at hd
    cases op with
    | newThread t =>
      simp only [enabled, Bool.and_eq_true, Bool.not_eq_true', decide_eq_false_iff_not] at he
      obtain ⟨k, hk, hs⟩ := bind_eq_ok.mp hs
      cases hs
      have ht : t ∉ arr := fun hm => he.2 (h.inv.wf.ready t (ho.sorts.mem_iff.mpr hm)).1
      unfold newThread at hk
      split at hk <;> [skip; cases hk]
      rename_i i a _
      cases hk
      have ho' : Ordered .priority { s.kernel with threadArray := a } arr :=
        ho.congr rfl rfl fun u _ => ⟨rfl, rfl⟩
      exact ⟨arr, ho'.setThread ht (Thread.new .priority i)⟩
    | setPriority t n =>
      simp only [enabled, Bool.and_eq_true, decide_eq_true_eq] at he
      cases hs
      exact ⟨arr, ho.setThread (h.not_created ho he.2) fun th => { th with priority := n }⟩
    | fork t =>
      simp only [enabled, Bool.and_eq_true, decide_eq_true_eq] at he
      obtain ⟨k, hk, hs⟩ := bind_eq_ok.mp hs
      cases hs
      have ht := h.not_created ho he.2
      exact ⟨_, ((ho.setThread ht _).readyToRun ht hk).1⟩
    | sleep | finish =>
      obtain ⟨k, hk, hs⟩ := bind_eq_ok.mp hs
      obtain ⟨b, -, hk⟩ := bind_eq_ok.mp hk
      cases hk
      cases hs
      simp only [enabled, State.inCode, decide_eq_true_eq] at he
      have ho' := ho.setThread (h.current he.1 ho) fun th => { th with status := .blocked }
      exact ⟨arr, ho'.congr rfl rfl fun u _ => ⟨rfl, rfl⟩⟩
    | wake t =>
      simp only [enabled, Bool.and_eq_true, decide_eq_true_eq] at he
      obtain ⟨k, hk, hs⟩ := bind_eq_ok.mp hs
      cases hs
      have ht : t ∉ arr := fun hm => (List.nodup_append.mp h.inv.wf.nodup).2.2 t
        (ho.sorts.mem_iff.mpr hm) t (h.inv.waiting t he.2).2.1 rfl
      exact ⟨_, (ho.readyToRun ht hk).1⟩
    | resume =>
      obtain ⟨k, hk, hs⟩ := bind_eq_ok.mp hs
      cases hs
      unfold checkToBeDestroyed at hk
      split at hk
      · cases hk
        exact ⟨arr, ho⟩
      · obtain ⟨-, -, hk⟩ := bind_eq_ok.mp hk
        cases hk
        exact ⟨arr, ho.congr rfl rfl fun u _ => ⟨rfl, rfl⟩⟩
    | yield | forkRest | dispatch => simp at hd
  · cases hs
    exact ⟨arr, ho⟩

end

theorem reachable_sorted (mem : P → Thread) (main : P) {s : State P}
    (h : (system .priority mem main).Reachable s) : Sorted s := by
  refine h.invariant (I := Sorted) ?_ fun s op s' hi hs => hi.step hs
  rintro s rfl
  exact ⟨inv_init .priority mem main, [], Sorts.nil, by simp⟩

/-- In every run, the running thread has the highest priority after every
decision exactly if no thread yields to one of lower priority. -/
theorem highest_iff (mem : P → Thread) (main : P) (ops : List (Op P)) :
    System.Along (next .priority) (fun s op s' => decides s op = true → Highest s'.kernel)
      (start .priority mem main) ops ↔
    System.Along (next .priority)
      (fun s op _ => enabled s op = true → op = .yield → NotLower s.kernel)
      (start .priority mem main) ops := by
  refine System.along_congr (fun s op s' hr hs => ?_) ops (.init rfl)
  have h := reachable_sorted mem main hr
  constructor
  · rintro hh he rfl
    have hd : decides s .yield = true := by simp [decides, he]
    exact (h.decides hd hs).2.mp (hh hd) rfl
  · intro hn hd
    have he : enabled s op = true := by
      simp only [decides, Bool.and_eq_true] at hd
      exact hd.1
    exact (h.decides hd hs).2.mpr (hn he)

instance (k : Kernel P) : Decidable (Highest k) :=
  inferInstanceAs (Decidable (∀ t ∈ k.sortedReadyList, _))

/-- `main`, of priority 8, forks a thread of priority 10 and yields. -/
theorem not_highest_yield :
    ¬ ∀ ops, System.Along (next .priority) (fun s op s' => decides s op = true → Highest s'.kernel)
      (start .priority (fun _ : Nat => blank) 0) ops := by
  intro h
  obtain ⟨s, s', hp, hR⟩ := System.exists_last (start .priority (fun _ : Nat => blank) 0)
    (next .priority) [.newThread 1, .setPriority 1 10, .fork 1, .forkRest] .yield
    (p := fun s s' => decides s .yield && !Highest s'.kernel) (by decide)
  simp only [Bool.and_eq_true, Bool.not_eq_true', decide_eq_false_iff_not] at hp
  exact hp.2 (hR _ (h _) hp.1)

end Nachos.Proof.Scheduler

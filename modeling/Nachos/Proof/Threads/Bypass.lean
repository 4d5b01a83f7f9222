import Mathlib.Order.Interval.Finset.Nat
import Nachos.Proof.Threads.ReadyQueue

/-!
# How often a ready thread is passed over

Between the `ReadyToRun` of a thread and the `FindNextToRun` that returns it, the
scheduler returns any other thread at most once with `typeno` 0 and 2. With `typeno`
3 it does so at most once for each level below the thread's: each time a thread is
made ready its level goes up, and on the last level it goes to the end. With `typeno` 1
only threads of a smaller priority value can be returned again and again
(`reachable_bypass`).

In the abstract queue, a thread that is returned a second time was made ready behind
the one that waits, so it has a smaller key than that (`Passed`).
-/

namespace Nachos.Discipline

open Framework Framework.StableQueue

variable {P : Type} [DecidableEq P] {key : P → Nat → Int} {h h₁ h₂ : List (QueueEvent P)}
  {q q' : ReadyQueue P} {t u : P}

theorem trace_nodup (ht : (ReadyQueue.system key).Trace h q) : q.queue.Nodup := by
  induction ht with
  | init h =>
    rw [h]
    exact List.nodup_nil
  | step ht hs ih =>
    rename_i h q q' e
    cases e with
    | ready x =>
      obtain ⟨hx, rfl⟩ := hs
      exact List.nodup_append_comm.mp (List.nodup_cons.mpr ⟨hx, ih⟩)
    | found o =>
      cases o with
      | none =>
        obtain ⟨-, rfl⟩ := hs
        exact ih
      | some x =>
        obtain ⟨rest, ⟨a₁, a₂, hq, rfl, -⟩, rfl⟩ := hs
        rw [hq] at ih
        exact ih.sublist (List.Sublist.append_left (List.sublist_cons_self x a₂) a₁)

/-- How many of the first `n` times that it is made ready, but for the first, a thread
has a key smaller than `b`. -/
def below (key : P → Nat → Int) (u : P) (b : Int) (n : Nat) : Nat :=
  ((Finset.range (n + 1)).filter fun m => 2 ≤ m ∧ key u m < b).card

omit [DecidableEq P] in
theorem below_succ (key : P → Nat → Int) (u : P) (b : Int) (n : Nat) :
    below key u b (n + 1) = below key u b n + if 1 ≤ n ∧ key u (n + 1) < b then 1 else 0 := by
  unfold below
  rw [Finset.range_add_one, Finset.filter_insert]
  by_cases hc : 1 ≤ n ∧ key u (n + 1) < b
  · rw [if_pos ⟨by omega, hc.2⟩, if_pos hc, Finset.card_insert_of_notMem (by simp)]
  · rw [if_neg fun h => hc ⟨by omega, h.2⟩, if_neg hc]
    rfl

omit [DecidableEq P] in
theorem below_eq_zero {b : Int} {n : Nat} (hb : ∀ m, b ≤ key u m) : below key u b n = 0 := by
  refine Finset.card_eq_zero.mpr (Finset.filter_eq_empty_iff.mpr fun m _ hm => ?_)
  exact absurd (hb m) (not_le.mpr hm.2)

/-- `t` has waited since `h₂`, and `u` was returned since then. `a` are the threads
that were there before `t`, and `b` those that have come since. -/
structure Passed (key : P → Nat → Int) (t u : P) (h₂ : List (QueueEvent P)) (q : ReadyQueue P)
    (a b : List P) : Prop where
  queue : q.queue = a ++ t :: b
  count : (returned h₂).count u + a.count u +
      (if key u (q.times u) < key t (q.times t) then b.count u else 0) ≤
    1 + below key u (key t (q.times t)) (q.times u)
  never : (∀ m, key t (q.times t) < key u m) → (returned h₂).count u = 0

theorem passed_ready (hq : (ReadyQueue.system key).Trace h q) :
    Passed key t u [] ⟨q.queue ++ [t], Function.update q.times t (q.times t + 1)⟩ q.queue [] where
  queue := rfl
  count := by
    have hnd := List.nodup_iff_count_le_one.mp (trace_nodup hq) u
    simp only [returned, List.filterMap_nil, List.count_nil, ite_self]
    omega
  never _ := rfl

/-- Another thread is made ready. -/
theorem Passed.ready {a b : List P} (hp : Passed key t u h₂ q a b)
    (hret : (returned h₂).count u ≤ q.times u) {x : P} (hx : x ∉ q.queue) :
    Passed key t u (h₂ ++ [.ready x])
      ⟨q.queue ++ [x], Function.update q.times x (q.times x + 1)⟩ a (b ++ [x]) := by
  have hxt : t ≠ x := fun e => hx (by rw [hp.queue, e]; simp)
  have hr : returned (h₂ ++ [.ready x]) = returned h₂ := by simp [returned]
  have htimes : Function.update q.times x (q.times x + 1) t = q.times t := Function.update_of_ne hxt _ _
  have hcount := hp.count
  refine ⟨by simp [hp.queue], ?_, fun hm => ?_⟩
  · simp only [hr, htimes]
    by_cases hxu : u = x
    · subst hxu
      have hnot : u ∉ a ∧ u ∉ b := by
        rw [hp.queue] at hx
        simp only [List.mem_append, List.mem_cons, not_or] at hx
        exact ⟨hx.1, hx.2.2⟩
      have hone : (b ++ [u]).count u = 1 := by
        rw [List.count_append, List.count_eq_zero.mpr hnot.2, List.count_singleton_self]
      rw [List.count_eq_zero.mpr hnot.1, List.count_eq_zero.mpr hnot.2, ite_self] at hcount
      simp only [Function.update_self, below_succ, List.count_eq_zero.mpr hnot.1, hone]
      split_ifs <;> omega
    · have hsame : (b ++ [x]).count u = b.count u := by
        rw [List.count_append, List.count_eq_zero.mpr (show u ∉ [x] by simpa using hxu), Nat.add_zero]
      simp only [Function.update_of_ne hxu, hsame]
      exact hcount
  · rw [hr]
    exact hp.never fun m => by simpa only [htimes] using hm m

/-- Another thread is returned. -/
theorem Passed.found {a b rest : List P} (hp : Passed key t u h₂ q a b) {x : P}
    (hxt : x ≠ t) (htu : u ≠ t) (hx : Takes (fun v => key v (q.times v)) q.queue x rest) :
    ∃ a b, Passed key t u (h₂ ++ [.found (some x)]) { q with queue := rest } a b := by
  obtain ⟨a₁, a₂, hq, hrest, hlt, hle⟩ := hx
  have hr : returned (h₂ ++ [.found (some x)]) = returned h₂ ++ [x] := by simp [returned]
  have hxa₁ : x ∉ a₁ := fun hm => lt_irrefl _ (hlt x hm)
  have herase : rest = q.queue.erase x := by
    rw [hq, hrest, List.erase_append_right _ hxa₁, List.erase_cons_head]
  have hcount := hp.count
  have hle' : key x (q.times x) ≤ key t (q.times t) := by
    have hm : t ∈ a₁ ++ x :: a₂ := by rw [← hq, hp.queue]; simp
    rcases List.mem_append.mp hm with hm | hm
    · exact (hlt t hm).le
    · exact hle t ((List.mem_cons.mp hm).resolve_left (Ne.symm hxt))
  have hnever : (∀ m, key t (q.times t) < key u m) → (returned (h₂ ++ [.found (some x)])).count u = 0 :=
    fun hm => by
      have hxu : u ≠ x := fun e => absurd hle' (not_le.mpr (e ▸ hm (q.times u)))
      rw [hr, List.count_append, hp.never hm, List.count_eq_zero.mpr (by simpa using hxu)]
  by_cases hxa : x ∈ a
  · refine ⟨a.erase x, b, ⟨?_, ?_, hnever⟩⟩
    · show rest = _
      rw [herase, hp.queue, List.erase_append_left _ hxa]
    · dsimp only
      rw [hr, List.count_append, List.count_erase]
      by_cases hxu : x = u
      · subst hxu
        have hpos : 0 < a.count x := List.count_pos_iff.mpr hxa
        simp only [List.count_singleton_self, beq_self_eq_true, if_true]
        omega
      · rw [List.count_eq_zero.mpr (show u ∉ [x] by simpa using Ne.symm hxu),
          if_neg (show ¬ (x == u) = true by simpa using hxu)]
        exact hcount
  · refine ⟨a, b.erase x, ⟨?_, ?_, hnever⟩⟩
    · show rest = _
      rw [herase, hp.queue, List.erase_append_right _ hxa,
        List.erase_cons_tail (by simpa using Ne.symm hxt)]
    · dsimp only
      rw [hr, List.count_append, List.count_erase]
      by_cases hxu : x = u
      · -- It has come after `t`, and so its key is smaller.
        subst hxu
        have hta₁ : t ∈ a₁ := by
          rcases List.append_eq_append_iff.mp (hp.queue.symm.trans hq) with ⟨c, hc, hc'⟩ | ⟨c, hc, hc'⟩
          · cases c with
            | nil => exact absurd (List.cons.inj hc').1.symm hxt
            | cons y c =>
              rw [hc, (List.cons.inj hc').1]
              simp
          · cases c with
            | nil => exact absurd (List.cons.inj hc').1 hxt
            | cons y c =>
              refine absurd ?_ hxa
              rw [hc, (List.cons.inj hc').1]
              simp
        have hxb : 0 < b.count x := by
          have hm : x ∈ q.queue := by rw [hq]; simp
          rw [hp.queue] at hm
          refine List.count_pos_iff.mpr ?_
          exact (List.mem_cons.mp ((List.mem_append.mp hm).resolve_left hxa)).resolve_left hxt
        rw [if_pos (hlt t hta₁)] at hcount ⊢
        simp only [List.count_singleton_self, beq_self_eq_true, if_true]
        omega
      · rw [List.count_eq_zero.mpr (show u ∉ [x] by simpa using Ne.symm hxu),
          if_neg (show ¬ (x == u) = true by simpa using hxu)]
        exact hcount

/-- The whole time that `t` waits. -/
theorem trace_passed (hq : (ReadyQueue.system key).Trace h q) (htu : u ≠ t) :
    ∀ h₁ h₂, h = h₁ ++ .ready t :: h₂ → .found (some t) ∉ h₂ → ∃ a b, Passed key t u h₂ q a b := by
  induction hq with
  | init _ => exact fun h₁ h₂ he => absurd he (by simp)
  | step hq hs ih =>
    rename_i h q q' e
    intro h₁ h₂ he ht
    rcases List.eq_nil_or_concat h₂ with rfl | ⟨h₂, e', rfl⟩
    · obtain ⟨rfl, he'⟩ := List.append_inj' (show h ++ [e] = h₁ ++ [.ready t] from he) rfl
      obtain rfl := List.singleton_inj.mp he'
      obtain ⟨-, rfl⟩ := hs
      exact ⟨_, _, passed_ready hq⟩
    · rw [List.concat_eq_append] at he ht ⊢
      rw [← List.cons_append, ← List.append_assoc] at he
      obtain ⟨rfl, he'⟩ := List.append_inj' he rfl
      obtain rfl := List.singleton_inj.mp he'
      obtain ⟨ht₂, hte⟩ : .found (some t) ∉ h₂ ∧ e ≠ .found (some t) := by
        simp only [List.mem_append, List.mem_singleton, not_or] at ht
        exact ⟨ht.1, Ne.symm ht.2⟩
      obtain ⟨a, b, hp⟩ := ih h₁ h₂ rfl ht₂
      cases e with
      | ready x =>
        obtain ⟨hx, rfl⟩ := hs
        refine ⟨a, b ++ [x], hp.ready ?_ hx⟩
        have hc := trace_count hq u
        rw [trace_times hq u]
        simp only [returned, List.filterMap_append, List.filterMap_cons, List.count_append] at hc ⊢
        omega
      | found o =>
        cases o with
        | none =>
          obtain ⟨hnil, -⟩ := hs
          rw [hp.queue] at hnil
          simp at hnil
        | some x =>
          obtain ⟨rest, hx, rfl⟩ := hs
          exact hp.found (fun e => hte (by rw [e])) htu hx

/-! ### The policies -/

/-- How often `u` may be returned while `t` waits. -/
structure Bypassed (typeno : Policy) (k : Kernel P) (t u : P) (n : Nat) : Prop where
  queue : typeno = .fifo ∨ typeno = .timeSlice → n ≤ 1
  priority : typeno = .priority →
    ((k.thread t).priority ≤ (k.thread u).priority → n ≤ 1) ∧
      ((k.thread t).priority < (k.thread u).priority → n = 0)
  levels : typeno = .feedback → n ≤ max 1 (k.thread t).priority.toNat ∧ n ≤ queueNum - 1

omit [DecidableEq P] in
theorem below_level (u : P) (n m : Nat) :
    1 + below (fun (_ : P) m => level m) u (level n) m ≤ max 1 (level n).toNat := by
  have hsub : ((Finset.range (m + 1)).filter fun m => 2 ≤ m ∧ level m < level n) ⊆
      Finset.Icc 2 (level n).toNat := fun i hi => by
    obtain ⟨-, h2, hlt⟩ := Finset.mem_filter.mp hi
    refine Finset.mem_Icc.mpr ⟨h2, ?_⟩
    unfold level queueNum at hlt ⊢
    omega
  have hcard := Finset.card_le_card hsub
  rw [Nat.card_Icc] at hcard
  show 1 + ((Finset.range (m + 1)).filter fun m => 2 ≤ m ∧ level m < level n).card ≤ _
  omega

/-- Every state of every sequence of calls, and each thread that waits. -/
theorem reachable_bypass {typeno : Policy} {k : Kernel P} (h₀ : Empty typeno k)
    {s : Kernel P × List (QueueEvent P)}
    (h : ((system typeno k).restrict (NotQueued typeno)).Reachable s) (hs : s.2 = h₁ ++ .ready t :: h₂)
    (ht : .found (some t) ∉ h₂) (htu : u ≠ t) :
    Bypassed typeno s.1 t u ((returned h₂).count u) := by
  have hinv : ∃ q, Inv typeno k s q := by
    refine h.invariant (I := fun s => ∃ q, Inv typeno k s q) ?_ ?_
    · rintro s rfl
      exact ⟨_, inv_init h₀⟩
    · rintro s c s' ⟨q, hI⟩ ⟨hc, hs⟩
      exact hI.step hc hs
  obtain ⟨q, hI⟩ := hinv
  obtain ⟨a, b, hp⟩ := trace_passed hI.trace htu h₁ h₂ hs ht
  have hcount : (returned h₂).count u ≤
      1 + below (policyKey typeno k) u (policyKey typeno k t (q.times t)) (q.times u) := by
    have := hp.count
    omega
  refine ⟨fun e => ?_, fun e => ?_, fun e => ?_⟩
  · have hz : below (policyKey typeno k) u (policyKey typeno k t (q.times t)) (q.times u) = 0 :=
      below_eq_zero fun m => by rcases e with rfl | rfl <;> exact le_rfl
    omega
  · subst e
    have hkt : (s.1.thread t).priority = (k.thread t).priority := hI.keys t
    have hku : (s.1.thread u).priority = (k.thread u).priority := hI.keys u
    refine ⟨fun hle => ?_, fun hlt => hp.never fun _ => ?_⟩
    · have hz : below (policyKey .priority k) u (policyKey .priority k t (q.times t)) (q.times u) = 0 :=
        below_eq_zero fun m => by
          show (k.thread t).priority ≤ (k.thread u).priority
          omega
      omega
    · show (k.thread t).priority < (k.thread u).priority
      omega
  · subst e
    have hkt : (s.1.thread t).priority = level (q.times t) := hI.keys t
    have hb := below_level u (q.times t) (q.times u)
    have hle : (returned h₂).count u ≤ max 1 (level (q.times t)).toNat := le_trans hcount hb
    rw [hkt]
    refine ⟨hle, le_trans hle ?_⟩
    unfold level queueNum
    omega

/-- Thread 1 waits on level 2, and thread 2 comes twice. -/
theorem reachable_bypass_levels : ∃ s,
    ((system .feedback (fresh .feedback)).restrict (NotQueued .feedback)).Reachable s ∧
      s.2 = [.ready 1, .found (some 1), .ready 1, .found (some 1), .ready 1, .ready 2, .found (some 2),
        .ready 2, .found (some 2), .ready 2] ∧
      Bypassed .feedback s.1 1 2 2 := by
  obtain ⟨s, hr, hp⟩ := System.exists_reachable_guarded (fresh .feedback, []) (next .feedback)
    (NotQueued .feedback)
    [.readyToRun 1, .findNextToRun, .readyToRun 1, .findNextToRun, .readyToRun 1, .readyToRun 2,
      .findNextToRun, .readyToRun 2, .findNextToRun, .readyToRun 2]
    (p := fun s => s.2 = [.ready 1, .found (some 1), .ready 1, .found (some 1), .ready 1, .ready 2,
      .found (some 2), .ready 2, .found (some 2), .ready 2]) (by decide)
  have hs : s.2 = [.ready 1, .found (some 1), .ready 1, .found (some 1)] ++ .ready 1 ::
      [.ready 2, .found (some 2), .ready 2, .found (some 2), .ready 2] := of_decide_eq_true hp
  exact ⟨s, hr, hs, reachable_bypass ⟨rfl, rfl, rfl, fun _ _ => rfl⟩ hr hs (by decide) (by decide)⟩

end Nachos.Discipline

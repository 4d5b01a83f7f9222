import Nachos.Proof.Machine.Interrupt

/-!
# A periodic interrupt

A device that schedules its interrupt again each time it is called, within `period`
ticks, and for which nothing else does, always has one interrupt pending (`Timed`).
The clock moves on only in `OneTick`, by at most `SystemTick`, and in `Idle`, to the
front of the queue, and both look for what is due at once. So the interrupt comes less
than `SystemTick` late, and two of them are at most `period + SystemTick - 1` ticks
apart (`Gaps`).
-/

namespace Nachos.Interrupt

variable {C S W : Type} [DecidableEq C] {H : Handlers C S W} {c : C} {period last bound : Int}
  {ds ds' : List (Delivery C)} {i i' : Interrupt C} {w w' : W}

/-- The delay, where a call schedules an interrupt of `c`. -/
def delayOf (c : C) : HandlerCall C S → Option Int
  | .schedule toCall fromNow _ => if toCall = c then some fromNow else none
  | .v _ | .yieldOnReturn => none

/-- `c` schedules its next interrupt when it is called, and nothing else does. -/
structure Periodic (H : Handlers C S W) (c : C) (period : Int) : Prop where
  own : ∀ st w, ∃ n ≤ period, (H.callBack st c w).2.filterMap (delayOf c) = [n]
  others : ∀ st c' w, c' ≠ c → (H.callBack st c' w).2.filterMap (delayOf c) = []

/-- When the pending interrupts of `c` are due. -/
def whens (c : C) (i : Interrupt C) : List Int :=
  (i.pending.filter (·.callOnInterrupt = c)).map (·.when)

/-- When `c` was called last, `last` being the time before. -/
def lastTick (c : C) (last : Int) : List (Delivery C) → Int
  | [] => last
  | d :: ds => lastTick c (if d.interrupt.callOnInterrupt = c then d.ticks else last) ds

/-- Each call of `c` comes at most `bound` ticks after the one before it. -/
def Gaps (c : C) (bound last : Int) : List (Delivery C) → Prop
  | [] => True
  | d :: ds =>
    if d.interrupt.callOnInterrupt = c then d.ticks ≤ last + bound ∧ Gaps c bound d.ticks ds
    else Gaps c bound last ds

theorem lastTick_append : lastTick c last (ds ++ ds') = lastTick c (lastTick c last ds) ds' := by
  induction ds generalizing last with
  | nil => rfl
  | cons d ds ih => exact ih

theorem gaps_append :
    Gaps c bound last (ds ++ ds') ↔ Gaps c bound last ds ∧ Gaps c bound (lastTick c last ds) ds' := by
  induction ds generalizing last with
  | nil => exact (iff_of_eq (true_and _)).symm
  | cons d ds ih =>
    simp only [List.cons_append, Gaps, lastTick]
    split
    · rw [ih, and_assoc]
    · exact ih

/-- Between two operations: the deliveries so far, and the one interrupt that is
pending. The device starts at 0. -/
structure Timed (c : C) (period : Int) (ds : List (Delivery C)) (i : Interrupt C) : Prop where
  gaps : Gaps c (period + (systemTick - 1)) 0 ds
  pending : ∃ t, i.whens c = [t] ∧ i.totalTicks < t ∧ t ≤ lastTick c 0 ds + period

/-! ## What handlers schedule -/

theorem whens_insert {e : PendingInterrupt C}
    (h : i'.pending = NList.insertWalk pendingCompare e i.pending) :
    (i'.whens c).Perm ((if e.callOnInterrupt = c then [e.when] else []) ++ i.whens c) := by
  unfold whens
  rw [h]
  refine (((NList.insertWalk_perm pendingCompare e i.pending).filter _).map _).trans ?_
  by_cases he : e.callOnInterrupt = c
  · rw [List.filter_cons_of_pos (by simpa using he), if_pos he]
    exact .refl _
  · rw [List.filter_cons_of_neg (by simpa using he), if_neg he]
    exact .refl _

theorem whens_schedule {toCall : C} {n : Int} {ty : IntType} (h : i.schedule toCall n ty = .ok i') :
    0 < n ∧ i'.totalTicks = i.totalTicks ∧
      (i'.whens c).Perm ((if toCall = c then [i.totalTicks + n] else []) ++ i.whens c) := by
  obtain ⟨_, -, h⟩ := bind_eq_ok.mp h
  obtain ⟨_, hn, h⟩ := bind_eq_ok.mp h
  obtain ⟨q, hq, h⟩ := bind_eq_ok.mp h
  cases h
  obtain ⟨-, rfl⟩ := NList.insert_eq_ok.mp (liftAbort_eq_ok.mp hq)
  refine ⟨assert_eq_ok.mp (liftAbort_eq_ok.mp hn), rfl, ?_⟩
  exact whens_insert (c := c) (i := i) (e := ⟨i.made, toCall, i.totalTicks + n, ty⟩) rfl

theorem whens_call {x : HandlerCall C S} (h : i.call H w x = .ok (i', w')) :
    (∀ n ∈ delayOf c x, 0 < n) ∧ i'.totalTicks = i.totalTicks ∧
      (i'.whens c).Perm (((delayOf c x).map (i.totalTicks + ·)).toList ++ i.whens c) := by
  cases x with
  | schedule toCall n ty =>
    obtain ⟨i₁, h₁, h⟩ := bind_eq_ok.mp h
    cases h
    obtain ⟨hn, ht, hp⟩ := whens_schedule (c := c) h₁
    simp only [delayOf]
    split
    · rename_i hc
      rw [if_pos hc] at hp
      exact ⟨fun m hm => Option.some.inj hm ▸ hn, ht, hp⟩
    · rename_i hc
      rw [if_neg hc] at hp
      exact ⟨fun m hm => (nomatch hm), ht, hp⟩
  | v s =>
    obtain rfl := call_v h
    exact ⟨fun m hm => (nomatch hm), rfl, .refl _⟩
  | yieldOnReturn =>
    obtain ⟨i₁, h₁, h⟩ := bind_eq_ok.mp h
    obtain ⟨_, -, h₁⟩ := bind_eq_ok.mp h₁
    cases h₁
    cases h
    exact ⟨fun m hm => (nomatch hm), rfl, .refl _⟩

theorem whens_calls {cs : List (HandlerCall C S)} (h : i.calls H w cs = .ok (i', w')) :
    (∀ n ∈ cs.filterMap (delayOf c), 0 < n) ∧ i'.totalTicks = i.totalTicks ∧
      (i'.whens c).Perm ((cs.filterMap (delayOf c)).map (i.totalTicks + ·) ++ i.whens c) := by
  induction cs generalizing i w with
  | nil =>
    cases h
    exact ⟨nofun, rfl, .refl _⟩
  | cons x cs ih =>
    obtain ⟨⟨i₁, w₁⟩, h₁, h⟩ := bind_eq_ok.mp h
    obtain ⟨hpos, ht, hp⟩ := whens_call (c := c) h₁
    obtain ⟨hpos', ht', hp'⟩ := ih h
    rw [ht] at ht' hp'
    have hall := hp'.trans (hp.append_left _)
    cases hx : delayOf c x with
    | none =>
      rw [List.filterMap_cons_none hx]
      rw [hx] at hall
      exact ⟨hpos', ht', hall⟩
    | some n =>
      rw [List.filterMap_cons_some hx]
      rw [hx] at hall hpos
      refine ⟨fun m hm => ?_, ht', hall.trans List.perm_middle⟩
      rcases List.mem_cons.mp hm with rfl | hm
      · exact hpos m rfl
      · exact hpos' m hm

/-! ## The loop of `CheckIfDue` -/

theorem deliver_timed (hP : Periodic H c period) {n : Nat} {t : Int} (hd : i.isDue = true)
    (ht : i.whens c = [t]) (hle : t ≤ last + period)
    (hnear : t ≤ i.totalTicks → i.totalTicks < t + systemTick)
    (h : deliver H n i w = .ok (i', w', ds')) :
    Gaps c (period + (systemTick - 1)) last ds' ∧
      ∃ t', i'.whens c = [t'] ∧ t' ≤ lastTick c last ds' + period := by
  induction n generalizing i w ds' last t with
  | zero =>
    cases h
    exact ⟨trivial, t, ht, hle⟩
  | succ n ih =>
    obtain ⟨x, q, hp, hx⟩ := isDue_cases hd
    rw [deliver_cons n hp] at h
    obtain ⟨⟨i₁, w₁⟩, h₁, h⟩ := bind_eq_ok.mp h
    obtain ⟨hpos, htick, hperm⟩ := whens_calls (c := c) h₁
    have hwhens : i.whens c = (if x.callOnInterrupt = c then [x.when] else []) ++
        ({ i with pending := q } : Interrupt C).whens c := by
      unfold whens
      rw [hp]
      by_cases hc : x.callOnInterrupt = c
      · rw [List.filter_cons_of_pos (by simpa using hc), if_pos hc]
        rfl
      · rw [List.filter_cons_of_neg (by simpa using hc), if_neg hc]
        rfl
    rw [ht] at hwhens
    -- After this turn the interrupt of `c` is pending, as before or anew.
    obtain ⟨t', ht', hle', hnear', hgap⟩ : ∃ t', i₁.whens c = [t'] ∧
        t' ≤ lastTick c last [⟨x, i.totalTicks, i.level, i.status⟩] + period ∧
        (t' ≤ i₁.totalTicks → i₁.totalTicks < t' + systemTick) ∧
        Gaps c (period + (systemTick - 1)) last [⟨x, i.totalTicks, i.level, i.status⟩] := by
      simp only [lastTick, Gaps]
      by_cases hc : x.callOnInterrupt = c
      · rw [if_pos hc, List.singleton_append] at hwhens
        obtain ⟨hxt, hrest⟩ := List.cons.inj hwhens
        obtain ⟨m, hm, hown⟩ := hP.own i.status w
        rw [hc] at hperm hpos
        rw [hown] at hperm hpos
        rw [← hrest, List.append_nil] at hperm
        have hm₀ := hpos m (List.mem_singleton.mpr rfl)
        refine ⟨i.totalTicks + m, List.perm_singleton.mp hperm, ?_, fun hdue => ?_, ?_⟩
        · rw [if_pos hc]
          omega
        · rw [htick] at hdue
          dsimp only at hdue
          omega
        · rw [if_pos hc]
          have hnow := hnear (by omega)
          exact ⟨by omega, trivial⟩
      · rw [if_neg hc, List.nil_append] at hwhens
        rw [hP.others i.status x.callOnInterrupt w hc, ← hwhens] at hperm
        refine ⟨t, List.perm_singleton.mp hperm, ?_, fun hdue => ?_, ?_⟩
        · rwa [if_neg hc]
        · rw [htick] at hdue ⊢
          exact hnear hdue
        · rw [if_neg hc]
          trivial
    split at h
    · rename_i hd₁
      obtain ⟨⟨i₂, w₂, ds₁⟩, h₂, he⟩ := bind_eq_ok.mp h
      cases he
      obtain ⟨hg, hw⟩ := ih hd₁ ht' hle' hnear' h₂
      rw [← List.singleton_append, gaps_append, lastTick_append]
      exact ⟨⟨hgap, hg⟩, hw⟩
    · cases h
      exact ⟨hgap, t', ht', hle'⟩

/-- `CheckIfDue`, less than `SystemTick` after the interrupt is due. -/
theorem checkIfDue_timed (hP : Periodic H c period) (hi : Inv ds i) {t : Int} {adv b : Bool}
    (hg : Gaps c (period + (systemTick - 1)) 0 ds) (ht : i.whens c = [t])
    (hle : t ≤ lastTick c 0 ds + period) (hnear : i.totalTicks < t + systemTick)
    (h : i.checkIfDue H adv w = .ok (i', w', ds', b)) :
    Inv (ds ++ ds') i' ∧ Timed c period (ds ++ ds') i' ∧ (adv = true → b = true) := by
  obtain ⟨hI, -, -, hdue, -⟩ := checkIfDue_cases hi (Nat.le_refl _) h
  have hlater : ∀ t', i'.whens c = [t'] → i'.totalTicks < t' := fun t' ht' => by
    have hm : t' ∈ i'.whens c := by rw [ht']; exact List.mem_singleton.mpr rfl
    obtain ⟨e, he, rfl⟩ := List.mem_map.mp hm
    exact hI.not_due hdue e (List.mem_of_mem_filter he)
  refine ⟨hI, ?_⟩
  cases hp : i.pending with
  | nil =>
    unfold whens at ht
    rw [hp] at ht
    cases ht
  | cons x q =>
    unfold checkIfDue at h
    rw [checkIfDueWithin_cons _ adv hp] at h
    obtain ⟨_, -, h⟩ := bind_eq_ok.mp h
    split at h
    · rename_i hlate
      cases h
      rw [List.append_nil]
      exact ⟨⟨hg, t, ht, hlater t ht, hle⟩, fun e => absurd (e ▸ hlate.2) (by decide)⟩
    · obtain ⟨⟨i₁, w₁, ds₁⟩, h₁, h⟩ := bind_eq_ok.mp h
      cases h
      have hwhens : (i.enter x).whens c = [t] := by
        rw [← ht]
        unfold whens
        rw [(i.enter_eq x).1]
      have hnear' : t ≤ (i.enter x).totalTicks → (i.enter x).totalTicks < t + systemTick := by
        intro htt
        unfold enter at htt ⊢
        split
        · -- The clock has moved to the front of the queue.
          have hm : t ∈ i.whens c := by rw [ht]; exact List.mem_singleton.mpr rfl
          obtain ⟨e, he, rfl⟩ := List.mem_map.mp hm
          have he' : e ∈ x :: q := hp ▸ List.mem_of_mem_filter he
          have hord := (List.pairwise_append.mp hi.order).2.1
          rw [hp] at hord
          have hxe : x.when ≤ e.when := by
            rcases List.mem_cons.mp he' with rfl | he'
            · exact Int.le_refl _
            · exact ((List.pairwise_cons.mp hord).1 e he').when_le
          show x.when < e.when + systemTick
          unfold systemTick
          omega
        · exact hnear
      obtain ⟨hgaps, t', ht', hle'⟩ := deliver_timed hP (isDue_enter hp) hwhens hle hnear' h₁
      refine ⟨⟨gaps_append.mpr ⟨hg, hgaps⟩, t', ht', hlater t' ht', ?_⟩, fun _ => rfl⟩
      rw [lastTick_append]
      exact hle'

/-! ## The operations -/

/-- Only the clock, the queue and the counter matter. -/
theorem Timed.congr (h : Timed c period ds i) (hp : i'.pending = i.pending)
    (ht : i'.totalTicks = i.totalTicks) : Timed c period ds i' := by
  obtain ⟨t, hw, hlt, hle⟩ := h.pending
  refine ⟨h.gaps, t, ?_, ht ▸ hlt, hle⟩
  unfold whens at hw ⊢
  rwa [hp]

theorem Timed.schedule (h : Timed c period ds i) {toCall : C} (hc : toCall ≠ c) {n : Int} {ty : IntType}
    (hs : i.schedule toCall n ty = .ok i') : Timed c period ds i' := by
  obtain ⟨t, hw, hlt, hle⟩ := h.pending
  obtain ⟨-, ht, hp⟩ := whens_schedule (c := c) hs
  rw [if_neg hc, List.nil_append, hw] at hp
  exact ⟨h.gaps, t, List.perm_singleton.mp hp, ht ▸ hlt, hle⟩

theorem oneTick_timed (hP : Periodic H c period) (hi : Inv ds i) (h : Timed c period ds i) {b : Bool}
    (hs : i.oneTick H w = .ok (i', w', ds', b)) :
    Inv (ds ++ ds') i' ∧ Timed c period (ds ++ ds') i' := by
  obtain ⟨t, hw, hlt, hle⟩ := h.pending
  obtain ⟨_, -, hs⟩ := bind_eq_ok.mp hs
  obtain ⟨⟨i₁, w₁, ds₁, b₁⟩, h₁, hs⟩ := bind_eq_ok.mp hs
  have hclock : 0 ≤ (if i.status = .systemMode then systemTick else userTick) ∧
      (if i.status = .systemMode then systemTick else userTick) ≤ systemTick := by
    split <;> decide
  have hi' : Inv ds (({ i with totalTicks := i.totalTicks +
      if i.status = .systemMode then systemTick else userTick } : Interrupt C).changeLevel .off) :=
    hi.congr rfl rfl (Int.le_add_of_nonneg_right hclock.1)
  have hnear : i.totalTicks + (if i.status = .systemMode then systemTick else userTick) <
      t + systemTick := by
    omega
  obtain ⟨hI, hT, -⟩ := checkIfDue_timed hP hi' h.gaps hw hle hnear h₁
  dsimp only at hs
  split at hs
  · cases hs
    exact ⟨hI.congr rfl rfl (Int.le_refl _), hT.congr rfl rfl⟩
  · cases hs
    exact ⟨hI.congr rfl rfl (Int.le_refl _), hT.congr rfl rfl⟩

/-- `Idle` comes back. -/
theorem idle_timed (hP : Periodic H c period) (hi : Inv ds i) (h : Timed c period ds i) {b : Bool}
    (hs : i.idle H w = .ok (i', w', ds', b)) :
    Inv (ds ++ ds') i' ∧ Timed c period (ds ++ ds') i' ∧ b = true := by
  obtain ⟨t, hw, hlt, hle⟩ := h.pending
  obtain ⟨⟨i₁, w₁, ds₁, b₁⟩, h₁, hs⟩ := bind_eq_ok.mp hs
  have hi' : Inv ds { i with status := .idleMode } := hi.congr rfl rfl (Int.le_refl _)
  have hnear : i.totalTicks < t + systemTick := by
    unfold systemTick
    omega
  obtain ⟨hI, hT, hb⟩ := checkIfDue_timed hP hi' h.gaps hw hle hnear h₁
  obtain rfl := hb rfl
  cases hs
  exact ⟨hI.congr rfl rfl (Int.le_refl _), hT.congr rfl rfl, rfl⟩

end Nachos.Interrupt

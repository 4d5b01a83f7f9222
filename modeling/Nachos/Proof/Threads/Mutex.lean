import Nachos.Proof.Threads.Clock
import Nachos.Proof.Threads.Lock
import Nachos.Proof.Threads.Waiting

/-!
# The locks of the kernel

`Lock::Acquire` and `Release` as routines of the kernel, which may be switched out
between their statements, by time slices too. The semaphore of a lock is private: only
these two call its `P` and `V`. `marks` are the statements of theirs that are left on a
stack, and each step of the kernel is one of `LockStep`, of the running thread.

So at most one thread is between the `P` of `Acquire` and the `V` of `Release`
(`reachable_lockGuarded`). A thread finds itself the holder when `Acquire` returns, and is
until it calls `Release`.
-/

namespace Nachos

open Framework

/-! ## Handlers -/

namespace Interrupt

variable {C S W : Type} [DecidableEq C]

/-- Handlers whose calls of `V` all have `p` keep `K`. -/
structure Keeps (H : Handlers C S W) (p : S → Prop) (K : W → Prop) : Prop where
  callBack : ∀ st c w, K w → K (H.callBack st c w).1 ∧ ∀ s, .v s ∈ (H.callBack st c w).2 → p s
  v : ∀ l s w w', p s → K w → H.v l s w = .ok w' → K w'

variable {H : Handlers C S W} {p : S → Prop} {K : W → Prop} {i i' : Interrupt C} {w w' : W}
  {ds : List (Delivery C)} {b : Bool}

theorem Keeps.calls (h : Keeps H p K) {cs : List (HandlerCall C S)} (hw : K w)
    (hp : ∀ s, .v s ∈ cs → p s) (hx : i.calls H w cs = .ok (i', w')) : K w' := by
  induction cs generalizing i w with
  | nil =>
    cases hx
    exact hw
  | cons c cs ih =>
    obtain ⟨⟨i₁, w₁⟩, h₁, hx⟩ := bind_eq_ok.mp hx
    refine ih ?_ (fun s hs => hp s (List.mem_cons_of_mem c hs)) hx
    cases c with
    | schedule toCall n ty =>
      obtain ⟨_, -, h₁⟩ := bind_eq_ok.mp h₁
      cases h₁
      exact hw
    | v s =>
      obtain ⟨⟨i₂, l, _⟩, -, h₁⟩ := bind_eq_ok.mp h₁
      obtain ⟨w₂, hv, h₁⟩ := bind_eq_ok.mp h₁
      obtain ⟨⟨i₃, _, _⟩, -, h₁⟩ := bind_eq_ok.mp h₁
      cases h₁
      exact h.v _ s w w₁ (hp s List.mem_cons_self) hw hv
    | yieldOnReturn =>
      obtain ⟨_, -, h₁⟩ := bind_eq_ok.mp h₁
      cases h₁
      exact hw

theorem Keeps.deliver (h : Keeps H p K) {n : Nat} (hw : K w)
    (hx : deliver H n i w = .ok (i', w', ds)) : K w' := by
  induction n generalizing i w ds with
  | zero =>
    cases hx
    exact hw
  | succ n ih =>
    unfold Interrupt.deliver at hx
    obtain ⟨⟨x, q⟩, -, hx⟩ := bind_eq_ok.mp hx
    obtain ⟨⟨i₁, w₁⟩, h₁, hx⟩ := bind_eq_ok.mp hx
    obtain ⟨hk, hp⟩ := h.callBack i.status x.callOnInterrupt w hw
    have hw₁ : K w₁ := h.calls hk hp h₁
    dsimp only at hx
    split at hx
    · obtain ⟨⟨i₂, w₂, ds₂⟩, h₂, hx⟩ := bind_eq_ok.mp hx
      cases hx
      exact ih hw₁ h₂
    · cases hx
      exact hw₁

theorem Keeps.checkIfDue (h : Keeps H p K) {adv : Bool} (hw : K w)
    (hx : i.checkIfDue H adv w = .ok (i', w', ds, b)) : K w' := by
  unfold Interrupt.checkIfDue checkIfDueWithin at hx
  obtain ⟨_, -, hx⟩ := bind_eq_ok.mp hx
  split at hx
  · cases hx
    exact hw
  · split at hx
    · cases hx
      exact hw
    · obtain ⟨⟨i₁, w₁, ds₁⟩, h₁, hx⟩ := bind_eq_ok.mp hx
      cases hx
      exact h.deliver hw h₁

theorem Keeps.oneTick (h : Keeps H p K) (hw : K w)
    (hx : i.oneTick H w = .ok (i', w', ds, b)) : K w' := by
  obtain ⟨_, -, hx⟩ := bind_eq_ok.mp hx
  obtain ⟨⟨i₁, w₁, ds₁, b₁⟩, h₁, hx⟩ := bind_eq_ok.mp hx
  have hw₁ : K w₁ := h.checkIfDue hw h₁
  dsimp only at hx
  split at hx
  all_goals
    cases hx
    exact hw₁

theorem Keeps.idle (h : Keeps H p K) (hw : K w) (hx : i.idle H w = .ok (i', w', ds, b)) : K w' := by
  obtain ⟨⟨i₁, w₁, ds₁, b₁⟩, h₁, hx⟩ := bind_eq_ok.mp hx
  have hw₁ : K w₁ := h.checkIfDue hw h₁
  dsimp only at hx
  split at hx
  all_goals
    cases hx
    exact hw₁

end Interrupt

namespace Machine

variable {P S C D : Type} [DecidableEq P] [DecidableEq S]

/-! ## What is left of `Acquire` and `Release` -/

/-- A statement of the lock's routines. -/
inductive Mark
  | callAcquire
  | callP
  | p
  | set
  | retAcquire
  | callRelease
  | callV
  | retRelease
  deriving DecidableEq

variable (s : S)

omit [DecidableEq P] in
/-- Which one a frame is, for the lock `s`. -/
def mark : Frame P S → Option Mark
  | .call (.acquire s') => if s' = s then some .callAcquire else none
  | .call (.p s') => if s' = s then some .callP else none
  | .p s' => if s' = s then some .p else none
  | .setHolder s' => if s' = s then some .set else none
  | .ret (.acquire s') _ => if s' = s then some .retAcquire else none
  | .call (.release s') => if s' = s then some .callRelease else none
  | .call (.v s') => if s' = s then some .callV else none
  | .ret (.release s') _ => if s' = s then some .retRelease else none
  | _ => none

/-- The statements of the lock's routines on a stack. -/
def marks (fs : List (Frame P S)) : List Mark := fs.filterMap (mark s)

/-- The lock. -/
def lockOf (m : Machine P S C D) : Lock P := ⟨m.world.lockHolder s, m.world.semaphore s⟩

/-- Steps of `Acquire` and `Release` of the thread `t`, and all others: the marks and the
lock, before and after. -/
inductive LockStep (t : P) : List Mark → Lock P → List Mark → Lock P → Prop
  | quiet (k : List Mark) (l : Lock P) : LockStep t k l k l
  | callAcquire (l : Lock P) : LockStep t [] l [.callAcquire] l
  | callRelease (l : Lock P) : LockStep t [] l [.callRelease] l
  | acquire (k : List Mark) (l : Lock P) :
    LockStep t (.callAcquire :: k) l (.callP :: .set :: .retAcquire :: k) l
  | enter (k : List Mark) (l : Lock P) : LockStep t (.callP :: k) l (.p :: k) l
  | pass (k : List Mark) (l l' : Lock P) (h : l.acquireP t = .ok (l', true)) :
    LockStep t (.p :: k) l k l'
  | wait (k : List Mark) (l l' : Lock P) (h : l.acquireP t = .ok (l', false)) :
    LockStep t (.p :: k) l (.p :: k) l'
  | set (k : List Mark) (l : Lock P) : LockStep t (.set :: k) l k (l.acquireSet t)
  | acquired (k : List Mark) (l : Lock P) : LockStep t (.retAcquire :: k) l k l
  | check (k : List Mark) (l l' : Lock P) (h : l.releaseCheck t = .ok l') :
    LockStep t (.callRelease :: k) l (.callV :: .retRelease :: k) l'
  | post (k : List Mark) (l : Lock P) : LockStep t (.callV :: k) l k l.releaseV.1
  | released (k : List Mark) (l : Lock P) : LockStep t (.retRelease :: k) l k l

/-! ## Who is inside -/

/-- Where the marks are those of a thread that is in the lock (`some _`), and that is
its holder (`some true`). -/
inductive At : List Mark → Option Bool → Prop
  | out {b : Option Bool} (h : b ≠ some false) : At [] b
  | callAcquire {b : Option Bool} (h : b ≠ some false) : At [.callAcquire] b
  | callP {b : Option Bool} (h : b ≠ some false) : At [.callP, .set, .retAcquire] b
  | p {b : Option Bool} (h : b ≠ some false) : At [.p, .set, .retAcquire] b
  | sets : At [.set, .retAcquire] (some false)
  | acquired : At [.retAcquire] (some true)
  | callRelease {b : Option Bool} (h : b ≠ some false) : At [.callRelease] b
  | posts : At [.callV, .retRelease] (some false)
  | released {b : Option Bool} (h : b ≠ some false) : At [.retRelease] b

/-- At most one thread is in the lock, as the marks say. -/
def Exclusive (k : P → List Mark) (l : Lock P) : Prop :=
  ∃ f, l.Held f ∧ ∀ t, At (k t) (f t)

omit [DecidableEq P] in
/-- The holder is in the lock. -/
theorem holder_inside {l : Lock P} {f : P → Option Bool} (h : l.Held f) {t : P}
    (hl : l.lockHolder = some t) : f t = some true := by
  by_cases hn : ∀ u, f u = none
  · rw [(h.free hn).2] at hl
    cases hl
  · obtain ⟨u, hu⟩ := not_forall.mp hn
    obtain ⟨b, hb⟩ := Option.ne_none_iff_exists'.mp hu
    rw [(h.busy u b hb).2.1] at hl
    cases b with
    | false => cases hl
    | true =>
      obtain rfl := Option.some.inj hl
      exact hb

/-- Only `t` itself gives the lock up. -/
theorem LockStep.holder {t u : P} {k k' : List Mark} {l l' : Lock P} (h : LockStep t k l k' l')
    {f : P → Option Bool} (hf : l.Held f) (hk : At k (f t)) (hu : l.lockHolder = some u) :
    l'.lockHolder = some u ∨ u = t ∧ k = [.callRelease] := by
  have hin := holder_inside hf hu
  cases h with
  | quiet | callAcquire | callRelease | acquire | enter | acquired | post | released => exact .inl hu
  | pass k l l' h =>
    rcases Lock.acquireP_cases h with ⟨-, -, rfl⟩ | ⟨hb, -⟩
    · exact .inl hu
    · cases hb
  | wait k l l' h =>
    rcases Lock.acquireP_cases h with ⟨hb, -⟩ | ⟨-, -, -, rfl⟩
    · cases hb
    · exact .inl hu
  | set k =>
    -- `t` alone is inside, and is not the holder yet.
    generalize hft : f t = b at hk
    cases hk
    have e : u = t := hf.unique (by rw [hin]; rfl) (by rw [hft]; rfl)
    rw [e, hft] at hin
    cases hin
  | check k l l' h =>
    obtain ⟨_, ha, -⟩ := bind_eq_ok.mp h
    have ht : l.lockHolder = some t := of_decide_eq_true (assert_eq_ok.mp ha)
    rw [hu] at ht
    generalize f t = b at hk
    cases hk
    exact .inr ⟨Option.some.inj ht, rfl⟩

variable {s}

/-- A step of `t` keeps that. -/
theorem Exclusive.step {k : P → List Mark} {l l' : Lock P} {t : P} {c : List Mark} (h : Exclusive k l)
    (hs : LockStep t (k t) l c l') : Exclusive (Function.update k t c) l' := by
  obtain ⟨f, hf, hat⟩ := h
  have hk := hat t
  -- `t` is in the lock as before, or as `b` says.
  have hsame : l'.Held f → At c (f t) → Exclusive (Function.update k t c) l' := by
    intro hl hc
    refine ⟨f, hl, fun u => ?_⟩
    by_cases e : u = t
    · rw [e, Function.update_self]
      exact hc
    · rw [Function.update_of_ne e]
      exact hat u
  have hmove : ∀ b, l'.Held (Function.update f t b) → At c b →
      Exclusive (Function.update k t c) l' := by
    intro b hb hc
    refine ⟨_, hb, fun u => ?_⟩
    by_cases e : u = t
    · rw [e, Function.update_self, Function.update_self]
      exact hc
    · rw [Function.update_of_ne e, Function.update_of_ne e]
      exact hat u
  generalize hkt : k t = kt at hs hk
  generalize hft : f t = b at hk hsame
  cases hs with
  | quiet => exact hsame hf hk
  | callAcquire =>
    cases hk with
    | out hb => exact hsame hf (.callAcquire hb)
  | callRelease =>
    cases hk with
    | out hb => exact hsame hf (.callRelease hb)
  | acquire k =>
    cases hk with
    | callAcquire hb => exact hsame hf (.callP hb)
  | enter k =>
    cases hk with
    | callP hb => exact hsame hf (.p hb)
  | pass k l l' hp =>
    cases hk with
    | p => exact hmove _ (hf.acquire hp) .sets
  | wait k l l' hp => exact hsame (hf.wait hp) hk
  | set k =>
    cases hk with
    | sets => exact hmove _ (hf.set hft) .acquired
  | acquired k =>
    cases hk with
    | acquired => exact hsame hf (.out (by decide))
  | check k l l' hc =>
    obtain ⟨_, ha, hc⟩ := bind_eq_ok.mp hc
    cases hc
    have hheld := holder_inside hf (of_decide_eq_true (assert_eq_ok.mp ha))
    cases hk with
    | callRelease => exact hmove _ (hf.check hheld).2 .posts
  | post k =>
    cases hk with
    | posts => exact hmove _ (hf.post hft) (.released (by decide))
  | released k =>
    cases hk with
    | released hb => exact hsame hf (.out hb)

/-! ## The kernel's steps -/

section

omit [DecidableEq P] in
theorem marks_cons (f : Frame P S) (fs : List (Frame P S)) :
    marks s (f :: fs) = (mark s f).toList ++ marks s fs := by
  unfold marks
  rw [List.filterMap_cons]
  cases mark s f <;> rfl

variable {typeno : Policy} {cb : DeviceHandlers P S C D} {m m' : Machine P S C D}
  {fs fs' : List (Frame P S)}

/-- The running thread goes on with frames that have the marks of `fs`, and the lock is as
it was. -/
def Leaves (s : S) (m : Machine P S C D) (fs : List (Frame P S)) (m' : Machine P S C D) : Prop :=
  ∃ fs', m'.stack = Function.update m.stack m.current fs' ∧ marks s fs' = marks s fs ∧
    lockOf s m' = lockOf s m

/-- A `LockStep` of the running thread. -/
def Steps (s : S) (m m' : Machine P S C D) : Prop :=
  ∃ k, (fun u => marks s (m'.stack u)) = Function.update (fun u => marks s (m.stack u)) m.current k ∧
    LockStep m.current (marks s (m.stack m.current)) (lockOf s m) k (lockOf s m')

theorem steps_of (hst : m'.stack = Function.update m.stack m.current fs)
    (hl : LockStep m.current (marks s (m.stack m.current)) (lockOf s m) (marks s fs) (lockOf s m')) :
    Steps s m m' := by
  refine ⟨marks s fs, funext fun u => ?_, hl⟩
  rw [hst]
  by_cases e : u = m.current
  · rw [e, Function.update_self, Function.update_self]
  · rw [Function.update_of_ne e, Function.update_of_ne e]

theorem Leaves.steps (h : Leaves s m fs m') (hm : marks s (m.stack m.current) = marks s fs) :
    Steps s m m' := by
  obtain ⟨fs', hst, hfs, hl⟩ := h
  refine steps_of hst ?_
  rw [hl, hfs, hm]
  exact .quiet _ _

theorem leaves_sleep {finishing : Bool} (h : m.sleep finishing fs = .ok m') : Leaves s m fs m' := by
  obtain ⟨_, -, h⟩ := bind_eq_ok.mp h
  obtain ⟨k, -, h⟩ := bind_eq_ok.mp h
  cases h
  exact ⟨_, rfl, marks_cons _ _, rfl⟩

theorem leaves_run {u : P} {finishing : Bool} (h : m.run u finishing fs = .ok m') :
    Leaves s m fs m' := by
  obtain ⟨_, -, h⟩ := bind_eq_ok.mp h
  obtain ⟨k, -, h⟩ := bind_eq_ok.mp h
  cases h
  exact ⟨_, rfl, marks_cons _ _, rfl⟩

/-- `FindNextToRun` changes the ready list only. -/
theorem leaves_findNextToRun {m₁ : Machine P S C D} {u : P}
    (h : m.findNextToRun typeno = .ok (some (u, m₁))) (hl : Leaves s m₁ fs m') : Leaves s m fs m' := by
  obtain ⟨_, -, h⟩ := bind_eq_ok.mp h
  obtain ⟨⟨v, k⟩, hk, he⟩ := Option.map_eq_some_iff.mp (Except.ok.inj h)
  cases he
  have hc : k.currentThread = m.current := (Kernel.taken_findNextToRun hk).currentThread
  obtain ⟨fs', hst, hfs, hlock⟩ := hl
  refine ⟨fs', ?_, hfs, hlock⟩
  rw [hst]
  show Function.update m.stack k.currentThread fs' = _
  rw [hc]

theorem leaves_yield {l : IntStatus} (h : m.yield typeno l fs = .ok m') : Leaves s m fs m' := by
  obtain ⟨r, hr, h⟩ := bind_eq_ok.mp h
  cases r with
  | none =>
    cases h
    exact ⟨_, rfl, marks_cons _ _, rfl⟩
  | some r =>
    obtain ⟨u, m₁⟩ := r
    obtain ⟨m₂, h₂, h⟩ := bind_eq_ok.mp h
    obtain ⟨_, -, h₂⟩ := bind_eq_ok.mp h₂
    obtain ⟨k, hk, h₂⟩ := bind_eq_ok.mp h₂
    cases h₂
    have hc : k.currentThread = m₁.current := Kernel.currentThread_readyToRun (liftAbort_eq_ok.mp hk)
    obtain ⟨fs', hst, hfs, hlock⟩ := leaves_run (s := s) h
    refine leaves_findNextToRun hr ⟨fs', ?_, hfs.trans (marks_cons _ _), hlock⟩
    rw [hst]
    show Function.update m₁.stack k.currentThread fs' = _
    rw [hc]

variable [DecidableEq C]

omit [DecidableEq C] in
theorem v_lockHolder {l : IntStatus} {w w' : World P S D} {s' : S}
    (h : World.v typeno l s' w = .ok w') :
    w'.lockHolder = w.lockHolder := by
  unfold World.v at h
  dsimp only at h
  split at h
  · cases h
    rfl
  · obtain ⟨_, -, h⟩ := bind_eq_ok.mp h
    obtain ⟨k, -, h⟩ := bind_eq_ok.mp h
    cases h
    rfl

omit [DecidableEq C] in
theorem v_lock {l : IntStatus} {w w' : World P S D} (h : World.v typeno l s w = .ok w') :
    (⟨w'.lockHolder s, w'.semaphore s⟩ : Lock P) =
      (⟨w.lockHolder s, w.semaphore s⟩ : Lock P).releaseV.1 := by
  rw [v_lockHolder h]
  simp only [Lock.releaseV, Semaphore.v_eq]
  obtain ⟨-, ⟨hq, -, hs⟩ | ⟨u, q, hq, -, hs⟩⟩ := v_cases h
  · rw [hs, hq]
    rfl
  · rw [hs, hq]
    rfl

omit [DecidableEq C] in
theorem v_lock_of_ne {l : IntStatus} {w w' : World P S D} {s' : S} (hs : s ≠ s')
    (h : World.v typeno l s' w = .ok w') :
    (⟨w'.lockHolder s, w'.semaphore s⟩ : Lock P) = ⟨w.lockHolder s, w.semaphore s⟩ := by
  rw [v_lockHolder h, (v_cases h).1 s hs]

section
variable (hcb : ∀ st c w, .v s ∉ (cb st c w).2)
include hcb

omit [DecidableEq C] in
/-- No handler calls `V` of the lock's semaphore. -/
theorem keeps_handlers (l : Lock P) :
    Interrupt.Keeps (handlers typeno cb) (· ≠ s) fun w : World P S D =>
      (⟨w.lockHolder s, w.semaphore s⟩ : Lock P) = l where
  callBack st c w hw := by
    refine ⟨hw, fun s' hs e => ?_⟩
    subst e
    exact hcb st c w hs
  v l s' w w' hs hw hv := by
    rw [← hw]
    exact v_lock_of_ne (Ne.symm hs) hv

theorem leaves_oneTick (h : oneTick typeno cb m fs = .ok m') : Leaves s m fs m' := by
  obtain ⟨⟨i, w, ds, b⟩, hi, h⟩ := bind_eq_ok.mp h
  cases h
  refine ⟨_, rfl, ?_, (keeps_handlers hcb (lockOf s m)).oneTick rfl hi⟩
  split
  · rw [marks_cons, marks_cons]
    rfl
  · rfl

theorem leaves_setLevel {now : IntStatus} (h : setLevel typeno cb m now fs = .ok m') :
    Leaves s m fs m' := by
  obtain ⟨⟨i, l, tick⟩, -, h⟩ := bind_eq_ok.mp h
  dsimp only at h
  split at h
  · exact leaves_oneTick (m := { m with int := i }) hcb h
  · cases h
    exact ⟨fs, rfl, rfl, rfl⟩

end

omit [DecidableEq C] in
/-- A routine starts; the thread that is forked is in none of the lock's. -/
theorem steps_enter {l : IntStatus} {f : Routine P S}
    (hs : m.stack m.current = .call f :: fs) (hf : ∀ t, f = .fork t → marks s (m.stack t) = [])
    (h : enter typeno m (.ret f l :: fs) f = .ok m') : Steps s m m' := by
  cases f with
  | p s' =>
    obtain ⟨⟨i, old, b⟩, -, h⟩ := bind_eq_ok.mp h
    cases h
    refine steps_of rfl ?_
    rw [hs]
    by_cases e : s' = s
    · subst e
      simp only [marks_cons, mark, if_pos, Option.toList_some, Option.toList_none, List.nil_append,
        List.singleton_append]
      exact .enter _ _
    · simp only [marks_cons, mark, if_neg e, Option.toList_none, List.nil_append]
      exact .quiet _ _
  | v s' =>
    obtain ⟨⟨i, old, b⟩, -, h⟩ := bind_eq_ok.mp h
    obtain ⟨w, hw, h⟩ := bind_eq_ok.mp h
    cases h
    refine steps_of rfl ?_
    rw [hs]
    by_cases e : s' = s
    · subst e
      simp only [marks_cons, mark, if_pos, Option.toList_some, Option.toList_none, List.nil_append,
        List.singleton_append]
      have hpost : LockStep m.current (.callV :: marks s' fs) (lockOf s' m) (marks s' fs)
          ⟨w.lockHolder s', w.semaphore s'⟩ := by
        rw [v_lock hw]
        exact .post _ _
      exact hpost
    · simp only [marks_cons, mark, if_neg e, Option.toList_none, List.nil_append]
      have hquiet : LockStep m.current (marks s fs) (lockOf s m) (marks s fs)
          ⟨w.lockHolder s, w.semaphore s⟩ := by
        rw [v_lock_of_ne (Ne.symm e) hw]
        exact .quiet _ _
      exact hquiet
  | acquire s' =>
    cases h
    refine steps_of rfl ?_
    rw [hs]
    by_cases e : s' = s
    · subst e
      simp only [marks_cons, mark, if_pos, Option.toList_some, List.singleton_append]
      exact .acquire _ _
    · simp only [marks_cons, mark, if_neg e, Option.toList_none, List.nil_append]
      exact .quiet _ _
  | release s' =>
    obtain ⟨_, ha, h⟩ := bind_eq_ok.mp h
    cases h
    refine steps_of rfl ?_
    rw [hs]
    by_cases e : s' = s
    · subst e
      simp only [marks_cons, mark, if_pos, Option.toList_some, List.singleton_append]
      have hheld : m.world.lockHolder s' = some m.current := assert_eq_ok.mp (liftAbort_eq_ok.mp ha)
      refine .check _ _ _ ?_
      unfold Lock.releaseCheck lockOf
      rw [assert_of (by simpa [Lock.isHeldBy] using hheld)]
      simp only [goOn, Function.update_self]
      rfl
    · simp only [marks_cons, mark, if_neg e, Option.toList_none, List.nil_append]
      have hlock : (⟨Function.update m.world.lockHolder s' none s, m.world.semaphore s⟩ : Lock P) =
          lockOf s m := by
        rw [Function.update_of_ne (Ne.symm e)]
        rfl
      have hquiet : LockStep m.current (marks s fs) (lockOf s m) (marks s fs)
          ⟨Function.update m.world.lockHolder s' none s, m.world.semaphore s⟩ := by
        rw [hlock]
        exact .quiet _ _
      exact hquiet
  | yield =>
    obtain ⟨⟨i, old, b⟩, -, h⟩ := bind_eq_ok.mp h
    have hl : Leaves s { m with int := i } (.ret .yield l :: fs) m' := leaves_yield h
    refine hl.steps ?_
    show marks s (m.stack m.current) = _
    rw [hs, marks_cons, marks_cons]
    rfl
  | fork t =>
    obtain ⟨⟨i, old, b⟩, -, h⟩ := bind_eq_ok.mp h
    obtain ⟨_, -, h⟩ := bind_eq_ok.mp h
    obtain ⟨k, -, h⟩ := bind_eq_ok.mp h
    cases h
    refine ⟨marks s fs, funext fun u => ?_, ?_⟩
    · show marks s (Function.update (Function.update m.stack t [.begin]) m.current _ u) = _
      by_cases e : u = m.current
      · rw [e, Function.update_self, Function.update_self, marks_cons, marks_cons, marks_cons]
        rfl
      · rw [Function.update_of_ne e, Function.update_of_ne e]
        by_cases e' : u = t
        · rw [e', Function.update_self, hf t rfl]
          rfl
        · rw [Function.update_of_ne e']
    · rw [hs, marks_cons]
      exact .quiet _ _

omit [DecidableEq C] in
/-- The running thread goes on behind a statement that is none of the lock's. -/
theorem steps_goOn {f : Frame P S} (hs : m.stack m.current = f :: fs) (hf : mark s f = none)
    (hst : m'.stack = Function.update m.stack m.current fs') (hfs : marks s fs' = marks s fs)
    (hl : lockOf s m' = lockOf s m) : Steps s m m' := by
  have hleft : Leaves s m fs m' := ⟨fs', hst, hfs, hl⟩
  refine hleft.steps ?_
  rw [hs, marks_cons, hf]
  rfl

omit [DecidableEq C] in
/-- `P` tests the value. -/
theorem steps_p {s' : S} (hs : m.stack m.current = .p s' :: fs) {x : Semaphore P} {b : Bool}
    (hp : (m.world.semaphore s').p m.current = .ok (x, b))
    (hst : m'.stack = Function.update m.stack m.current fs')
    (hfs : marks s fs' = if b then marks s fs else marks s (.p s' :: fs))
    (hl : lockOf s m' = ⟨m.world.lockHolder s, Function.update m.world.semaphore s' x s⟩) :
    Steps s m m' := by
  refine steps_of hst ?_
  rw [hs, hfs, hl]
  by_cases e : s' = s
  · subst e
    have ha : (lockOf s' m).acquireP m.current = .ok (⟨m.world.lockHolder s', x⟩, b) := by
      unfold Lock.acquireP lockOf
      rw [hp]
      rfl
    rw [Function.update_self, marks_cons]
    simp only [mark, if_pos, Option.toList_some, List.singleton_append]
    cases b with
    | true => exact .pass _ _ _ ha
    | false => exact .wait _ _ _ ha
  · rw [Function.update_of_ne (Ne.symm e), marks_cons]
    simp only [mark, if_neg e, Option.toList_none, List.nil_append, ite_self]
    exact .quiet _ _

/-- One statement of the running thread. -/
theorem steps_exec (hcb : ∀ st c w, .v s ∉ (cb st c w).2) {f : Frame P S}
    (hs : m.stack m.current = f :: fs) (hf : ∀ t, f = .call (.fork t) → marks s (m.stack t) = [])
    (h : exec typeno cb m fs f = .ok m') : Steps s m m' := by
  cases f with
  | call f => exact steps_enter hs (fun t e => hf t (by rw [e])) h
  | ret f l =>
    cases h
    refine steps_of rfl ?_
    rw [hs, marks_cons]
    cases f with
    | acquire s' =>
      by_cases e : s' = s
      · rw [show mark s (.ret (.acquire s') l : Frame P S) = some .retAcquire from if_pos e]
        exact .acquired _ _
      · rw [show mark s (.ret (.acquire s') l : Frame P S) = none from if_neg e]
        exact .quiet _ _
    | release s' =>
      by_cases e : s' = s
      · rw [show mark s (.ret (.release s') l : Frame P S) = some .retRelease from if_pos e]
        exact .released _ _
      · rw [show mark s (.ret (.release s') l : Frame P S) = none from if_neg e]
        exact .quiet _ _
    | p s' | v s' | yield | fork t => exact .quiet _ _
  | setLevel now =>
    obtain ⟨fs', hst, hfs, hl⟩ := leaves_setLevel hcb h
    exact steps_goOn hs rfl hst hfs hl
  | setStatus status =>
    cases h
    exact steps_goOn hs rfl rfl rfl rfl
  | p s' =>
    obtain ⟨⟨x, b⟩, hp, h⟩ := bind_eq_ok.mp h
    have hp := liftAbort_eq_ok.mp hp
    dsimp only at h
    split at h
    · rename_i hb
      subst hb
      cases h
      exact steps_p hs hp rfl rfl rfl
    · rename_i hb
      obtain rfl := Bool.eq_false_iff.mpr hb
      obtain ⟨fs', hst, hfs, hl⟩ := leaves_sleep (s := s) h
      exact steps_p hs hp hst hfs hl
  | sleep finishing =>
    obtain ⟨r, hr, h⟩ := bind_eq_ok.mp h
    cases r with
    | some r =>
      obtain ⟨u, m₁⟩ := r
      obtain ⟨fs', hst, hfs, hl⟩ := leaves_findNextToRun (s := s) hr (leaves_run h)
      exact steps_goOn hs rfl hst hfs hl
    | none =>
      obtain ⟨⟨i, w, ds, b⟩, hi, h⟩ := bind_eq_ok.mp h
      dsimp only at h
      split at h
      · cases h
        have hl := (keeps_handlers hcb (lockOf s m)).idle rfl hi
        have hst : m.stack = Function.update m.stack m.current (.sleep finishing :: fs) := by
          rw [← hs, Function.update_eq_self]
        exact steps_goOn hs rfl hst (marks_cons _ _) hl
      · cases h
  | resume =>
    obtain ⟨_, -, h⟩ := bind_eq_ok.mp h
    obtain ⟨k, -, h⟩ := bind_eq_ok.mp h
    cases h
    exact steps_goOn hs rfl rfl rfl rfl
  | begin =>
    obtain ⟨k, -, h⟩ := bind_eq_ok.mp h
    cases h
    exact steps_goOn hs rfl rfl (marks_cons _ _) rfl
  | setHolder s' =>
    cases h
    refine steps_of rfl ?_
    rw [hs, marks_cons]
    by_cases e : s' = s
    · subst e
      have hset : LockStep m.current (.set :: marks s' fs) (lockOf s' m) (marks s' fs)
          ⟨Function.update m.world.lockHolder s' (some m.current) s', m.world.semaphore s'⟩ := by
        rw [Function.update_self]
        exact .set _ _
      simp only [mark, if_pos, Option.toList_some, List.singleton_append]
      exact hset
    · have hquiet : LockStep m.current (marks s fs) (lockOf s m) (marks s fs)
          ⟨Function.update m.world.lockHolder s' (some m.current) s, m.world.semaphore s⟩ := by
        rw [Function.update_of_ne (Ne.symm e)]
        exact .quiet _ _
      simp only [mark, if_neg e, Option.toList_none, List.nil_append]
      exact hquiet
  | forkRest =>
    unfold exec at h
    dsimp only at h
    split at h
    · split at h
      · cases h
      · split at h
        · cases h
          exact steps_goOn hs rfl rfl (marks_cons _ _) rfl
        · cases h
          exact steps_goOn hs rfl rfl rfl rfl
    · cases h
      exact steps_goOn hs rfl rfl rfl rfl

/-- The semaphore that a thread's own code uses other than through `Acquire` and
`Release`. -/
def uses : Op P S C D → Option S
  | .call (.p s) | .call (.v s) | .newSemaphore s _ => some s
  | _ => none

/-- The semaphore of the lock `s` is used by `Acquire` and `Release` only, and threads that
are forked are fresh, and in neither. -/
def Private (typeno : Policy) (s : S) (m : Machine P S C D) (op : Op P S C D) : Prop :=
  Proper typeno s m op ∧ uses op ≠ some s ∧ ∀ t ∈ forks (m.stack m.current), marks s (m.stack t) = []

omit [DecidableEq C] in
/-- The running thread is in no routine, and neither in the lock's. -/
theorem steps_idle (hs : m.stack m.current = []) (hst : m'.stack = m.stack)
    (hl : lockOf s m' = lockOf s m) : Steps s m m' := by
  have hleft : Leaves s m [] m' := by
    refine ⟨[], ?_, rfl, hl⟩
    rw [hst, ← hs, Function.update_eq_self]
  exact hleft.steps (by rw [hs])

theorem steps_own (hcb : ∀ st c w, .v s ∉ (cb st c w).2) (hs : m.stack m.current = [])
    {op : Op P S C D} (hu : uses op ≠ some s) (h : own typeno cb m op = .ok m') : Steps s m m' := by
  have hnil : marks s (m.stack m.current) = marks s ([] : List (Frame P S)) := by rw [hs]
  cases op with
  | run =>
    cases h
    exact steps_idle hs rfl rfl
  | call f =>
    cases h
    refine steps_of rfl ?_
    rw [hnil]
    cases f with
    | p s' | v s' =>
      have hne : s' ≠ s := fun e => hu (by rw [e]; rfl)
      simp only [marks_cons, mark, if_neg hne]
      exact .quiet _ _
    | acquire s' =>
      by_cases e : s' = s
      · simp only [marks_cons, mark, if_pos e]
        exact .callAcquire _
      · simp only [marks_cons, mark, if_neg e]
        exact .quiet _ _
    | release s' =>
      by_cases e : s' = s
      · simp only [marks_cons, mark, if_pos e]
        exact .callRelease _
      · simp only [marks_cons, mark, if_neg e]
        exact .quiet _ _
    | yield | fork t => exact .quiet _ _
  | setLevel now => exact (leaves_setLevel hcb h).steps hnil
  | oneTick => exact (leaves_oneTick hcb h).steps hnil
  | sleep | finish =>
    obtain ⟨⟨i, l, b⟩, -, h⟩ := bind_eq_ok.mp h
    have hl := leaves_sleep (s := s) h
    exact Leaves.steps hl hnil
  | newThread t =>
    obtain ⟨k, -, h⟩ := bind_eq_ok.mp h
    cases h
    exact steps_idle hs rfl rfl
  | setPriority t n | setStatus status | device d =>
    cases h
    exact steps_idle hs rfl rfl
  | newSemaphore s' n =>
    have hne : s' ≠ s := fun e => hu (by rw [e]; rfl)
    cases h
    refine steps_idle hs rfl ?_
    show (⟨m.world.lockHolder s, Function.update m.world.semaphore s' _ s⟩ : Lock P) = _
    rw [Function.update_of_ne (Ne.symm hne)]
    rfl
  | schedule c n ty =>
    obtain ⟨i, -, h⟩ := bind_eq_ok.mp h
    cases h
    exact steps_idle hs rfl rfl

theorem steps_next (hcb : ∀ st c w, .v s ∉ (cb st c w).2) {op : Op P S C D} (hp : Private typeno s m op)
    (h : next typeno cb m op = .ok m') : Steps s m m' := by
  unfold Machine.next at h
  split at h
  · rename_i hs
    exact steps_own hcb hs hp.2.1 h
  · rename_i f fs hs
    split at h
    · exact steps_exec hcb hs (fun t e => hp.2.2 t (by rw [hs, e]; rfl)) h
    · cases h
      refine ⟨marks s (m.stack m.current), ?_, .quiet _ _⟩
      rw [Function.update_eq_self]

/-! ## Runs -/

/-- `t` is the holder of the lock, or it has passed `P` and is to become it, or it has
given that up and is to call `V`. -/
def Inside (s : S) (m : Machine P S C D) (t : P) : Prop :=
  m.world.lockHolder s = some t ∨ marks s (m.stack t) = [.set, .retAcquire] ∨
    marks s (m.stack t) = [.callV, .retRelease]

omit [DecidableEq P] [DecidableEq C] in
theorem inside_iff {f : P → Option Bool} (hf : (lockOf s m).Held f)
    (hat : ∀ t, At (marks s (m.stack t)) (f t)) (t : P) : Inside s m t ↔ f t ≠ none := by
  have hk := hat t
  constructor
  · rintro (hl | hm | hm)
    · rw [holder_inside hf hl]
      exact Option.some_ne_none _
    all_goals
      rw [hm] at hk
      generalize f t = b at hk
      cases hk
      exact Option.some_ne_none _
  · intro hne
    obtain ⟨b, hb⟩ := Option.ne_none_iff_exists'.mp hne
    cases b with
    | true => exact .inl ((hf.busy t true hb).2.1)
    | false =>
      rw [hb] at hk
      unfold Inside
      generalize marks s (m.stack t) = k at hk
      cases hk with
      | sets => exact .inr (.inl rfl)
      | posts => exact .inr (.inr rfl)
      | out h | callAcquire h | callP h | p h | callRelease h | released h => exact absurd rfl h

omit [DecidableEq P] [DecidableEq C] in
theorem exclusive_start {t : P → List Mark} {l : Lock P} (ht : ∀ u, t u = [])
    (hl : l.semaphore.value = 1 ∧ l.lockHolder = none) : Exclusive t l := by
  refine ⟨fun _ => none, ⟨fun _ => hl, fun u b hb => (nomatch hb)⟩, fun u => ?_⟩
  rw [ht u]
  exact .out (Option.some_ne_none false).symm

/-- At most one thread is inside of a lock. While none is, the lock is free, and if threads
wait for it one of those that were woken is to test it. `Acquire` returns to the holder of
the lock, which it is until it calls `Release`. -/
structure Guarded (typeno : Policy) (cb : DeviceHandlers P S C D) (s : S) (m : Machine P S C D) :
    Prop where
  unique : ∀ t u, Inside s m t → Inside s m u → t = u
  free : (∀ t, ¬ Inside s m t) → (m.world.semaphore s).value = 1 ∧ m.world.lockHolder s = none ∧
    ((m.world.semaphore s).queue ≠ [] → ∃ t, Woken typeno m.stack m.world s t)
  returns : ∀ t l fs, m.stack t = .ret (.acquire s) l :: fs → m.world.lockHolder s = some t
  keeps : ∀ t op m', m.world.lockHolder s = some t → Private typeno s m op →
    next typeno cb m op = .ok m' →
    m'.world.lockHolder s = some t ∨ t = m.current ∧ marks s (m.stack t) = [.callRelease]

/-- In every run of the kernel in which the semaphore of the lock is private. -/
theorem reachable_lockGuarded {mem : P → Thread} {main : P} {v : S → Int} {d : D} (hv : v s = 1)
    (hcb : ∀ st c w, .v s ∉ (cb st c w).2)
    (h : ((system typeno cb mem main v d).restrict (Private typeno s)).Reachable m) :
    Guarded typeno cb s m := by
  have hI : Inv m ∧ Refines typeno (v s) s m.stack m.world ∧
      Exclusive (fun t => marks s (m.stack t)) (lockOf s m) := by
    refine h.invariant (I := fun m => Inv m ∧ Refines typeno (v s) s m.stack m.world ∧
      Exclusive (fun t => marks s (m.stack t)) (lockOf s m)) ?_ ?_
    · rintro _ rfl
      exact ⟨inv_init typeno mem main v d, refines_start typeno mem main v d s,
        exclusive_start (fun _ => rfl) ⟨hv, rfl⟩⟩
    · rintro m op m' ⟨hi, hr, hm⟩ ⟨hp, hs⟩
      obtain ⟨k, hk, hl⟩ := steps_next hcb hp hs
      refine ⟨((hi.next op).2 m' hs).1, refines_next hi hr hp.1 hs, ?_⟩
      rw [hk]
      exact hm.step hl
  obtain ⟨-, hr, f, hf, hat⟩ := hI
  have hin := inside_iff hf hat
  refine ⟨fun t u ht hu => ?_, fun hn => ?_, fun t l fs hs => ?_, fun t op m' ht hp hx => ?_⟩
  · have ht := Option.isSome_iff_ne_none.mpr ((hin t).mp ht)
    exact hf.unique ht (Option.isSome_iff_ne_none.mpr ((hin u).mp hu))
  · obtain ⟨hval, hnone⟩ := hf.free fun t => by
      by_contra hc
      exact hn t ((hin t).mpr hc)
    refine ⟨hval, hnone, fun hq => ?_⟩
    obtain ⟨-, σ, hσ, hsem, -, hw⟩ := hr
    have hinv : Proof.Semaphore.Inv (v s) σ :=
      hσ.invariant (I := Proof.Semaphore.Inv (v s))
        (fun _ h => h ▸ Proof.Semaphore.inv_init (by rw [hv]; decide))
        fun _ _ _ => Proof.Semaphore.inv_step
    obtain ⟨W, hW, hc⟩ := hinv.woken
    have hcard := hc (by rwa [hsem])
    rw [hsem, show (m.world.semaphore s).value = 1 from hval] at hcard
    obtain ⟨t, ht⟩ := Finset.card_pos.mp (show 0 < W.card by omega)
    exact ⟨t, hw t ((hW t).mp ht)⟩
  · have hk : At (marks s (m.stack t)) (f t) := hat t
    have hmark : mark s (.ret (.acquire s) l : Frame P S) = some .retAcquire := if_pos rfl
    rw [hs, marks_cons, hmark] at hk
    generalize marks s fs = k at hk
    generalize hft : f t = b at hk
    cases hk with
    | acquired => exact (hf.busy t true hft).2.1
  · obtain ⟨k, -, hs⟩ := steps_next hcb hp hx
    rcases hs.holder hf (hat m.current) ht with hl | ⟨rfl, hm⟩
    · exact .inl hl
    · exact .inr ⟨rfl, hm⟩

end

instance [Fintype S] (m : Machine P S C D) (op : Op P S C D) : Decidable (Private typeno s m op) :=
  inferInstanceAs (Decidable (_ ∧ _ ∧ ∀ t ∈ forks (m.stack m.current), _ = _))

/-- `main` acquires the lock and yields to a thread that waits for it. -/
def contended : List (Op Nat Unit Unit Unit) :=
  [.setLevel .on, .newThread 1, .call (.fork 1), .run, .run, .run, .run, .call (.acquire ()), .run,
    .run, .run, .run, .run, .run, .run, .call .yield, .run, .run, .run, .call (.acquire ()), .run,
    .run, .run, .run]

theorem reachable_lockGuarded_contended : ∃ m, ((system .fifo oneSemaphore
      (fun _ => Proof.Scheduler.blank) 0 (fun _ => 1) ()).restrict (Private .fifo ())).Reachable m ∧
    (m.world.lockHolder () = some 0 ∧ (m.world.semaphore ()).queue = [1]) ∧
    Guarded .fifo oneSemaphore () m := by
  obtain ⟨m, h, hp⟩ := System.exists_reachable_guarded
    (start .fifo (fun _ => Proof.Scheduler.blank) 0 (fun _ => 1) ()) (next .fifo oneSemaphore)
    (Private .fifo ()) contended
    (p := fun m => m.world.lockHolder () = some 0 ∧ (m.world.semaphore ()).queue = [1])
    (by decide +kernel)
  exact ⟨m, h, of_decide_eq_true hp, reachable_lockGuarded rfl (by simp [oneSemaphore]) h⟩

end Machine

end Nachos

import Nachos.Impl.Threads.Driver
import Nachos.Proof.Threads.Sync

/-!
# Console input

Calls of `SynchConsoleInput::GetChar` return the bytes of the file in order, and
the `ASSERT` of `ConsoleInput::CallBack` holds, in every run. They return all of
them just when no byte but the last is `0xFF` (`delivers_iff`): as a `char` it is
`EOF`, so `ConsoleInput::GetChar` takes it for no input and does not schedule the
next interrupt.
-/

namespace Nachos.SynchConsoleInput

open Framework

variable {T : Type}

/-! ## The code of a thread -/

/-- The thread has passed `P` and is to take the character. -/
def takesAt : GetCharStmt → Bool
  | .act _ => true
  | _ => false

def takes : List GetCharStmt → Bool
  | [] => false
  | s :: _ => takesAt s

@[simp] theorem takes_cons (s : GetCharStmt) (r : List GetCharStmt) : takes (s :: r) = takesAt s := rfl

/-- A statement fits what comes behind it. -/
def Fits : GetCharStmt → List GetCharStmt → Prop
  | .p _, r => Sync.status () r = some true ∧ takes r = true
  | .act _, r => Sync.status () r = some true ∧ takes r = false
  | .v _, _ => False
  | _, r => takes r = false

def Shaped : List GetCharStmt → Prop
  | [] => True
  | s :: r => Fits s r ∧ Shaped r

/-- What holds of the code of calls. -/
structure Rest (r : List GetCharStmt) : Prop where
  shaped : Shaped r
  out : takes r = false
  balanced : Sync.Balanced r

theorem rest_getChar {r : List GetCharStmt} (h : Rest r) : Rest (getChar ++ r) := by
  refine ⟨?_, rfl, .append ⟨?_, fun _ => rfl⟩ h.balanced⟩
  · simp [getChar, Sync.acquire, Sync.release, Shaped, Fits, takesAt, h.shaped, h.out, Sync.status]
  · simp [getChar, Sync.acquire, Sync.release, Sync.Wf, Sync.Fits, Sync.status]

theorem rest_calls (n : Nat) : Rest (List.replicate n getChar).flatten := by
  induction n with
  | zero => exact ⟨trivial, rfl, .nil⟩
  | succ n ih => exact rest_getChar ih

/-- A thread that is to take a character, or is at the `P`, holds the lock. -/
theorem Shaped.holds {r : List GetCharStmt} (h : Shaped r)
    (hp : takes r = true ∨ Sync.place r = some (.inr ())) : Sync.status () r = some true := by
  cases r with
  | nil => rcases hp with hp | hp <;> cases hp
  | cons s r =>
    cases s with
    | p k => exact h.1.1
    | act a => exact h.1.1
    | _ => rcases hp with hp | hp <;> cases hp

/-! ## The keyboard -/

/-- The file, with `EOF` at its end. -/
def stream (file : List Byte) : List Byte := file ++ [BitVec.ofInt 8 eof]

/-- No character is there, and an interrupt is to look for one. -/
structure Polling (file : List Byte) (d : SynchConsoleInput T) : Prop where
  incoming : d.consoleInput.incoming.toInt = eof
  polls : d.consoleInput.polls = 1
  rest : d.consoleInput.file = file.drop d.got.length
  le : d.got.length ≤ file.length

/-- A character is there, or `EOF`. -/
structure Avail (file : List Byte) (d : SynchConsoleInput T) : Prop where
  incoming : (stream file)[d.got.length]? = some d.consoleInput.incoming
  polls : d.consoleInput.polls = 0
  rest : d.consoleInput.file = file.drop (d.got.length + 1)

/-- No character is there, and none will be looked for: the last one was `EOF`. -/
structure Dead (file : List Byte) (d : SynchConsoleInput T) : Prop where
  polls : d.consoleInput.polls = 0
  last : ∃ k b, d.got.length = k + 1 ∧ (stream file)[k]? = some b ∧ b.toInt = eof

/-- What the places of the threads say of the keyboard and the semaphore. -/
structure Tied (file : List Byte) (d : SynchConsoleInput T) (v : Int) (f : T → Bool) : Prop where
  order : d.got.map Prod.snd <+: stream file
  idle : (∀ t, f t = false) → Polling file d ∧ v = 0 ∨ Avail file d ∧ v = 1 ∨ Dead file d ∧ v = 0
  taking : ∀ t, f t = true → (∀ u ≠ t, f u = false) ∧ Avail file d ∧ v = 0

section
variable {file : List Byte} {d : SynchConsoleInput T} {v : Int} {f : T → Bool}

theorem getElem?_stream_last : (stream file)[file.length]? = some (BitVec.ofInt 8 eof) := by
  simp [stream]

/-- The keyboard is looked at: the interrupt finds the next character, or the end. -/
theorem Polling.callBack (h : Polling file d) :
    ∃ x, d.consoleInput.callBack true = .ok (x, true) ∧
      Avail file ({ d with consoleInput := x } : SynchConsoleInput T) := by
  rw [ConsoleInput.callBack, assert_of h.incoming]
  cases hf : d.consoleInput.file with
  | nil =>
    have hl : d.got.length = file.length := by
      have := h.le
      have := h.rest.symm.trans hf
      rw [List.drop_eq_nil_iff] at this
      omega
    refine ⟨_, rfl, ?_, by simp [h.polls], ?_⟩
    · simp only [hl, getElem?_stream_last]
      have := h.incoming
      rw [← BitVec.ofInt_toInt (x := d.consoleInput.incoming), this]
    · simp [hl]
  | cons c r =>
    have hr := h.rest.symm.trans hf
    have hl : d.got.length < file.length := by
      rw [← List.drop_eq_nil_iff.not.trans not_le, hr]
      simp
    rw [List.drop_eq_getElem_cons hl, List.cons.injEq] at hr
    refine ⟨_, rfl, ?_, by simp [h.polls], hr.2.symm⟩
    simp [stream, List.getElem?_append_left hl, hl, hr.1]

/-- The character is taken. -/
theorem Avail.getChar (h : Avail file d) (t : T) :
    let d' : SynchConsoleInput T :=
      ⟨d.consoleInput.getChar.1, d.got ++ [(t, d.consoleInput.getChar.2)]⟩
    Polling file d' ∨ Dead file d' := by
  have hs := h.incoming
  by_cases he : d.consoleInput.incoming.toInt = eof
  · refine .inr ⟨by simp [ConsoleInput.getChar, he, h.polls], d.got.length, _, by simp, hs, he⟩
  · have hl : d.got.length < file.length := by
      have hlt := (List.getElem?_eq_some_iff.mp hs).1
      rw [stream, List.length_append, List.length_singleton] at hlt
      by_contra hge
      have e : d.got.length = file.length := by omega
      rw [e, getElem?_stream_last, Option.some.injEq] at hs
      exact he (by rw [← hs]; rfl)
    refine .inl ⟨rfl, by simp [ConsoleInput.getChar, he, h.polls], ?_, by simpa using Nat.succ_le_of_lt hl⟩
    simpa [ConsoleInput.getChar] using h.rest

theorem prefix_append_singleton {l s : List Byte} {b : Byte} (h : l <+: s) (hb : s[l.length]? = some b) :
    l ++ [b] <+: s := by
  obtain ⟨r, rfl⟩ := h
  rw [List.getElem?_append_right le_rfl, Nat.sub_self] at hb
  cases r with
  | nil => cases hb
  | cons x r =>
    cases hb
    exact ⟨r, by simp⟩

/-- A thread takes the character. -/
theorem Tied.act [DecidableEq T] (h : Tied file d v f) {t : T} (ht : f t = true)
    {d' : SynchConsoleInput T} (ha : act t d () = .ok d') : Tied file d' v (Function.update f t false) := by
  obtain ⟨ho, hav, hv⟩ := h.taking t ht
  cases ha
  have hn : ∀ u, Function.update f t false u = false := fun u => by
    rw [Function.update_apply]
    split
    · rfl
    · rename_i e
      exact ho u e
  refine ⟨?_, fun _ => ?_, fun u hu => by simp [hn] at hu⟩
  · rw [List.map_append]
    exact prefix_append_singleton h.order (by simpa [ConsoleInput.getChar] using hav.incoming)
  · rcases hav.getChar t with hp | hp
    · exact .inl ⟨hp, hv⟩
    · exact .inr (.inr ⟨hp, hv⟩)

/-- A thread passes `P`. -/
theorem Tied.p [DecidableEq T] (h : Tied file d v f) {t : T} (ho : ∀ u ≠ t, f u = false)
    (ht : f t = false) (hv : v ≠ 0) : Tied file d (v - 1) (Function.update f t true) := by
  have hall : ∀ u, f u = false := fun u => by
    by_cases e : u = t
    · rw [e, ht]
    · exact ho u e
  have hav : Avail file d ∧ v = 1 := by
    rcases h.idle hall with hp | hp | hp
    · exact absurd hp.2 hv
    · exact hp
    · exact absurd hp.2 hv
  have hu : ∀ u ≠ t, Function.update f t true u = false := fun u hu => by
    rw [Function.update_of_ne hu, ho u hu]
  refine ⟨h.order, fun hf => ?_, fun u hfu => ?_⟩
  · have := hf t
    simp at this
  · have e : u = t := by_contra fun e => by simp [hu u e] at hfu
    subst e
    exact ⟨hu, hav.1, by omega⟩

/-- An interrupt comes when no thread is to take a character. -/
theorem Tied.polling (h : Tied file d v f) (hp : d.consoleInput.polls ≠ 0) :
    (∀ t, f t = false) ∧ Polling file d ∧ v = 0 := by
  have hn : ∀ t, f t = false := fun t => by
    by_contra ht
    exact hp (h.taking t (by simpa using ht)).2.1.polls
  rcases h.idle hn with hs | hs | hs
  · exact ⟨hn, hs⟩
  · exact absurd hs.1.polls hp
  · exact absurd hs.1.polls hp

/-- The interrupt that finds something. -/
theorem Tied.ready (h : Tied file d v f) (hp : d.consoleInput.polls ≠ 0) :
    ∃ x, interrupt true d = .ok (some (x, some ())) ∧ Tied file x (v + 1) f := by
  obtain ⟨hn, hpo, hv⟩ := h.polling hp
  obtain ⟨x, hx, hav⟩ := hpo.callBack
  refine ⟨{ d with consoleInput := x }, ?_, h.order, fun _ => .inr (.inl ⟨hav, by omega⟩),
    fun t ht => by simp [hn] at ht⟩
  rw [interrupt, if_neg hp, hx]
  rfl

/-- The interrupt that finds nothing schedules the next. -/
theorem Tied.notReady (h : Tied file d v f) (hp : d.consoleInput.polls ≠ 0) :
    ∃ x, interrupt false d = .ok (some (x, none)) ∧ Tied file x v f := by
  obtain ⟨hn, hpo, hv⟩ := h.polling hp
  refine ⟨{ d with consoleInput := { d.consoleInput with polls := d.consoleInput.polls - 1 + 1 } }, ?_,
    h.order, fun _ => .inl ⟨⟨hpo.incoming, by simp [hpo.polls], hpo.rest, hpo.le⟩, hv⟩,
    fun t ht => by simp [hn] at ht⟩
  rw [interrupt, if_neg hp, ConsoleInput.callBack, assert_of hpo.incoming]
  rfl

end

/-! ## Runs -/

section
variable [DecidableEq T] {file : List Byte} {c c' : Config T} {t : T} {r : List GetCharStmt}

structure Inv (file : List Byte) (c : Config T) : Prop where
  sync : Sync.Inv c
  shaped : ∀ t, Shaped (c.loc t)
  tied : Tied file c.shared.data (Sync.values c.shared ()) fun t => takes (c.loc t)

omit [DecidableEq T] in
theorem inv_start (file : List Byte) (calls : T → Nat) : Inv file (start file calls) where
  sync := Sync.inv_start _ (fun _ => le_rfl) fun t => (rest_calls (calls t)).balanced
  shaped t := (rest_calls (calls t)).shaped
  tied := by
    have ho : ∀ t, takes ((start file calls).loc t) = false := fun t => (rest_calls (calls t)).out
    refine ⟨List.nil_prefix, fun _ => .inl ⟨⟨rfl, rfl, rfl, Nat.zero_le _⟩, rfl⟩, fun t ht => ?_⟩
    simp [ho] at ht

theorem takes_update (loc : T → List GetCharStmt) :
    (fun u => takes (Function.update loc t r u)) =
      Function.update (fun u => takes (loc u)) t (takes r) := by
  funext u
  exact Function.apply_update (fun _ => takes) loc t r u

omit [DecidableEq T] in
/-- While a thread holds the lock, no other is to take a character. -/
theorem Inv.others (h : Inv file c) {b : Bool} (ht : Sync.status () (c.loc t) = some b) (u : T)
    (hu : u ≠ t) : takes (c.loc u) = false := by
  by_contra hp
  have h1 := (h.shaped u).holds (.inl (by simpa using hp))
  exact hu ((h.sync.held ()).unique (by simp [h1]) (by simp [ht]))

theorem Fits.lock {s : GetCharStmt} (h : Fits s r) (hl : Sync.IsLock s) : takes r = takes (s :: r) := by
  cases s <;> first | exact h | exact hl.elim

theorem Inv.next_thread (h : Inv file c) (hn : next c (.inl t) = .ok c') : Inv file c' := by
  obtain ⟨hi, r, hr, hdid⟩ := h.sync.next_thread hn
  have hsh := h.shaped t
  generalize hs : c.loc t = r₀ at hdid
  generalize hd' : c'.shared.data = d' at hdid
  generalize hv : Sync.values c'.shared = v' at hdid
  suffices hg : Shaped r ∧
      Tied file d' (v' ()) (Function.update (fun u => takes (c.loc u)) t (takes r)) by
    refine ⟨hi, fun u => ?_, ?_⟩
    · rw [hr, Function.update_apply]
      split
      · exact hg.1
      · exact h.shaped u
    · rw [hd', hv, hr, takes_update]
      exact hg.2
  rw [hs] at hsh
  cases hdid with
  | stay =>
    rw [← hs, Function.update_eq_self]
    exact ⟨h.shaped t, h.tied⟩
  | lock =>
    rename_i s hl
    refine ⟨hsh.2, ?_⟩
    rw [hsh.1.lock hl, ← hs, Function.update_eq_self]
    exact h.tied
  | p =>
    rename_i k hk
    obtain ⟨⟨hl, hp⟩, hr⟩ := hsh
    refine ⟨hr, ?_⟩
    rw [hp]
    simpa using h.tied.p (h.others (t := t) (by rw [hs]; exact hl)) (by simp [hs, takesAt]) hk
  | v => exact hsh.1.elim
  | act =>
    rename_i a ha
    refine ⟨hsh.2, ?_⟩
    rw [hsh.1.2]
    exact h.tied.act (by simp [hs, takesAt]) ha

theorem Inv.next_interrupt (h : Inv file c) {ready : Bool} (hn : next c (.inr ready) = .ok c') :
    Inv file c' := by
  obtain ⟨hi, hl, hh⟩ := h.sync.next_interrupt hn
  generalize hd' : c'.shared.data = d' at hh
  generalize hv : Sync.values c'.shared = v' at hh
  suffices hg : Tied file d' (v' ()) (fun u => takes (c.loc u)) by
    refine ⟨hi, fun u => ?_, ?_⟩
    · rw [hl]
      exact h.shaped u
    · rw [hd', hv, hl]
      exact hg
  by_cases h0 : c.shared.data.consoleInput.polls = 0
  · have ho : interrupt ready c.shared.data = .ok none := by simp [interrupt, h0]
    cases hh with
    | none => exact h.tied
    | quiet h1 => cases h1.symm.trans ho
    | post h1 => cases h1.symm.trans ho
  · cases ready with
    | true =>
      obtain ⟨x, ho, ht⟩ := h.tied.ready h0
      cases hh with
      | none h1 => cases h1.symm.trans ho
      | quiet h1 => cases h1.symm.trans ho
      | post h1 =>
        cases h1.symm.trans ho
        simpa using ht
    | false =>
      obtain ⟨x, ho, ht⟩ := h.tied.notReady h0
      cases hh with
      | none h1 => cases h1.symm.trans ho
      | quiet h1 =>
        cases h1.symm.trans ho
        exact ht
      | post h1 => cases h1.symm.trans ho

theorem Inv.next_ne_error (h : Inv file c) (j : T ⊕ Bool) (e : Abort) : next c j ≠ .error e := by
  intro hn
  rcases h.sync.next_error hn with ⟨t, a, l, -, -, ha⟩ | ⟨ready, -, hi⟩
  · cases ha
  · by_cases h0 : c.shared.data.consoleInput.polls = 0
    · have ho : interrupt ready c.shared.data = .ok none := by simp [interrupt, h0]
      cases ho.symm.trans hi
    · cases ready with
      | true =>
        obtain ⟨x, ho, -⟩ := h.tied.ready h0
        cases ho.symm.trans hi
      | false =>
        obtain ⟨x, ho, -⟩ := h.tied.notReady h0
        cases ho.symm.trans hi

omit [DecidableEq T] in
theorem takes_of_place (hp : Sync.place r ≠ none) : takes r = false := by
  cases r with
  | nil => rfl
  | cons s r => cases s <;> first | rfl | exact absurd rfl hp

omit [DecidableEq T] in
/-- Calls are left that no thread can go on with, and no interrupt is to come: the last
character was `EOF`. -/
theorem Inv.dead (h : Inv file c) (hs : ∀ t, c.loc t = [] ∨ c.asleep t = true)
    (h0 : c.shared.data.consoleInput.polls = 0) (ht : c.loc t ≠ []) : Dead file c.shared.data := by
  have hn : ∀ u, takes (c.loc u) = false := fun u => by
    rcases hs u with hu | hu
    · rw [hu]
      rfl
    · exact takes_of_place (h.sync.waiting.asleepAt u hu)
  rcases h.tied.idle hn with ⟨hp, -⟩ | ⟨-, hv⟩ | ⟨hd, -⟩
  · exact absurd (hp.polls.symm.trans h0) (by decide)
  · have hsem : ∀ u, Sync.place (c.loc u) ≠ some (.inr ()) := by
      intro u hp
      have ha := (hs u).resolve_left fun e => by simp [e, Sync.place] at hp
      have hle := h.sync.waiting.stuck hs ha hp
      have h1 : (Sync.semOf c.shared (.inr ())).value = 1 := hv
      omega
    have hlock := h.sync.stuck_lock hs (l := ()) fun u hp =>
      Sync.status_of_place hp fun _ => hsem u
    have hp := h.sync.waiting.asleepAt t ((hs t).resolve_left ht)
    cases hq : Sync.place (c.loc t) with
    | none => exact absurd hq hp
    | some q =>
      cases q with
      | inl l => exact absurd hq (hlock t)
      | inr k => exact absurd hq (hsem t)
  · exact hd

/-! ## What console input is for -/

/-- Calls return the bytes of the file in order, no `ASSERT` fails, and a call that
cannot go on, with no interrupt to come, is made at the end of the file. -/
structure Delivers (file : List Byte) (c : Config T) : Prop where
  order : ∀ n x, c.shared.data.got[n]? = some x → n < file.length → file[n]? = some x.2
  safe : ∀ j e, next c j ≠ .error e
  returns : (∀ t, c.loc t = [] ∨ c.asleep t = true) → c.shared.data.consoleInput.polls = 0 →
    ∀ t, c.loc t ≠ [] → file.length ≤ c.shared.data.got.length

/-- No byte but the last is `EOF` as a `char`. -/
def NoEof (file : List Byte) : Prop := ∀ i, i + 1 < file.length → file[i]? ≠ some 0xFF

theorem eq_of_eof {b : Byte} (h : b.toInt = eof) : b = 0xFF := by
  rw [← BitVec.ofInt_toInt (x := b), h]
  rfl

theorem getElem?_stream {i : Nat} (h : i < file.length) : (stream file)[i]? = file[i]? :=
  List.getElem?_append_left h

theorem Inv.delivers (h : Inv file c) (hf : NoEof file) : Delivers file c where
  order n x hx hn := by
    obtain ⟨r, hr⟩ := h.tied.order
    have hl : n < (c.shared.data.got.map Prod.snd).length := by
      rw [List.length_map]
      exact (List.getElem?_eq_some_iff.mp hx).1
    rw [← getElem?_stream hn, ← hr, List.getElem?_append_left hl, List.getElem?_map, hx]
    rfl
  safe := h.next_ne_error
  returns hs h0 t ht := by
    obtain ⟨-, k, b, hk, hb, he⟩ := h.dead hs h0 ht
    by_contra hlt
    have hk1 : k + 1 < file.length := by omega
    rw [getElem?_stream (by omega), eq_of_eof he] at hb
    exact hf k hk1 hb

end

/-- The runs of threads that make these calls. -/
def system [DecidableEq T] (file : List Byte) (calls : T → Nat) : System (Config T) (T ⊕ Bool) :=
  .ofFun (start file calls) next

theorem reachable_inv [DecidableEq T] {file : List Byte} {calls : T → Nat} {c : Config T}
    (h : (system file calls).Reachable c) : Inv file c := by
  refine h.invariant (I := Inv file) ?_ ?_
  · rintro _ rfl
    exact inv_start file calls
  · intro s j s' hi hs
    cases j with
    | inl t => exact hi.next_thread hs
    | inr ready => exact hi.next_interrupt hs

/-! ## A byte that is taken for the end -/

section
variable [DecidableEq T] {t : T} {file : List Byte}

/-- One thread is between two calls, and all others are done. -/
def solo (t : T) (d : SynchConsoleInput T) (r : List GetCharStmt) : Config T :=
  ⟨⟨fun _ => .new, fun _ => .new 0, d⟩, Function.update (fun _ => []) t r, fun _ => false⟩

omit [DecidableEq T] in
theorem update_unit {α : Type} (f : Unit → α) (x : α) : Function.update f () x = fun _ => x :=
  funext fun _ => Function.update_self ..

/-- A call, with the interrupt that it waits for. -/
theorem solo_call {d : SynchConsoleInput T} {x : ConsoleInput} (r : List GetCharStmt)
    (hp : d.consoleInput.polls ≠ 0) (hx : d.consoleInput.callBack true = .ok (x, true)) :
    [.inl t, .inl t, .inr true, .inl t, .inl t, .inl t, .inl t].foldlM next (solo t d (getChar ++ r)) =
      .ok (solo t ⟨x.getChar.1, d.got ++ [(t, x.getChar.2)]⟩ r) := by
  simp [solo, next, Sync.next, Framework.Threads.next, getChar, Sync.acquire, Sync.release, Sync.exec,
    Lock.acquireP, Lock.new, Semaphore.p, Semaphore.new, Sync.setLock, Sync.setSem, update_unit,
    Lock.acquireSet, interrupt, hp, hx, Semaphore.v, act, Lock.releaseCheck, assert, Lock.isHeldBy,
    Lock.releaseV, Threads.Effect.apply]

/-- A call that sleeps. -/
def asleepIn (t : T) (d : SynchConsoleInput T) (r : List GetCharStmt) : Config T :=
  ⟨⟨fun _ => ⟨some t, 0, []⟩, fun _ => ⟨0, [t]⟩, d⟩,
    Function.update (fun _ => []) t (.p () :: .act () :: Sync.release () ++ r),
    Function.update (fun _ => false) t true⟩

theorem solo_sleep (d : SynchConsoleInput T) (r : List GetCharStmt) :
    [.inl t, .inl t, .inl t].foldlM next (solo t d (getChar ++ r)) = .ok (asleepIn t d r) := by
  simp [solo, next, Sync.next, Framework.Threads.next, getChar, Sync.acquire, Sync.release, Sync.exec,
    Lock.acquireP, Lock.new, Semaphore.p, Semaphore.new, Sync.setLock, Sync.setSem, update_unit,
    Lock.acquireSet, NList.append, assert, Threads.Effect.apply, asleepIn]

/-- After the first `k` calls of `n`. -/
def after (t : T) (file : List Byte) (n k : Nat) : Config T :=
  solo t ⟨⟨BitVec.ofInt 8 eof, 1, file.drop k⟩, (file.take k).map (Prod.mk t)⟩
    (List.replicate (n - k) getChar).flatten

theorem start_eq_after (t : T) (file : List Byte) (n : Nat) :
    start file (Function.update (fun _ => 0) t n) = after t file n 0 := by
  simp only [start, Sync.start, after, solo, ConsoleInput.new, List.drop_zero, List.take_zero,
    List.map_nil, Nat.sub_zero]
  congr 1
  funext u
  rw [Function.update_apply, Function.update_apply]
  split <;> rfl

/-- The calls up to a byte that is taken for the end. -/
theorem reachable_after {n k : Nat} (hn : k ≤ n) (hk : k ≤ file.length)
    (hf : ∀ i < k, file[i]? ≠ some 0xFF) :
    (system file (Function.update (fun _ => 0) t n)).Reachable (after t file n k) := by
  induction k with
  | zero => exact .init (start_eq_after t file n).symm
  | succ k ih =>
    have hr := ih (by omega) (by omega) fun i hi => hf i (by omega)
    have hlt : k < file.length := by omega
    have hb : file[k] ≠ 0xFF := fun e => hf k (by omega) (by rw [List.getElem?_eq_getElem hlt, e])
    rw [after, show n - k = n - (k + 1) + 1 by omega, List.replicate_succ, List.flatten_cons] at hr
    have h1 := System.reachable_foldlM hr
      (solo_call (x := ⟨file[k], 0, file.drop (k + 1)⟩) _ Nat.one_ne_zero (by
        rw [List.drop_eq_getElem_cons hlt]
        rfl))
    have he : (file[k]).toInt ≠ eof := fun e => hb (eq_of_eof e)
    have hg : (⟨file[k], 0, file.drop (k + 1)⟩ : ConsoleInput).getChar =
        (⟨BitVec.ofInt 8 eof, 1, file.drop (k + 1)⟩, file[k]) := by
      simp [ConsoleInput.getChar, he]
    have ht : (file.take (k + 1)).map (Prod.mk t) =
        (file.take k).map (Prod.mk t) ++ [(t, file[k])] := by
      rw [List.take_add_one, List.getElem?_eq_getElem hlt, List.map_append]
      rfl
    rw [hg, ← ht] at h1
    exact h1

/-- A byte that is taken for the end, with one more behind it: the call for that one
sleeps and no interrupt will come. -/
theorem reachable_asleep {k : Nat} (hk : k + 1 < file.length) (hb : file[k]? = some 0xFF)
    (hf : ∀ i < k, file[i]? ≠ some 0xFF) :
    ∃ d r, d.consoleInput.polls = 0 ∧ d.got.length = k + 1 ∧
      (system file (Function.update (fun _ => 0) t file.length)).Reachable (asleepIn t d r) := by
  have hlt : k < file.length := by omega
  have hr := reachable_after (t := t) (n := file.length) (by omega) (by omega) hf
  have hget : file[k] = 0xFF := by
    rw [List.getElem?_eq_getElem hlt] at hb
    exact Option.some.inj hb
  rw [after, show file.length - k = file.length - (k + 2) + 1 + 1 by omega, List.replicate_succ,
    List.flatten_cons] at hr
  have h1 := System.reachable_foldlM hr
    (solo_call (x := ⟨0xFF, 0, file.drop (k + 1)⟩) _ Nat.one_ne_zero (by
      rw [List.drop_eq_getElem_cons hlt, hget]
      rfl))
  rw [List.replicate_succ, List.flatten_cons] at h1
  refine ⟨_, _, ?_, ?_, System.reachable_foldlM h1 (solo_sleep _ _)⟩
  · rfl
  · simp
    omega

end

/-- Threads get all bytes of the file in every run just when none but the last is
`0xFF`. -/
theorem delivers_iff [DecidableEq T] [Nonempty T] (file : List Byte) :
    (∀ (calls : T → Nat) (c : Config T), (system file calls).Reachable c → Delivers file c) ↔
      NoEof file := by
  constructor
  · intro h
    by_contra hn
    obtain ⟨i, hi⟩ := not_forall.mp hn
    obtain ⟨hi, hb⟩ := Classical.not_imp.mp hi
    rw [not_not] at hb
    -- the first byte that is taken for the end
    have hex : ∃ i : Nat, file[i]? = some 0xFF := ⟨i, hb⟩
    obtain ⟨t⟩ := ‹Nonempty T›
    have hle : Nat.find hex ≤ i := Nat.find_min' hex hb
    obtain ⟨d, r, h0, hl, hr⟩ := reachable_asleep (t := t) (k := Nat.find hex) (by omega)
      (Nat.find_spec hex) fun j hj => Nat.find_min hex hj
    have hd := (h _ _ hr).returns (fun u => ?_) h0 t (by simp [asleepIn])
    · have : file.length ≤ d.got.length := hd
      omega
    · simp only [asleepIn, Function.update_apply]
      split
      · exact .inr rfl
      · exact .inl rfl
  · intro hf calls c h
    exact (reachable_inv h).delivers hf

/-- A file whose last byte is `0xFF`. -/
theorem delivers_iff_last : NoEof [65, 0xFF] ∧ ∀ (calls : Unit → Nat) (c : Config Unit),
    (system [65, 0xFF] calls).Reachable c → Delivers [65, 0xFF] c := by
  have hf : NoEof [65, 0xFF] := by
    intro i hi
    have e : i = 0 := by
      simp only [List.length_cons, List.length_nil] at hi
      omega
    subst e
    decide
  exact ⟨hf, (delivers_iff [65, 0xFF]).mpr hf⟩

/-- The byte `0xFF` is returned, and the one behind it never. -/
theorem not_delivers : ¬ ∀ (file : List Byte) (calls : Unit → Nat) (c : Config Unit),
    (system file calls).Reachable c → Delivers file c := by
  intro h
  obtain ⟨c, hr, hp⟩ := System.exists_reachable (start [0xFF, 65] fun _ : Unit => 2) next
    [.inl (), .inl (), .inr true, .inl (), .inl (), .inl (), .inl (), .inl (), .inl (), .inl ()]
    (p := fun c => c.asleep () && decide (c.shared.data.consoleInput.polls = 0 ∧
      c.shared.data.got.length = 1 ∧ c.loc () ≠ [])) (by decide +kernel)
  simp only [Bool.and_eq_true, decide_eq_true_eq] at hp
  obtain ⟨ha, h0, hl, hne⟩ := hp
  have := (h _ _ c hr).returns (fun _ => .inr ha) h0 () hne
  rw [hl] at this
  exact absurd this (by decide)

end Nachos.SynchConsoleInput

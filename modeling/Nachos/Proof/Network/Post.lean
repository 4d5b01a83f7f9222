import Nachos.Proof.Network.Wire
import Nachos.Proof.Threads.Monitor
import Nachos.Proof.Threads.Sync

/-!
# The post office delivers what it reads

For any threads that send and receive, and any order of their steps, those of the
postal worker and the interrupts (`reachable_delivery`): the mails that were handed
out from a box, those in it and those on the way to it are the datagrams for it
that were read from the socket, in order, each as it was sent. The worker never
finds the device's buffer empty.

`Inv` splits what was sent: mails that the worker has taken, the one in the buffer,
and those that are still at the socket.
-/

namespace Nachos.PostOffice

open Framework Framework.Threads

variable {T : Type}

/-! ## The code of the threads -/

/-- The mail that the statement puts in the box `i`. -/
def carriedBy (i : Nat) : PostStmt T → Option Message
  | .box j (.caller (.append m)) => if j = i then some m.message else none
  | _ => none

/-- The mails that the worker carries to the box `i`. -/
def carried (i : Nat) (r : List (PostStmt T)) : List Message := r.filterMap (carriedBy i)

/-- A statement of a mailbox that does not append. -/
def Keeps : Stmt T (SynchListStmt Mail) → Prop
  | .caller (.append _) => False
  | _ => True

/-- A statement of another thread than the worker, with valid mails. -/
def Plain (host : BitVec 32) (numBoxes : Nat) : PostStmt T → Prop
  | .sync (.p none) | .sync (.v none) | .deliver | .loop => False
  | .sync (.act (.send x)) => x.Valid host numBoxes
  | .box _ s => Keeps s
  | _ => True

/-- Where the worker is: at the `P`, behind it, or in a mailbox. -/
inductive Worker : List (PostStmt T) → Prop
  | waits : Worker [.sync (.p none), .deliver, .loop]
  | takes : Worker [.deliver, .loop]
  | puts (i : Nat) (l : List (Stmt T (SynchListStmt Mail))) : Worker (l.map (.box i) ++ [.loop])

/-- Whether the worker has passed the `P`. -/
def taking : List (PostStmt T) → Int
  | .deliver :: _ => 1
  | _ => 0

section
variable {host : BitVec 32} {numBoxes : Nat} {i j : Nat} {r l : List (PostStmt T)}

theorem carried_append : carried i (l ++ r) = carried i l ++ carried i r := List.filterMap_append

theorem carriedBy_keeps {s : Stmt T (SynchListStmt Mail)} (h : Keeps s) :
    carriedBy i (.box j s) = none := by
  unfold carriedBy
  split
  · rename_i heq
    cases heq
    exact h.elim
  · rfl

theorem carried_keeps {l : List (Stmt T (SynchListStmt Mail))} (h : ∀ s ∈ l, Keeps s) :
    carried i (l.map (.box j)) = [] := by
  refine List.filterMap_eq_nil_iff.mpr fun s hs => ?_
  obtain ⟨x, hx, rfl⟩ := List.mem_map.mp hs
  exact carriedBy_keeps (h x hx)

theorem plain_code {c : PostCall} (h : ∀ x, c = .send x → x.Valid host numBoxes) :
    ∀ s ∈ code (T := T) c, Plain host numBoxes s := by
  intro s hs
  cases c with
  | receive i =>
    obtain rfl := List.mem_singleton.mp hs
    trivial
  | send x =>
    have hv := h x rfl
    simp only [code, send, Sync.acquire, Sync.release, List.map_cons, List.map_nil,
      List.cons_append, List.nil_append, List.mem_cons, List.not_mem_nil, or_false] at hs
    rcases hs with rfl | rfl | rfl | rfl | rfl | rfl | rfl
    all_goals first | exact hv | trivial

end

/-! ## A statement of a mailbox -/

section
variable [DecidableEq T] {t : T} {m m' : Monitor T (List Mail)} {s : Stmt T (SynchListStmt Mail)}
  {l : List (Stmt T (SynchListStmt Mail))} {e : Effect T}

omit [DecidableEq T] in
theorem keeps_code (k : Call (SynchListStmt Mail)) (hk : ∀ m, k ≠ .caller (.append m)) :
    ∀ s ∈ Call.code (T := T) k, Keeps s := by
  intro s hs
  cases k with
  | caller a =>
    obtain rfl := List.mem_singleton.mp hs
    cases a with
    | append m => exact absurd rfl (hk m)
    | isEmpty => trivial
    | removeFront => trivial
  | wait =>
    simp only [Call.code, Condition.wait, Lock.release, Lock.acquire, List.cons_append,
      List.nil_append, List.mem_cons, List.not_mem_nil, or_false] at hs
    rcases hs with rfl | rfl | rfl | rfl | rfl | rfl | rfl | rfl | rfl <;> trivial
  | signal =>
    simp only [Call.code, Condition.signal, List.mem_cons, List.not_mem_nil, or_false] at hs
    rcases hs with rfl | rfl <;> trivial
  | broadcast =>
    simp only [Call.code, Condition.broadcast, List.mem_cons, List.not_mem_nil, or_false] at hs
    obtain rfl := hs
    trivial

omit [DecidableEq T] in
theorem keeps_of_ne (h : ∀ a, s ≠ .caller a) : Keeps s := by
  cases s with
  | caller a => exact absurd rfl (h a)
  | _ => trivial

/-- The statements of the lock and the condition variable. -/
theorem exec_other (hs : ∀ a, s ≠ .caller a) (h : m.exec SynchList.step t [s] = .ok (m', l, e)) :
    m'.data = m.data ∧ ∀ x ∈ l, Keeps x := by
  have hd := Monitor.did_exec h
  generalize Monitor.event t m [s] = ev at hd
  cases ev with
  | none =>
    obtain ⟨hm, hq⟩ := hd
    refine ⟨hm, ?_⟩
    cases hq with
    | stay =>
      rintro x hx
      obtain rfl := List.mem_singleton.mp hx
      exact keeps_of_ne hs
    | remove u => simp [Keeps]
    | again => simp [Condition.signal, Keeps]
    | _ => simp
  | some ev =>
    cases ev with
    | found u =>
      obtain ⟨-, hm, r, hr, rfl⟩ := hd
      cases hr
      exact ⟨hm, by simp [Keeps]⟩
    | broadcast u =>
      obtain ⟨-, hm, r, hr, rfl⟩ := hd
      cases hr
      exact ⟨hm, by simp [Keeps]⟩
    | other o =>
      obtain ⟨-, -, r, ks, hr, -⟩ := hd
      cases hr
      exact absurd rfl (hs _)
    | _ =>
      obtain ⟨-, hm, hr⟩ := hd
      cases hr
      exact ⟨hm, by simp⟩

/-- What a statement does to the mails in the box. -/
theorem exec_box (h : m.exec SynchList.step t [s] = .ok (m', l, e)) :
    (∀ x ∈ l, Keeps x) ∧
      ((∃ a, s = .caller (.append a) ∧ m'.data = m.data ++ [a]) ∨
        (s = .caller .removeFront ∧ ∃ a, m.data = a :: m'.data) ∨
        Keeps s ∧ s ≠ .caller .removeFront ∧ m'.data = m.data) := by
  cases s with
  | caller a =>
    obtain ⟨⟨d, calls⟩, hd, h⟩ := bind_eq_ok.mp h
    cases h
    cases a with
    | append a =>
      obtain ⟨q, hq, hd⟩ := bind_eq_ok.mp hd
      cases hd
      refine ⟨by simp, .inl ⟨a, rfl, (NList.append_eq_ok.mp hq).2⟩⟩
    | isEmpty =>
      cases hd
      refine ⟨fun x hx => ?_, .inr (.inr ⟨trivial, by simp, rfl⟩)⟩
      rw [List.append_nil] at hx
      obtain ⟨k, hk, hx⟩ := List.mem_flatMap.mp hx
      refine keeps_code k (fun a e => ?_) x hx
      subst e
      split at hk <;> simp at hk
    | removeFront =>
      obtain ⟨⟨a, q⟩, hq, hd⟩ := bind_eq_ok.mp hd
      cases hd
      refine ⟨by simp, .inr (.inl ⟨rfl, a, ?_⟩)⟩
      cases hm : m.data with
      | nil => simp [hm, NList.removeFront] at hq
      | cons b q' =>
        simp only [hm, NList.removeFront, Except.ok.injEq, Prod.mk.injEq] at hq
        rw [hq.1, hq.2]
  | _ =>
    obtain ⟨hm, hl⟩ := exec_other (by simp) h
    exact ⟨hl, .inr (.inr ⟨trivial, by simp, hm⟩)⟩

end

/-! ## Mails -/

/-- The mails handed out from the box `i`. -/
def handed (i : Nat) (l : List (Nat × Message)) : List Message :=
  (l.filter fun x => x.1 = i).map Prod.snd

/-- A mail for the box `i`. -/
def forBox (i : Nat) (m : Message) : Bool := m.mailHdr.to_.toNat = i

/-- The mails that the worker has taken, by box: handed out, in the box, or carried to
it. -/
def Account (done : List Send) (p : PostOffice T) (r : List (PostStmt T)) : Prop :=
  ∀ i, (done.map Send.message).filter (forBox i) =
    handed i p.got ++ (p.boxes i).data.map Mail.message ++ carried i r

/-- What the device's buffer holds. -/
def Slot (n : NetworkInput) : Option Send → Prop
  | none => n.inHdr.length = 0
  | some x => Holds n x

/-- What was sent: `done` the worker has taken, `cur` is in the device's buffer and
`rest` at the socket. -/
structure Inv (host : BitVec 32) (numBoxes : Nat) (worker : T) (done : List Send) (cur : Option Send)
    (rest : List Send) (p : PostOffice T) (loc : T → List (PostStmt T)) : Prop where
  sent : p.sync.data.sent = done ++ cur.toList ++ rest
  read : List.Forall₂ Wire (done ++ cur.toList) p.sync.data.input.read
  socket : List.Forall₂ Wire rest p.sync.data.input.socket
  valid : ∀ x ∈ p.sync.data.sent, x.Valid host numBoxes ∧ x.pktHdr.to_ = host
  slot : Slot p.sync.data.input cur
  nonneg : 0 ≤ Sync.values p.sync none
  avail : Sync.values p.sync none + taking (loc worker) = cur.toList.length
  account : Account done p (loc worker)
  place : Worker (loc worker)
  others : ∀ t ≠ worker, ∀ s ∈ loc t, Plain host numBoxes s

section
variable [DecidableEq T] {host : BitVec 32} {numBoxes : Nat} {worker t : T} {done rest : List Send}
  {cur : Option Send} {p p' : PostOffice T} {loc : T → List (PostStmt T)} {c r : List (PostStmt T)}
  {e : Effect T} {x : Chance}

omit [DecidableEq T] in
theorem handed_append (i : Nat) (l l' : List (Nat × Message)) :
    handed i (l ++ l') = handed i l ++ handed i l' := by
  rw [handed, List.filter_append, List.map_append]
  rfl

omit [DecidableEq T] in
theorem carried_cons (i : Nat) (s : PostStmt T) (r : List (PostStmt T)) :
    carried i (s :: r) = (carriedBy i s).toList ++ carried i r := by
  rw [carried, List.filterMap_cons]
  cases carriedBy i s <;> rfl

/-- A statement of a box, of the worker or of another thread. -/
theorem Account.box {i : Nat} {s : Stmt T (SynchListStmt Mail)}
    {m : Monitor T (List Mail)} {l : List (Stmt T (SynchListStmt Mail))} {o : List (Nat × Message)}
    (ha : Account done p (.box i s :: c))
    (ho : handOut i (p.boxes i).data s = .ok o)
    (hm : (p.boxes i).exec SynchList.step t [s] = .ok (m, l, e)) :
    Account done { p with boxes := Function.update p.boxes i m, got := p.got ++ o }
      (l.map (.box i) ++ c) := by
  obtain ⟨hl, hd⟩ := exec_box hm
  intro j
  rw [ha j, carried_append, carried_keeps hl, List.nil_append, carried_cons, handed_append]
  rcases hd with ⟨a, rfl, hd⟩ | ⟨rfl, a, hd⟩ | ⟨hk, hr, hd⟩
  · cases ho
    by_cases e : j = i
    · subst e
      simp [hd, carriedBy, handed]
    · simp [Function.update_of_ne e, carriedBy, handed, Ne.symm e]
  · simp only [handOut, hd] at ho
    obtain ⟨-, -, ho⟩ := bind_eq_ok.mp ho
    cases ho
    by_cases e : j = i
    · subst e
      simp [hd, carriedBy, handed]
    · simp [Function.update_of_ne e, carriedBy, handed, Ne.symm e]
  · have hnil : o = [] := by
      unfold handOut at ho
      split at ho
      · exact absurd rfl hr
      · exact (Except.ok.inj ho).symm
    subst hnil
    rw [carriedBy_keeps hk]
    by_cases e : j = i
    · subst e
      simp [hd, handed]
    · simp [Function.update_of_ne e, handed]

/-! ## Steps of other threads -/

/-- A step that does not touch the network. -/
theorem Inv.of_other (h : Inv host numBoxes worker done cur rest p loc) (ht : t ≠ worker)
    (hr : ∀ s ∈ r, Plain host numBoxes s) (hn : p'.sync.data = p.sync.data)
    (hv : Sync.values p'.sync none = Sync.values p.sync none) (ha : Account done p' (loc worker)) :
    Inv host numBoxes worker done cur rest p' (Function.update loc t r) := by
  have hw : Function.update loc t r worker = loc worker := Function.update_of_ne ht.symm _ _
  refine ⟨hn ▸ h.sent, hn ▸ h.read, hn ▸ h.socket, hn ▸ h.valid, hn ▸ h.slot, hv ▸ h.nonneg, ?_, ?_,
    ?_, ?_⟩
  · rw [hw, hv]
    exact h.avail
  · rw [hw]
    exact ha
  · rw [hw]
    exact h.place
  · intro u hu
    rw [Function.update_apply]
    split
    · exact hr
    · exact h.others u hu

omit [DecidableEq T] in
/-- What sending does to the network. -/
theorem Inv.act (h : Inv host numBoxes worker done cur rest p loc) {a : SendAct} {n : Network}
    (ha : act host x t p.sync.data a = .ok n)
    (hp : Plain (T := T) host numBoxes (.sync (.act a))) :
    n.buffer = p.sync.data.buffer ∧ n.input.inHdr = p.sync.data.input.inHdr ∧
      n.input.inbox = p.sync.data.input.inbox ∧ n.input.read = p.sync.data.input.read ∧
      ∃ more, n.sent = p.sync.data.sent ++ more ∧
        (∀ y ∈ more, y.Valid host numBoxes ∧ y.pktHdr.to_ = host) ∧
        List.Forall₂ Wire (rest ++ more) n.input.socket := by
  cases a with
  | check y =>
    obtain ⟨-, -, ha⟩ := bind_eq_ok.mp ha
    cases ha
    exact ⟨rfl, rfl, rfl, rfl, [], by simp, by simp, by simpa using h.socket⟩
  | send y =>
    have hv : y.Valid host numBoxes := hp
    obtain ⟨w, hw, ha⟩ := bind_eq_ok.mp ha
    simp only at ha
    split at ha
    · cases ha
      exact ⟨rfl, rfl, rfl, rfl, [], by simp, by simp, by simpa using h.socket⟩
    · rename_i hl
      cases ha
      have hto : y.pktHdr.to_ = host := by
        by_contra e
        exact hl (.inr e)
      refine ⟨rfl, rfl, rfl, rfl, [y], rfl, by simpa using ⟨hv, hto⟩, ?_⟩
      exact List.rel_append h.socket (.cons (wire_networkSend hv hw) .nil)

/-- A statement of a sender. -/
theorem Inv.sync (h : Inv host numBoxes worker done cur rest p loc) (ht : t ≠ worker)
    {s : SyncStmt (BitVec 32) (Option (BitVec 32)) SendAct} (hs : loc t = .sync s :: c)
    {m : Sync T (BitVec 32) (Option (BitVec 32)) Network}
    {l : List (SyncStmt (BitVec 32) (Option (BitVec 32)) SendAct)}
    (he : Sync.exec (PostOffice.act host x) t p.sync [s] = .ok (m, l, e)) :
    ∃ more, Inv host numBoxes worker done cur (rest ++ more) { p with sync := m }
      (Function.update loc t (l.map .sync ++ c)) := by
  have hp := h.others t ht
  rw [hs] at hp
  have hc : ∀ s ∈ c, Plain host numBoxes s := fun s hs => hp s (List.mem_cons_of_mem _ hs)
  have hhead : Plain (T := T) host numBoxes (.sync s) := hp _ List.mem_cons_self
  have hsame : ∀ m : Sync T (BitVec 32) (Option (BitVec 32)) Network, m.data = p.sync.data →
      Sync.values m none = Sync.values p.sync none → ∀ r, (∀ s ∈ r, Plain host numBoxes s) →
      ∃ more, Inv host numBoxes worker done cur (rest ++ more) { p with sync := m }
        (Function.update loc t r) := fun m hd hv r hr => by
    have : Inv host numBoxes worker done cur rest { p with sync := m } (Function.update loc t r) :=
      h.of_other ht hr hd hv h.account
    exact ⟨[], by simpa using this⟩
  have hdid := Sync.exec_did he
  generalize hd : m.data = d' at hdid
  generalize hv : Sync.values m = v' at hdid
  cases hdid with
  | stay => exact hsame m hd (by rw [hv]) _ (by simpa using ⟨hhead, hc⟩)
  | lock => exact hsame m hd (by rw [hv]) _ (by simpa using hc)
  | p =>
    rename_i k hk
    have hne : k ≠ none := by
      rintro rfl
      exact hhead.elim
    exact hsame m hd (by rw [hv, Function.update_of_ne (Ne.symm hne)]) _ (by simpa using hc)
  | v =>
    rename_i k
    have hne : k ≠ none := by
      rintro rfl
      exact hhead.elim
    exact hsame m hd (by rw [hv, Function.update_of_ne (Ne.symm hne)]) _ (by simpa using hc)
  | act =>
    rename_i a ha
    obtain ⟨-, h1, h2, h3, more, h4, h5, h6⟩ := h.act ha hhead
    subst hd
    have hw : Function.update loc t c worker = loc worker := Function.update_of_ne ht.symm _ _
    refine ⟨more, ?_, ?_, h6, ?_, ?_, hv ▸ h.nonneg, ?_, ?_, ?_, ?_⟩
    · rw [h4, h.sent]
      simp
    · rw [h3]
      exact h.read
    · intro y hy
      rw [h4] at hy
      rcases List.mem_append.mp hy with hy | hy
      · exact h.valid y hy
      · exact h5 y hy
    · have hsl := h.slot
      cases cur with
      | none => exact (congrArg _ h1).trans hsl
      | some y => exact ⟨h1.trans hsl.inHdr, h2 ▸ hsl.inbox⟩
    · simp only [List.map_nil, List.nil_append, hw, hv]
      exact h.avail
    · simp only [List.map_nil, List.nil_append, hw]
      exact h.account
    · simp only [List.map_nil, List.nil_append, hw]
      exact h.place
    · intro u hu
      simp only [List.map_nil, List.nil_append, Function.update_apply]
      split
      · exact hc
      · exact h.others u hu

/-- A statement of a mailbox. -/
theorem Inv.box (h : Inv host numBoxes worker done cur rest p loc) (ht : t ≠ worker) {i : Nat}
    {s : Stmt T (SynchListStmt Mail)} (hs : loc t = .box i s :: c) {m : Monitor T (List Mail)}
    {l : List (Stmt T (SynchListStmt Mail))} {o : List (Nat × Message)}
    (ho : handOut i (p.boxes i).data s = .ok o)
    (hm : (p.boxes i).exec SynchList.step t [s] = .ok (m, l, e)) :
    Inv host numBoxes worker done cur rest
      { p with boxes := Function.update p.boxes i m, got := p.got ++ o }
      (Function.update loc t (l.map (.box i) ++ c)) := by
  have hp := h.others t ht
  rw [hs] at hp
  have hk : Keeps s := hp _ List.mem_cons_self
  have hl := (exec_box hm).1
  refine h.of_other ht (fun y hy => ?_) rfl rfl ?_
  · rcases List.mem_append.mp hy with hy | hy
    · obtain ⟨z, hz, rfl⟩ := List.mem_map.mp hy
      exact hl z hz
    · exact hp y (List.mem_cons_of_mem _ hy)
  · -- the statement carries nothing, so it may stand in front of the worker's code
    have ha : Account done p (.box i s :: loc worker) := fun j => by
      rw [carried_cons, carriedBy_keeps hk]
      exact h.account j
    have := ha.box ho hm
    intro j
    rw [this j, carried_append, carried_keeps hl, List.nil_append]

omit [DecidableEq T] in
theorem plain_get (i : Nat) : ∀ s ∈ get (T := T) i, Plain host numBoxes s := by
  intro s hs
  simp only [get, critical, Lock.acquire, Lock.release, SynchList.removeFront, List.flatMap_cons,
    List.flatMap_nil, Call.code, List.map_cons, List.map_nil, List.cons_append, List.nil_append,
    List.append_nil, List.mem_cons, List.not_mem_nil, or_false] at hs
  rcases hs with rfl | rfl | rfl | rfl | rfl | rfl <;> trivial

/-- A step of a thread other than the worker. -/
theorem Inv.exec_other (h : Inv host numBoxes worker done cur rest p loc) (ht : t ≠ worker)
    (he : exec host numBoxes x t p (loc t) = .ok (p', r, e)) :
    ∃ more, Inv host numBoxes worker done cur (rest ++ more) p' (Function.update loc t r) := by
  have hp := h.others t ht
  cases hs : loc t with
  | nil =>
    rw [hs] at he
    cases he
    exact ⟨[], by simpa using h.of_other ht (by simp) rfl rfl h.account⟩
  | cons s c =>
    rw [hs] at he hp
    cases s with
    | sync s =>
      obtain ⟨⟨m, l, e'⟩, hm, he⟩ := bind_eq_ok.mp he
      cases he
      exact h.sync ht hs hm
    | box i s =>
      obtain ⟨o, ho, he⟩ := bind_eq_ok.mp he
      obtain ⟨⟨m, l, e'⟩, hm, he⟩ := bind_eq_ok.mp he
      cases he
      exact ⟨[], by simpa using h.box ht hs ho hm⟩
    | deliver => exact (hp _ List.mem_cons_self).elim
    | loop => exact (hp _ List.mem_cons_self).elim
    | receive i =>
      obtain ⟨-, -, he⟩ := bind_eq_ok.mp he
      cases he
      refine ⟨[], ?_⟩
      rw [List.append_nil]
      refine h.of_other ht (fun y hy => ?_) rfl rfl h.account
      rcases List.mem_append.mp hy with hy | hy
      · exact plain_get i.toNat y hy
      · exact hp y (List.mem_cons_of_mem _ hy)

/-! ## Steps of the worker -/

/-- A step of the worker that does not touch the device. -/
theorem Inv.of_worker (h : Inv host numBoxes worker done cur rest p loc)
    (hn : p'.sync.data = p.sync.data) (h0 : 0 ≤ Sync.values p'.sync none)
    (hv : Sync.values p'.sync none + taking r = Sync.values p.sync none + taking (loc worker))
    (ha : Account done p' r) (hw : Worker r) :
    Inv host numBoxes worker done cur rest p' (Function.update loc worker r) := by
  refine ⟨hn ▸ h.sent, hn ▸ h.read, hn ▸ h.socket, hn ▸ h.valid, hn ▸ h.slot, h0, ?_, ?_, ?_, ?_⟩
  · rw [Function.update_self, hv]
    exact h.avail
  · rw [Function.update_self]
    exact ha
  · rw [Function.update_self]
    exact hw
  · intro u hu
    rw [Function.update_of_ne hu]
    exact h.others u hu

omit [DecidableEq T] in
theorem taking_puts (i : Nat) (l : List (Stmt T (SynchListStmt Mail))) :
    taking (l.map (.box i) ++ [.loop]) = 0 := by
  cases l <;> rfl

omit [DecidableEq T] in
theorem carried_put (i j : Nat) (m : Mail) :
    carried j (put (T := T) i m) = if i = j then [m.message] else [] := by
  simp only [put, critical, Lock.acquire, Lock.release, SynchList.append, List.flatMap_cons,
    List.flatMap_nil, Call.code, Condition.signal, List.map_cons, List.map_nil, List.cons_append,
    List.nil_append, List.append_nil, carried, List.filterMap_cons, carriedBy, List.filterMap_nil]
  split <;> simp_all

/-- The worker waits for a packet, or goes on. -/
theorem Inv.waits (h : Inv host numBoxes worker done cur rest p loc)
    (hs : loc worker = [.sync (.p none), .deliver, .loop])
    (he : exec host numBoxes x worker p (loc worker) = .ok (p', r, e)) :
    Inv host numBoxes worker done cur rest p' (Function.update loc worker r) := by
  rw [hs] at he
  obtain ⟨⟨m, l, e'⟩, hm, he⟩ := bind_eq_ok.mp he
  cases he
  have ha := h.account
  rw [hs] at ha
  have hdid := Sync.exec_did hm
  generalize hd : m.data = d' at hdid
  generalize hv : Sync.values m = v' at hdid
  cases hdid with
  | stay => exact h.of_worker hd (hv ▸ h.nonneg) (by rw [hv, hs]; rfl) ha .waits
  | p =>
    rename_i hk
    have h0 := h.nonneg
    refine h.of_worker hd ?_ ?_ ha .takes
    · simp only [hv, Function.update_self]
      omega
    · simp [hv, hs, taking]
  | lock =>
    rename_i hl
    exact hl.elim

/-- The worker is in a mailbox, or at the end of its loop. -/
theorem Inv.puts (h : Inv host numBoxes worker done cur rest p loc) {i : Nat}
    {l : List (Stmt T (SynchListStmt Mail))} (hs : loc worker = l.map (.box i) ++ [.loop])
    (he : exec host numBoxes x worker p (loc worker) = .ok (p', r, e)) :
    Inv host numBoxes worker done cur rest p' (Function.update loc worker r) := by
  have ha := h.account
  rw [hs] at ha he
  cases l with
  | nil =>
    cases he
    exact h.of_worker rfl h.nonneg (by rw [hs]; rfl) ha .waits
  | cons s l =>
    obtain ⟨o, ho, he⟩ := bind_eq_ok.mp he
    obtain ⟨⟨m, k, e'⟩, hm, he⟩ := bind_eq_ok.mp he
    cases he
    have hr : k.map (PostStmt.box i) ++ List.append (l.map (.box i)) [.loop] =
        (k ++ l).map (.box i) ++ [.loop] := by
      rw [List.map_append, List.append_assoc]
      rfl
    refine h.of_worker rfl h.nonneg ?_ (ha.box ho hm) ?_
    · rw [hr, taking_puts, hs, taking_puts]
    · rw [hr]
      exact .puts i (k ++ l)

omit [DecidableEq T] in
/-- The worker finds a packet. -/
theorem Inv.cur_of_takes (h : Inv host numBoxes worker done cur rest p loc)
    (hs : loc worker = .deliver :: c) : ∃ y, cur = some y := by
  cases cur with
  | none =>
    have h1 := h.avail
    have h2 := h.nonneg
    rw [hs] at h1
    simp only [taking, Option.toList_none, List.length_nil] at h1
    omega
  | some y => exact ⟨y, rfl⟩

omit [DecidableEq T] in
/-- It is put in its box. -/
theorem deliver_full {y : Send} (hh : Holds p.sync.data.input y) (hv : y.Valid host numBoxes)
    (hto : y.pktHdr.to_ = host) : ∃ b, p.deliver numBoxes = .ok
      ({ p with
        sync := { p.sync with
          data := { p.sync.data with
            input := { p.sync.data.input with inHdr := { p.sync.data.input.inHdr with length := 0 } }
            buffer := b } }
        mails := p.mails + 1 }, put y.mailHdr.to_.toNat ⟨p.mails, y.message⟩) := by
  obtain ⟨b, hb⟩ := receive_full hh hv p.sync.data.buffer
  have hm : MailHeader.decode (y.buffer ++ b) = y.mailHdr := by
    rw [Send.buffer, List.append_assoc, MailHeader.decode_encode]
  have hu := unpack_buffer hv b
  simp only [unpack, hm] at hu
  refine ⟨y.buffer ++ b, ?_⟩
  simp only [PostOffice.deliver, hb, hm, assert_of (hv.box hto), assert_of hv.length, ok_bind, Mail.new,
    pure_eq_ok, hu]

/-- The worker takes the packet from the device. -/
theorem Inv.takes (h : Inv host numBoxes worker done cur rest p loc)
    (hs : loc worker = [.deliver, .loop]) : ∃ y p' r, cur = some y ∧
      exec host numBoxes x worker p (loc worker) = .ok (p', r, .go) ∧
      Inv host numBoxes worker (done ++ [y]) none rest p' (Function.update loc worker r) := by
  obtain ⟨y, rfl⟩ := h.cur_of_takes hs
  have hh : Holds p.sync.data.input y := h.slot
  obtain ⟨hv, hto⟩ := h.valid y (by rw [h.sent]; simp)
  obtain ⟨b, hb⟩ := deliver_full (p := p) hh hv hto
  have havail := h.avail
  have hacc := h.account
  rw [hs] at havail hacc
  refine ⟨y, _, _, rfl, by rw [hs, exec, hb]; rfl, ?_⟩
  refine ⟨by simpa using h.sent, by simpa using h.read, h.socket, h.valid, rfl, h.nonneg, ?_, ?_, ?_, ?_⟩
  · simp only [Function.update_self, put, taking_puts]
    simp only [taking, Option.toList_some, List.length_singleton] at havail
    show Sync.values p.sync none + 0 = 0
    omega
  · intro j
    rw [Function.update_self, carried_append, carried_put, List.map_append, List.filter_append, hacc j]
    have hl : carried j [PostStmt.deliver (T := T), .loop] = [] := rfl
    have hl' : carried j [PostStmt.loop (T := T)] = [] := rfl
    have hf : ([y].map Send.message).filter (forBox j) =
        if y.mailHdr.to_.toNat = j then [y.message] else [] := by
      by_cases e : y.mailHdr.to_.toNat = j <;> simp [forBox, Send.message, e]
    rw [hf, hl, hl', List.append_nil, List.append_nil]
  · rw [Function.update_self]
    exact .puts _ _
  · intro u hu
    rw [Function.update_of_ne hu]
    exact h.others u hu

/-- A step of a thread. -/
theorem Inv.run (h : Inv host numBoxes worker done cur rest p loc)
    (he : exec host numBoxes x t p (loc t) = .ok (p', r, e)) :
    ∃ done cur rest, Inv host numBoxes worker done cur rest p' (Function.update loc t r) := by
  by_cases ht : t = worker
  · subst ht
    generalize hl : loc t = l
    have hp := h.place
    rw [hl] at hp
    cases hp with
    | waits => exact ⟨_, _, _, h.waits hl he⟩
    | takes =>
      obtain ⟨y, p₁, r₁, -, h1, h2⟩ := h.takes (x := x) hl
      cases h1.symm.trans he
      exact ⟨_, _, _, h2⟩
    | puts i l => exact ⟨_, _, _, h.puts hl he⟩
  · obtain ⟨more, hi⟩ := h.exec_other ht he
    exact ⟨_, _, _, hi⟩

end

/-! ## Interrupts and runs -/

section
variable [DecidableEq T] {host : BitVec 32} {numBoxes : Nat} {worker : T} {done rest : List Send}
  {cur : Option Send} {c c' : Config T}

omit [DecidableEq T] in
/-- The device looks for a packet. -/
theorem callBack_cases {n : NetworkInput} (hs : Slot n cur) (hk : List.Forall₂ Wire rest n.socket)
    (hv : ∀ x ∈ rest, x.Valid host numBoxes ∧ x.pktHdr.to_ = host)
    (hc : ∀ y, cur = some y → y.Valid host numBoxes) :
    n.callBack host = .ok (n, false) ∨ cur = none ∧ ∃ y rest' n' w, rest = y :: rest' ∧
      n.callBack host = .ok (n', true) ∧ Holds n' y ∧ Wire y w ∧ n'.read = n.read ++ [w] ∧
      List.Forall₂ Wire rest' n'.socket := by
  cases cur with
  | some y =>
    refine .inl ?_
    have hh : Holds n y := hs
    rw [NetworkInput.callBack, if_pos (by rw [hh.inHdr]; exact (hc y rfl).header_ne)]
    rfl
  | none =>
    have h0 : n.inHdr.length = 0 := hs
    cases hsock : n.socket with
    | nil =>
      refine .inl ?_
      rw [NetworkInput.callBack, if_neg (by simp [h0]), hsock]
      rfl
    | cons w socket =>
      rw [hsock] at hk
      cases hk with
      | cons hw hk =>
        rename_i y rest'
        obtain ⟨hvy, hto⟩ := hv y List.mem_cons_self
        obtain ⟨n', h1, h2, h3, h4⟩ := callBack_full h0 hsock hvy hto hw
        exact .inr ⟨rfl, y, rest', n', w, rfl, h1, h2, hw, h4, h3 ▸ hk⟩

omit [DecidableEq T] in
theorem Inv.valid_rest (h : Inv host numBoxes worker done cur rest c.shared c.loc) :
    (∀ x ∈ rest, x.Valid host numBoxes ∧ x.pktHdr.to_ = host) ∧
      ∀ y, cur = some y → y.Valid host numBoxes := by
  have hv := h.valid
  rw [h.sent] at hv
  refine ⟨fun x hx => hv x (List.mem_append_right _ hx), ?_⟩
  rintro y rfl
  exact (hv y (by simp)).1

theorem values_post (n : Network) (k : Option (BitVec 32)) :
    Sync.values (post (setNetwork c n) k).shared.sync =
      Function.update (Sync.values c.shared.sync) k (Sync.values c.shared.sync k + 1) := by
  show Sync.values (Sync.setSem _ k _) = _
  rw [Sync.values_setSem, Semaphore.v_eq]
  rfl

/-- The interrupt of the receiving device. -/
theorem Inv.recvInt (h : Inv host numBoxes worker done cur rest c.shared c.loc) :
    ∃ c', next host numBoxes c .recvInt = .ok c' ∧
      ∃ done cur rest, Inv host numBoxes worker done cur rest c'.shared c'.loc := by
  rcases callBack_cases h.slot h.socket h.valid_rest.1 h.valid_rest.2 with
    hn | ⟨rfl, y, rest', n', w, rfl, hn, hh, hw, hr, hs⟩
  · refine ⟨c, ?_, _, _, _, h⟩
    simp only [next, hn, ok_bind]
    rfl
  · have hnext : next host numBoxes c .recvInt =
        .ok (post (setNetwork c { c.shared.sync.data with input := n' }) none) := by
      simp only [next, hn, ok_bind]
      rfl
    have h0 := h.nonneg
    have ha := h.avail
    have hsent : c.shared.sync.data.sent = done ++ [y] ++ rest' := by simpa using h.sent
    refine ⟨_, hnext, done, some y, rest', hsent, ?_, hs, h.valid, hh, ?_, ?_, h.account, h.place,
      h.others⟩
    · show List.Forall₂ Wire (done ++ [y]) n'.read
      rw [hr]
      exact List.rel_append (by simpa using h.read) (.cons hw .nil)
    · rw [values_post, Function.update_self]
      omega
    · rw [values_post, Function.update_self]
      show _ + taking (c.loc worker) = _
      simp only [Option.toList_none, Option.toList_some, List.length_nil, List.length_singleton] at ha ⊢
      omega

/-- The interrupt of a sending device. -/
theorem Inv.sendInt (h : Inv host numBoxes worker done cur rest c.shared c.loc) (m : BitVec 32) :
    ∃ c', next host numBoxes c (.sendInt m) = .ok c' ∧
      Inv host numBoxes worker done cur rest c'.shared c'.loc := by
  by_cases h0 : c.shared.sync.data.scheduled m = 0
  · refine ⟨c, ?_, h⟩
    simp only [next, if_pos h0]
    rfl
  · refine ⟨_, by simp only [next, if_neg h0]; rfl, ?_⟩
    refine ⟨h.sent, h.read, h.socket, h.valid, h.slot, ?_, ?_, h.account, h.place, h.others⟩
    · rw [values_post, Function.update_of_ne (by simp)]
      exact h.nonneg
    · rw [values_post, Function.update_of_ne (by simp)]
      exact h.avail

theorem Inv.next {j : Label T} (h : Inv host numBoxes worker done cur rest c.shared c.loc)
    (hn : next host numBoxes c j = .ok c') :
    ∃ done cur rest, Inv host numBoxes worker done cur rest c'.shared c'.loc := by
  cases j with
  | run t x =>
    rcases Framework.Threads.next_cases hn with ⟨-, rfl⟩ | ⟨-, p, r, e, he, rfl⟩
    · exact ⟨_, _, _, h⟩
    · exact h.run he
  | recvInt =>
    obtain ⟨c₁, h1, h2⟩ := h.recvInt
    cases h1.symm.trans hn
    exact h2
  | sendInt m =>
    obtain ⟨c₁, h1, h2⟩ := h.sendInt m
    cases h1.symm.trans hn
    exact ⟨_, _, _, h2⟩

theorem inv_start {calls : T → List PostCall}
    (hv : ∀ t x, .send x ∈ calls t → x.Valid host numBoxes) (hdr : PacketHeader)
    (inbox buffer : List Byte) :
    Inv host numBoxes worker [] none [] (start worker calls hdr inbox buffer).shared
      (start worker calls hdr inbox buffer).loc where
  sent := rfl
  read := .nil
  socket := .nil
  valid x hx := by cases hx
  slot := rfl
  nonneg := le_rfl
  avail := by simp [start, taking, Sync.values, Semaphore.new]
  account i := by simp [start, handed, carried, carriedBy, Monitor.new]
  place := by
    simp only [start, ite_true]
    exact .puts 0 []
  others t ht s hs := by
    simp only [start, if_neg ht] at hs
    obtain ⟨k, hk, hs⟩ := List.mem_flatMap.mp hs
    exact plain_code (fun x e => hv t x (e ▸ hk)) s hs

/-! ## What a post office is for -/

/-- The mail in the device's buffer, when there is one and it is for the box `i`. -/
def inSlot (i : Nat) (n : NetworkInput) : List Message :=
  if n.inHdr.length = 0 then [] else [unpack n.inHdr n.inbox].filter (forBox i)

/-- What a post office is for. -/
structure Delivery (host : BitVec 32) (numBoxes : Nat) (worker : T) (c : Config T) : Prop where
  /-- The datagrams read for a box are, in order, the mails handed out from it, those in
  it, and those that the worker carries to it and the device holds. -/
  order : ∀ i, (c.shared.sync.data.input.read.map parse).filter (forBox i) =
    handed i c.shared.got ++ (c.shared.boxes i).data.map Mail.message ++ carried i (c.loc worker) ++
      inSlot i c.shared.sync.data.input
  /-- They are as they were sent, in order. -/
  unchanged : c.shared.sync.data.input.read.map parse <+: c.shared.sync.data.sent.map Send.message
  /-- The mails sent here were for boxes that exist. -/
  boxes : ∀ x ∈ c.shared.sync.data.sent, x.Valid host numBoxes ∧ x.pktHdr.to_ = host
  /-- The worker never takes from an empty buffer. -/
  full : ∀ r, c.loc worker = .deliver :: r → c.shared.sync.data.input.inHdr.length ≠ 0
  /-- No interrupt aborts, and no delivery. -/
  safe : ∀ e, next host numBoxes c .recvInt ≠ .error e ∧
    (∀ m, next host numBoxes c (.sendInt m) ≠ .error e) ∧
    ∀ x r, c.loc worker = .deliver :: r → next host numBoxes c (.run worker x) ≠ .error e

theorem Inv.delivery (h : Inv host numBoxes worker done cur rest c.shared c.loc) :
    Delivery host numBoxes worker c := by
  have hread : c.shared.sync.data.input.read.map parse = (done ++ cur.toList).map Send.message :=
    map_parse (fun x hx => (h.valid x (by rw [h.sent]; exact List.mem_append_left _ hx)).1) h.read
  have hslot : ∀ i, (cur.toList.map Send.message).filter (forBox i) =
      inSlot i c.shared.sync.data.input := by
    intro i
    have hsl := h.slot
    cases cur with
    | none =>
      have h0 : c.shared.sync.data.input.inHdr.length = 0 := hsl
      rw [inSlot, if_pos h0]
      rfl
    | some y =>
      have hy := h.valid_rest.2 y rfl
      obtain ⟨b, hb⟩ := hsl.inbox
      rw [inSlot, hsl.inHdr, if_neg hy.header_ne, hb, unpack_buffer hy]
      rfl
  refine ⟨fun i => ?_, ?_, h.valid, fun r hr => ?_, fun e => ⟨?_, fun m => ?_, fun x r hr => ?_⟩⟩
  · rw [hread, List.map_append, List.filter_append, h.account i, hslot]
  · rw [hread, h.sent]
    exact (List.prefix_append _ rest).map _
  · obtain ⟨y, rfl⟩ := h.cur_of_takes hr
    have hh : Holds c.shared.sync.data.input y := h.slot
    rw [hh.inHdr]
    exact (h.valid_rest.2 y rfl).header_ne
  · obtain ⟨c', h1, -⟩ := h.recvInt
    rw [h1]
    simp
  · obtain ⟨c', h1, -⟩ := h.sendInt m
    rw [h1]
    simp
  · intro hn
    obtain ⟨-, he⟩ := Framework.Threads.next_error hn
    have hl : c.loc worker = [.deliver, .loop] := by
      have hp := h.place
      generalize c.loc worker = l at hp hr
      cases hp with
      | waits => cases hr
      | takes => rfl
      | puts i l => cases l <;> cases hr
    obtain ⟨y, p', r', -, h1, -⟩ := h.takes (x := x) hl
    cases h1.symm.trans he

/-- The runs of a post office. -/
def system (host : BitVec 32) (numBoxes : Nat) (worker : T) (calls : T → List PostCall)
    (hdr : PacketHeader) (inbox buffer : List Byte) : System (Config T) (Label T) :=
  .ofFun (start worker calls hdr inbox buffer) (next host numBoxes)

/-- In every run in which all mail for this machine is to boxes that exist. -/
theorem reachable_delivery {calls : T → List PostCall}
    (hv : ∀ t x, .send x ∈ calls t → x.Valid host numBoxes) {hdr : PacketHeader}
    {inbox buffer : List Byte}
    (h : (system host numBoxes worker calls hdr inbox buffer).Reachable c) :
    Delivery host numBoxes worker c := by
  have hi : ∃ done cur rest, Inv host numBoxes worker done cur rest c.shared c.loc := by
    refine h.invariant (I := fun c => ∃ done cur rest,
      Inv host numBoxes worker done cur rest c.shared c.loc) ?_ ?_
    · rintro _ rfl
      exact ⟨_, _, _, inv_start hv hdr inbox buffer⟩
    · rintro s j s' ⟨done, cur, rest, hi⟩ hs
      exact hi.next hs
  obtain ⟨done, cur, rest, hi⟩ := hi
  exact hi.delivery

end

/-- `Hi` from machine 7 to box 1 of machine 5. -/
def hello : Send := ⟨7, ⟨5, 0, 0⟩, ⟨1, 3, 2⟩, [72, 105]⟩

/-- Thread 1 sends, the worker 0 delivers, and thread 2 receives. -/
theorem reachable_delivery_hello :
    (∀ (t : Fin 3) x, .send x ∈ (if t = 1 then [PostCall.send hello] else [.receive 1]) →
      x.Valid 5 2) ∧
    ∃ c, ((system 5 2 (0 : Fin 3) (fun t => if t = 1 then [.send hello] else [.receive 1]) ⟨0, 0, 0⟩
        (List.replicate 52 0) (List.replicate 52 0)).Reachable c ∧
        decide (c.shared.got = [(1, ⟨⟨5, 7, 14⟩, ⟨1, 3, 2⟩, [72, 105]⟩)]) = true) ∧
      Delivery 5 2 0 c := by
  have hv : ∀ (t : Fin 3) x, .send x ∈ (if t = 1 then [PostCall.send hello] else [.receive 1]) →
      x.Valid 5 2 := by
    intro t x hx
    split at hx
    · obtain rfl : x = hello := by simpa using hx
      exact ⟨by decide, by decide, by decide⟩
    · simp at hx
  obtain ⟨c, hc, hp⟩ := System.exists_reachable
    (start (0 : Fin 3) (fun t => if t = 1 then [.send hello] else [.receive 1]) ⟨0, 0, 0⟩
      (List.replicate 52 0) (List.replicate 52 0)) (next 5 2)
    ([List.replicate 4 (.run 1 ⟨false, fun _ => 0⟩), [.recvInt],
      List.replicate 10 (.run 0 ⟨false, fun _ => 0⟩),
      List.replicate 5 (.run 2 ⟨false, fun _ => 0⟩)] : List (List (Label (Fin 3)))).flatten
    (p := fun c => decide (c.shared.got = [(1, ⟨⟨5, 7, 14⟩, ⟨1, 3, 2⟩, [72, 105]⟩)]))
    (by decide +kernel)
  exact ⟨hv, c, ⟨hc, hp⟩, reachable_delivery hv hc⟩

end Nachos.PostOffice

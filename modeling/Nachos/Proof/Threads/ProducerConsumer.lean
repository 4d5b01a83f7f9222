import Mathlib.Algebra.BigOperators.Ring.Finset
import Mathlib.Algebra.Order.BigOperators.Group.Finset
import Mathlib.Data.Fintype.BigOperators
import Mathlib.Tactic.Ring
import Nachos.Impl.Threads.ProducerConsumer
import Nachos.Proof.Threads.Sync

/-!
# Producers and consumers

Any number of threads run `Produce` and `Consume`, each with its own number of
iterations, and together produce at most `MAX_PRODUCE_ARRAY_NUM` times
(`reachable_fifo`). Every index is in the array, and consumers read the slots
once each in the order they were stored. When no thread can run any more, all
is produced, and consumed up to the consumers' iterations.

The statements that are left are counted over all threads (`total`): `isFull` and
the units on their way to or from it (`owe`) add up to the slots stored and not
read.
-/

namespace Nachos.ProducerConsumer

open Framework

variable {T : Type}

/-! ## What is left to do -/

/-- The sum of the weights of statements. -/
def weigh (f : ProduceStmt → Int) (r : List ProduceStmt) : Int := (r.map f).sum

@[simp] theorem weigh_nil (f : ProduceStmt → Int) : weigh f [] = 0 := rfl

@[simp] theorem weigh_cons (f : ProduceStmt → Int) (s : ProduceStmt) (r : List ProduceStmt) :
    weigh f (s :: r) = f s + weigh f r := rfl

/-- Units of `isFull`: produced and not yet posted, or taken and not yet read. -/
def owe : ProduceStmt → Int
  | .v .isFull | .act .consume => 1
  | .p .isFull | .act (.produce _) => -1
  | _ => 0

def stores : ProduceStmt → Int
  | .act (.produce _) => 1
  | _ => 0

def reads : ProduceStmt → Int
  | .act .consume => 1
  | _ => 0

def slots : ProduceStmt → Int
  | .p .isEmpty => 1
  | _ => 0

/-- The code does not owe a unit where it may sleep in a semaphore's `P`, and there
holds no lock. -/
def Shaped : List ProduceStmt → Prop
  | [] => True
  | s :: r => 0 ≤ weigh owe (s :: r) ∧
    (∀ k, s = .p k → Sync.status () r = none ∧ weigh owe (s :: r) = 0) ∧ Shaped r

/-- What holds of the code of an iteration when it holds of the rest. -/
structure Rest (r : List ProduceStmt) : Prop where
  shaped : Shaped r
  owe : weigh owe r = 0
  balanced : Sync.Balanced r

theorem rest_produceOnce (i : Nat) {r : List ProduceStmt} (h : Rest r) : Rest (produceOnce i ++ r) := by
  refine ⟨?_, ?_, .append ⟨?_, fun _ => rfl⟩ h.balanced⟩
  · simp [produceOnce, Sync.acquire, Sync.release, Shaped, ProducerConsumer.owe, h.shaped, h.owe,
      Sync.status]
  · simp [produceOnce, Sync.acquire, Sync.release, ProducerConsumer.owe, h.owe]
  · simp [produceOnce, Sync.acquire, Sync.release, Sync.Wf, Sync.Fits, Sync.status]

theorem rest_consumeOnce (i : Nat) {r : List ProduceStmt} (h : Rest r) : Rest (consumeOnce i ++ r) := by
  refine ⟨?_, ?_, .append ⟨?_, fun _ => rfl⟩ h.balanced⟩
  · simp [consumeOnce, Sync.acquire, Sync.release, Shaped, ProducerConsumer.owe, h.shaped, h.owe,
      Sync.status]
  · simp [consumeOnce, Sync.acquire, Sync.release, ProducerConsumer.owe, h.owe]
  · simp [consumeOnce, Sync.acquire, Sync.release, Sync.Wf, Sync.Fits, Sync.status]

theorem rest_code (x : ProduceRole) : Rest x.code := by
  cases x with
  | producer n =>
    show Rest ((List.range n).map produceOnce).flatten
    induction List.range n with
    | nil => exact ⟨trivial, rfl, .nil⟩
    | cons i is ih => exact rest_produceOnce i ih
  | consumer n =>
    show Rest ((List.range n).map consumeOnce).flatten
    induction List.range n with
    | nil => exact ⟨trivial, rfl, .nil⟩
    | cons i is ih => exact rest_consumeOnce i ih

/-- The number of iterations of a producer. -/
def produces : ProduceRole → Nat
  | .producer n => n
  | .consumer _ => 0

/-- The number of iterations of a consumer. -/
def consumes : ProduceRole → Nat
  | .producer _ => 0
  | .consumer n => n

theorem weigh_flatten {f : ProduceStmt → Int} {once : Nat → List ProduceStmt} {k : Int}
    (h : ∀ i, weigh f (once i) = k) (is : List Nat) :
    weigh f (is.map once).flatten = is.length * k := by
  induction is with
  | nil => simp
  | cons i is ih =>
    rw [List.map_cons, List.flatten_cons, weigh, List.map_append, List.sum_append, ← weigh, ← weigh, h,
      ih, List.length_cons]
    push_cast
    ring

theorem weigh_code {f : ProduceStmt → Int} {a b : Int} (ha : ∀ i, weigh f (produceOnce i) = a)
    (hb : ∀ i, weigh f (consumeOnce i) = b) (x : ProduceRole) :
    weigh f x.code = produces x * a + consumes x * b := by
  cases x with
  | producer n => simp [ProduceRole.code, weigh_flatten ha, produces, consumes]
  | consumer n => simp [ProduceRole.code, weigh_flatten hb, produces, consumes]

/-- Code that takes from `isFull` does not store. -/
theorem consumer_code (x : ProduceRole) (h : .p .isFull ∈ x.code) : weigh stores x.code = 0 := by
  cases x with
  | producer n => simp [ProduceRole.code, produceOnce, Sync.acquire, Sync.release] at h
  | consumer n =>
    rw [weigh_code (a := 1) (b := 0) (fun _ => rfl) (fun _ => rfl)]
    simp [produces]

/-! ## Counting over all threads -/

section
variable [Fintype T]

/-- The sum of the weights of what is left. -/
def total (f : ProduceStmt → Int) (loc : T → List ProduceStmt) : Int := ∑ t, weigh f (loc t)

theorem total_update [DecidableEq T] (f : ProduceStmt → Int) (loc : T → List ProduceStmt) (t : T)
    (r : List ProduceStmt) :
    total f (Function.update loc t r) = total f loc + (weigh f r - weigh f (loc t)) := by
  have h : (fun u => weigh f (Function.update loc t r u)) =
      Function.update (fun u => weigh f (loc u)) t (weigh f r) :=
    funext fun u => Function.apply_update (fun _ => weigh f) loc t r u
  have hs := Finset.sum_erase_add Finset.univ (fun u => weigh f (loc u)) (Finset.mem_univ t)
  simp only [total, h]
  rw [Finset.sum_update_of_mem (Finset.mem_univ t), Finset.sdiff_singleton_eq_erase]
  omega

theorem le_total {f : ProduceStmt → Int} {loc : T → List ProduceStmt} (h : ∀ t, 0 ≤ weigh f (loc t))
    (t : T) : weigh f (loc t) ≤ total f loc :=
  Finset.single_le_sum (f := fun u => weigh f (loc u)) (fun u _ => h u) (Finset.mem_univ t)

theorem total_nonneg {f : ProduceStmt → Int} {loc : T → List ProduceStmt}
    (h : ∀ t, 0 ≤ weigh f (loc t)) : 0 ≤ total f loc :=
  Finset.sum_nonneg fun t _ => h t

/-- All that producers do. -/
def production (role : T → ProduceRole) : Nat := ∑ t, produces (role t)

/-- All that consumers do. -/
def consumption (role : T → ProduceRole) : Nat := ∑ t, consumes (role t)

theorem total_code {f : ProduceStmt → Int} {a b : Int} (ha : ∀ i, weigh f (produceOnce i) = a)
    (hb : ∀ i, weigh f (consumeOnce i) = b) (role : T → ProduceRole) :
    total f (fun t => (role t).code) = production role * a + consumption role * b := by
  simp only [total, weigh_code ha hb, Finset.sum_add_distrib, production, consumption,
    Nat.cast_sum, Finset.sum_mul]

end

theorem weigh_nonneg {f : ProduceStmt → Int} (h : ∀ s, 0 ≤ f s) (r : List ProduceStmt) :
    0 ≤ weigh f r := by
  induction r with
  | nil => exact le_rfl
  | cons s r ih => exact Int.add_nonneg (h s) ih

theorem stores_nonneg (s : ProduceStmt) : 0 ≤ stores s := by
  unfold stores
  split <;> decide

theorem reads_nonneg (s : ProduceStmt) : 0 ≤ reads s := by
  unfold reads
  split <;> decide

theorem slots_nonneg (s : ProduceStmt) : 0 ≤ slots s := by
  unfold slots
  split <;> decide

theorem weights_lock {s : ProduceStmt} (h : Sync.IsLock s) :
    owe s = 0 ∧ stores s = 0 ∧ reads s = 0 ∧ slots s = 0 := by
  cases s <;> simp [Sync.IsLock, owe, stores, reads, slots] at h ⊢

theorem Shaped.owe_nonneg {r : List ProduceStmt} (h : Shaped r) : 0 ≤ weigh owe r := by
  cases r with
  | nil => exact le_rfl
  | cons s r => exact h.1

theorem Shaped.tail {s : ProduceStmt} {r : List ProduceStmt} (h : Shaped (s :: r)) : Shaped r := h.2.2

/-! ## The array -/

/-- What the globals hold, from what was stored and read. -/
structure Buffer (d : ProduceData) : Prop where
  high : d.high = d.stores.length
  low : d.low = (d.reads.length : Int) - 1
  size : d.produceArray.length = maxProduceArrayNum
  room : d.stores.length ≤ maxProduceArrayNum
  stored : ∀ (i : Nat) (x : Int × Int), d.stores[i]? = some x → x.1 = i ∧ d.produceArray[i]? = some x.2
  read : d.reads.map (fun x => (x.index, x.value)) = d.stores.take d.reads.length
  below : ∀ x ∈ d.reads, x.index < x.high

theorem buffer_start : Buffer .start := by
  refine ⟨rfl, rfl, rfl, by decide, fun i x h => ?_, rfl, fun x h => ?_⟩
  · simp [ProduceData.start] at h
  · simp [ProduceData.start] at h

theorem produceIndex_ok {n : Nat} (h : n < maxProduceArrayNum) : produceIndex n = .ok n := by
  rw [produceIndex, defined_of ⟨by omega, by exact_mod_cast h⟩]
  rfl

/-- A producer stores behind the slots stored so far. -/
theorem Buffer.produce {d : ProduceData} (h : Buffer d) (hr : d.stores.length < maxProduceArrayNum)
    (hl : d.reads.length ≤ d.stores.length) (i : Int) :
    ∃ d', d.produce i = .ok d' ∧ Buffer d' ∧ d'.stores.length = d.stores.length + 1 ∧
      d'.reads.length = d.reads.length := by
  have he : d.produce i = .ok { d with
      produceArray := d.produceArray.set d.stores.length i
      high := d.stores.length + 1
      stores := d.stores ++ [((d.stores.length : Int), i)] } := by
    rw [ProduceData.produce, h.high, produceIndex_ok hr]
    rfl
  refine ⟨_, he, ?_, by simp, rfl⟩
  refine ⟨by simp, h.low, by simp [h.size], by simpa using Nat.succ_le_of_lt hr, fun j x hj => ?_, ?_, h.below⟩
  · rw [List.getElem?_append] at hj
    split at hj
    · rename_i hlt
      obtain ⟨hi, hx⟩ := h.stored j x hj
      exact ⟨hi, by rw [List.getElem?_set_ne (by omega)]; exact hx⟩
    · rename_i hge
      obtain ⟨hj', hx⟩ := List.getElem?_eq_some_iff.mp hj
      simp only [List.length_singleton] at hj'
      have e : j = d.stores.length := by omega
      subst e
      simp only [Nat.sub_self, List.getElem_cons_zero] at hx
      subst hx
      exact ⟨rfl, by simp [h.size, hr]⟩
  · show d.reads.map _ = (d.stores ++ _).take d.reads.length
    rw [List.take_append_of_le_length hl]
    exact h.read

/-- A consumer reads the first slot that was not read. -/
theorem Buffer.consume {d : ProduceData} (h : Buffer d) (hl : d.reads.length < d.stores.length) :
    ∃ d', d.consume = .ok d' ∧ Buffer d' ∧ d'.stores.length = d.stores.length ∧
      d'.reads.length = d.reads.length + 1 := by
  have hlow : d.low + 1 = d.reads.length := by rw [h.low]; omega
  have he : d.consume = .ok { d with
      low := d.reads.length
      reads := d.reads ++ [⟨d.reads.length, d.produceArray.getD d.reads.length 0, d.high⟩] } := by
    rw [ProduceData.consume, hlow, produceIndex_ok (hl.trans_le h.room)]
    rfl
  refine ⟨_, he, ?_, rfl, by simp⟩
  refine ⟨h.high, by simp, h.size, h.room, h.stored, ?_, fun x hx => ?_⟩
  · obtain ⟨hi, hx⟩ := h.stored d.reads.length _ (List.getElem?_eq_getElem hl)
    simp only [List.map_append, h.read, List.map_cons, List.map_nil, List.length_append,
      List.length_singleton, List.take_add_one, List.getElem?_eq_getElem hl, Option.toList_some]
    congr 2
    refine Prod.ext hi.symm ?_
    simp [hx]
  · rcases List.mem_append.mp hx with hx | hx
    · exact h.below x hx
    · obtain rfl := List.mem_singleton.mp hx
      simp only [h.high]
      exact_mod_cast hl

/-! ## Steps -/

section
variable [Fintype T] {role : T → ProduceRole} {d d' : ProduceData} {v v' : ProduceSem → Int}
  {loc : T → List ProduceStmt} {t : T} {s : ProduceStmt} {r : List ProduceStmt}

/-- What was done and what is left. -/
structure Counts (role : T → ProduceRole) (d : ProduceData) (v : ProduceSem → Int)
    (loc : T → List ProduceStmt) : Prop where
  shaped : ∀ t, Shaped (loc t)
  consumer : ∀ t, .p .isFull ∈ loc t → weigh stores (loc t) = 0
  stored : d.stores.length + total stores loc = production role
  read : d.reads.length + total reads loc = consumption role
  full : v .isFull + total owe loc = d.stores.length - d.reads.length
  empty : maxProduceArrayNum - production role + total slots loc ≤ v .isEmpty

theorem counts_start (role : T → ProduceRole) :
    Counts role .start produceSemInit fun t => (role t).code where
  shaped t := (rest_code (role t)).shaped
  consumer t := consumer_code (role t)
  stored := by
    rw [total_code (a := 1) (b := 0) (fun _ => rfl) (fun _ => rfl)]
    simp [ProduceData.start]
  read := by
    rw [total_code (a := 0) (b := 1) (fun _ => rfl) (fun _ => rfl)]
    simp [ProduceData.start]
  full := by
    rw [total_code (a := 0) (b := 0) (fun _ => rfl) (fun _ => rfl)]
    simp [ProduceData.start, produceSemInit]
  empty := by
    rw [total_code (a := 1) (b := 0) (fun _ => rfl) (fun _ => rfl)]
    simp [produceSemInit]

theorem Counts.reads_le (h : Counts role d v loc) (hv : ∀ k, 0 ≤ v k) :
    d.reads.length ≤ d.stores.length := by
  have h1 := total_nonneg fun t => (h.shaped t).owe_nonneg
  have h2 := h.full
  have h3 := hv .isFull
  omega

/-- A thread that is to store has a slot. -/
theorem Counts.room (h : Counts role d v loc) (hP : production role ≤ maxProduceArrayNum) {i : Int}
    (hs : loc t = .act (.produce i) :: r) : d.stores.length < maxProduceArrayNum := by
  have h1 := le_total (fun u => weigh_nonneg stores_nonneg (loc u)) t
  have h2 := weigh_nonneg stores_nonneg r
  have h3 := h.stored
  rw [hs, weigh_cons, show stores (.act (.produce i)) = 1 from rfl] at h1
  omega

/-- A thread that is to read has a slot that was stored and not read. -/
theorem Counts.unread (h : Counts role d v loc) (hv : ∀ k, 0 ≤ v k)
    (hs : loc t = .act .consume :: r) : d.reads.length < d.stores.length := by
  have h1 := le_total (fun u => (h.shaped u).owe_nonneg) t
  have h2 := (h.shaped t)
  have h3 := h.full
  have h4 := hv .isFull
  rw [hs] at h1 h2
  have h5 := h2.tail.owe_nonneg
  rw [weigh_cons, show owe (.act .consume) = 1 from rfl] at h1
  omega

variable [DecidableEq T]

theorem total_tail (f : ProduceStmt → Int) (hs : loc t = s :: r) :
    total f (Function.update loc t r) = total f loc - f s := by
  rw [total_update, hs, weigh_cons]
  omega

omit [Fintype T] in
theorem shaped_tail (h : ∀ u, Shaped (loc u)) (hs : loc t = s :: r) (u : T) :
    Shaped (Function.update loc t r u) := by
  rw [Function.update_apply]
  split
  · have := h t
    rw [hs] at this
    exact this.tail
  · exact h u

omit [Fintype T] in
theorem consumer_tail (h : ∀ u, .p .isFull ∈ loc u → weigh stores (loc u) = 0) (hs : loc t = s :: r)
    (u : T) (hu : .p .isFull ∈ Function.update loc t r u) :
    weigh stores (Function.update loc t r u) = 0 := by
  rw [Function.update_apply] at hu ⊢
  split at hu
  · rename_i e
    have h1 := h t (by rw [hs]; exact List.mem_cons_of_mem s hu)
    have h2 := weigh_nonneg stores_nonneg r
    have h3 := stores_nonneg s
    rw [hs, weigh_cons] at h1
    simp only [e, ite_true]
    omega
  · rename_i e
    rw [if_neg e]
    exact h u hu

/-- The counts after a statement, from what it adds to each of them. -/
theorem Counts.tail (h : Counts role d v loc) (hs : loc t = s :: r)
    (hst : (d'.stores.length : Int) = d.stores.length + stores s)
    (hrd : (d'.reads.length : Int) = d.reads.length + reads s)
    (hf : v' .isFull = v .isFull + owe s + stores s - reads s)
    (he : v .isEmpty - slots s ≤ v' .isEmpty) : Counts role d' v' (Function.update loc t r) where
  shaped := shaped_tail h.shaped hs
  consumer := consumer_tail h.consumer hs
  stored := by
    rw [total_tail stores hs, hst]
    have := h.stored
    omega
  read := by
    rw [total_tail reads hs, hrd]
    have := h.read
    omega
  full := by
    rw [total_tail owe hs, hst, hrd, hf]
    have := h.full
    omega
  empty := by
    rw [total_tail slots hs]
    have := h.empty
    omega

/-- What an action does. -/
theorem Counts.act (h : Counts role d v loc) (hb : Buffer d) (hv : ∀ k, 0 ≤ v k)
    (hP : production role ≤ maxProduceArrayNum) {a : ProduceAct} (hs : loc t = .act a :: r) :
    ∃ d', ProduceData.act t d a = .ok d' ∧ Buffer d' ∧
      Counts role d' v (Function.update loc t r) := by
  cases a with
  | produce i =>
    obtain ⟨d', hd, hb', h1, h2⟩ := hb.produce (h.room hP hs) (h.reads_le hv) i
    refine ⟨d', hd, hb', h.tail hs ?_ ?_ ?_ ?_⟩ <;> simp [h1, h2, stores, reads, owe, slots]
  | consume =>
    obtain ⟨d', hd, hb', h1, h2⟩ := hb.consume (h.unread hv hs)
    refine ⟨d', hd, hb', h.tail hs ?_ ?_ ?_ ?_⟩ <;> simp [h1, h2, stores, reads, owe, slots]

/-- What a step does. -/
theorem Counts.step (h : Counts role d v loc) (hb : Buffer d) (hv : ∀ k, 0 ≤ v k)
    (hP : production role ≤ maxProduceArrayNum)
    (hd : Sync.Did ProduceData.act t d v (loc t) d' v' r) :
    Buffer d' ∧ Counts role d' v' (Function.update loc t r) := by
  generalize hs : loc t = r₀ at hd
  cases hd with
  | stay =>
    rw [← hs, Function.update_eq_self]
    exact ⟨hb, h⟩
  | lock =>
    rename_i s hl
    obtain ⟨h1, h2, h3, h4⟩ := weights_lock hl
    refine ⟨hb, h.tail hs ?_ ?_ ?_ ?_⟩ <;> simp [h1, h2, h3, h4]
  | p =>
    rename_i k hk
    refine ⟨hb, h.tail hs ?_ ?_ ?_ ?_⟩ <;> cases k <;> simp [stores, reads, owe, slots]
    omega
  | v =>
    rename_i k
    refine ⟨hb, h.tail hs ?_ ?_ ?_ ?_⟩ <;> cases k <;> simp [stores, reads, owe, slots]
  | act =>
    rename_i hd
    obtain ⟨d₁, h1, h2⟩ := h.act hb hv hP hs
    cases hd.symm.trans h1
    exact h2

end

/-! ## Runs -/

section
variable [Fintype T] {role : T → ProduceRole} {c c' : Config T}

structure Inv (role : T → ProduceRole) (c : Config T) : Prop where
  sync : Sync.Inv c
  buffer : Buffer c.shared.data
  counts : Counts role c.shared.data (Sync.values c.shared) c.loc

theorem inv_start (role : T → ProduceRole) : Inv role (start role) where
  sync := Sync.inv_start _ (fun k => by cases k <;> decide) fun t => (rest_code (role t)).balanced
  buffer := buffer_start
  counts := counts_start role

theorem Inv.next [DecidableEq T] (h : Inv role c) (hP : production role ≤ maxProduceArrayNum) {t : T}
    (hn : next c t = .ok c') : Inv role c' := by
  obtain ⟨hi, r, hr, hd⟩ := h.sync.next_thread hn
  obtain ⟨hb, hc⟩ := h.counts.step h.buffer h.sync.nonneg hP hd
  rw [← hr] at hc
  exact ⟨hi, hb, hc⟩

theorem Inv.next_ne_error [DecidableEq T] (h : Inv role c)
    (hP : production role ≤ maxProduceArrayNum) (t : T) (e : Abort) : ProducerConsumer.next c t ≠ .error e := by
  intro hn
  rcases h.sync.next_error hn with ⟨u, a, r, -, hs, ha⟩ | ⟨i, -⟩
  · obtain ⟨d', hd, -⟩ := h.counts.act h.buffer h.sync.nonneg hP hs
    cases hd.symm.trans ha
  · exact i.elim

/-- No thread can run: each is done, or asleep. -/
def Stuck (c : Config T) : Prop := ∀ t, c.loc t = [] ∨ c.asleep t = true

/-- A thread that may sleep does not hold the lock. -/
theorem Shaped.status {r : List ProduceStmt} (h : Shaped r) (hp : Sync.place r ≠ none) :
    Sync.status () r = none := by
  cases r with
  | nil => rfl
  | cons x r =>
    cases x with
    | acquireP l => rfl
    | p k => exact (h.2.1 k rfl).1
    | _ => exact absurd rfl hp

/-- Then nobody waits for the lock. -/
theorem Inv.stuck_place (h : Inv role c) (hs : Stuck c) (t : T) :
    c.loc t = [] ∨ ∃ k r, c.loc t = .p k :: r ∧ Sync.values c.shared k = 0 := by
  refine or_iff_not_imp_left.mpr fun hne => ?_
  have ht := (hs t).resolve_left hne
  have hp := h.sync.waiting.asleepAt t ht
  have hlock := h.sync.stuck_lock hs (l := ()) (fun u => (h.counts.shaped u).status) t
  cases hr : c.loc t with
  | nil => exact absurd hr hne
  | cons x r =>
    rw [hr] at hp hlock
    cases x with
    | acquireP l => exact absurd rfl hlock
    | p k =>
      have hv := h.sync.waiting.stuck hs ht (q := .inr k) (by rw [hr]; rfl)
      exact ⟨k, r, rfl, le_antisymm hv (h.sync.nonneg k)⟩
    | _ => exact absurd rfl hp

/-- Producers have a slot each time, so only consumers wait. -/
theorem Inv.stuck_consumer (h : Inv role c) (hP : production role ≤ maxProduceArrayNum)
    (hs : Stuck c) (t : T) :
    c.loc t = [] ∨ ∃ r, c.loc t = .p .isFull :: r ∧ Sync.values c.shared .isFull = 0 := by
  rcases h.stuck_place hs t with hn | ⟨k, r, hr, hv⟩
  · exact .inl hn
  · cases k with
    | isFull => exact .inr ⟨r, hr, hv⟩
    | isEmpty =>
      have h1 := le_total (fun u => weigh_nonneg slots_nonneg (c.loc u)) t
      have h2 := weigh_nonneg slots_nonneg r
      have h3 := h.counts.empty
      rw [hr, weigh_cons, show slots (.p .isEmpty) = 1 from rfl] at h1
      omega

/-- At the end all is produced, and consumed as far as consumers go. -/
theorem Inv.stuck_lengths (h : Inv role c) (hP : production role ≤ maxProduceArrayNum)
    (hs : Stuck c) : c.shared.data.stores.length = production role ∧
      c.shared.data.reads.length = min (production role) (consumption role) := by
  have hc := h.stuck_consumer hP hs
  have hst : total stores c.loc = 0 := by
    refine Finset.sum_eq_zero fun t _ => ?_
    rcases hc t with hn | ⟨r, hr, -⟩
    · rw [hn, weigh_nil]
    · exact h.counts.consumer t (by rw [hr]; exact List.mem_cons_self)
  have howe : total owe c.loc = 0 := by
    refine Finset.sum_eq_zero fun t _ => ?_
    rcases hc t with hn | ⟨r, hr, -⟩
    · rw [hn, weigh_nil]
    · have := h.counts.shaped t
      rw [hr] at this ⊢
      exact (this.2.1 _ rfl).2
  have h1 := h.counts.stored
  have h2 := h.counts.read
  have h3 := h.counts.full
  have h4 := h.counts.reads_le h.sync.nonneg
  have h5 := total_nonneg fun t => weigh_nonneg reads_nonneg (c.loc t)
  refine ⟨by omega, ?_⟩
  by_cases hall : ∀ t, c.loc t = []
  · have hrd : total reads c.loc = 0 := Finset.sum_eq_zero fun t _ => by rw [hall t, weigh_nil]
    omega
  · obtain ⟨t, ht⟩ := not_forall.mp hall
    obtain ⟨r, -, hv⟩ := (hc t).resolve_left ht
    omega

end

/-- The indices used are in the array, `low` is below `high` at every read, and the
reads are of the first slots stored, in order and once each. -/
structure Fifo (d : ProduceData) : Prop where
  stores : ∀ x ∈ d.stores, 0 ≤ x.1 ∧ x.1 < maxProduceArrayNum
  reads : ∀ x ∈ d.reads, 0 ≤ x.index ∧ x.index < maxProduceArrayNum
  below : ∀ x ∈ d.reads, x.index < x.high
  once : (d.stores.map Prod.fst).Nodup
  order : d.reads.map (fun x => (x.index, x.value)) <+: d.stores

theorem Buffer.fifo {d : ProduceData} (h : Buffer d) : Fifo d := by
  have hst : ∀ x ∈ d.stores, 0 ≤ x.1 ∧ x.1 < maxProduceArrayNum := by
    intro x hx
    obtain ⟨i, hi⟩ := List.mem_iff_getElem?.mp hx
    have hl := (List.getElem?_eq_some_iff.mp hi).1
    have hr := h.room
    rw [(h.stored i x hi).1]
    omega
  have hpre : d.reads.map (fun x => (x.index, x.value)) <+: d.stores := by
    rw [h.read]
    exact List.take_prefix _ _
  refine ⟨hst, fun x hx => ?_, h.below, ?_, hpre⟩
  · exact hst (x.index, x.value) (hpre.subset (List.mem_map_of_mem hx))
  · have he : d.stores.map Prod.fst = (List.range d.stores.length).map Int.ofNat := by
      refine List.ext_getElem (by simp) fun i h1 h2 => ?_
      rw [List.getElem_map, List.getElem_map, List.getElem_range]
      exact (h.stored i _ (List.getElem?_eq_getElem (by simpa using h1))).1
    rw [he]
    exact List.nodup_range.map fun a b hab => Int.ofNat.inj hab

/-- The runs of the threads with these roles. -/
def system [DecidableEq T] (role : T → ProduceRole) : System (Config T) T :=
  .ofFun (start role) next

/-- In every run of producers that together produce at most as much as the array
holds, and of any consumers. -/
theorem reachable_fifo [Fintype T] [DecidableEq T] (role : T → ProduceRole)
    (hP : production role ≤ maxProduceArrayNum) {c : Config T} (h : (system role).Reachable c) :
    Fifo c.shared.data ∧ (∀ t e, next c t ≠ .error e) ∧
      (Stuck c → c.shared.data.stores.length = production role ∧
        c.shared.data.reads.length = min (production role) (consumption role)) := by
  have hi : Inv role c := by
    refine h.invariant (I := Inv role) ?_ ?_
    · rintro _ rfl
      exact inv_start role
    · intro s t s' hi hs
      exact hi.next hP hs
  exact ⟨hi.buffer.fifo, hi.next_ne_error hP, hi.stuck_lengths hP⟩

/-- The threads of `MyProducerConsumer1`. -/
def role1 : Fin 3 → ProduceRole
  | 0 => .producer produceTimes
  | _ => .consumer consumeTimes

/-- A consumer waits, the producer stores twice, and the consumer reads. -/
theorem reachable_fifo_role1 : production role1 ≤ maxProduceArrayNum ∧
    ∃ c, ((system role1).Reachable c ∧ decide (c.shared.data.reads = [⟨0, 0, 2⟩]) = true) ∧
      Fifo c.shared.data ∧ (∀ t e, next c t ≠ .error e) ∧
      (Stuck c → c.shared.data.stores.length = production role1 ∧
        c.shared.data.reads.length = min (production role1) (consumption role1)) := by
  have hP : production role1 ≤ maxProduceArrayNum := by decide
  obtain ⟨c, hc, hp⟩ := System.exists_reachable (start role1) next
    ([1] ++ List.replicate 14 0 ++ List.replicate 4 1)
    (p := fun c => decide (c.shared.data.reads = [⟨0, 0, 2⟩])) (by decide +kernel)
  exact ⟨hP, c, ⟨hc, hp⟩, reachable_fifo role1 hP hc⟩

end Nachos.ProducerConsumer

import Nachos.Framework.Comparison
import Nachos.Framework.Simulation
import Nachos.Impl.Machine.Interrupt
import Nachos.Impl.Threads.Scheduler
import Nachos.Proof.Lib.LinkedList
import Nachos.Spec.Sequence

/-!
# Linked lists refine sequences

A list has the items of a sequence in its cells (`Represents`), and each operation
does on the pointers what it does on the list of items. On a `SortedList` the first
larger item is that behind all items that are not larger, and the sequence stays
`Ordered`, so its items come out sorted, and equal ones in the order in which they
were put in.
-/

namespace Nachos

open Framework
open Framework.Segment (follow)
open Framework.StableQueue (Sorts)

/-! ## Sorted sequences -/

namespace Sequence

variable {T K : Type} [LinearOrder K] {compare : T → T → Int} {key : T → K} {s s' : Sequence T}
  {cls : ListClass T} {item : T}

/-- A comparison of keys. -/
theorem ordered_iff (hc : TotalPreorder compare) (hkey : ∀ x y, key x ≤ key y ↔ compare x y ≤ 0) :
    s.Ordered compare ↔ Sorts key s.items s.arrived := by
  have heq : ∀ (x : T) (xs : List T), xs.filter (key · = key x) = xs.filter (compare x · = 0) :=
    fun x xs => List.filter_congr fun y _ => by
      rw [decide_eq_decide, eq_comm, hc.key_eq hkey]
  constructor
  · refine fun h => ⟨h.sorted.imp fun hxy => (hkey _ _).mpr hxy, fun n => ?_⟩
    by_cases hn : ∃ x, key x = n
    · obtain ⟨x, rfl⟩ := hn
      rw [heq, heq, h.stable]
    · have hnil : ∀ xs : List T, xs.filter (key · = n) = [] := fun xs =>
        List.filter_eq_nil_iff.mpr fun y _ => by simpa using fun hy => hn ⟨y, hy⟩
      rw [hnil, hnil]
  · refine fun h => ⟨h.sorted.imp fun hxy => (hkey _ _).mp hxy, fun x => ?_⟩
    rw [← heq, ← heq, h.stable]

/-- The walk of `Insert` stops behind the items that are not greater. -/
theorem sortedInsert_eq_insertWalk (hc : TotalPreorder compare) {xs : List T}
    (hs : xs.Pairwise fun x y => compare x y ≤ 0) (item : T) :
    sortedInsert compare xs item = NList.insertWalk compare item xs := by
  obtain ⟨K, _, key, hkey⟩ := hc.exists_key
  have hle : xs.filter (key · ≤ key item) = xs.filter (compare · item ≤ 0) :=
    List.filter_congr fun y _ => by rw [decide_eq_decide, hkey]
  have hlt : xs.filter (key item < key ·) = xs.filter (0 < compare · item) :=
    List.filter_congr fun y _ => by rw [decide_eq_decide, hc.key_lt hkey, hc.swap]
  have hsorted : xs.Pairwise fun x y => key x ≤ key y := hs.imp fun hxy => (hkey _ _).mpr hxy
  rw [NList.insertWalk_eq_filter hsorted fun y => (hc.key_lt hkey item y).symm, hle, hlt]
  rfl

theorem sortedInsert_perm (compare : T → T → Int) (xs : List T) (item : T) :
    (sortedInsert compare xs item).Perm (item :: xs) := by
  have hgt : xs.filter (0 < compare · item) = xs.filter fun x => !decide (compare x item ≤ 0) :=
    List.filter_congr fun x _ => by
      rw [← decide_not, decide_eq_decide, not_le]
  unfold sortedInsert
  rw [hgt]
  exact List.perm_middle.trans ((List.filter_append_perm _ xs).cons item)

theorem Ordered.insert (h : s.Ordered compare) (hc : TotalPreorder compare) (item : T) :
    Ordered compare ⟨sortedInsert compare s.items item, s.arrived ++ [item]⟩ := by
  obtain ⟨K, _, key, hkey⟩ := hc.exists_key
  rw [sortedInsert_eq_insertWalk hc h.sorted, ordered_iff hc hkey]
  exact NList.insertWalk_sorts ((ordered_iff hc hkey).mp h) fun y => (hc.key_lt hkey item y).symm

variable [DecidableEq T]

theorem Ordered.erase (h : s.Ordered compare) (hc : TotalPreorder compare) (hnd : s.items.Nodup)
    (item : T) : Ordered compare ⟨s.items.erase item, s.arrived.erase item⟩ := by
  obtain ⟨K, _, key, hkey⟩ := hc.exists_key
  rw [ordered_iff hc hkey] at h ⊢
  exact h.erase hnd item

theorem put_eq_some {items : List T} {r : Option T} (h : s.put item items = some (s', r)) :
    item ∉ s.items ∧ s' = ⟨items, s.arrived ++ [item]⟩ ∧ r = none := by
  unfold put at h
  split at h
  · cases h
  · cases h
    exact ⟨‹_›, rfl, rfl⟩

/-- That many `RemoveFront`s return the first items. -/
theorem takes (cls : ListClass T) {k : Nat} (hk : k ≤ s.items.length) :
    ∃ s', runAll (M := Option) (step cls) s (List.replicate k .removeFront) =
      some (s', (s.items.take k).map some) := by
  induction k generalizing s with
  | zero => exact ⟨s, rfl⟩
  | succ k ih =>
    obtain ⟨items, arrived⟩ := s
    cases items with
    | nil => cases hk
    | cons x items =>
      have hstep : step cls ⟨x :: items, arrived⟩ .removeFront =
          some (⟨items, arrived.erase x⟩, some x) := rfl
      obtain ⟨s', hs'⟩ := ih (s := ⟨items, arrived.erase x⟩) (Nat.le_of_succ_le_succ hk)
      refine ⟨s', ?_⟩
      rw [List.replicate_succ, runAll, hstep]
      simp only [Option.bind_eq_bind, Option.bind_some, hs']
      rfl

end Sequence

namespace LinkedList

variable {T : Type} [DecidableEq T] {l : LinkedList T} {h₀ : Heap T} {xs ys : List T} {item : T}

/-! ## Pointers and items -/

/-- The cells of a list have the items `xs`. -/
def Represents (l : LinkedList T) (h₀ : Heap T) (xs : List T) : Prop :=
  ∃ cells : List (Nat × T), Linked l h₀ cells ∧ cells.map Prod.snd = xs

omit [DecidableEq T] in
theorem represents_new (h₀ : Heap T) : (new h₀).Represents h₀ [] := ⟨[], linked_new h₀, rfl⟩

namespace Represents

theorem append (h : l.Represents h₀ xs) (hx : NList.append xs item = .ok ys) (place : Nat) :
    ∃ l', l.append item place = .ok l' ∧ l'.Represents h₀ ys := by
  obtain ⟨cells, h, rfl⟩ := h
  obtain ⟨hi, rfl⟩ := NList.append_eq_ok.mp hx
  obtain ⟨l', a, hl, h'⟩ := h.append hi place
  exact ⟨l', hl, _, h', by simp⟩

theorem prepend (h : l.Represents h₀ xs) (hx : NList.prepend xs item = .ok ys) (place : Nat) :
    ∃ l', l.prepend item place = .ok l' ∧ l'.Represents h₀ ys := by
  obtain ⟨cells, h, rfl⟩ := h
  obtain ⟨hi, rfl⟩ := NList.prepend_eq_ok.mp hx
  obtain ⟨l', a, hl, h'⟩ := h.prepend hi place
  exact ⟨l', hl, _, h', rfl⟩

omit [DecidableEq T] in
theorem removeFront (h : l.Represents h₀ xs) (hx : NList.removeFront xs = .ok (item, ys)) :
    ∃ l', l.removeFront = .ok (item, l') ∧ l'.Represents h₀ ys := by
  obtain ⟨cells, h, rfl⟩ := h
  cases cells with
  | nil => cases hx
  | cons c cells =>
    cases hx
    obtain ⟨l', hl, h'⟩ := h.removeFront
    exact ⟨l', hl, cells, h', rfl⟩

theorem remove (h : l.Represents h₀ xs) (hx : NList.remove xs item = .ok ys) :
    ∃ l', l.remove item = .ok l' ∧ l'.Represents h₀ ys := by
  obtain ⟨cells, h, rfl⟩ := h
  obtain ⟨hi, -, rfl⟩ := NList.remove_eq_ok.mp hx
  obtain ⟨⟨a, x⟩, hc, rfl⟩ := List.mem_map.mp hi
  obtain ⟨c₁, c₂, rfl⟩ := List.append_of_mem hc
  obtain ⟨l', hl, h'⟩ := h.remove
  have hnot : x ∉ c₁.map Prod.snd := by
    have hitems := h.items
    rw [List.map_append, List.map_cons, List.nodup_middle] at hitems
    exact fun hmem => (List.nodup_cons.mp hitems).1 (List.mem_append_left _ hmem)
  refine ⟨l', hl, _, h', ?_⟩
  rw [List.map_append, List.map_append, List.map_cons, List.erase_append_right _ hnot,
    List.erase_cons_head]

theorem insert {compare : T → T → Int} (h : l.Represents h₀ xs)
    (hx : NList.insert compare xs item = .ok ys) (place : Nat) :
    ∃ l', l.insert compare item place = .ok l' ∧ l'.Represents h₀ ys := by
  obtain ⟨cells, h, rfl⟩ := h
  obtain ⟨hi, rfl⟩ := NList.insert_eq_ok.mp hx
  obtain ⟨l₁, l₂, hsplit, hwalk, h₁, h₂⟩ :=
    NList.insertWalk_split compare item (cells.map Prod.snd)
  obtain ⟨c₁, c₂, rfl, rfl, rfl⟩ := List.map_eq_append_iff.mp hsplit
  have hbefore : ∀ c ∈ c₁, ¬ compare item c.2 < 0 := fun c hc => h₁ _ (List.mem_map_of_mem hc)
  have hbehind : ∀ c, c₂.head? = some c → compare item c.2 < 0 := fun c hc =>
    h₂ _ (by rw [List.head?_map, hc]; rfl)
  obtain ⟨l', a, hl, h'⟩ := h.insert hi hbefore hbehind place
  exact ⟨l', hl, _, h', by rw [hwalk, List.map_append, List.map_cons]⟩

omit [DecidableEq T] in
theorem nodup (h : l.Represents h₀ xs) : xs.Nodup := by
  obtain ⟨cells, h, rfl⟩ := h
  exact h.items

end Represents

/-! ## Lists and sequences -/

/-- The list has the items of the sequence, sorted if it is a `SortedList`. -/
structure Holds (cls : ListClass T) (l : LinkedList T) (h₀ : Heap T) (s : Sequence T) : Prop where
  represents : l.Represents h₀ s.items
  ordered : ∀ compare, cls = some compare → s.Ordered compare

variable {cls : ListClass T} {s s' : Sequence T} {compare : T → T → Int} {r : Option T}

namespace Holds

omit [DecidableEq T] in
theorem start (cls : ListClass T) (h₀ : Heap T) : Holds cls (new h₀) h₀ ⟨[], []⟩ :=
  ⟨represents_new h₀, fun _ _ => ⟨.nil, fun _ => rfl⟩⟩

theorem insert (h : Holds (some compare) l h₀ s) (hc : TotalPreorder compare) (hi : item ∉ s.items)
    (place : Nat) : ∃ l', l.insert compare item place = .ok l' ∧
      Holds (some compare) l' h₀
        ⟨Sequence.sortedInsert compare s.items item, s.arrived ++ [item]⟩ := by
  have hs := h.ordered compare rfl
  obtain ⟨l', hl, hr⟩ := h.represents.insert (NList.insert_eq_ok.mpr ⟨hi, rfl⟩) place
  rw [← Sequence.sortedInsert_eq_insertWalk hc hs.sorted] at hr
  refine ⟨l', hl, hr, fun compare' hcls => ?_⟩
  obtain rfl := Option.some.inj hcls
  exact hs.insert hc item

theorem append (h : Holds none l h₀ s) (hi : item ∉ s.items) (place : Nat) :
    ∃ l', l.append item place = .ok l' ∧ Holds none l' h₀ ⟨s.items ++ [item], s.arrived ++ [item]⟩ := by
  obtain ⟨l', hl, hr⟩ := h.represents.append (NList.append_eq_ok.mpr ⟨hi, rfl⟩) place
  exact ⟨l', hl, hr, fun compare hcls => (by cases hcls)⟩

theorem prepend (h : Holds none l h₀ s) (hi : item ∉ s.items) (place : Nat) :
    ∃ l', l.prepend item place = .ok l' ∧ Holds none l' h₀ ⟨item :: s.items, s.arrived ++ [item]⟩ := by
  obtain ⟨l', hl, hr⟩ := h.represents.prepend (NList.prepend_eq_ok.mpr ⟨hi, rfl⟩) place
  exact ⟨l', hl, hr, fun compare hcls => (by cases hcls)⟩

theorem remove (h : Holds cls l h₀ s) (hc : ∀ compare, cls = some compare → TotalPreorder compare)
    (hi : item ∈ s.items) : ∃ l', l.remove item = .ok l' ∧
      Holds cls l' h₀ ⟨s.items.erase item, s.arrived.erase item⟩ := by
  have hnd := h.represents.nodup
  obtain ⟨l', hl, hr⟩ :=
    h.represents.remove (NList.remove_eq_ok.mpr ⟨hi, hnd.not_mem_erase, rfl⟩)
  exact ⟨l', hl, hr, fun compare hcls => (h.ordered compare hcls).erase (hc compare hcls) hnd item⟩

theorem removeFront {items arrived : List T} (h : Holds cls l h₀ ⟨item :: items, arrived⟩)
    (hc : ∀ compare, cls = some compare → TotalPreorder compare) :
    ∃ l', l.removeFront = .ok (item, l') ∧ Holds cls l' h₀ ⟨items, arrived.erase item⟩ := by
  obtain ⟨l', hl, hr⟩ := h.represents.removeFront rfl
  refine ⟨l', hl, hr, fun compare hcls => ?_⟩
  have herase := (h.ordered compare hcls).erase (hc compare hcls) h.represents.nodup item
  rwa [List.erase_cons_head] at herase

/-- An operation that is allowed has the same result on the list. -/
theorem exec (hc : ∀ compare, cls = some compare → TotalPreorder compare) {op : ListOp T}
    (h : Holds cls l h₀ s) (hop : s.step cls op = some (s', r)) :
    ∃ l', l.exec cls op = .ok (l', r) ∧ Holds cls l' h₀ s' := by
  cases op with
  | append item place =>
    cases cls with
    | none =>
      obtain ⟨hi, rfl, rfl⟩ := Sequence.put_eq_some hop
      obtain ⟨l', hl, h'⟩ := h.append hi place
      exact ⟨l', by rw [LinkedList.exec, appendTo, hl]; rfl, h'⟩
    | some compare =>
      obtain ⟨hi, rfl, rfl⟩ := Sequence.put_eq_some hop
      obtain ⟨l', hl, h'⟩ := h.insert (hc compare rfl) hi place
      exact ⟨l', by rw [LinkedList.exec, appendTo, hl]; rfl, h'⟩
  | prepend item place =>
    cases cls with
    | none =>
      obtain ⟨hi, rfl, rfl⟩ := Sequence.put_eq_some hop
      obtain ⟨l', hl, h'⟩ := h.prepend hi place
      exact ⟨l', by rw [LinkedList.exec, prependTo, hl]; rfl, h'⟩
    | some compare =>
      obtain ⟨hi, rfl, rfl⟩ := Sequence.put_eq_some hop
      obtain ⟨l', hl, h'⟩ := h.insert (hc compare rfl) hi place
      exact ⟨l', by rw [LinkedList.exec, prependTo, hl]; rfl, h'⟩
  | insert item place =>
    cases cls with
    | none => cases hop
    | some compare =>
      obtain ⟨hi, rfl, rfl⟩ := Sequence.put_eq_some hop
      obtain ⟨l', hl, h'⟩ := h.insert (hc compare rfl) hi place
      exact ⟨l', by rw [LinkedList.exec, hl]; rfl, h'⟩
  | removeFront =>
    obtain ⟨items, arrived⟩ := s
    cases items with
    | nil => cases hop
    | cons item items =>
      cases hop
      obtain ⟨l', hl, h'⟩ := h.removeFront hc
      exact ⟨l', by rw [LinkedList.exec, hl]; rfl, h'⟩
  | remove item =>
    rw [Sequence.step] at hop
    split at hop
    · obtain ⟨l', hl, h'⟩ := h.remove hc ‹_›
      cases hop
      exact ⟨l', by rw [LinkedList.exec, hl]; rfl, h'⟩
    · cases hop

omit [DecidableEq T] in
/-- The list is sane. -/
theorem sanityCheck (h : Holds cls l h₀ s) : l.sanityCheckOf cls = .ok () := by
  obtain ⟨⟨cells, hl, hitems⟩, hs⟩ := h
  cases cls with
  | none => exact hl.sanityCheck
  | some compare => exact hl.sortedSanityCheck (hitems ▸ (hs compare rfl).sorted)

end Holds

/-- After any operations that are allowed, a list has the items of the sequence that
the same operations make, and has returned what they return: the pointers `first`,
`next` and `last` and `numInList` fit, `SanityCheck` passes, a `SortedList` is sorted
with equal items in the order of their insertion, and `RemoveFront` takes the items
out in that order. -/
theorem refines_sequence {cls : ListClass T}
    (hc : ∀ compare : T → T → Int, cls = some compare → TotalPreorder compare) (h₀ : Heap T)
    (ops : List (ListOp T)) {s : Sequence T} {results : List (Option T)}
    (h : runAll (M := Option) (Sequence.step cls) ⟨[], []⟩ ops = some (s, results)) :
    ∃ l : LinkedList T, runAll (M := Except Abort) (exec cls) (new h₀) ops = .ok (l, results) ∧
      l.Represents h₀ s.items ∧ s.items.Nodup ∧ l.numInList = s.items.length ∧
      l.sanityCheckOf cls = .ok () ∧
      (l.first = none ↔ l.numInList = 0) ∧ (l.last = none ↔ l.numInList = 0) ∧
      (∀ a : Nat, l.last = some a →
        (follow l.heap.read)^[(l.numInList - 1).toNat] l.first = some a ∧
          ∃ item : T, l.heap.lookup a = some ⟨none, item⟩) ∧
      (∀ compare : T → T → Int, cls = some compare → s.Ordered compare) ∧
      ∀ k ≤ s.items.length, ∃ l' : LinkedList T,
        runAll (M := Except Abort) (exec cls) l (List.replicate k .removeFront) =
          .ok (l', (s.items.take k).map some) := by
  have hstep : ∀ (l : LinkedList T) (s : Sequence T) (op : ListOp T) (s' : Sequence T) (r : Option T),
      Holds cls l h₀ s → s.step cls op = some (s', r) →
        ∃ l', l.exec cls op = .ok (l', r) ∧ Holds cls l' h₀ s' :=
    fun l s op s' r hl hop => hl.exec hc hop
  obtain ⟨l, hl, hh⟩ := runAll_simulates hstep (Holds.start cls h₀) h
  obtain ⟨cells, hlinked, hitems⟩ := hh.represents
  refine ⟨l, hl, hh.represents, hh.represents.nodup, ?_, hh.sanityCheck, hlinked.first_eq_none,
    hlinked.last_eq_none, fun a ha => hlinked.last_reached ha, hh.ordered, fun k hk => ?_⟩
  · rw [hlinked.numInList, ← hitems, List.length_map]
  · obtain ⟨s', hs'⟩ := Sequence.takes cls hk
    obtain ⟨l', hl', -⟩ := runAll_simulates hstep hh hs'
    exact ⟨l', hl'⟩

theorem totalPreorder_pendingCompare {C : Type} :
    TotalPreorder (pendingCompare : PendingInterrupt C → PendingInterrupt C → Int) :=
  .of_key (f := PendingInterrupt.when) fun _ _ => rfl

theorem totalPreorder_cmp {P : Type} (k : Kernel P) : TotalPreorder k.cmp :=
  .of_key (f := fun t => (k.thread t).priority) fun _ _ => rfl

/-- Interrupts of the same tick, with one between them that does not come. -/
theorem refines_sequence_ties : ∃ l l' : LinkedList (PendingInterrupt Unit),
    runAll (M := Except Abort) (exec (some pendingCompare)) (new ∅)
      [.insert ⟨0, (), 20, .diskInt⟩ 0, .insert ⟨1, (), 10, .timerInt⟩ 0,
        .insert ⟨2, (), 20, .timerInt⟩ 7, .append ⟨3, (), 15, .diskInt⟩ 7,
        .remove ⟨3, (), 15, .diskInt⟩] =
      .ok (l, [none, none, none, none, none]) ∧
    l.sanityCheckOf (some pendingCompare) = .ok () ∧
    runAll (M := Except Abort) (exec (some pendingCompare)) l [.removeFront, .removeFront, .removeFront] =
      .ok (l', [some ⟨1, (), 10, .timerInt⟩, some ⟨0, (), 20, .diskInt⟩, some ⟨2, (), 20, .timerInt⟩]) := by
  obtain ⟨l, hl, -, -, -, hsane, -, -, -, -, hfront⟩ :=
    @refines_sequence (PendingInterrupt Unit) _ (some pendingCompare)
      (by rintro _ ⟨⟩; exact totalPreorder_pendingCompare) ∅
      [.insert ⟨0, (), 20, .diskInt⟩ 0, .insert ⟨1, (), 10, .timerInt⟩ 0,
        .insert ⟨2, (), 20, .timerInt⟩ 7, .append ⟨3, (), 15, .diskInt⟩ 7,
        .remove ⟨3, (), 15, .diskInt⟩]
      ⟨[⟨1, (), 10, .timerInt⟩, ⟨0, (), 20, .diskInt⟩, ⟨2, (), 20, .timerInt⟩],
        [⟨0, (), 20, .diskInt⟩, ⟨1, (), 10, .timerInt⟩, ⟨2, (), 20, .timerInt⟩]⟩
      [none, none, none, none, none] (by decide +kernel)
  obtain ⟨l', hl'⟩ := hfront 3 (by decide)
  exact ⟨l, l', hl, hsane, hl'⟩

/-! ## `SelfTest` -/

namespace Represents

theorem isInList (h : l.Represents h₀ xs) : l.isInList item = .ok (decide (item ∈ xs)) := by
  obtain ⟨cells, h, rfl⟩ := h
  exact isInList_eq h.chain

omit [DecidableEq T] in
theorem isEmpty_iff (h : l.Represents h₀ xs) : l.isEmpty = true ↔ xs = [] := by
  obtain ⟨cells, h, rfl⟩ := h
  rw [h.isEmpty_iff, List.map_eq_nil_iff]

omit [DecidableEq T] in
theorem first_eq_none (h : l.Represents h₀ []) : l.first = none := by
  obtain ⟨cells, h, hnil⟩ := h
  exact h.chain.eq_none_iff.mpr (List.map_eq_nil_iff.mp hnil)

end Represents

namespace Holds

variable {p : List T}

theorem appendTo (h : Holds cls l h₀ s) (hc : ∀ compare, cls = some compare → TotalPreorder compare)
    (hi : item ∉ s.items) (n : Nat) : ∃ l' s', l.appendTo cls item n = .ok l' ∧ Holds cls l' h₀ s' ∧
      s'.items.Perm (item :: s.items) := by
  cases cls with
  | none =>
    obtain ⟨l', hl, h'⟩ := h.append hi n
    exact ⟨l', _, hl, h', List.perm_append_singleton item s.items⟩
  | some compare =>
    obtain ⟨l', hl, h'⟩ := h.insert (hc compare rfl) hi n
    exact ⟨l', _, hl, h', Sequence.sortedInsert_perm compare s.items item⟩

/-- What is put in is there, and the items that are still to come are not. -/
theorem found (h : Holds cls l h₀ s) {rest : List T} (hs : s.items.Perm (item :: rest))
    (hp : (item :: p ++ rest).Nodup) : l.isInList item = .ok true ∧ l.isEmpty = false ∧
      (p ++ s.items).Nodup ∧ (p ++ s.items).Perm (item :: p ++ rest) := by
  have hmem : item ∈ s.items := hs.mem_iff.mpr List.mem_cons_self
  have hperm : (p ++ s.items).Perm (item :: p ++ rest) :=
    (hs.append_left p).trans List.perm_middle
  refine ⟨?_, ?_, hperm.nodup_iff.mpr hp, hperm⟩
  · rw [h.represents.isInList, decide_eq_true hmem]
  · rw [Bool.eq_false_iff]
    exact mt h.represents.isEmpty_iff.mp (List.ne_nil_of_mem hmem)

theorem appendEach (h : Holds cls l h₀ s) (place : T → Nat)
    (hc : ∀ compare, cls = some compare → TotalPreorder compare) (hp : (p ++ s.items).Nodup) :
    ∃ l' s', l.appendEach cls place p = .ok l' ∧ Holds cls l' h₀ s' ∧
      s'.items.Perm (p ++ s.items) := by
  induction p generalizing l s with
  | nil => exact ⟨l, s, rfl, h, .refl _⟩
  | cons item p ih =>
    have hi : item ∉ s.items := fun hmem =>
      (List.nodup_cons.mp hp).1 (List.mem_append_right _ hmem)
    obtain ⟨l₁, s₁, hl₁, h₁, hs₁⟩ := h.appendTo hc hi (place item)
    obtain ⟨hfound, hempty, hnd, hperm⟩ := h₁.found hs₁ hp
    obtain ⟨l', s', hl', h', hs'⟩ := ih h₁ hnd
    refine ⟨l', s', ?_, h', hs'.trans hperm⟩
    rw [LinkedList.appendEach, hl₁, ok_bind, hfound, ok_bind, assert_of rfl, ok_bind,
      assert_of hempty, ok_bind, hl']

theorem insertEach (h : Holds (some compare) l h₀ s) (place : T → Nat) (hc : TotalPreorder compare)
    (hp : (p ++ s.items).Nodup) :
    ∃ l' s', l.insertEach compare place p = .ok l' ∧ Holds (some compare) l' h₀ s' ∧
      s'.items.Perm (p ++ s.items) := by
  induction p generalizing l s with
  | nil => exact ⟨l, s, rfl, h, .refl _⟩
  | cons item p ih =>
    have hi : item ∉ s.items := fun hmem =>
      (List.nodup_cons.mp hp).1 (List.mem_append_right _ hmem)
    obtain ⟨l₁, hl₁, h₁⟩ := h.insert hc hi (place item)
    obtain ⟨hfound, -, hnd, hperm⟩ :=
      h₁.found (Sequence.sortedInsert_perm compare s.items item) hp
    obtain ⟨l', s', hl', h', hs'⟩ := ih h₁ hnd
    refine ⟨l', s', ?_, h', hs'.trans hperm⟩
    rw [LinkedList.insertEach, hl₁, ok_bind, hfound, ok_bind, assert_of rfl, ok_bind, hl']

theorem removeEach (h : Holds cls l h₀ s)
    (hc : ∀ compare, cls = some compare → TotalPreorder compare) (hp : s.items.Perm p) :
    ∃ l' s', l.removeEach p = .ok l' ∧ Holds cls l' h₀ s' ∧ s'.items = [] := by
  induction p generalizing l s with
  | nil => exact ⟨l, s, rfl, h, hp.eq_nil⟩
  | cons item p ih =>
    obtain ⟨l₁, hl₁, h₁⟩ := h.remove hc (hp.mem_iff.mpr List.mem_cons_self)
    have hgone : l₁.isInList item = .ok false := by
      rw [h₁.represents.isInList, decide_eq_false h.represents.nodup.not_mem_erase]
    obtain ⟨l', s', hl', h', hs'⟩ := ih h₁ (by simpa using hp.erase item)
    refine ⟨l', s', ?_, h', hs'⟩
    rw [LinkedList.removeEach, hl₁, ok_bind, hgone, ok_bind, assert_of rfl, ok_bind, hl']

theorem removeFronts (h : Holds cls l h₀ s)
    (hc : ∀ compare, cls = some compare → TotalPreorder compare) :
    ∃ l' s', l.removeFronts s.items.length = .ok (s.items, l') ∧ Holds cls l' h₀ s' ∧
      s'.items = [] := by
  obtain ⟨items, arrived⟩ := s
  induction items generalizing l arrived with
  | nil => exact ⟨l, _, rfl, h, rfl⟩
  | cons item items ih =>
    obtain ⟨l₁, hl₁, h₁⟩ := h.removeFront hc
    have hgone : l₁.isInList item = .ok false := by
      rw [h₁.represents.isInList, decide_eq_false (List.nodup_cons.mp h.represents.nodup).1]
    obtain ⟨l', s', hl', h', hs'⟩ := ih _ h₁
    refine ⟨l', s', ?_, h', hs'⟩
    rw [List.length_cons, LinkedList.removeFronts, hl₁, ok_bind]
    dsimp only
    rw [hgone, ok_bind, assert_of rfl, ok_bind, hl']
    rfl

end Holds

omit [DecidableEq T] in
theorem rightOrder_of_sorted (hs : xs.Pairwise fun x y => compare x y ≤ 0) :
    rightOrder compare xs = .ok () := by
  induction xs with
  | nil => rfl
  | cons x xs ih =>
    obtain ⟨hx, htail⟩ := List.pairwise_cons.mp hs
    cases xs with
    | nil => rfl
    | cons y xs =>
      rw [rightOrder, assert_of (hx y List.mem_cons_self), ok_bind]
      exact ih htail

namespace Holds

variable {p : List T}

/-- `SelfTest` passes on an empty list, and leaves it empty. -/
theorem selfTest (h : Holds cls l h₀ s) (place : T → Nat)
    (hc : ∀ compare, cls = some compare → TotalPreorder compare) (hs : s.items = []) (hp : p.Nodup) :
    ∃ l' s', l.selfTest cls place p = .ok l' ∧ Holds cls l' h₀ s' ∧ s'.items = [] := by
  have hempty : l.isEmpty = true := h.represents.isEmpty_iff.mpr hs
  have hfirst : l.first = none := (hs ▸ h.represents).first_eq_none
  obtain ⟨l₁, s₁, hl₁, h₁, hs₁⟩ := h.appendEach place hc (p := p) (by rwa [hs, List.append_nil])
  rw [hs, List.append_nil] at hs₁
  obtain ⟨l₂, s₂, hl₂, h₂, hs₂⟩ := h₁.removeEach hc hs₁
  refine ⟨l₂, s₂, ?_, h₂, hs₂⟩
  unfold LinkedList.selfTest
  rw [h.sanityCheck, ok_bind, assert_of ⟨hempty, hfirst⟩, ok_bind, hl₁, ok_bind, h₁.sanityCheck, ok_bind,
    hl₂, ok_bind, assert_of (h₂.represents.isEmpty_iff.mpr hs₂), ok_bind, h₂.sanityCheck]
  rfl

/-- So does that of a `SortedList`. -/
theorem sortedSelfTest (h : Holds (some compare) l h₀ s) (place place' : T → Nat)
    (hc : TotalPreorder compare) (hs : s.items = []) (hp : p.Nodup) :
    ∃ l' s', l.sortedSelfTest compare place place' p = .ok l' ∧ Holds (some compare) l' h₀ s' ∧
      s'.items = [] := by
  have hcls : ∀ compare', some compare = some compare' → TotalPreorder compare' := by
    rintro _ ⟨⟩
    exact hc
  obtain ⟨l₁, s₁, hl₁, h₁, hs₁⟩ := h.selfTest place hcls hs hp
  obtain ⟨l₂, s₂, hl₂, h₂, hs₂⟩ :=
    h₁.insertEach place' hc (p := p) (by rwa [hs₁, List.append_nil])
  rw [hs₁, List.append_nil] at hs₂
  obtain ⟨l₃, s₃, hl₃, h₃, hs₃⟩ := h₂.removeFronts hcls
  rw [hs₂.length_eq] at hl₃
  have hsane₂ : l₂.sortedSanityCheck compare = .ok () := h₂.sanityCheck
  have hsane₃ : l₃.sortedSanityCheck compare = .ok () := h₃.sanityCheck
  refine ⟨l₃, s₃, ?_, h₃, hs₃⟩
  unfold LinkedList.sortedSelfTest
  rw [hl₁, ok_bind, hl₂, ok_bind, hsane₂, ok_bind, hl₃, ok_bind]
  dsimp only
  rw [assert_of (h₃.represents.isEmpty_iff.mpr hs₃), ok_bind,
    rightOrder_of_sorted (h₂.ordered compare rfl).sorted, ok_bind, hsane₃]
  rfl

end Holds

end LinkedList

end Nachos

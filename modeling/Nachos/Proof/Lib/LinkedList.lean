import Mathlib.Data.List.MinMax
import Nachos.Framework.Segment
import Nachos.Impl.Lib.LinkedList
import Nachos.Proof.Lib.List

/-!
# Linked lists represent sequences

The elements of a list are a segment of its memory from `first` to `NULL`
(`Framework.Segment`), `last` is the address of the last one, and `numInList` their
number (`Linked`). An operation changes the pointers around one cell: `Linked.inserted`
and `Linked.removed` say what it must have done, and one lemma for each operation
says that it did. Memory that is not of this list stays as it was.
-/

namespace Nachos

open Framework.Segment

namespace Heap

variable {T : Type} {h : Heap T} {a : Nat} {r q : Pointer} {x : T}

/-- What a pointer to `a` points to. -/
def read (h : Heap T) (a : Nat) : Option (Pointer × T) := (h.lookup a).map fun e => (e.next, e.item)

theorem lookup_of_read (ha : h.read a = some (r, x)) : h.lookup a = some ⟨r, x⟩ := by
  obtain ⟨e, he, hx⟩ := Option.map_eq_some_iff.mp ha
  cases hx
  exact he

theorem mem_keys_of_read (ha : h.read a = some (r, x)) : a ∈ h.keys :=
  AList.mem_keys.mp (AList.lookup_isSome.mp (by rw [lookup_of_read ha]; rfl))

theorem read_insert (h : Heap T) (a b : Nat) (e : ListElement T) :
    Heap.read (h.insert a e) b = if b = a then some (e.next, e.item) else h.read b := by
  unfold read
  by_cases hb : b = a
  · rw [if_pos hb, hb, AList.lookup_insert]
    rfl
  · rw [if_neg hb, AList.lookup_insert_ne hb]

theorem read_erase (h : Heap T) (a b : Nat) :
    Heap.read (h.erase a) b = if b = a then none else h.read b := by
  unfold read
  by_cases hb : b = a
  · rw [if_pos hb, hb, AList.lookup_erase]
    rfl
  · rw [if_neg hb, AList.lookup_erase_ne hb]

theorem deref_of_read (ha : h.read a = some (r, x)) : h.deref (some a) = .ok ⟨r, x⟩ := by
  unfold deref
  rw [Option.bind_some, lookup_of_read ha]

theorem setNext_of_read (ha : h.read a = some (r, x)) (q : Pointer) :
    ∃ h' : Heap T, h.setNext (some a) q = .ok h' ∧
      ∀ b, h'.read b = if b = a then some (q, x) else h.read b := by
  refine ⟨h.insert a ⟨q, x⟩, ?_, fun b => read_insert h a b ⟨q, x⟩⟩
  simp only [setNext, deref_of_read ha, ok_bind, pure_eq_ok]

theorem delete_of_read (ha : h.read a = some (r, x)) :
    ∃ h' : Heap T, h.delete (some a) = .ok h' ∧
      ∀ b, h'.read b = if b = a then none else h.read b := by
  refine ⟨h.erase a, ?_, read_erase h a⟩
  simp only [delete, deref_of_read ha, ok_bind, pure_eq_ok]

/-- `new` finds an address that is not in use. -/
theorem read_free (h : Heap T) (place : Nat) : h.read (h.free place) = none := by
  have hnot : h.free place ∉ h := by
    unfold free
    split
    · intro hmem
      exact absurd (List.le_max_of_le' 0 (AList.mem_keys.mp hmem) le_rfl) (Nat.not_succ_le_self _)
    · assumption
  rw [read, AList.lookup_eq_none.mpr hnot]
  rfl

end Heap

namespace LinkedList

variable {T : Type} [DecidableEq T] {l l' : LinkedList T} {h₀ : Heap T} {cells c₁ c₂ : List (Nat × T)}
  {a : Nat} {r : Pointer} {x item : T}

/-- The cells of a list, in a memory that is `h₀` without them. -/
structure Linked (l : LinkedList T) (h₀ : Heap T) (cells : List (Nat × T)) : Prop where
  chain : Seg l.heap.read l.first cells none
  last : l.last = (cells.map Prod.fst).getLast?
  numInList : l.numInList = cells.length
  items : (cells.map Prod.snd).Nodup
  own : ∀ c ∈ cells, h₀.read c.1 = none
  others : ∀ a, a ∉ cells.map Prod.fst → l.heap.read a = h₀.read a

omit [DecidableEq T] in
theorem linked_new (h₀ : Heap T) : (new h₀).Linked h₀ [] :=
  ⟨rfl, rfl, rfl, .nil, fun c hc => (by cases hc), fun _ _ => rfl⟩

/-! ## The loop of `IsInList` -/

theorem isInListFrom_eq {h : Heap T} {p : Pointer} (hs : Seg h.read p cells none) {n : Nat}
    (hn : cells.length ≤ n) :
    isInListFrom h item n p = .ok (decide (item ∈ cells.map Prod.snd)) := by
  induction cells generalizing p n with
  | nil =>
    obtain rfl : p = none := hs
    cases n <;> rfl
  | cons c cells ih =>
    obtain ⟨a, x⟩ := c
    obtain ⟨rfl, r, ha, hs⟩ := hs
    obtain _ | n := n
    · cases hn
    · rw [isInListFrom, Heap.deref_of_read ha, ok_bind]
      by_cases hx : item = x
      · simp [hx]
      · rw [if_neg hx, ih hs (Nat.le_of_succ_le_succ hn)]
        simp [hx]

omit [DecidableEq T] in
theorem length_le_size {h : Heap T} {p : Pointer} (hs : Seg h.read p cells none) :
    cells.length ≤ h.size :=
  hs.length_le fun _ _ ha => Heap.mem_keys_of_read ha

theorem isInList_eq (hs : Seg l.heap.read l.first cells none) :
    l.isInList item = .ok (decide (item ∈ cells.map Prod.snd)) :=
  isInListFrom_eq hs (length_le_size hs)

/-! ## Cells put in and taken out -/

namespace Linked

omit [DecidableEq T]

theorem read_of_mem (h : Linked l h₀ cells) {c : Nat × T} (hc : c ∈ cells) :
    ∃ r, l.heap.read c.1 = some (r, c.2) :=
  h.chain.mem hc

theorem not_mem_of_read (h : Linked l h₀ cells) (ha : l.heap.read a = none) :
    a ∉ cells.map Prod.fst := by
  intro hmem
  obtain ⟨c, hc, rfl⟩ := List.mem_map.mp hmem
  obtain ⟨r, hr⟩ := h.read_of_mem hc
  rw [ha] at hr
  cases hr

/-- A new cell between two parts of the list. -/
theorem inserted (h : Linked l h₀ (c₁ ++ c₂)) (ha : l.heap.read a = none)
    (hitem : item ∉ (c₁ ++ c₂).map Prod.snd) (h₁ : Seg l'.heap.read l'.first c₁ (some a))
    (hcell : l'.heap.read a = some (r, item)) (h₂ : Seg l'.heap.read r c₂ none)
    (hrest : ∀ b, b ≠ a → b ∉ (c₁ ++ c₂).map Prod.fst → l'.heap.read b = l.heap.read b)
    (hlast : l'.last = if c₂ = [] then some a else l.last)
    (hnum : l'.numInList = l.numInList + 1) : Linked l' h₀ (c₁ ++ (a, item) :: c₂) := by
  have hnot := h.not_mem_of_read ha
  refine ⟨seg_append.mpr ⟨some a, h₁, rfl, r, hcell, h₂⟩, ?_, ?_, ?_, fun c hc => ?_, fun b hb => ?_⟩
  · rw [hlast, h.last]
    cases c₂ with
    | nil => simp
    | cons c c₂ => simp [List.getLast?_append, List.getLast?_cons]
  · rw [hnum, h.numInList]
    simp only [List.length_append, List.length_cons]
    omega
  · have hperm : ((c₁ ++ (a, item) :: c₂).map Prod.snd).Perm
        (item :: (c₁ ++ c₂).map Prod.snd) := by
      rw [List.map_append, List.map_append, List.map_cons]
      exact List.perm_middle
    exact hperm.nodup_iff.mpr (List.nodup_cons.mpr ⟨hitem, h.items⟩)
  · rcases List.mem_append.mp hc with hc | hc
    · exact h.own c (List.mem_append_left _ hc)
    · rcases List.mem_cons.mp hc with rfl | hc
      · exact (h.others a hnot).symm.trans ha
      · exact h.own c (List.mem_append_right _ hc)
  · have hba : b ≠ a := by
      rintro rfl
      exact hb (by simp)
    have hmem : b ∉ (c₁ ++ c₂).map Prod.fst := fun hm => hb (by
      rw [List.map_append, List.mem_append] at hm
      rw [List.map_append, List.map_cons, List.mem_append, List.mem_cons]
      exact hm.imp id .inr)
    rw [hrest b hba hmem, h.others b hmem]

/-- A cell taken out from between two parts of the list. -/
theorem removed (h : Linked l h₀ (c₁ ++ (a, x) :: c₂)) (h₁ : Seg l'.heap.read l'.first c₁ r)
    (h₂ : Seg l'.heap.read r c₂ none) (hgone : l'.heap.read a = none)
    (hrest : ∀ b, b ≠ a → b ∉ (c₁ ++ c₂).map Prod.fst → l'.heap.read b = l.heap.read b)
    (hlast : l'.last = if c₂ = [] then (c₁.map Prod.fst).getLast? else l.last)
    (hnum : l'.numInList = l.numInList - 1) : Linked l' h₀ (c₁ ++ c₂) := by
  refine ⟨seg_append.mpr ⟨r, h₁, h₂⟩, ?_, ?_, ?_, fun c hc => ?_, fun b hb => ?_⟩
  · rw [hlast, h.last]
    cases c₂ with
    | nil => simp
    | cons c c₂ => simp [List.getLast?_append, List.getLast?_cons]
  · rw [hnum, h.numInList]
    simp only [List.length_append, List.length_cons]
    omega
  · have hsub : ((c₁ ++ c₂).map Prod.snd).Sublist ((c₁ ++ (a, x) :: c₂).map Prod.snd) :=
      ((List.sublist_cons_self _ _).append_left c₁).map _
    exact h.items.sublist hsub
  · refine h.own c ?_
    rcases List.mem_append.mp hc with hc | hc
    · exact List.mem_append_left _ hc
    · exact List.mem_append_right _ (List.mem_cons_of_mem _ hc)
  · by_cases hba : b = a
    · rw [hba, hgone, h.own (a, x) (by simp)]
    · rw [hrest b hba hb, h.others b fun hm => hb ?_]
      rw [List.map_append, List.map_cons, List.mem_append, List.mem_cons] at hm
      rw [List.map_append, List.mem_append]
      rcases hm with hm | hm | hm
      · exact .inl hm
      · exact absurd hm hba
      · exact .inr hm

end Linked

/-! ## The operations -/

/-- What `new` leaves: the list is as it was, and there is a cell that is not in it. -/
structure Allocated (l l₁ : LinkedList T) (a : Nat) (item : T) (cells : List (Nat × T)) : Prop where
  fresh : l.heap.read a = none
  cell : l₁.heap.read a = some (none, item)
  others : ∀ b, b ≠ a → l₁.heap.read b = l.heap.read b
  first : l₁.first = l.first
  last : l₁.last = l.last
  numInList : l₁.numInList = l.numInList
  chain : Seg l₁.heap.read l.first cells none

namespace Linked

omit [DecidableEq T] in
theorem allocate (h : Linked l h₀ cells) (item : T) (place : Nat) :
    ∃ a l₁, l.allocate item place = (a, l₁) ∧ Allocated l l₁ a item cells := by
  have hfresh := l.heap.read_free place
  have hread := fun b => Heap.read_insert l.heap (l.heap.free place) b ⟨none, item⟩
  refine ⟨_, _, rfl, hfresh, ?_, fun b hb => ?_, rfl, rfl, rfl, h.chain.congr fun c hc => ?_⟩
  · rw [hread, if_pos rfl]
  · rw [hread, if_neg hb]
  · rw [hread, if_neg]
    exact fun hb => h.not_mem_of_read hfresh (hb ▸ List.mem_map_of_mem hc)

theorem counted {l₁ : LinkedList T} (h : Linked { l₁ with numInList := l₁.numInList + 1 } h₀ cells)
    (hi : item ∈ cells.map Prod.snd) :
    l₁.counted item = .ok { l₁ with numInList := l₁.numInList + 1 } := by
  unfold LinkedList.counted
  dsimp only
  rw [isInList_eq h.chain, decide_eq_true hi, ok_bind, assert_of rfl, ok_bind, pure_eq_ok]

omit [DecidableEq T] in
theorem isEmpty_iff (h : Linked l h₀ cells) : l.isEmpty = true ↔ cells = [] := by
  rw [LinkedList.isEmpty, h.numInList]
  simp

/-- Before an item is put in, it is not in the list. -/
theorem absent {l₁ : LinkedList T} (hal : Allocated l l₁ a item cells)
    (hi : item ∉ cells.map Prod.snd) : l₁.isInList item = .ok false := by
  have hchain : Seg l₁.heap.read l₁.first cells none := hal.first ▸ hal.chain
  rw [isInList_eq hchain, decide_eq_false hi]

omit [DecidableEq T] in
/-- A cell put in behind the last one. -/
theorem link_last {l₁ : LinkedList T} {cs : List (Nat × T)} {b : Nat} {y : T}
    (h : Linked l h₀ (cs ++ [(b, y)])) (hal : Allocated l l₁ a item (cs ++ [(b, y)]))
    (hi : item ∉ (cs ++ [(b, y)]).map Prod.snd) :
    ∃ heap, l₁.heap.setNext l₁.last (some a) = .ok heap ∧
      Linked ⟨heap, l₁.first, some a, l₁.numInList + 1⟩ h₀ (cs ++ [(b, y)] ++ [(a, item)]) := by
  have hnot := h.not_mem_of_read hal.fresh
  have hnodup := h.chain.nodup
  obtain ⟨hcs, hb⟩ := seg_snoc.mp hal.chain
  obtain ⟨heap, hset, hread⟩ := Heap.setNext_of_read hb (some a)
  have hlast : l₁.last = some b := by
    rw [hal.last, h.last]
    simp
  refine ⟨heap, by rw [hlast, hset], ?_⟩
  have hab : a ≠ b := by
    rintro rfl
    exact hnot (by simp)
  refine inserted (by rwa [List.append_nil]) hal.fresh (by rwa [List.append_nil]) ?_
    (r := none) ?_ rfl (fun d hda hd => ?_) rfl (by rw [hal.numInList])
  · rw [hal.first]
    refine hal.chain.relink (fun c hc => ?_) ?_
    · rw [hread, if_neg]
      rintro rfl
      rw [List.map_append] at hnodup
      exact (List.nodup_append.mp hnodup).2.2 _ (List.mem_map_of_mem hc) _ (by simp) rfl
    · rw [hread, if_pos rfl]
  · rw [hread, if_neg hab, hal.cell]
  · rw [hread, if_neg, hal.others d hda]
    rintro rfl
    exact hd (by simp)

omit [DecidableEq T] in
/-- A cell put in before the first one. -/
theorem link_first {l₁ : LinkedList T} (h : Linked l h₀ cells) (hne : cells ≠ [])
    (hal : Allocated l l₁ a item cells) (hi : item ∉ cells.map Prod.snd) :
    ∃ heap, l₁.heap.setNext (some a) l₁.first = .ok heap ∧
      Linked ⟨heap, some a, l₁.last, l₁.numInList + 1⟩ h₀ ((a, item) :: cells) := by
  have hnot := h.not_mem_of_read hal.fresh
  obtain ⟨heap, hset, hread⟩ := Heap.setNext_of_read hal.cell l₁.first
  refine ⟨heap, hset, ?_⟩
  have hrest : ∀ d, d ≠ a → heap.read d = l₁.heap.read d := fun d hd => by rw [hread, if_neg hd]
  have hchain : Seg heap.read l₁.first cells none := by
    rw [hal.first]
    refine hal.chain.congr fun c hc => hrest _ ?_
    rintro rfl
    exact hnot (List.mem_map_of_mem hc)
  have hcell : heap.read a = some (l₁.first, item) := by rw [hread, if_pos rfl]
  show Linked _ h₀ ([] ++ (a, item) :: cells)
  refine inserted h hal.fresh hi rfl hcell hchain (fun d hd _ => ?_) ?_ (by rw [hal.numInList])
  · exact (hrest d hd).trans (hal.others d hd)
  · rw [if_neg hne, hal.last]

omit [DecidableEq T] in
/-- The first cell of all. -/
theorem link_only {l₁ : LinkedList T} (h : Linked l h₀ []) (hal : Allocated l l₁ a item []) :
    Linked ⟨l₁.heap, some a, some a, l₁.numInList + 1⟩ h₀ [(a, item)] := by
  show Linked _ h₀ ([] ++ (a, item) :: [])
  exact inserted h hal.fresh (by simp) rfl hal.cell rfl (fun b hb _ => hal.others b hb) rfl
    (by rw [hal.numInList])

omit [DecidableEq T] in
theorem isEmpty_allocated {l₁ : LinkedList T} (h : Linked l h₀ cells)
    (hal : Allocated l l₁ a item cells) : l₁.isEmpty = true ↔ cells = [] := by
  rw [← h.isEmpty_iff, LinkedList.isEmpty, hal.numInList, LinkedList.isEmpty]

theorem append (h : Linked l h₀ cells) (hi : item ∉ cells.map Prod.snd) (place : Nat) :
    ∃ l' a, l.append item place = .ok l' ∧ Linked l' h₀ (cells ++ [(a, item)]) := by
  obtain ⟨a, l₁, hnew, hal⟩ := h.allocate item place
  unfold LinkedList.append
  simp only [hnew]
  rw [absent hal hi, ok_bind, assert_of rfl, ok_bind]
  have hempty := h.isEmpty_allocated hal
  rcases List.eq_nil_or_concat' cells with rfl | ⟨cs, ⟨b, y⟩, rfl⟩
  · have hl := h.link_only hal
    refine ⟨_, a, ?_, hl⟩
    rw [if_pos (hempty.mpr rfl)]
    exact hl.counted (by simp)
  · obtain ⟨heap, hset, hl⟩ := h.link_last hal hi
    refine ⟨_, a, ?_, hl⟩
    rw [if_neg (mt hempty.mp (by simp)), hset, ok_bind]
    exact hl.counted (by simp)

theorem prepend (h : Linked l h₀ cells) (hi : item ∉ cells.map Prod.snd) (place : Nat) :
    ∃ l' a, l.prepend item place = .ok l' ∧ Linked l' h₀ ((a, item) :: cells) := by
  obtain ⟨a, l₁, hnew, hal⟩ := h.allocate item place
  unfold LinkedList.prepend
  simp only [hnew]
  rw [absent hal hi, ok_bind, assert_of rfl, ok_bind]
  have hempty := h.isEmpty_allocated hal
  by_cases hne : cells = []
  · subst hne
    have hl := h.link_only hal
    refine ⟨_, a, ?_, hl⟩
    rw [if_pos (hempty.mpr rfl)]
    exact hl.counted (by simp)
  · obtain ⟨heap, hset, hl⟩ := h.link_first hne hal hi
    refine ⟨_, a, ?_, hl⟩
    rw [if_neg (mt hempty.mp hne), hset, ok_bind]
    exact hl.counted (by simp)

omit [DecidableEq T] in
/-- The first cell is the last one if it is the only one. -/
theorem first_eq_last (h : Linked l h₀ ((a, x) :: cells)) : l.first = l.last ↔ cells = [] := by
  obtain ⟨hfirst, -⟩ := h.chain
  rw [hfirst, h.last]
  rcases List.eq_nil_or_concat' cells with rfl | ⟨cs, ⟨b, y⟩, rfl⟩
  · exact iff_of_true rfl rfl
  · refine iff_of_false ?_ (by simp)
    have hnodup := h.chain.nodup
    rw [List.map_cons, List.nodup_cons] at hnodup
    have hlast : (((a, x) :: (cs ++ [(b, y)])).map Prod.fst).getLast? = some b := by
      simp [List.getLast?_cons]
    rw [hlast]
    intro hab
    exact hnodup.1 (by simp [Option.some.inj hab])

omit [DecidableEq T] in
theorem removeFront (h : Linked l h₀ ((a, x) :: cells)) :
    ∃ l', l.removeFront = .ok (x, l') ∧ Linked l' h₀ cells := by
  obtain ⟨hfirst, r, ha, hs⟩ := id h.chain
  obtain ⟨heap, hdel, hread⟩ := Heap.delete_of_read ha
  have hnot : a ∉ cells.map Prod.fst := (List.nodup_cons.mp h.chain.nodup).1
  have hrest : ∀ d, d ≠ a → heap.read d = l.heap.read d := fun d hd => by rw [hread, if_neg hd]
  have hgone : heap.read a = none := by rw [hread, if_pos rfl]
  have hchain : Seg heap.read r cells none := hs.congr fun c hc => hrest _ (by
    rintro rfl
    exact hnot (List.mem_map_of_mem hc))
  unfold LinkedList.removeFront
  rw [assert_of (Bool.eq_false_iff.mpr (mt h.isEmpty_iff.mp (List.cons_ne_nil _ _))), ok_bind]
  simp only [hfirst, Heap.deref_of_read ha, hdel, ok_bind]
  rw [← hfirst]
  by_cases hne : cells = []
  · subst hne
    obtain rfl : r = none := hchain
    have hl : Linked ⟨heap, none, none, l.numInList - 1⟩ h₀ ([] ++ []) :=
      removed h rfl rfl hgone (fun d hd _ => hrest d hd) rfl rfl
    refine ⟨_, ?_, hl⟩
    rw [if_pos (h.first_eq_last.mpr rfl), pure_eq_ok]
  · have hl : Linked ⟨heap, r, l.last, l.numInList - 1⟩ h₀ ([] ++ cells) :=
      removed h rfl hchain hgone (fun d hd _ => hrest d hd) (by rw [if_neg hne]) rfl
    refine ⟨_, ?_, hl⟩
    rw [if_neg fun he => hne (h.first_eq_last.mp he), pure_eq_ok]

/-! ## Loops that change the list -/

omit [DecidableEq T] in
/-- The other cells are at other addresses. -/
theorem apart {pre cs : List (Nat × T)} (hnodup : ((pre ++ (a, x) :: cs).map Prod.fst).Nodup) :
    ∀ c ∈ pre ++ cs, c.1 ≠ a := by
  rw [List.map_append, List.map_cons, List.nodup_middle, ← List.map_append] at hnodup
  intro c hc he
  have hmem := List.mem_map_of_mem (f := Prod.fst) hc
  rw [he] at hmem
  exact (List.nodup_cons.mp hnodup).1 hmem

/-- The loop of `Remove` goes over the cells `mid`, to that of the item. -/
theorem removeAfter {pre mid : List (Nat × T)} {b n : Nat} {y : T} {ptr : Pointer}
    (h : Linked l h₀ (pre ++ (b, y) :: (mid ++ (a, item) :: c₂)))
    (hb : l.heap.read b = some (ptr, y)) (hn : mid.length < n) :
    ∃ l', l.removeAfter item n (some b) ptr = .ok l' ∧ Linked l' h₀ (pre ++ (b, y) :: (mid ++ c₂)) := by
  induction mid generalizing pre b y ptr n with
  | nil =>
    obtain ⟨_, -, rfl, ptr', hb', hs⟩ := seg_append.mp h.chain
    cases hb.symm.trans hb'
    obtain ⟨rfl, r, ha, hs⟩ := hs
    have h' : Linked l h₀ ((pre ++ [(b, y)]) ++ (a, item) :: c₂) := by rwa [List.append_assoc]
    have hneb := apart h.chain.nodup
    have hnea := apart h'.chain.nodup
    have hab : a ≠ b := hneb (a, item) (by simp)
    obtain ⟨n, rfl⟩ := Nat.exists_eq_succ_of_ne_zero (Nat.ne_of_gt hn)
    obtain ⟨heap₁, hset, hread₁⟩ := Heap.setNext_of_read hb r
    have hb₁ : heap₁.read b = some (r, y) := by rw [hread₁, if_pos rfl]
    have ha₁ : heap₁.read a = some (r, item) := by rw [hread₁, if_neg hab, ha]
    obtain ⟨heap₂, hdel, hread₂⟩ := Heap.delete_of_read ha₁
    have hread : ∀ d, d ≠ a → d ≠ b → heap₂.read d = l.heap.read d := fun d hda hdb => by
      rw [hread₂, if_neg hda, hread₁, if_neg hdb]
    have hchain : Seg heap₂.read r c₂ none := hs.congr fun c hc =>
      hread _ (hnea c (by simp [hc])) (hneb c (by simp [hc]))
    have hl : Linked ⟨heap₂, l.first, if r = none then some b else l.last, l.numInList - 1⟩ h₀
        ((pre ++ [(b, y)]) ++ c₂) := by
      refine h'.removed ?_ hchain ?_ (fun d hda hd => ?_) ?_ rfl
      · refine h.chain.relink (fun c hc => hread _ (hnea c (by simp [hc])) (hneb c (by simp [hc]))) ?_
        rw [hread₂, if_neg (Ne.symm hab), hb₁]
      · rw [hread₂, if_pos rfl]
      · refine hread d hda ?_
        rintro rfl
        exact hd (by simp)
      · simp only [hchain.eq_none_iff]
        congr 1
        simp
    refine ⟨_, ?_, by rwa [List.append_assoc] at hl⟩
    simp only [LinkedList.removeAfter, Heap.deref_of_read ha, ok_bind, if_true, hset,
      Heap.deref_of_read hb₁, hdel, pure_eq_ok]
  | cons c mid ih =>
    obtain ⟨c, z⟩ := c
    obtain ⟨_, -, rfl, ptr', hb', hs⟩ := seg_append.mp h.chain
    cases hb.symm.trans hb'
    obtain ⟨rfl, r, hc, -⟩ := hs
    obtain ⟨n, rfl⟩ := Nat.exists_eq_succ_of_ne_zero (Nat.ne_of_gt (Nat.lt_of_le_of_lt (Nat.zero_le _) hn))
    have hne : ¬ item = z := by
      have hitems := h.items
      intro he
      simp only [List.map_append, List.map_cons, List.cons_append] at hitems
      have htail := (List.nodup_append.mp hitems).2.1
      exact (List.nodup_cons.mp (List.nodup_cons.mp htail).2).1 (by simp [he])
    have h' : Linked l h₀ ((pre ++ [(b, y)]) ++ (c, z) :: (mid ++ (a, item) :: c₂)) := by
      simpa only [List.append_assoc, List.cons_append, List.nil_append] using h
    obtain ⟨l', hx, hl⟩ := ih h' hc (Nat.lt_of_succ_lt_succ hn)
    refine ⟨l', ?_, by simpa only [List.append_assoc, List.cons_append, List.nil_append] using hl⟩
    simp only [LinkedList.removeAfter, Heap.deref_of_read hc, ok_bind, if_neg hne, hx]

theorem lacks (h : Linked l h₀ cells) (hi : item ∉ cells.map Prod.snd) :
    l.isInList item = .ok false := by
  rw [isInList_eq h.chain, decide_eq_false hi]

theorem remove (h : Linked l h₀ (c₁ ++ (a, item) :: c₂)) :
    ∃ l', l.remove item = .ok l' ∧ Linked l' h₀ (c₁ ++ c₂) := by
  have hfound : l.isInList item = .ok true := by
    rw [isInList_eq h.chain, decide_eq_true (by simp)]
  have hgone : item ∉ (c₁ ++ c₂).map Prod.snd := by
    have hitems := h.items
    rw [List.map_append, List.map_cons, List.nodup_middle] at hitems
    rw [List.map_append]
    exact (List.nodup_cons.mp hitems).1
  unfold LinkedList.remove
  rw [hfound, ok_bind, assert_of rfl, ok_bind]
  cases c₁ with
  | nil =>
    obtain ⟨hfirst, r, ha, -⟩ := id h.chain
    obtain ⟨l', hx, hl⟩ := h.removeFront
    refine ⟨l', ?_, hl⟩
    rw [hfirst, Heap.deref_of_read ha]
    simp only [ok_bind, if_true, hx, assert_of trivial, pure_eq_ok, hl.lacks hgone]
  | cons b c₁ =>
    obtain ⟨b, y⟩ := b
    obtain ⟨hfirst, r, hb, -⟩ := id h.chain
    have hne : ¬ item = y := by
      have hitems := h.items
      rintro rfl
      exact (List.nodup_cons.mp hitems).1 (by simp)
    have hlen : c₁.length < l.heap.size := by
      have hle := length_le_size h.chain
      simp only [List.length_append, List.length_cons, List.cons_append] at hle
      omega
    obtain ⟨l', hx, hl⟩ : ∃ l', l.removeAfter item l.heap.size (some b) r = .ok l' ∧
        Linked l' h₀ ([] ++ (b, y) :: (c₁ ++ c₂)) := removeAfter h hb hlen
    refine ⟨l', ?_, hl⟩
    rw [hfirst, Heap.deref_of_read hb]
    simp only [ok_bind, if_neg hne, hx, hl.lacks hgone, assert_of trivial, pure_eq_ok]

omit [DecidableEq T] in
/-- The loop of `Insert` goes over the cells `mid`, to one in front of a larger item or to
the last one. -/
theorem insertAfter {compare : T → T → Int} {l₁ : LinkedList T} {pre mid : List (Nat × T)} {b n : Nat}
    {y : T} (h : Linked l h₀ (pre ++ (b, y) :: (mid ++ c₂)))
    (hal : Allocated l l₁ a item (pre ++ (b, y) :: (mid ++ c₂)))
    (hi : item ∉ (pre ++ (b, y) :: (mid ++ c₂)).map Prod.snd)
    (hmid : ∀ c ∈ mid, ¬ compare item c.2 < 0)
    (hhead : ∀ c, c₂.head? = some c → compare item c.2 < 0) (hn : mid.length < n) :
    (c₂ = [] ∧ LinkedList.insertAfter compare l₁ item a n (some b) = .ok none) ∨
      ∃ l', LinkedList.insertAfter compare l₁ item a n (some b) = .ok (some l') ∧
        Linked l' h₀ (pre ++ (b, y) :: (mid ++ (a, item) :: c₂)) := by
  induction mid generalizing pre b y n with
  | nil =>
    obtain ⟨_, -, rfl, r, hb, hs⟩ := seg_append.mp hal.chain
    obtain ⟨n, rfl⟩ := Nat.exists_eq_succ_of_ne_zero (Nat.ne_of_gt hn)
    cases c₂ with
    | nil =>
      obtain rfl : r = none := hs
      refine .inl ⟨rfl, ?_⟩
      simp only [LinkedList.insertAfter, Heap.deref_of_read hb, ok_bind, pure_eq_ok]
    | cons c c₂ =>
      obtain ⟨c, z⟩ := c
      obtain ⟨rfl, r', hc, -⟩ := id hs
      have hlt : compare item z < 0 := hhead _ rfl
      have hneb := apart h.chain.nodup
      have hnea : ∀ d ∈ pre ++ (b, y) :: (c, z) :: c₂, d.1 ≠ a := by
        rintro d hd rfl
        exact h.not_mem_of_read hal.fresh (List.mem_map_of_mem hd)
      have hba : b ≠ a := hnea (b, y) (by simp)
      obtain ⟨heap₁, hset₁, hread₁⟩ := Heap.setNext_of_read hal.cell (some c)
      have hb₁ : heap₁.read b = some (some c, y) := by rw [hread₁, if_neg hba, hb]
      obtain ⟨heap₂, hset₂, hread₂⟩ := Heap.setNext_of_read hb₁ (some a)
      have hread : ∀ d, d ≠ a → d ≠ b → heap₂.read d = l₁.heap.read d := fun d hda hdb => by
        rw [hread₂, if_neg hdb, hread₁, if_neg hda]
      have hl : Linked ⟨heap₂, l₁.first, l₁.last, l₁.numInList + 1⟩ h₀
          ((pre ++ [(b, y)]) ++ (a, item) :: (c, z) :: c₂) := by
        refine inserted (by rwa [List.append_assoc]) hal.fresh (by rwa [List.append_assoc]) ?_
          (r := some c) ?_ (hs.congr fun d hd => ?_) (fun d hda hd => ?_) ?_ (by rw [hal.numInList])
        · rw [hal.first]
          refine hal.chain.relink (fun d hd => ?_) (by rw [hread₂, if_pos rfl])
          exact hread _ (hnea d (by simp [hd])) (hneb d (by simp [hd]))
        · rw [hread₂, if_neg (Ne.symm hba), hread₁, if_pos rfl]
        · exact hread _ (hnea d (by simp [List.mem_cons.mp hd])) (hneb d (by simp [List.mem_cons.mp hd]))
        · refine (hread d hda ?_).trans (hal.others d hda)
          rintro rfl
          exact hd (by simp)
        · rw [if_neg (List.cons_ne_nil _ _), hal.last]
      refine .inr ⟨_, ?_, by rwa [List.append_assoc] at hl⟩
      simp only [LinkedList.insertAfter, Heap.deref_of_read hb, Heap.deref_of_read hc, ok_bind,
        if_pos hlt, hset₁, hset₂, pure_eq_ok]
  | cons c mid ih =>
    obtain ⟨c, z⟩ := c
    obtain ⟨_, -, rfl, r, hb, hs⟩ := seg_append.mp hal.chain
    obtain ⟨rfl, r', hc, -⟩ := hs
    obtain ⟨n, rfl⟩ := Nat.exists_eq_succ_of_ne_zero (Nat.ne_of_gt (Nat.lt_of_le_of_lt (Nat.zero_le _) hn))
    have hge : ¬ compare item z < 0 := hmid (c, z) List.mem_cons_self
    have hcells : pre ++ (b, y) :: ((c, z) :: mid ++ c₂) =
        (pre ++ [(b, y)]) ++ (c, z) :: (mid ++ c₂) := by simp
    have hstep : LinkedList.insertAfter compare l₁ item a (n + 1) (some b) =
        LinkedList.insertAfter compare l₁ item a n (some c) := by
      simp only [LinkedList.insertAfter, Heap.deref_of_read hb, Heap.deref_of_read hc, ok_bind,
        if_neg hge]
    rw [hcells] at h hal hi
    rw [Nat.succ_eq_add_one, hstep]
    rcases ih h hal hi (fun d hd => hmid d (List.mem_cons_of_mem _ hd)) (Nat.lt_of_succ_lt_succ hn) with
      hx | ⟨l', hx, hl⟩
    · exact .inl hx
    · exact .inr ⟨l', hx, by simpa only [List.append_assoc, List.cons_append, List.nil_append] using hl⟩

theorem insert {compare : T → T → Int} (h : Linked l h₀ (c₁ ++ c₂))
    (hi : item ∉ (c₁ ++ c₂).map Prod.snd) (h₁ : ∀ c ∈ c₁, ¬ compare item c.2 < 0)
    (h₂ : ∀ c, c₂.head? = some c → compare item c.2 < 0) (place : Nat) :
    ∃ l' a, l.insert compare item place = .ok l' ∧ Linked l' h₀ (c₁ ++ (a, item) :: c₂) := by
  obtain ⟨a, l₁, hnew, hal⟩ := h.allocate item place
  unfold LinkedList.insert
  simp only [hnew]
  rw [absent hal hi, ok_bind, assert_of rfl, ok_bind]
  have hempty := h.isEmpty_allocated hal
  cases c₁ with
  | nil =>
    simp only [List.nil_append] at h hi hal hempty ⊢
    cases c₂ with
    | nil =>
      have hl := h.link_only hal
      refine ⟨_, a, ?_, hl⟩
      rw [if_pos (hempty.mpr rfl)]
      exact hl.counted (by simp)
    | cons c c₂ =>
      obtain ⟨c, z⟩ := c
      obtain ⟨hfirst, r, hc, -⟩ := id hal.chain
      obtain ⟨heap, hset, hl⟩ := h.link_first (List.cons_ne_nil _ _) hal hi
      refine ⟨_, a, ?_, hl⟩
      have hfirst₁ : l₁.first = some c := hal.first.trans hfirst
      have hderef : l₁.heap.deref l₁.first = .ok ⟨r, z⟩ := by rw [hfirst₁, Heap.deref_of_read hc]
      rw [if_neg (mt hempty.mp (List.cons_ne_nil _ _)), hderef, ok_bind,
        if_pos (h₂ _ rfl), hset, ok_bind]
      exact hl.counted (by simp)
  | cons b c₁ =>
    obtain ⟨b, y⟩ := b
    obtain ⟨hfirst, r, hb, -⟩ := id hal.chain
    have hfirst₁ : l₁.first = some b := hal.first.trans hfirst
    have hderef : l₁.heap.deref l₁.first = .ok ⟨r, y⟩ := by rw [hfirst₁, Heap.deref_of_read hb]
    have hlen : c₁.length < l₁.heap.size := by
      have hle := length_le_size hal.chain
      simp only [List.length_append, List.length_cons, List.cons_append] at hle
      omega
    have hloop : (c₂ = [] ∧ LinkedList.insertAfter compare l₁ item a l₁.heap.size (some b) = .ok none) ∨
        ∃ l', LinkedList.insertAfter compare l₁ item a l₁.heap.size (some b) = .ok (some l') ∧
          Linked l' h₀ ([] ++ (b, y) :: (c₁ ++ (a, item) :: c₂)) :=
      insertAfter h hal hi (fun c hc => h₁ c (List.mem_cons_of_mem _ hc)) h₂ hlen
    rw [if_neg (mt hempty.mp (by simp)), hderef, ok_bind,
      if_neg (h₁ _ List.mem_cons_self), hfirst₁]
    rcases hloop with ⟨rfl, hx⟩ | ⟨l', hx, hl⟩
    · obtain ⟨cs, ⟨d, w⟩, hcs⟩ := (List.eq_nil_or_concat' ((b, y) :: c₁)).resolve_left (List.cons_ne_nil _ _)
      rw [List.append_nil] at h hal hi
      rw [hcs] at h hal hi ⊢
      obtain ⟨heap, hset, hl⟩ := h.link_last hal hi
      refine ⟨_, a, ?_, hl⟩
      rw [hx, ok_bind]
      simp only [hset, ok_bind]
      rw [← hfirst₁]
      exact hl.counted (by simp)
    · refine ⟨l', a, ?_, hl⟩
      rw [hx, ok_bind]
      rfl

/-! ## `SanityCheck` -/

omit [DecidableEq T] in
theorem first_eq_none (h : Linked l h₀ cells) : l.first = none ↔ l.numInList = 0 := by
  rw [h.chain.eq_none_iff, h.numInList]
  simp

omit [DecidableEq T] in
theorem last_eq_none (h : Linked l h₀ cells) : l.last = none ↔ l.numInList = 0 := by
  rw [h.last, h.numInList]
  simp

omit [DecidableEq T] in
/-- The last element is reached from the first one, and ends the list. -/
theorem last_reached (h : Linked l h₀ cells) (ha : l.last = some a) :
    (follow l.heap.read)^[(l.numInList - 1).toNat] l.first = some a ∧
      ∃ item, l.heap.lookup a = some ⟨none, item⟩ := by
  rcases List.eq_nil_or_concat' cells with rfl | ⟨cs, ⟨b, y⟩, rfl⟩
  · rw [h.last] at ha
    cases ha
  · obtain ⟨hcs, hb⟩ := seg_snoc.mp h.chain
    have hlast : l.last = some b := by
      rw [h.last]
      simp
    cases hlast.symm.trans ha
    have hlen : (l.numInList - 1).toNat = cs.length := by
      rw [h.numInList]
      simp
    refine ⟨?_, y, Heap.lookup_of_read hb⟩
    rw [hlen]
    exact hcs.iterate

omit [DecidableEq T] in
theorem countToLast {cs : List (Nat × T)} {b n : Nat} {y : T} {ptr : Pointer} {numFound : Int}
    (hs : Seg l.heap.read ptr (cs ++ [(b, y)]) none) (hlast : l.last = some b)
    (hfound : numFound + cs.length = l.numInList) (hn : cs.length ≤ n) :
    l.countToLast n numFound ptr = .ok l.numInList := by
  induction cs generalizing ptr numFound n with
  | nil =>
    obtain ⟨rfl, -⟩ := hs
    have hdone : numFound = l.numInList := by simpa using hfound
    cases n <;> rw [LinkedList.countToLast, if_pos hlast.symm, hdone] <;> rfl
  | cons c cs ih =>
    obtain ⟨c, z⟩ := c
    have hne : some c ≠ l.last := by
      have hnodup := hs.nodup
      rw [hlast]
      intro he
      exact (List.nodup_cons.mp hnodup).1 (by simp [Option.some.inj he])
    obtain ⟨rfl, r, hc, hs⟩ := hs
    obtain _ | n := n
    · cases hn
    rw [List.length_cons, Int.natCast_add] at hfound
    rw [LinkedList.countToLast, if_neg hne, assert_of (by omega), ok_bind, Heap.deref_of_read hc, ok_bind]
    exact ih hs (by omega) (Nat.le_of_succ_le_succ hn)

omit [DecidableEq T] in
theorem sanityCheck (h : Linked l h₀ cells) : l.sanityCheck = .ok () := by
  unfold LinkedList.sanityCheck
  rcases List.eq_nil_or_concat' cells with rfl | ⟨cs, ⟨b, y⟩, rfl⟩
  · have hnum := h.numInList
    rw [if_pos (h.chain.eq_none_iff.mpr rfl), assert_of ⟨hnum, h.last⟩]
  obtain ⟨hcs, hb⟩ := seg_snoc.mp h.chain
  have hlast : l.last = some b := by
    rw [h.last]
    simp
  have hnum : 1 + (cs.length : Int) = l.numInList := by
    rw [h.numInList, List.length_append, List.length_singleton]
    omega
  rw [if_neg (mt h.chain.eq_none_iff.mp (by simp))]
  cases cs with
  | nil =>
    have hfirst : l.first = some b := hcs
    rw [if_pos (hfirst.trans hlast.symm), assert_of (by simpa using hnum.symm), ok_bind, hlast,
      Heap.deref_of_read hb, ok_bind, assert_of rfl]
  | cons c cs =>
    have hne : l.first ≠ l.last := mt h.first_eq_last.mp (by simp)
    rw [if_neg hne, countToLast h.chain hlast hnum (by omega), ok_bind, assert_of rfl, ok_bind, hlast,
      Heap.deref_of_read hb, ok_bind, assert_of rfl]

omit [DecidableEq T] in
theorem sortedFrom {compare : T → T → Int} {h : Heap T} {a n : Nat} {x : T} {r : Pointer}
    (ha : h.read a = some (r, x)) (hs : Seg h.read r cells none)
    (hsorted : (x :: cells.map Prod.snd).Pairwise fun x y => compare x y ≤ 0) (hn : cells.length ≤ n) :
    LinkedList.sortedFrom compare h n (some a) r = .ok () := by
  induction cells generalizing a x r n with
  | nil =>
    obtain rfl : r = none := hs
    cases n <;> rfl
  | cons c cells ih =>
    obtain ⟨c, z⟩ := c
    obtain ⟨rfl, r', hc, hs⟩ := hs
    obtain _ | n := n
    · cases hn
    obtain ⟨hx, htail⟩ := List.pairwise_cons.mp hsorted
    rw [LinkedList.sortedFrom, Heap.deref_of_read ha, ok_bind, Heap.deref_of_read hc, ok_bind,
      assert_of (hx z (by simp)), ok_bind]
    exact ih hc hs htail (Nat.le_of_succ_le_succ hn)

omit [DecidableEq T] in
theorem sortedSanityCheck {compare : T → T → Int} (h : Linked l h₀ cells)
    (hsorted : (cells.map Prod.snd).Pairwise fun x y => compare x y ≤ 0) :
    l.sortedSanityCheck compare = .ok () := by
  unfold LinkedList.sortedSanityCheck
  rw [h.sanityCheck, ok_bind]
  cases cells with
  | nil =>
    rw [if_neg]
    · rfl
    · rw [not_not, h.last]
      exact h.chain
  | cons c cells =>
    obtain ⟨c, z⟩ := c
    obtain ⟨hfirst, r, hc, hs⟩ := id h.chain
    have hlen := length_le_size h.chain
    rw [List.length_cons] at hlen
    split
    · rw [hfirst, Heap.deref_of_read hc, ok_bind]
      exact sortedFrom hc hs hsorted (by omega)
    · rfl

end Linked

end LinkedList

end Nachos

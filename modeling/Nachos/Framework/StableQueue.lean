import Mathlib.Data.List.Count
import Mathlib.Order.Lattice

/-!
# Stable priority queues

A queue in the order of arrival, from which the oldest of the smallest key is
taken (`Takes`), and the same elements sorted by key, those of equal keys in
the order of arrival (`Sorts`). Sorted lists are taken from the front
(`Sorts.takes`), and a new element goes behind the last that is not larger
(`Sorts.insert`).
-/

namespace Framework.StableQueue

variable {α K : Type*} [LinearOrder K] {key key' : α → K} {l l₁ l₂ arr arr' : List α} {x : α}

/-- `x` is the oldest of the smallest key in `arr`, and `arr'` are the others. -/
def Takes (key : α → K) (arr : List α) (x : α) (arr' : List α) : Prop :=
  ∃ a₁ a₂, arr = a₁ ++ x :: a₂ ∧ arr' = a₁ ++ a₂ ∧ (∀ y ∈ a₁, key x < key y) ∧
    ∀ y ∈ a₂, key x ≤ key y

/-- `l` is `arr`, sorted. -/
structure Sorts (key : α → K) (l arr : List α) : Prop where
  sorted : l.Pairwise fun a b => key a ≤ key b
  stable : ∀ n, l.filter (key · = n) = arr.filter (key · = n)

theorem Sorts.nil : Sorts key ([] : List α) [] := ⟨.nil, fun _ => rfl⟩

theorem Sorts.mem_iff (h : Sorts key l arr) : x ∈ l ↔ x ∈ arr := by
  have := congrArg (x ∈ ·) (h.stable (key x))
  simpa using this

theorem Sorts.eq_nil_iff (h : Sorts key l arr) : l = [] ↔ arr = [] := by
  simp only [List.eq_nil_iff_forall_not_mem, h.mem_iff]

theorem Sorts.perm [DecidableEq α] (h : Sorts key l arr) : l.Perm arr := by
  refine List.perm_iff_count.mpr fun x => ?_
  have := congrArg (List.count x) (h.stable (key x))
  rwa [List.count_filter (by simp), List.count_filter (by simp)] at this

/-- With one key for all, the order is that of arrival. -/
theorem Sorts.eq_of_const (h : Sorts key l arr) (hk : ∀ x y, key x = key y) : l = arr := by
  cases l with
  | nil => exact (h.eq_nil_iff.mp rfl).symm
  | cons x l =>
    have hall : ∀ l : List α, l.filter (key · = key x) = l := fun l =>
      List.filter_eq_self.mpr fun y _ => by simp [hk y x]
    have := h.stable (key x)
    rwa [hall, hall] at this

/-- The keys of the queued elements are all that counts. -/
theorem Sorts.congr (h : Sorts key l arr) (hk : ∀ y ∈ arr, key' y = key y) : Sorts key' l arr := by
  refine ⟨h.sorted.imp_of_mem fun ha hb hab => ?_, fun n => ?_⟩
  · rwa [hk _ (h.mem_iff.mp ha), hk _ (h.mem_iff.mp hb)]
  · calc l.filter (key' · = n) = l.filter (key · = n) :=
          List.filter_congr fun y hy => by rw [hk y (h.mem_iff.mp hy)]
      _ = arr.filter (key · = n) := h.stable n
      _ = arr.filter (key' · = n) := List.filter_congr fun y hy => by rw [hk y hy]

/-- A new element goes behind the last that is not larger. -/
theorem Sorts.insert (h : Sorts key (l₁ ++ l₂) arr) (h₁ : ∀ y ∈ l₁, key y ≤ key x)
    (h₂ : ∀ y ∈ l₂, key x < key y) : Sorts key (l₁ ++ x :: l₂) (arr ++ [x]) := by
  obtain ⟨hs₁, hs₂, hs⟩ := List.pairwise_append.mp h.sorted
  refine ⟨List.pairwise_append.mpr ⟨hs₁, List.pairwise_cons.mpr ⟨fun y hy => (h₂ y hy).le, hs₂⟩,
    fun a ha b hb => ?_⟩, fun n => ?_⟩
  · rcases List.mem_cons.mp hb with rfl | hb
    · exact h₁ a ha
    · exact hs a ha b hb
  · have hn := h.stable n
    rw [List.filter_append] at hn
    rw [List.filter_append, List.filter_append, ← hn]
    by_cases e : key x = n
    · -- No element behind `x` has its key.
      have hnil : l₂.filter (key · = n) = [] := by
        refine List.filter_eq_nil_iff.mpr fun y hy => ?_
        simp only [decide_eq_true_eq]
        exact fun hy' => (h₂ y hy).ne (e.trans hy'.symm)
      simp [e, hnil]
    · simp [e]

/-- An element that goes leaves the others in order. -/
theorem Sorts.erase [DecidableEq α] (h : Sorts key l arr) (hnd : l.Nodup) (x : α) :
    Sorts key (l.erase x) (arr.erase x) := by
  have hnd' : arr.Nodup := h.perm.nodup_iff.mp hnd
  rw [hnd.erase_eq_filter, hnd'.erase_eq_filter]
  refine ⟨h.sorted.sublist List.filter_sublist, fun n => ?_⟩
  have hn := congrArg (List.filter (· != x)) (h.stable n)
  simp only [List.filter_filter, Bool.and_comm] at hn ⊢
  exact hn

/-- The front is the oldest of the smallest key. -/
theorem Sorts.takes (h : Sorts key (x :: l) arr) : ∃ arr', Takes key arr x arr' ∧ Sorts key l arr' := by
  obtain ⟨hx, hl⟩ := List.pairwise_cons.mp h.sorted
  have hmin : ∀ y ∈ arr, key x ≤ key y := fun y hy => by
    rcases List.mem_cons.mp (h.mem_iff.mpr hy) with rfl | hy
    · exact le_rfl
    · exact hx y hy
  have hfirst := h.stable (key x)
  rw [List.filter_cons_of_pos (by simp)] at hfirst
  obtain ⟨a₁, a₂, harr, ha₁, -, ha₂⟩ := List.filter_eq_cons_iff.mp hfirst.symm
  subst harr
  have hlt : ∀ y ∈ a₁, key x < key y := fun y hy =>
    lt_of_le_of_ne (hmin y (by simp [hy])) fun e => ha₁ y hy (by simp [e])
  refine ⟨a₁ ++ a₂, ⟨a₁, a₂, rfl, rfl, hlt, fun y hy => hmin y (by simp [hy])⟩, hl, fun n => ?_⟩
  have hn := h.stable n
  by_cases e : key x = n
  · subst e
    have hnil : a₁.filter (key · = key x) = [] :=
      List.filter_eq_nil_iff.mpr fun y hy => by simpa using (hlt y hy).ne'
    rw [List.filter_append, hnil, ha₂, List.nil_append]
  · rwa [List.filter_cons_of_neg (by simpa using e), List.filter_append,
      List.filter_cons_of_neg (by simpa using e), ← List.filter_append] at hn

end Framework.StableQueue

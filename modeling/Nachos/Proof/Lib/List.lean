import Nachos.Framework.StableQueue
import Nachos.Impl.Lib.List

/-!
# Sorted insertion

The walk of `SortedList<T>::Insert` puts an item in front of the first larger one
(`insertWalk_split`), so a list that is a stable sort by a key stays one.
-/

namespace Nachos

open Framework.StableQueue

namespace NList

variable {T K : Type} [LinearOrder K]

/-- `insertWalk` puts the item in front of the first larger one. -/
theorem insertWalk_split (compare : T → T → Int) (item : T) (xs : List T) :
    ∃ l₁ l₂, xs = l₁ ++ l₂ ∧ insertWalk compare item xs = l₁ ++ item :: l₂ ∧
      (∀ y ∈ l₁, ¬ compare item y < 0) ∧ ∀ y, l₂.head? = some y → compare item y < 0 := by
  induction xs with
  | nil => exact ⟨[], [], rfl, rfl, by simp, by simp⟩
  | cons x xs ih =>
    by_cases h : compare item x < 0
    · exact ⟨[], x :: xs, rfl, by simp [insertWalk, h], by simp, by simp [h]⟩
    · obtain ⟨l₁, l₂, rfl, hw, h₁, h₂⟩ := ih
      refine ⟨x :: l₁, l₂, rfl, by simp [insertWalk, h, hw], fun y hy => ?_, h₂⟩
      rcases List.mem_cons.mp hy with rfl | hy
      · exact h
      · exact h₁ y hy

/-- In a sorted list the larger items are all behind it. -/
theorem insertWalk_parts {compare : T → T → Int} {key : T → K} {item : T} {xs : List T}
    (hs : xs.Pairwise fun a b => key a ≤ key b) (hc : ∀ y, compare item y < 0 ↔ key item < key y) :
    ∃ l₁ l₂, xs = l₁ ++ l₂ ∧ insertWalk compare item xs = l₁ ++ item :: l₂ ∧
      (∀ y ∈ l₁, key y ≤ key item) ∧ ∀ y ∈ l₂, key item < key y := by
  obtain ⟨l₁, l₂, rfl, hw, h₁, h₂⟩ := insertWalk_split compare item xs
  refine ⟨l₁, l₂, rfl, hw, fun y hy => ?_, fun y hy => ?_⟩
  · have := h₁ y hy
    rw [hc] at this
    exact not_lt.mp this
  · cases l₂ with
    | nil => cases hy
    | cons z l₂ =>
      have hz := (hc z).mp (h₂ z rfl)
      rcases List.mem_cons.mp hy with rfl | hy
      · exact hz
      · have := (List.pairwise_cons.mp (List.pairwise_append.mp hs).2.1).1 y hy
        exact hz.trans_le this

/-- `SortedList::Insert` keeps the list sorted and stable. -/
theorem insertWalk_sorts {compare : T → T → Int} {key : T → K} {item : T} {xs arr : List T}
    (h : Sorts key xs arr) (hc : ∀ y, compare item y < 0 ↔ key item < key y) :
    Sorts key (insertWalk compare item xs) (arr ++ [item]) := by
  obtain ⟨l₁, l₂, rfl, hw, h₁, h₂⟩ := insertWalk_parts h.sorted hc
  rw [hw]
  exact h.insert h₁ h₂

/-- It puts the item behind all that are not larger. -/
theorem insertWalk_eq_filter {compare : T → T → Int} {key : T → K} {item : T} {xs : List T}
    (hs : xs.Pairwise fun a b => key a ≤ key b) (hc : ∀ y, compare item y < 0 ↔ key item < key y) :
    insertWalk compare item xs =
      xs.filter (key · ≤ key item) ++ item :: xs.filter (key item < key ·) := by
  obtain ⟨l₁, l₂, rfl, hw, h₁, h₂⟩ := insertWalk_parts hs hc
  have hl₁ : l₁.filter (key · ≤ key item) = l₁ :=
    List.filter_eq_self.mpr fun y hy => decide_eq_true (h₁ y hy)
  have hl₂ : l₂.filter (key · ≤ key item) = [] :=
    List.filter_eq_nil_iff.mpr fun y hy => by simpa using h₂ y hy
  have hr₁ : l₁.filter (key item < key ·) = [] :=
    List.filter_eq_nil_iff.mpr fun y hy => by simpa using h₁ y hy
  have hr₂ : l₂.filter (key item < key ·) = l₂ :=
    List.filter_eq_self.mpr fun y hy => decide_eq_true (h₂ y hy)
  rw [hw, List.filter_append, List.filter_append, hl₁, hl₂, hr₁, hr₂, List.append_nil, List.nil_append]

end NList

end Nachos

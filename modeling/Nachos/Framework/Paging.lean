import Mathlib.Logic.Function.Basic
import Mathlib.Tactic.Common

/-!
# Pages in frames, loaded from files

Frames hold pages, cell by cell. A page is loaded into a frame from its file;
cells the file does not have keep what the frame had. A page that loses its
frame is not written back. `shadow` is what the owner of a page expects there:
what a cell had when the page was loaded for the first time, and then what was
stored there last.

`Inv` relates the two: a resident page is in its frame as its owner expects it
(`Inv.resident`), and a page that is not resident was never loaded or is as
its file has it. It is kept by every load into a frame whose page is as its
file has it (`Inv.load`).
-/

namespace Framework.Paging

variable {F K O B : Type} [DecidableEq F] [DecidableEq K]

structure State (F K O B : Type) where
  holds : F → K → Prop
  mem : F → O → B
  shadow : K → O → Option B

namespace State

/-- The page `k` is as its file has it. -/
def OnFile (file : K → O → Option B) (s : State F K O B) (k : K) : Prop :=
  ∀ o, s.shadow k o ≠ none ∧ s.shadow k o = file k o

/-- The invariant. -/
structure Inv (file : K → O → Option B) (s : State F K O B) : Prop where
  page : ∀ i k k', s.holds i k → s.holds i k' → k = k'
  frame : ∀ i j k, s.holds i k → s.holds j k → i = j
  resident : ∀ i k, s.holds i k → ∀ o, s.shadow k o = some (s.mem i o)
  absent : ∀ k, (∀ i, ¬ s.holds i k) → (∀ o, s.shadow k o = none) ∨ OnFile file s k

variable {file : K → O → Option B} {s : State F K O B}

omit [DecidableEq F] [DecidableEq K] in
/-- The invariant is about the files of pages that were loaded. -/
theorem Inv.congr {file' : K → O → Option B} (h : Inv file s)
    (hf : ∀ k o, s.shadow k o ≠ none → file' k o = file k o) : Inv file' s where
  page := h.page
  frame := h.frame
  resident := h.resident
  absent k hk := (h.absent k hk).imp_right fun ho o =>
    ⟨(ho o).1, (ho o).2.trans (hf k o (ho o).1).symm⟩

/-- The page `k` is loaded into the frame `f`. -/
def load (file : K → O → Option B) (s : State F K O B) (k : K) (f : F) : State F K O B :=
  let cell o := (file k o).getD (s.mem f o)
  { holds := fun i k' => if i = f then k' = k else s.holds i k'
    mem := Function.update s.mem f cell
    shadow := Function.update s.shadow k fun o => (s.shadow k o).or (some (cell o)) }

/-- The frame is free, or its page is as its file has it. -/
theorem Inv.load (h : Inv file s) {k : K} {f : F} (hk : ∀ i, ¬ s.holds i k)
    (hf : ∀ k', s.holds f k' → ∀ o, file k' o = some (s.mem f o)) :
    Inv file (s.load file k f) where
  page i k₁ k₂ h₁ h₂ := by
    simp only [State.load] at h₁ h₂
    split at h₁
    · rename_i e
      rw [if_pos e] at h₂
      rw [h₁, h₂]
    · rename_i e
      rw [if_neg e] at h₂
      exact h.page i k₁ k₂ h₁ h₂
  frame i j k' hi hj := by
    simp only [State.load] at hi hj
    split at hi <;> split at hj
    · rename_i hi' hj'
      rw [hi', hj']
    · subst hi
      exact absurd hj (hk j)
    · subst hj
      exact absurd hi (hk i)
    · exact h.frame i j k' hi hj
  resident i k' hi o := by
    by_cases e : i = f
    · subst e
      simp only [State.load, ite_true] at hi
      subst hi
      simp only [State.load, Function.update_self]
      rcases h.absent k' hk with hnone | hfile
      · simp [hnone o]
      · obtain ⟨hne, he⟩ := hfile o
        obtain ⟨b, hb⟩ := Option.ne_none_iff_exists'.mp hne
        rw [hb] at he
        simp [hb, ← he]
    · simp only [State.load, if_neg e, Function.update_of_ne e] at hi ⊢
      have hk' : k' ≠ k := by
        rintro rfl
        exact hk i hi
      rw [Function.update_of_ne hk']
      exact h.resident i k' hi o
  absent k' hk' := by
    have hne : k' ≠ k := by
      rintro rfl
      exact hk' f (by simp [State.load])
    have hold : ∀ i ≠ f, ¬ s.holds i k' := fun i hi => by
      have := hk' i
      simpa only [State.load, if_neg hi] using this
    simp only [OnFile, State.load, Function.update_of_ne hne]
    by_cases e : s.holds f k'
    · -- The page that loses its frame.
      refine .inr fun o => ?_
      have hr := h.resident f k' e o
      exact ⟨by simp [hr], hr.trans (hf k' e o).symm⟩
    · refine h.absent k' fun i => ?_
      by_cases hi : i = f
      · rw [hi]; exact e
      · exact hold i hi

/-- The cells in `w` of the page `k`, which is in the frame `f`, are stored. -/
def store (s : State F K O B) (k : K) (f : F) (w : O → Option B) : State F K O B :=
  { s with
    mem := Function.update s.mem f fun o => (w o).getD (s.mem f o)
    shadow := Function.update s.shadow k fun o => (w o).or (s.shadow k o) }

theorem Inv.store (h : Inv file s) {k : K} {f : F} (hk : s.holds f k) (w : O → Option B) :
    Inv file (s.store k f w) where
  page := h.page
  frame := h.frame
  resident i k' hi o := by
    replace hi : s.holds i k' := hi
    by_cases e : i = f
    · subst e
      obtain rfl := h.page i k k' hk hi
      simp only [State.store, Function.update_self]
      cases w o with
      | none => simpa using h.resident i k hk o
      | some b => simp
    · have hk' : k' ≠ k := by
        rintro rfl
        exact e (h.frame i f k' hi hk)
      simp only [State.store, Function.update_of_ne e, Function.update_of_ne hk']
      exact h.resident i k' hi o
  absent k' hk' := by
    have hne : k' ≠ k := by
      rintro rfl
      exact hk' f hk
    simp only [OnFile, State.store, Function.update_of_ne hne]
    exact h.absent k' hk'

/-- The pages with `q` are gone. -/
def drop (s : State F K O B) (q : K → Bool) : State F K O B :=
  { s with
    holds := fun i k => s.holds i k ∧ q k = false
    shadow := fun k o => if q k then none else s.shadow k o }

omit [DecidableEq F] [DecidableEq K] in
theorem Inv.drop (h : Inv file s) (q : K → Bool) : Inv file (s.drop q) := by
  refine ⟨fun i k k' hk hk' => h.page i k k' hk.1 hk'.1, fun i j k hi hj => h.frame i j k hi.1 hj.1,
    fun i k hi o => ?_, fun k hk => ?_⟩
  · simpa [State.drop, hi.2] using h.resident i k hi.1 o
  · by_cases hq : q k = true
    · exact .inl fun o => by simp [State.drop, hq]
    · rw [Bool.not_eq_true] at hq
      have := h.absent k fun i hi => hk i ⟨hi, hq⟩
      simpa [State.drop, OnFile, hq] using this

end State

end Framework.Paging

import Mathlib.Data.List.Nodup
import Mathlib.Tactic.Common

/-!
# Inverted page tables with stale entries

A table with one slot for each of `N` frames. A slot holds a key, an owner and
a page, and says whether it is valid; a slot that is not valid keeps its key.
An owner that is parked has its valid slots invalidated and the pages written
down; `pending` has those not loaded again, `[]` for an owner that runs and
`none` for one that does not exist.

A page is loaded into the lowest slot that is not valid, or into any slot when
all are valid (`Frame`). Under this rule (`Inv`) the valid slots have distinct
keys, and for an owner that runs the first slot with a key is a valid one
(`Inv.first_valid`): a stale slot is free, so its page comes back at or below
it.
-/

namespace Framework.InvertedTable

variable {T V : Type} [DecidableEq T] [DecidableEq V]

structure Slot (T V : Type) where
  owner : T
  page : V
  valid : Bool

structure State (T V : Type) where
  slot : Nat → Option (Slot T V)
  pending : T → Option (List V)

namespace State

variable (N : Nat)

def Valid (s : State T V) (i : Nat) : Prop := ∃ t v, s.slot i = some ⟨t, v, true⟩

/-- The frame of a load: the lowest that is not valid, or any if all are. -/
def Frame (s : State T V) (f : Nat) : Prop :=
  f < N ∧ ((¬ s.Valid f ∧ ∀ j < f, s.Valid j) ∨ ∀ j < N, s.Valid j)

/-- The invariant. -/
structure Inv (s : State T V) : Prop where
  bound : ∀ i, N ≤ i → s.slot i = none
  owned : ∀ i e, s.slot i = some e → s.pending e.owner ≠ none
  unique : ∀ i j t v, s.slot i = some ⟨t, v, true⟩ → s.slot j = some ⟨t, v, true⟩ → i = j
  nodup : ∀ t r, s.pending t = some r → r.Nodup
  loaded : ∀ t r i v, s.pending t = some r → s.slot i = some ⟨t, v, true⟩ → v ∉ r
  stale : ∀ t r j v, s.pending t = some r → s.slot j = some ⟨t, v, false⟩ →
    (∃ i < j, s.slot i = some ⟨t, v, true⟩) ∨ v ∈ r

variable {N}

omit [DecidableEq T] [DecidableEq V] in
/-- For an owner that runs, the first slot with a key is valid. -/
theorem Inv.first_valid {s : State T V} (h : s.Inv N) {t : T} (ht : s.pending t = some [])
    {i : Nat} {v : V} {b : Bool} (hi : s.slot i = some ⟨t, v, b⟩)
    (hf : ∀ j < i, ∀ b, s.slot j ≠ some ⟨t, v, b⟩) : b = true := by
  cases b with
  | true => rfl
  | false =>
    rcases h.stale t [] i v ht hi with ⟨j, hj, he⟩ | hm
    · exact absurd he (hf j hj true)
    · cases hm

/-- The owner `t` is new. -/
def create (s : State T V) (t : T) : State T V :=
  { s with pending := Function.update s.pending t (some []) }

omit [DecidableEq V] in
theorem Inv.create {s : State T V} (h : s.Inv N) {t : T} (ht : s.pending t = none) :
    (s.create t).Inv N := by
  have hne : ∀ i e, s.slot i = some e → e.owner ≠ t := fun i e he ho =>
    h.owned i e he (ho ▸ ht)
  refine ⟨h.bound, fun i e he => ?_, h.unique, fun u r hr => ?_, fun u r i v hr hv => ?_,
    fun u r j v hr hv => ?_⟩
  · simp only [State.create, Function.update_of_ne (hne i e he)]
    exact h.owned i e he
  · simp only [State.create, Function.update_apply] at hr
    split at hr
    · cases hr; exact .nil
    · exact h.nodup u r hr
  · have := hne i _ hv
    simp only [State.create, Function.update_of_ne this] at hr
    exact h.loaded u r i v hr hv
  · have := hne j _ hv
    simp only [State.create, Function.update_of_ne this] at hr
    exact h.stale u r j v hr hv

/-- `t` loads the page `v` into the frame `f`. -/
def load (s : State T V) (t : T) (v : V) (f : Nat) : State T V where
  slot := Function.update s.slot f (some ⟨t, v, true⟩)
  pending := Function.update s.pending t ((s.pending t).map (·.erase v))

theorem load_pending_ne {s : State T V} {t u : T} {v : V} {f : Nat} (hu : u ≠ t) :
    (s.load t v f).pending u = s.pending u := by
  simp [load, hu]

/-- The page is pending, or the owner has no slot for it. -/
theorem Inv.load {s : State T V} (h : s.Inv N) {t : T} {v : V} {f : Nat} {r : List V}
    (hf : s.Frame N f) (hr : s.pending t = some r)
    (hv : v ∈ r ∨ ∀ i b, s.slot i ≠ some ⟨t, v, b⟩) : (s.load t v f).Inv N := by
  have hnd := h.nodup t r hr
  have hpt : (s.load t v f).pending t = some (r.erase v) := by simp [State.load, hr]
  have hself : (s.load t v f).slot f = some ⟨t, v, true⟩ := by simp [State.load]
  have hne : ∀ i ≠ f, (s.load t v f).slot i = s.slot i := fun i hi => by simp [State.load, hi]
  -- No valid slot has the key before.
  have hnew : ∀ i, s.slot i ≠ some ⟨t, v, true⟩ := fun i hi => by
    rcases hv with hv | hv
    · exact h.loaded t r i v hr hi hv
    · exact hv i true hi
  -- A slot that stays stale had its valid one below kept.
  have hkeep : ∀ u w j, j ≠ f → s.slot j = some ⟨u, w, false⟩ →
      (∃ i < j, s.slot i = some ⟨u, w, true⟩) →
      ∃ i < j, (s.load t v f).slot i = some ⟨u, w, true⟩ := by
    rintro u w j hj hs ⟨i, hij, hi⟩
    rcases hf.2 with ⟨hfree, -⟩ | hfull
    · have : i ≠ f := fun e => hfree ⟨u, w, e ▸ hi⟩
      exact ⟨i, hij, (hne i this).trans hi⟩
    · have hjN : j < N := by
        by_contra hc
        rw [h.bound j (by omega)] at hs
        cases hs
      obtain ⟨u', w', he⟩ := hfull j hjN
      rw [he] at hs
      cases hs
  refine ⟨fun i hi => ?_, fun i e he => ?_, fun i j u w hi hj => ?_, fun u q hq => ?_,
    fun u q i w hq hi => ?_, fun u q j w hq hj => ?_⟩
  · rw [hne i (by have := hf.1; omega)]
    exact h.bound i hi
  · by_cases e' : e.owner = t
    · rw [e', hpt]
      exact Option.some_ne_none _
    · rw [load_pending_ne e']
      by_cases hi : i = f
      · subst hi
        rw [hself] at he
        cases he
        exact absurd rfl e'
      · exact h.owned i e ((hne i hi).symm.trans he)
  · by_cases hif : i = f <;> by_cases hjf : j = f
    · rw [hif, hjf]
    · subst hif
      rw [hself] at hi
      cases hi
      exact absurd ((hne j hjf).symm.trans hj) (hnew j)
    · subst hjf
      rw [hself] at hj
      cases hj
      exact absurd ((hne i hif).symm.trans hi) (hnew i)
    · exact h.unique i j u w ((hne i hif).symm.trans hi) ((hne j hjf).symm.trans hj)
  · by_cases hu : u = t
    · subst hu
      rw [hpt] at hq
      cases hq
      exact hnd.erase v
    · rw [load_pending_ne hu] at hq
      exact h.nodup u q hq
  · by_cases hu : u = t
    · subst hu
      rw [hpt] at hq
      cases hq
      rw [hnd.mem_erase_iff]
      rintro ⟨hwv, hwr⟩
      by_cases hif : i = f
      · subst hif
        rw [hself] at hi
        cases hi
        exact hwv rfl
      · exact h.loaded u r i w hr ((hne i hif).symm.trans hi) hwr
    · rw [load_pending_ne hu] at hq
      by_cases hif : i = f
      · subst hif
        rw [hself] at hi
        cases hi
        exact absurd rfl hu
      · exact h.loaded u q i w hq ((hne i hif).symm.trans hi)
  · have hjf : j ≠ f := by
      rintro rfl
      rw [hself] at hj
      cases hj
    have hjs := (hne j hjf).symm.trans hj
    by_cases hu : u = t
    · subst hu
      rw [hpt] at hq
      cases hq
      rcases h.stale u r j w hr hjs with hlow | hwr
      · exact .inl (hkeep u w j hjf hjs hlow)
      · by_cases hwv : w = v
        · -- The slot is free, so the frame is not above it.
          subst hwv
          refine .inl ⟨f, ?_, hself⟩
          rcases hf.2 with ⟨-, hlow⟩ | hfull
          · by_contra hc
            obtain ⟨u', w', he⟩ := hlow j (by omega)
            rw [he] at hjs
            cases hjs
          · have hjN : j < N := by
              by_contra hc
              rw [h.bound j (by omega)] at hjs
              cases hjs
            obtain ⟨u', w', he⟩ := hfull j hjN
            rw [he] at hjs
            cases hjs
        · exact .inr ((hnd.mem_erase_iff).mpr ⟨hwv, hwr⟩)
    · rw [load_pending_ne hu] at hq
      rcases h.stale u q j w hq hjs with hlow | hwr
      · exact .inl (hkeep u w j hjf hjs hlow)
      · exact .inr hwr

/-- The owner `t` leaves; its slots are reset. -/
def leave (s : State T V) (t : T) : State T V where
  slot i := (s.slot i).filter fun e => e.owner ≠ t
  pending := Function.update s.pending t none

omit [DecidableEq V] in
theorem leave_slot {s : State T V} {t : T} {i : Nat} {e : Slot T V} :
    (s.leave t).slot i = some e ↔ s.slot i = some e ∧ e.owner ≠ t := by
  simp [leave, Option.filter_eq_some_iff]

omit [DecidableEq V] in
theorem Inv.leave {s : State T V} (h : s.Inv N) (t : T) : (s.leave t).Inv N := by
  have hp : ∀ u r, (s.leave t).pending u = some r → u ≠ t ∧ s.pending u = some r := fun u r hr => by
    simp only [State.leave, Function.update_apply] at hr
    split at hr
    · cases hr
    · rename_i hu
      exact ⟨hu, hr⟩
  refine ⟨fun i hi => ?_, fun i e he => ?_, fun i j u v hi hj => ?_, fun u r hr => ?_,
    fun u r i v hr hi => ?_, fun u r j v hr hj => ?_⟩
  · simp [State.leave, h.bound i hi]
  · obtain ⟨he, hu⟩ := leave_slot.mp he
    simp only [State.leave, Function.update_of_ne hu]
    exact h.owned i e he
  · exact h.unique i j u v (leave_slot.mp hi).1 (leave_slot.mp hj).1
  · exact h.nodup u r (hp u r hr).2
  · exact h.loaded u r i v (hp u r hr).2 (leave_slot.mp hi).1
  · obtain ⟨hj, hu⟩ := leave_slot.mp hj
    rcases h.stale u r j v (hp u r hr).2 hj with ⟨i, hij, hi⟩ | hv
    · exact .inl ⟨i, hij, leave_slot.mpr ⟨hi, hu⟩⟩
    · exact .inr hv

/-- The pages of `t` in the valid slots from `i` on, `n` of them. -/
def pages (s : State T V) (t : T) (i : Nat) : Nat → List V
  | 0 => []
  | n + 1 => match s.slot i with
    | some ⟨u, v, true⟩ => if u = t then v :: pages s t (i + 1) n else pages s t (i + 1) n
    | _ => pages s t (i + 1) n

omit [DecidableEq V] in
theorem mem_pages {s : State T V} {t : T} {v : V} {i n : Nat} :
    v ∈ s.pages t i n ↔ ∃ j, i ≤ j ∧ j < i + n ∧ s.slot j = some ⟨t, v, true⟩ := by
  induction n generalizing i with
  | zero =>
    simp only [pages, List.not_mem_nil, false_iff, not_exists]
    omega
  | succ n ih =>
    have hsplit : (∃ j, i ≤ j ∧ j < i + (n + 1) ∧ s.slot j = some ⟨t, v, true⟩) ↔
        s.slot i = some ⟨t, v, true⟩ ∨ v ∈ s.pages t (i + 1) n := by
      rw [ih]
      constructor
      · rintro ⟨j, h₁, h₂, h₃⟩
        by_cases e : j = i
        · exact .inl (e ▸ h₃)
        · exact .inr ⟨j, by omega, by omega, h₃⟩
      · rintro (h | ⟨j, h₁, h₂, h₃⟩)
        · exact ⟨i, Nat.le_refl i, by omega, h⟩
        · exact ⟨j, by omega, by omega, h₃⟩
    rw [hsplit, pages]
    split
    · rename_i u w hs
      split
      · rename_i e
        subst e
        simp [hs, eq_comm]
      · rename_i e
        simp [hs, e]
    · rename_i hs
      exact ⟨.inr, fun h => h.resolve_left fun h => hs t v h⟩

/-- The owner `t` is parked; the pages of its valid slots are pending. -/
def park (N : Nat) (s : State T V) (t : T) : State T V where
  slot i := (s.slot i).map fun e => if e.owner = t then { e with valid := false } else e
  pending := Function.update s.pending t (some (s.pages t 0 N))

omit [DecidableEq V] in
theorem park_slot_ne {s : State T V} {t u : T} (hu : u ≠ t) {i : Nat} {v : V} {b : Bool} :
    (s.park N t).slot i = some ⟨u, v, b⟩ ↔ s.slot i = some ⟨u, v, b⟩ := by
  simp only [park]
  cases hs : s.slot i with
  | none => simp
  | some e =>
    simp only [Option.map_some, Option.some.injEq]
    split
    · rename_i he
      constructor
      · intro h
        cases h
        exact absurd he hu
      · rintro rfl
        exact absurd he hu
    · rfl

omit [DecidableEq V] in
theorem park_slot_self {s : State T V} {t : T} {i : Nat} {v : V} {b : Bool} :
    (s.park N t).slot i = some ⟨t, v, b⟩ ↔ b = false ∧ ∃ b', s.slot i = some ⟨t, v, b'⟩ := by
  simp only [park]
  cases hs : s.slot i with
  | none => simp
  | some e =>
    obtain ⟨u, w, b'⟩ := e
    simp only [Option.map_some, Option.some.injEq]
    split
    · rename_i he
      subst he
      simp [eq_comm, and_comm]
    · rename_i he
      constructor
      · intro h
        cases h
        exact absurd rfl he
      · rintro ⟨-, b'', h⟩
        cases h
        exact absurd rfl he

omit [DecidableEq V] in
theorem nodup_pages {s : State T V} (h : s.Inv N) (t : T) (i n : Nat) : (s.pages t i n).Nodup := by
  induction n generalizing i with
  | zero => exact .nil
  | succ n ih =>
    rw [pages]
    split
    · rename_i u v hs
      split
      · rename_i e
        subst e
        refine List.nodup_cons.mpr ⟨fun hm => ?_, ih (i + 1)⟩
        obtain ⟨j, hj, -, he⟩ := mem_pages.mp hm
        have := h.unique i j u v hs he
        omega
      · exact ih (i + 1)
    · exact ih (i + 1)

omit [DecidableEq V] in
/-- An owner that runs is parked. -/
theorem Inv.park {s : State T V} (h : s.Inv N) {t : T} (ht : s.pending t = some []) :
    (s.park N t).Inv N := by
  have hpt : (s.park N t).pending t = some (s.pages t 0 N) := by simp [State.park]
  have hpu : ∀ u ≠ t, (s.park N t).pending u = s.pending u := fun u hu => by simp [State.park, hu]
  have hlt : ∀ {j e}, s.slot j = some e → j < N := fun {j e} he => by
    by_contra hc
    rw [h.bound j (by omega)] at he
    cases he
  refine ⟨fun i hi => ?_, fun i e he => ?_, fun i j u v hi hj => ?_, fun u r hr => ?_,
    fun u r i v hr hi => ?_, fun u r j v hr hj => ?_⟩
  · simp [State.park, h.bound i hi]
  · by_cases hu : e.owner = t
    · rw [hu, hpt]
      exact Option.some_ne_none _
    · rw [hpu _ hu]
      exact h.owned i e ((park_slot_ne hu).mp he)
  · by_cases hu : u = t
    · subst hu
      exact absurd (park_slot_self.mp hi).1 (by decide)
    · exact h.unique i j u v ((park_slot_ne hu).mp hi) ((park_slot_ne hu).mp hj)
  · by_cases hu : u = t
    · subst hu
      rw [hpt] at hr
      cases hr
      exact nodup_pages h u 0 N
    · rw [hpu u hu] at hr
      exact h.nodup u r hr
  · by_cases hu : u = t
    · subst hu
      exact absurd (park_slot_self.mp hi).1 (by decide)
    · rw [hpu u hu] at hr
      exact h.loaded u r i v hr ((park_slot_ne hu).mp hi)
  · by_cases hu : u = t
    · subst hu
      rw [hpt] at hr
      cases hr
      obtain ⟨-, b, hs⟩ := park_slot_self.mp hj
      -- Its page is that of a valid slot: this one, or the one below it.
      refine .inr (mem_pages.mpr ?_)
      cases b with
      | true => exact ⟨j, Nat.zero_le j, by have := hlt hs; omega, hs⟩
      | false =>
        rcases h.stale u [] j v ht hs with ⟨i, hij, hi⟩ | hm
        · exact ⟨i, Nat.zero_le i, by have := hlt hi; omega, hi⟩
        · cases hm
    · rw [hpu u hu] at hr
      rcases h.stale u r j v hr ((park_slot_ne hu).mp hj) with ⟨i, hij, hi⟩ | hm
      · exact .inl ⟨i, hij, (park_slot_ne hu).mpr hi⟩
      · exact .inr hm

end State

end Framework.InvertedTable

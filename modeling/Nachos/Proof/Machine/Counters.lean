import Nachos.Proof.Userprog.Core

/-!
# The counters of a table

`updateFIFOFlag` and `updateLRUFlag` store one more than the largest flag of
the other valid entries (`Table.freshFlag`), so the stamp is above all of them
(`lt_freshFlag`), and at most a bound of theirs (`freshFlag_le_iff`). That is
all that the replacement and the overflow of the counters depend on.
-/

namespace Nachos

namespace Table

/-- `maxFlag` is the maximum of `num` and of the flags of the other valid
entries. -/
theorem maxFlag_lt_iff {flag : TranslationEntry → Int} {pos B : Int} (es : Table) (num : Int)
    (i : Nat) : maxFlag flag pos num i es < B ↔
      num < B ∧ ∀ j e, es[j]? = some e → ((i + j : Nat) : Int) ≠ pos → e.valid = true →
        flag e < B := by
  induction es generalizing num i with
  | nil => simp [maxFlag]
  | cons e es ih =>
    have hrest : (∀ j e', (e :: es)[j]? = some e' → ((i + j : Nat) : Int) ≠ pos →
          e'.valid = true → flag e' < B) ↔
        ((i : Int) ≠ pos → e.valid = true → flag e < B) ∧
          ∀ j e', es[j]? = some e' → ((i + 1 + j : Nat) : Int) ≠ pos → e'.valid = true →
            flag e' < B := by
      constructor
      · refine fun h => ⟨h 0 e rfl, fun j e' he hj => h (j + 1) e' he ?_⟩
        rwa [← Nat.add_assoc, Nat.add_right_comm]
      · rintro ⟨h₀, h⟩ j e' he hj
        cases j with
        | zero =>
          cases he
          exact h₀ hj
        | succ j => exact h j e' he (by rwa [Nat.add_right_comm, Nat.add_assoc])
    rw [maxFlag, ih, hrest, ← and_assoc]
    refine and_congr_left fun _ => ?_
    split
    · rename_i hc
      simp only [Bool.and_eq_true, decide_eq_true_eq] at hc
      simp only [ne_eq, hc.2, not_false_eq_true, hc.1, true_imp_iff]
      split <;> omega
    · rename_i hc
      simp only [Bool.and_eq_true, decide_eq_true_eq, not_and] at hc
      refine (and_iff_left fun hi hv => ?_).symm
      exact absurd hi (hc hv)

theorem view_length (stray : Int → TranslationEntry) (t : Table) : t.view stray t.length = t := by
  simp [view]

section
variable (flag : TranslationEntry → Int) (t : Table) (pos : Nat)

/-- The flags of the other valid entries are below `B`. -/
def Below (B : Int) : Prop :=
  ∀ j < t.length, j ≠ pos → (t.nth j).valid = true → flag (t.nth j) < B

instance (B : Int) : Decidable (Below flag t pos B) :=
  inferInstanceAs (Decidable (∀ j < _, _ → _ → _))

/-- The flag that `updateFIFOFlag` or `updateLRUFlag` stores at `pos`. -/
def freshFlag : Int := maxFlag flag pos (-1) 0 t + 1

variable {flag t pos}

theorem freshFlag_le_iff {B : Int} : freshFlag flag t pos ≤ B ↔ 0 ≤ B ∧ Below flag t pos B := by
  have hentries : (∀ j e, t[j]? = some e → ((0 + j : Nat) : Int) ≠ pos → e.valid = true →
      flag e < B) ↔ Below flag t pos B := by
    constructor
    · intro h j hj hne hv
      refine h j (t.nth j) ?_ (by omega) hv
      simp [nth, hj]
    · intro h j e he hne hv
      obtain ⟨hj, rfl⟩ := List.getElem?_eq_some_iff.mp he
      have hn : t.nth j = t[j] := by simp [nth, hj]
      rw [← hn] at hv ⊢
      exact h j hj (by omega) hv
  rw [← hentries, freshFlag]
  exact (show _ ↔ _ by omega : _ ↔ maxFlag flag pos (-1) 0 t < B).trans
    ((maxFlag_lt_iff t (-1) 0).trans (and_congr_left fun _ => by omega))

theorem freshFlag_nonneg : 0 ≤ freshFlag flag t pos := (freshFlag_le_iff.mp (Int.le_refl _)).1

/-- The stored flag is above the others. -/
theorem lt_freshFlag : Below flag t pos (freshFlag flag t pos) :=
  (freshFlag_le_iff.mp (Int.le_refl _)).2

/-- The counter does not overflow. -/
theorem i32_freshFlag : i32 (freshFlag flag t pos) =
    if Below flag t pos intMax then .ok (freshFlag flag t pos) else .error .undefined := by
  have h := @freshFlag_le_iff flag t pos intMax
  have h₀ := @freshFlag_nonneg flag t pos
  unfold i32
  by_cases hB : Below flag t pos intMax
  · have := h.mpr ⟨by decide, hB⟩
    unfold intMax at this
    rw [if_pos hB, defined_of (by omega)]
    rfl
  · have : ¬ freshFlag flag t pos ≤ intMax := fun hc => hB (h.mp hc).2
    unfold intMax at this
    rw [if_neg hB, defined, if_neg (by omega)]
    rfl

end

/-- The table behind `updateLRUFlag`, and behind `updateFIFOFlag`. -/
def stampLRU (t : Table) (pos : Nat) : Table :=
  t.modify pos fun e => { e with lruFlag := t.freshFlag (·.lruFlag) pos }

def stampFIFO (t : Table) (pos : Nat) : Table :=
  t.modify pos fun e => { e with fifoFlag := t.freshFlag (·.fifoFlag) pos }

@[simp] theorem length_stampLRU (t : Table) (pos : Nat) : (t.stampLRU pos).length = t.length :=
  List.length_modify ..

@[simp] theorem length_stampFIFO (t : Table) (pos : Nat) : (t.stampFIFO pos).length = t.length :=
  List.length_modify ..

theorem core_stampLRU (t : Table) (pos : Nat) : (t.stampLRU pos).core = t.core :=
  core_modify_flags t pos fun _ => rfl

theorem nth_stampLRU {t : Table} {pos : Nat} (hpos : pos < t.length) (j : Nat) :
    (t.stampLRU pos).nth j =
      if j = pos then { t.nth j with lruFlag := t.freshFlag (·.lruFlag) pos } else t.nth j :=
  nth_modify t _ pos j hpos

theorem nth_stampFIFO {t : Table} {pos : Nat} (hpos : pos < t.length) (j : Nat) :
    (t.stampFIFO pos).nth j =
      if j = pos then { t.nth j with fifoFlag := t.freshFlag (·.fifoFlag) pos } else t.nth j :=
  nth_modify t _ pos j hpos

/-- A stamp does not count for itself. -/
theorem below_stampLRU {t : Table} {pos : Nat} (hpos : pos < t.length) {B : Int} :
    (t.stampLRU pos).Below (·.lruFlag) pos B ↔ t.Below (·.lruFlag) pos B := by
  unfold Below
  rw [length_stampLRU]
  refine forall_congr' fun j => forall_congr' fun _ => forall_congr' fun hne => ?_
  rw [nth_stampLRU hpos, if_neg hne]

/-- `updateLRUFlag` over a whole table. -/
theorem updateLRUFlag_eq (stray : Int → TranslationEntry) {t : Table} {pos : Nat}
    (hpos : pos < t.length) : t.updateLRUFlag stray pos t.length =
      if Below (·.lruFlag) t pos intMax then
        .ok (t.stampLRU pos)
      else .error .undefined := by
  unfold updateLRUFlag
  rw [view_length, ← freshFlag, i32_freshFlag]
  split
  · exact upd_eq_ok.mpr ⟨Int.natCast_nonneg pos, hpos, rfl⟩
  · rfl

/-- `updateFIFOFlag` over a whole table. -/
theorem updateFIFOFlag_eq (stray : Int → TranslationEntry) {t : Table} {pos : Nat}
    (hpos : pos < t.length) : t.updateFIFOFlag stray pos t.length =
      if Below (·.fifoFlag) t pos intMax then
        .ok (t.stampFIFO pos)
      else .error .undefined := by
  unfold updateFIFOFlag
  rw [view_length, ← freshFlag, i32_freshFlag]
  split
  · exact upd_eq_ok.mpr ⟨Int.natCast_nonneg pos, hpos, rfl⟩
  · rfl

end Table

end Nachos

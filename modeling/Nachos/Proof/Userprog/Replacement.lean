import Nachos.Framework.Recency
import Nachos.Proof.Userprog.ByteArray
import Nachos.Proof.Userprog.UseDirty

/-!
# Replacement in the TLB

`updateTLB` takes a free slot, or replaces the entry with the least flag. The
flags of a page table come with an entry into the TLB and mean nothing there,
but `FIFOFlag` is stamped as the entry is inserted, and `LRUFlag` at its hits.
`Aged` says that the stamps are in the order of the insertions and of the last
hits. So the victim is the entry that was inserted first, or the one whose last
hit is the oldest, once every entry has had a hit (`tlb_replacement`).
-/

namespace Nachos

open Framework Framework.Recency

namespace Table

/-! ## The least flag -/

/-- The flag that the replacement goes by. -/
def victimFlag (cfg : Config) (e : TranslationEntry) : Int :=
  if cfg.fifoReplace then e.fifoFlag else e.lruFlag

section
variable {cfg : Config} (hone : cfg.fifoReplace ≠ cfg.lruReplace)
include hone

theorem findOneLoop_cons (targetv : Int) (targeti i : Nat) (e : TranslationEntry) (es : Table) :
    findOneLoop cfg targetv targeti i (e :: es) =
      if victimFlag cfg e < targetv then findOneLoop cfg (victimFlag cfg e) i (i + 1) es
      else findOneLoop cfg targetv targeti (i + 1) es := by
  rw [findOneLoop, victimFlag]
  cases hF : cfg.fifoReplace <;> cases hL : cfg.lruReplace
  · exact absurd (hF.trans hL.symm) hone
  · by_cases hlt : e.lruFlag < targetv <;> simp [hlt]
  · by_cases hlt : e.fifoFlag < targetv <;> simp [hlt]
  · exact absurd (hF.trans hL.symm) hone

/-- The loop ends with its target, or with the first of the least flags. -/
theorem findOneLoop_least (es : Table) (targetv : Int) (targeti i : Nat) :
    (findOneLoop cfg targetv targeti i es = targeti ∧ ∀ e ∈ es, targetv ≤ victimFlag cfg e) ∨
    ∃ j e, es[j]? = some e ∧ findOneLoop cfg targetv targeti i es = i + j ∧
      victimFlag cfg e < targetv ∧ ∀ e' ∈ es, victimFlag cfg e ≤ victimFlag cfg e' := by
  induction es generalizing targetv targeti i with
  | nil => exact .inl ⟨rfl, fun e he => by cases he⟩
  | cons e es ih =>
    rw [findOneLoop_cons hone]
    by_cases hlt : victimFlag cfg e < targetv
    · rw [if_pos hlt]
      rcases ih (victimFlag cfg e) i (i + 1) with ⟨hk, hle⟩ | ⟨j, e₁, he₁, hk, hlt₁, hle⟩
      · exact .inr ⟨0, e, rfl, hk, hlt, List.forall_mem_cons.mpr ⟨Int.le_refl _, hle⟩⟩
      · refine .inr ⟨j + 1, e₁, he₁, by rw [hk]; omega, hlt₁.trans hlt, ?_⟩
        exact List.forall_mem_cons.mpr ⟨Int.le_of_lt hlt₁, hle⟩
    · rw [if_neg hlt]
      rcases ih targetv targeti (i + 1) with ⟨hk, hle⟩ | ⟨j, e₁, he₁, hk, hlt₁, hle⟩
      · exact .inl ⟨hk, List.forall_mem_cons.mpr ⟨Int.not_lt.mp hlt, hle⟩⟩
      · refine .inr ⟨j + 1, e₁, he₁, by rw [hk]; omega, hlt₁, ?_⟩
        exact List.forall_mem_cons.mpr ⟨by omega, hle⟩

/-- The victim has the least flag, if none is above `INT_MAX`. -/
theorem findOneToReplace_least {es : Table} (hmax : ∀ e ∈ es, victimFlag cfg e ≤ intMax)
    {e : TranslationEntry} (he : e ∈ es) :
    victimFlag cfg (es.nth (findOneToReplace cfg es)) ≤ victimFlag cfg e := by
  unfold findOneToReplace
  rcases findOneLoop_least hone es intMax 0 0 with ⟨hk, hle⟩ | ⟨j, e₁, he₁, hk, -, hle⟩
  · rw [hk]
    obtain ⟨e₀, es, rfl⟩ := List.exists_cons_of_ne_nil (List.ne_nil_of_mem he)
    exact Int.le_trans (hmax e₀ (List.mem_cons_self ..)) (hle e he)
  · rw [hk, Nat.zero_add, nth, List.getD_eq_getElem?_getD, he₁]
    exact hle e he

end

/-! ## One refill -/

/-- The slot has a valid entry. -/
def Held (t : Table) (i : Nat) : Prop := i < t.length ∧ (t.nth i).valid = true

instance (t : Table) (i : Nat) : Decidable (t.Held i) := inferInstanceAs (Decidable (_ ∧ _))

theorem mem_iff_nth {t : Table} {e : TranslationEntry} :
    e ∈ t ↔ ∃ i, i < t.length ∧ t.nth i = e := by
  constructor
  · intro he
    obtain ⟨i, hi, rfl⟩ := List.mem_iff_getElem.mp he
    exact ⟨i, hi, by simp [nth, hi]⟩
  · rintro ⟨i, hi, rfl⟩
    have : t.nth i = t[i] := by simp [nth, hi]
    exact this ▸ List.getElem_mem hi

/-- What `updateTLB` does: the slot `k` gets the entry, and a `FIFOFlag` above the
others. -/
structure Refilled (cfg : Config) (t t' : Table) (e : TranslationEntry) (k : Nat) : Prop where
  inside : k < t.length
  length : t'.length = t.length
  others : ∀ j ≠ k, t'.nth j = t.nth j
  entry : (t'.nth k).core = e.core
  fresh : cfg.fifoReplace = true → (t'.nth k).fifoFlag ≤ intMax ∧
    ∀ j ≠ k, t.Held j → (t.nth j).fifoFlag < (t'.nth k).fifoFlag
  /-- The slot is free, if there is a free one. -/
  free : t.Held k → ∀ j < t.length, t.Held j
  victim : (∀ j < t.length, t.Held j) → k = t.findOneToReplace cfg

theorem updateTLB_refilled {cfg : Config} {stray : Int → TranslationEntry} {t t' : Table}
    {e : TranslationEntry} (hlen : t.length = tlbSize) (h : t.updateTLB cfg stray e = .ok t') :
    ∃ k, Refilled cfg t t' e k := by
  obtain ⟨t₁, ht₁, h⟩ := bind_eq_ok.mp h
  obtain ⟨k, hk⟩ : ∃ k, k = (t.findIdx? fun e => !e.valid).getD (t.findOneToReplace cfg) :=
    ⟨_, rfl⟩
  rw [← hk] at ht₁ h
  obtain ⟨-, hlt, rfl⟩ := Table.upd_eq_ok.mp ht₁
  rw [Int.toNat_natCast] at hlt h
  have hn : ∀ j, nth (t.modify k fun _ => e) j = if j = k then e else t.nth j := fun j =>
    nth_modify t _ k j hlt
  have hl : List.length (t.modify k fun _ => e) = t.length := List.length_modify ..
  have hfree : t.Held k → ∀ j < t.length, t.Held j := fun hheld j hj => by
    refine ⟨hj, ?_⟩
    by_contra hv
    have hmem : t.nth j ∈ t := mem_iff_nth.mpr ⟨j, hj, rfl⟩
    cases hi : t.findIdx? fun e => !e.valid with
    | none =>
      have := List.findIdx?_eq_none_iff.mp hi _ hmem
      simp [hv] at this
    | some i =>
      obtain ⟨hil, hiv, -⟩ := List.findIdx?_eq_some_iff_getElem.mp hi
      rw [hi, Option.getD_some] at hk
      subst hk
      have : t.nth k = t[k] := by simp [nth, hil]
      rw [← this, hheld.2] at hiv
      cases hiv
  have hvictim : (∀ j < t.length, t.Held j) → k = t.findOneToReplace cfg := fun hall => by
    have hnone : (t.findIdx? fun e => !e.valid) = none := by
      refine List.findIdx?_eq_none_iff.mpr fun e he => ?_
      obtain ⟨j, hj, rfl⟩ := mem_iff_nth.mp he
      rw [(hall j hj).2]
      rfl
    rw [hk, hnone, Option.getD_none]
  split at h
  · rename_i hF
    have hle : tlbSize = List.length (t.modify k fun _ => e) := by rw [hl, hlen]
    rw [hle, updateFIFOFlag_eq stray (hl ▸ hlt)] at h
    split at h <;> [skip; cases h]
    rename_i hroom
    cases h
    have hstamp := fun j => nth_stampFIFO (t := t.modify k fun _ => e) (hl ▸ hlt) j
    refine ⟨k, hlt, by rw [length_stampFIFO, hl], fun j hj => ?_, ?_, fun _ => ⟨?_, ?_⟩, hfree,
      hvictim⟩
    · rw [hstamp, if_neg hj, hn, if_neg hj]
    · rw [hstamp, if_pos rfl, hn, if_pos rfl]
      rfl
    · rw [hstamp, if_pos rfl]
      exact freshFlag_le_iff.mpr ⟨by decide, hroom⟩
    · intro j hj hheld
      have habove : Below (·.fifoFlag) (t.modify k fun _ => e) k _ := lt_freshFlag
      have hlow := habove j (hl ▸ hheld.1) hj
      rw [hn, if_neg hj] at hlow
      rw [hstamp, if_pos rfl]
      exact hlow hheld.2
  · rename_i hF
    cases h
    refine ⟨k, hlt, hl, fun j hj => by rw [hn, if_neg hj], by rw [hn, if_pos rfl],
      fun hF' => absurd hF' hF, hfree, hvictim⟩

/-! ## The order of the stamps -/

/-- The entry has had a hit since it was inserted. -/
def Used (t : Table) (inserted hit : Int → Nat) (i : Nat) : Prop :=
  t.Held i ∧ inserted (t.nth i).vpn < hit (t.nth i).vpn

/-- Each page is in one slot, and the stamps are in the order of the times at which
the entries were inserted and hit. -/
structure Aged (cfg : Config) (t : Table) (now : Nat) (inserted hit : Int → Nat) : Prop where
  length : t.length = tlbSize
  distinct : ∀ i j, t.Held i → t.Held j → (t.nth i).vpn = (t.nth j).vpn → i = j
  past : ∀ vpn, inserted vpn ≤ now ∧ hit vpn ≤ now
  fifo : cfg.fifoReplace = true → (∀ i, t.Held i → (t.nth i).fifoFlag ≤ intMax) ∧
    Tells t.Held (fun i => (t.nth i).fifoFlag) fun i => inserted (t.nth i).vpn
  lru : cfg.lruReplace = true → (∀ i, t.Used inserted hit i → (t.nth i).lruFlag ≤ intMax) ∧
    Tells (t.Used inserted hit) (fun i => (t.nth i).lruFlag) fun i => hit (t.nth i).vpn

namespace Aged

variable {cfg : Config} {t t' : Table} {now : Nat} {inserted hit : Int → Nat}

/-- An empty TLB. -/
theorem empty (hlen : t.length = tlbSize) (h : ∀ e ∈ t, e.valid = false) :
    Aged cfg t 0 (fun _ => 0) fun _ => 0 := by
  have hnone : ∀ i, ¬ t.Held i := fun i hi => by
    have := h _ (mem_iff_nth.mpr ⟨i, hi.1, rfl⟩)
    rw [hi.2] at this
    cases this
  exact ⟨hlen, fun i _ hi => absurd hi (hnone i), fun _ => ⟨Nat.le_refl _, Nat.le_refl _⟩,
    fun _ => ⟨fun i hi => absurd hi (hnone i), fun i _ hi => absurd hi (hnone i)⟩,
    fun _ => ⟨fun i hi => absurd hi.1 (hnone i), fun i _ hi => absurd hi.1 (hnone i)⟩⟩

theorem idle (h : Aged cfg t now inserted hit) : Aged cfg t (now + 1) inserted hit :=
  ⟨h.length, h.distinct,
    fun vpn => ⟨Nat.le_succ_of_le (h.past vpn).1, Nat.le_succ_of_le (h.past vpn).2⟩, h.fifo, h.lru⟩

/-- A hit of the page `vpn` in the slot `k`. -/
theorem hits (h : Aged cfg t now inserted hit) {k : Nat} {vpn : Int} (hk : t.Held k)
    (hv : (t.nth k).vpn = vpn)
    (hlru : cfg.lruReplace = true → t.Below (·.lruFlag) k intMax ∧ t' = t.stampLRU k)
    (hno : cfg.lruReplace = false → t' = t) :
    Aged cfg t' (now + 1) inserted (Function.update hit vpn (now + 1)) := by
  have hsame : t'.length = t.length ∧ ∀ j, (t'.nth j).valid = (t.nth j).valid ∧
      (t'.nth j).vpn = (t.nth j).vpn ∧ (t'.nth j).fifoFlag = (t.nth j).fifoFlag := by
    cases hL : cfg.lruReplace with
    | true =>
      obtain ⟨-, rfl⟩ := hlru hL
      refine ⟨length_stampLRU t k, fun j => ?_⟩
      rw [nth_stampLRU hk.1]
      split <;> exact ⟨rfl, rfl, rfl⟩
    | false =>
      obtain rfl := hno hL
      exact ⟨rfl, fun _ => ⟨rfl, rfl, rfl⟩⟩
  obtain ⟨hl, hn⟩ := hsame
  have hheld : ∀ j, t'.Held j ↔ t.Held j := fun j => by unfold Held; rw [hl, (hn j).1]
  have hpast : ∀ vpn', Function.update hit vpn (now + 1) vpn' ≤ now + 1 := fun vpn' => by
    have := (h.past vpn').2
    rw [Function.update_apply]
    split <;> omega
  have hother : ∀ j, t.Held j → j ≠ k → Function.update hit vpn (now + 1) (t.nth j).vpn =
      hit (t.nth j).vpn := fun j hj hne =>
    Function.update_of_ne (fun e => hne (h.distinct j k hj hk (e.trans hv.symm))) ..
  refine ⟨hl.trans h.length, fun i j hi hj hij => ?_, fun vpn' => ⟨?_, hpast vpn'⟩, fun hF => ?_,
    fun hL => ?_⟩
  · rw [(hn i).2.1, (hn j).2.1] at hij
    exact h.distinct i j ((hheld i).mp hi) ((hheld j).mp hj) hij
  · exact Nat.le_succ_of_le (h.past vpn').1
  · obtain ⟨hmax, htells⟩ := h.fifo hF
    refine ⟨fun i hi => ?_, htells.mono fun i hi => ⟨(hheld i).mp hi, (hn i).2.2, ?_⟩⟩
    · rw [(hn i).2.2]
      exact hmax i ((hheld i).mp hi)
    · rw [(hn i).2.1]
  · obtain ⟨hmax, htells⟩ := h.lru hL
    obtain ⟨hroom, rfl⟩ := hlru hL
    have hstamp := nth_stampLRU hk.1
    have hused : ∀ i, (t.stampLRU k).Used inserted (Function.update hit vpn (now + 1)) i →
        i ≠ k → t.Used inserted hit i := fun i hi hne => by
      have hi₁ := (hheld i).mp hi.1
      have hi₂ := hi.2
      rw [(hn i).2.1, hother i hi₁ hne] at hi₂
      exact ⟨hi₁, hi₂⟩
    refine ⟨fun i hi => ?_, htells.touch k (fun i hi hne => ?_) fun i hi hne => ?_⟩
    · by_cases hne : i = k
      · subst hne
        rw [hstamp, if_pos rfl]
        exact freshFlag_le_iff.mpr ⟨by decide, hroom⟩
      · rw [hstamp, if_neg hne]
        exact hmax i (hused i hi hne)
    · refine ⟨hused i hi hne, by rw [hstamp, if_neg hne], ?_⟩
      rw [(hn i).2.1, hother i (hused i hi hne).1 hne]
    · have hu := hused i hi hne
      have habove : Below (·.lruFlag) t k _ := lt_freshFlag
      constructor
      · rw [hstamp, hstamp, if_neg hne, if_pos rfl]
        exact habove i hu.1.1 hne hu.1.2
      · have := (h.past (t.nth i).vpn).2
        rw [(hn i).2.1, (hn k).2.1, hother i hu.1 hne, hv, Function.update_self]
        omega

/-- A refill for the page `vpn`, which was in no slot. -/
theorem refill (h : Aged cfg t now inserted hit) {k : Nat} {e : TranslationEntry} {vpn : Int}
    (hr : Refilled cfg t t' e k) (hmiss : ∀ i, t.Held i → (t.nth i).vpn ≠ vpn)
    (hvpn : (t'.nth k).vpn = vpn) :
    Aged cfg t' (now + 1) (Function.update inserted vpn (now + 1)) hit := by
  have hheld : ∀ j, t'.Held j → j ≠ k → t.Held j := fun j hj hne => by
    unfold Held at hj ⊢
    rwa [hr.length, hr.others j hne] at hj
  have hother : ∀ j, t.Held j → Function.update inserted vpn (now + 1) (t.nth j).vpn =
      inserted (t.nth j).vpn := fun j hj => Function.update_of_ne (hmiss j hj) ..
  refine ⟨hr.length.trans h.length, fun i j hi hj hij => ?_, fun vpn' => ⟨?_, ?_⟩, fun hF => ?_,
    fun hL => ?_⟩
  · by_cases ei : i = k <;> by_cases ej : j = k
    · rw [ei, ej]
    · rw [ei, hvpn, hr.others j ej] at hij
      exact absurd hij.symm (hmiss j (hheld j hj ej))
    · rw [ej, hvpn, hr.others i ei] at hij
      exact absurd hij (hmiss i (hheld i hi ei))
    · rw [hr.others i ei, hr.others j ej] at hij
      exact h.distinct i j (hheld i hi ei) (hheld j hj ej) hij
  · have := (h.past vpn').1
    rw [Function.update_apply]
    split <;> omega
  · exact Nat.le_succ_of_le (h.past vpn').2
  · obtain ⟨hmax, htells⟩ := h.fifo hF
    obtain ⟨hfresh, habove⟩ := hr.fresh hF
    refine ⟨fun i hi => ?_, htells.touch k (fun i hi hne => ?_) fun i hi hne => ?_⟩
    · by_cases hne : i = k
      · rwa [hne]
      · rw [hr.others i hne]
        exact hmax i (hheld i hi hne)
    · refine ⟨hheld i hi hne, by rw [hr.others i hne], ?_⟩
      rw [hr.others i hne, hother i (hheld i hi hne)]
    · have := (h.past (t.nth i).vpn).1
      rw [hr.others i hne, hvpn, hother i (hheld i hi hne), Function.update_self]
      exact ⟨habove i hne (hheld i hi hne), by omega⟩
  · obtain ⟨hmax, htells⟩ := h.lru hL
    -- The new entry has had no hit yet.
    have hne : ∀ i, t'.Used (Function.update inserted vpn (now + 1)) hit i → i ≠ k := by
      rintro i hi rfl
      have hlt := hi.2
      have := (h.past vpn).2
      rw [hvpn, Function.update_self] at hlt
      omega
    have hused : ∀ i, t'.Used (Function.update inserted vpn (now + 1)) hit i →
        t.Used inserted hit i := fun i hi => by
      have hi₁ := hheld i hi.1 (hne i hi)
      have hi₂ := hi.2
      rw [hr.others i (hne i hi), hother i hi₁] at hi₂
      exact ⟨hi₁, hi₂⟩
    refine ⟨fun i hi => ?_, htells.mono fun i hi => ⟨hused i hi, ?_, ?_⟩⟩
    · rw [hr.others i (hne i hi)]
      exact hmax i (hused i hi)
    · rw [hr.others i (hne i hi)]
    · rw [hr.others i (hne i hi)]

/-- The victim among slots whose flags are in the order of some time. -/
theorem victim_first (hone : cfg.fifoReplace ≠ cfg.lruReplace) {S : Nat → Prop} (time : Nat → Nat)
    (htells : Tells S (fun i => victimFlag cfg (t.nth i)) time) (hall : ∀ i < t.length, S i)
    (hmax : ∀ i, S i → victimFlag cfg (t.nth i) ≤ intMax) {j : Nat} (hj : j < t.length)
    (hne : j ≠ t.findOneToReplace cfg) : time (t.findOneToReplace cfg) < time j := by
  have hk : t.findOneToReplace cfg < t.length := findOneToReplace_lt cfg (by omega)
  refine htells.first (hall _ hk) (hall j hj) hne (Int.not_lt.mpr ?_)
  refine findOneToReplace_least hone (fun e he => ?_) (mem_iff_nth.mpr ⟨j, hj, rfl⟩)
  obtain ⟨i, hi, rfl⟩ := mem_iff_nth.mp he
  exact hmax i (hall i hi)

/-- With `FIFO_REPLACE` the victim was inserted first. -/
theorem victim_fifo (h : Aged cfg t now inserted hit) (hF : cfg.fifoReplace = true)
    (hL : cfg.lruReplace = false) (hall : ∀ j < t.length, t.Held j) {j : Nat} (hj : j < t.length)
    (hne : j ≠ t.findOneToReplace cfg) :
    inserted (t.nth (t.findOneToReplace cfg)).vpn < inserted (t.nth j).vpn := by
  have hflag : victimFlag cfg = fun e => e.fifoFlag := funext fun e => if_pos hF
  obtain ⟨hmax, htells⟩ := h.fifo hF
  exact victim_first (by simp [hF, hL]) (fun i => inserted (t.nth i).vpn) (hflag ▸ htells) hall
    (hflag ▸ hmax) hj hne

/-- With `LRU_REPLACE` the victim's last hit is the oldest, once every entry has
had one. -/
theorem victim_lru (h : Aged cfg t now inserted hit) (hF : cfg.fifoReplace = false)
    (hL : cfg.lruReplace = true) (hall : ∀ j < t.length, t.Used inserted hit j) {j : Nat}
    (hj : j < t.length) (hne : j ≠ t.findOneToReplace cfg) :
    hit (t.nth (t.findOneToReplace cfg)).vpn < hit (t.nth j).vpn := by
  have hflag : victimFlag cfg = fun e => e.lruFlag := funext fun e => if_neg (by simp [hF])
  obtain ⟨hmax, htells⟩ := h.lru hL
  exact victim_first (by simp [hF, hL]) (fun i => hit (t.nth i).vpn) (hflag ▸ htells) hall
    (hflag ▸ hmax) hj hne

end Aged

end Table

namespace Vm

/-! ## References -/

/-- The machine after some references, their number, and for each page the last
one that inserted its entry in the TLB and the last one that hit it. -/
structure Tracked where
  machine : Vm
  now : Nat
  inserted : Int → Nat
  hit : Int → Nat

/-- The reference finds its page in the TLB. -/
def hits (cfg : Config) (s : Vm) (r : Access × Env) : Bool :=
  match s.translate cfg r.2 r.1.addr r.1.size r.1.writing with
  | .ok (_, .ok _) => true
  | _ => false

/-- The reference misses its page in the TLB, and the handler copies an entry. -/
def refills (cfg : Config) (s : Vm) (r : Access × Env) : Bool :=
  match s.translate cfg r.2 r.1.addr r.1.size r.1.writing with
  | .ok (s, .error .tlbMiss) =>
    match s.pageTableTranslation cfg r.2 (r.1.addr.tdiv pageSize) with
    | .ok (_, .ok _) => true
    | _ => false
  | _ => false

/-- One reference, and what it happens to read. -/
def refer (cfg : Config) (x : Tracked) (r : Access × Env) : Except Abort Tracked := do
  let (s, _) ← r.1.perform cfg r.2 x.machine
  let vpn := r.1.addr.tdiv pageSize
  let now := x.now + 1
  let inserted := if x.machine.refills cfg r then Function.update x.inserted vpn now else x.inserted
  let hit := if x.machine.hits cfg r then Function.update x.hit vpn now else x.hit
  return ⟨s, now, inserted, hit⟩

/-- Before a refill every page in the TLB has had a hit since it was inserted,
and behind it the reference, when it is issued again, finds its page. -/
def Reissued (cfg : Config) (x : Tracked) (r : Access × Env) : Prop :=
  x.machine.refills cfg r = true →
    (∀ e ∈ x.machine.tlb, e.valid = true → x.inserted e.vpn < x.hit e.vpn) ∧
    (refer cfg x r).toOption.all fun x' => (x'.machine.place (r.1.addr.tdiv pageSize)).isSome

instance (cfg : Config) (x : Tracked) (r : Access × Env) : Decidable (Reissued cfg x r) :=
  inferInstanceAs (Decidable (_ → _ ∧ _))

section
variable {cfg : Config} {env : Env} {s s' : Vm}

theorem held_of_place {vpn : Int} {k : Nat} (h : s.place vpn = some k) :
    s.tlb.Held k ∧ (s.tlb.nth k).vpn = vpn := by
  obtain ⟨hk, hp, -⟩ := List.findIdx?_eq_some_iff_getElem.mp h
  have hn : s.tlb.nth k = s.tlb[k] := by simp [Table.nth, hk]
  obtain ⟨hv, hvpn⟩ := Bool.and_eq_true_iff.mp hp
  exact ⟨⟨hk, hn ▸ hv⟩, hn ▸ of_decide_eq_true hvpn⟩

theorem not_held_of_place {vpn : Int} (h : s.place vpn = none) {k : Nat} (hk : s.tlb.Held k) :
    (s.tlb.nth k).vpn ≠ vpn := by
  have := List.findIdx?_eq_none_iff.mp h _ (Table.mem_iff_nth.mpr ⟨k, hk.1, rfl⟩)
  intro he
  simp [hk.2, he] at this

/-- A reference that misses. -/
theorem place_of_tlbMiss {addr : Int} {size : Nat} {writing : Bool}
    (h : s.translate cfg env addr size writing = .ok (s', .error .tlbMiss)) :
    s.place (addr.tdiv pageSize) = none := by
  have hal : ¬ Misaligned addr size := fun hm => by
    rw [translate_misaligned hm] at h
    cases h
  rcases translate_raises hal h with hl | hw | hw <;> [skip; cases hw; cases hw]
  rcases (lookup_raises hl).2 with ⟨-, hk, -⟩ | ⟨-, hw⟩
  · exact hk
  · rcases pageTableTranslation_error hw with he | he <;> cases he

theorem touch_tlb {vpn f : Int} (h : s.touch cfg env vpn f = .ok s') : s'.tlb = s.tlb := by
  unfold touch at h
  split at h <;> [skip; (cases h; rfl)]
  split at h
  · obtain ⟨pt, -, h⟩ := bind_eq_ok.mp h
    cases h
    rfl
  · obtain ⟨sp, -, h⟩ := bind_eq_ok.mp h
    obtain ⟨pt, -, h⟩ := bind_eq_ok.mp h
    cases h
    rfl

/-- A reference that succeeds hits its page, and stamps the entry. -/
theorem translate_hit (hT : cfg.useTLB = true) (hlen : s.tlb.length = tlbSize) {addr pa : Int}
    {size : Nat} {writing : Bool} (h : s.translate cfg env addr size writing = .ok (s', .ok pa)) :
    ∃ k, s.tlb.Held k ∧ (s.tlb.nth k).vpn = addr.tdiv pageSize ∧
      (cfg.lruReplace = true → s.tlb.Below (·.lruFlag) k intMax ∧ s'.tlb = s.tlb.stampLRU k) ∧
      (cfg.lruReplace = false → s'.tlb = s.tlb) := by
  unfold translate at h
  split at h <;> [cases h; skip]
  obtain ⟨⟨s₁, r⟩, hl, h⟩ := bind_eq_ok.mp h
  unfold lookup at hl
  rw [if_pos hT] at hl
  split at hl
  · cases hl
    cases h
  rename_i k hk
  cases hl
  obtain ⟨hheld, hvpn⟩ := held_of_place hk
  simp only at h
  split at h <;> [cases h; skip]
  split at h <;> [cases h; skip]
  obtain ⟨s₂, h₂, h⟩ := bind_eq_ok.mp h
  obtain ⟨-, -, h⟩ := bind_eq_ok.mp h
  obtain ⟨s₃, h₃, h⟩ := bind_eq_ok.mp h
  cases h
  have htlb := touch_tlb h₂
  rw [touchTLB_eq (htlb ▸ hlen) (hlen ▸ hheld.1), htlb] at h₃
  refine ⟨k, hheld, hvpn, fun hL => ?_, fun hL => ?_⟩
  · rw [if_pos hL] at h₃
    split at h₃ <;> [skip; cases h₃]
    rename_i hroom
    cases h₃
    exact ⟨hroom, rfl⟩
  · rw [if_neg (by simp [hL])] at h₃
    cases h₃
    exact htlb

theorem pageTableTranslation_tlb {vpn : Int}
    {r : Except ExceptionType (Int × TranslationEntry)}
    (h : s.pageTableTranslation cfg env vpn = .ok (s', r)) : s'.tlb = s.tlb := by
  rcases pageTableTranslation_swaps h with rfl | ⟨-, m, sp, sp', -, rfl, -⟩ <;> rfl

theorem pageFaultHandler_tlb {vaddr : Int} (h : s.pageFaultHandler cfg env vaddr = .ok s') :
    s'.tlb = s.tlb := by
  obtain ⟨⟨s₁, ppn⟩, h₁, h⟩ := bind_eq_ok.mp h
  obtain ⟨b, rfl⟩ := pageFrame_eq h₁
  obtain ⟨sp, -, h⟩ := bind_eq_ok.mp h
  obtain ⟨fileAddr, -, h⟩ := bind_eq_ok.mp h
  obtain ⟨s₂, h₂, h⟩ := bind_eq_ok.mp h
  obtain ⟨page, -, h⟩ := bind_eq_ok.mp h
  obtain ⟨-, -, rfl⟩ := store_eq_ok.mp h
  show s₂.tlb = s.tlb
  split at h₂
  · obtain ⟨pt, -, h₂⟩ := bind_eq_ok.mp h₂
    obtain ⟨pt', -, h₂⟩ := bind_eq_ok.mp h₂
    cases h₂
    rfl
  · obtain ⟨cur, -, h₂⟩ := bind_eq_ok.mp h₂
    obtain ⟨sp', -, h₂⟩ := bind_eq_ok.mp h₂
    obtain ⟨pt, -, h₂⟩ := bind_eq_ok.mp h₂
    obtain ⟨pt', -, h₂⟩ := bind_eq_ok.mp h₂
    simp only at h₂
    split at h₂
    · obtain ⟨cur', -, h₂⟩ := bind_eq_ok.mp h₂
      obtain ⟨page', -, h₂⟩ := bind_eq_ok.mp h₂
      obtain ⟨vmFile, -, h₂⟩ := bind_eq_ok.mp h₂
      cases h₂
      rfl
    · cases h₂
      rfl

/-- `s'` is the machine behind a translation of an access and then the handler or the
access to main memory. -/
def Accessed (cfg : Config) (env : Env) (s s' : Vm) (addr : Int) (size : Nat) (writing : Bool) :
    Prop :=
  (∃ s₁ pa m, s.translate cfg env addr size writing = .ok (s₁, .ok pa) ∧
    s' = { s₁ with mainMemory := m }) ∨
  ∃ s₁ which, s.translate cfg env addr size writing = .ok (s₁, .error which) ∧
    s₁.exceptionHandler cfg env which addr = .ok s'

theorem readMem_cases {addr : Int} {size : Nat} {v : Option Int}
    (h : s.readMem cfg env addr size = .ok (s', v)) : Accessed cfg env s s' addr size false := by
  obtain ⟨⟨s₁, r⟩, ht, h⟩ := bind_eq_ok.mp h
  cases r with
  | error which =>
    obtain ⟨s₂, hx, h⟩ := bind_eq_ok.mp h
    cases h
    exact .inr ⟨s₁, which, ht, hx⟩
  | ok pa =>
    obtain ⟨-, -, h⟩ := bind_eq_ok.mp h
    obtain ⟨data, -, h⟩ := bind_eq_ok.mp h
    cases h
    exact .inl ⟨_, pa, _, ht, rfl⟩

theorem writeMem_cases {addr v : Int} {size : Nat} {b : Bool}
    (h : s.writeMem cfg env addr size v = .ok (s', b)) : Accessed cfg env s s' addr size true := by
  obtain ⟨⟨s₁, r⟩, ht, h⟩ := bind_eq_ok.mp h
  cases r with
  | error which =>
    obtain ⟨s₂, hx, h⟩ := bind_eq_ok.mp h
    cases h
    exact .inr ⟨s₁, which, ht, hx⟩
  | ok pa =>
    obtain ⟨-, -, h⟩ := bind_eq_ok.mp h
    obtain ⟨s₂, hs, h⟩ := bind_eq_ok.mp h
    cases h
    obtain ⟨-, -, rfl⟩ := store_eq_ok.mp hs
    exact .inl ⟨_, pa, _, ht, rfl⟩

theorem perform_cases {a : Access} {v : Option (List Byte)}
    (h : a.perform cfg env s = .ok (s', v)) : Accessed cfg env s s' a.addr a.size a.writing := by
  cases a with
  | read addr size =>
    obtain ⟨⟨s₁, w⟩, hr, h⟩ := bind_eq_ok.mp h
    cases h
    exact readMem_cases hr
  | write addr size value =>
    obtain ⟨⟨s₁, w⟩, hr, h⟩ := bind_eq_ok.mp h
    cases h
    exact writeMem_cases hr

/-- The kinds of references: a hit, a refill, or a page fault, which leaves the TLB
alone. -/
theorem refer_cases (hT : cfg.useTLB = true) {x x' : Tracked} {r : Access × Env}
    (hlen : x.machine.tlb.length = tlbSize) (h : refer cfg x r = .ok x') :
    (x.machine.hits cfg r = true ∧ x.machine.refills cfg r = false ∧
      ∃ k, x.machine.tlb.Held k ∧ (x.machine.tlb.nth k).vpn = r.1.addr.tdiv pageSize ∧
        (cfg.lruReplace = true → x.machine.tlb.Below (·.lruFlag) k intMax ∧
          x'.machine.tlb = x.machine.tlb.stampLRU k) ∧
        (cfg.lruReplace = false → x'.machine.tlb = x.machine.tlb)) ∨
    (x.machine.hits cfg r = false ∧ x.machine.refills cfg r = true ∧
      x.machine.place (r.1.addr.tdiv pageSize) = none ∧
      ∃ e k, x.machine.tlb.Refilled cfg x'.machine.tlb e k) ∨
    (x.machine.hits cfg r = false ∧ x.machine.refills cfg r = false ∧
      x'.machine.tlb = x.machine.tlb) := by
  obtain ⟨a, env⟩ := r
  obtain ⟨⟨s', v⟩, hp, h⟩ := bind_eq_ok.mp h
  cases h
  rcases perform_cases hp with ⟨s₁, pa, m, ht, rfl⟩ | ⟨s₁, which, ht, hx⟩
  · left
    obtain ⟨k, hk⟩ := translate_hit hT hlen ht
    exact ⟨by simp [hits, ht], by simp [refills, ht], k, hk⟩
  · right
    have hhits : x.machine.hits cfg (a, env) = false := by simp [hits, ht]
    cases which with
    | tlbMiss =>
      have hstay := translate_stays ht (.inr rfl)
      subst hstay
      obtain ⟨⟨s₂, q⟩, hq, hx⟩ := bind_eq_ok.mp hx
      have htlb := pageTableTranslation_tlb hq
      cases q with
      | error e =>
        right
        refine ⟨hhits, by simp [refills, ht, hq], ?_⟩
        cases e with
        | pageFault => exact (pageFaultHandler_tlb hx).trans htlb
        | tlbMiss | readOnly | busError | addressError => cases hx
      | ok p =>
        left
        obtain ⟨f, e⟩ := p
        obtain ⟨tlb, hu, hx⟩ := bind_eq_ok.mp hx
        cases hx
        rw [htlb] at hu
        obtain ⟨k, hk⟩ := Table.updateTLB_refilled hlen hu
        refine ⟨hhits, by simp [refills, ht, hq], place_of_tlbMiss ht, e, k, hk⟩
    | pageFault =>
      right
      have hstay := translate_stays ht (.inl rfl)
      subst hstay
      exact ⟨hhits, by simp [refills, ht], pageFaultHandler_tlb hx⟩
    | readOnly | busError | addressError => cases hx

/-! ## Runs of references -/

def Tracked.start (s : Vm) : Tracked := ⟨s, 0, fun _ => 0, fun _ => 0⟩

/-- The references that are issued again after a miss. -/
def references (cfg : Config) (s : Vm) : System Tracked (Access × Env) :=
  (System.ofFun (Tracked.start s) (refer cfg)).restrict (Reissued cfg)

/-- The stamps of the TLB. -/
def Tracked.Aged (cfg : Config) (x : Tracked) : Prop :=
  x.machine.tlb.Aged cfg x.now x.inserted x.hit

/-- The refilled slot has the entry of the page. -/
theorem vpn_of_reissued {x x' : Tracked} {r : Access × Env} {e : TranslationEntry} {k : Nat}
    (hc : Reissued cfg x r) (hr : x.machine.refills cfg r = true) (h : refer cfg x r = .ok x')
    (hmiss : x.machine.place (r.1.addr.tdiv pageSize) = none)
    (hk : x.machine.tlb.Refilled cfg x'.machine.tlb e k) :
    x'.machine.tlb.Held k ∧ (x'.machine.tlb.nth k).vpn = r.1.addr.tdiv pageSize := by
  have hfound := (hc hr).2
  rw [h] at hfound
  obtain ⟨j, hj⟩ := Option.isSome_iff_exists.mp hfound
  obtain ⟨hheld, hvpn⟩ := held_of_place hj
  by_cases hne : j = k
  · exact hne ▸ ⟨hheld, hvpn⟩
  · rw [hk.others j hne] at hvpn
    refine absurd hvpn (not_held_of_place hmiss ?_)
    unfold Table.Held at hheld ⊢
    rwa [hk.length, hk.others j hne] at hheld

/-- One reference keeps the order of the stamps. -/
theorem Tracked.Aged.refer (hT : cfg.useTLB = true) {x x' : Tracked} {r : Access × Env}
    (hx : x.Aged cfg) (hc : Reissued cfg x r) (h : refer cfg x r = .ok x') : x'.Aged cfg := by
  have hcases := refer_cases hT hx.length h
  obtain ⟨⟨s', v⟩, -, hx'⟩ := bind_eq_ok.mp h
  cases hx'
  unfold Tracked.Aged
  rcases hcases with ⟨hh, hr, k, hk, hvpn, hlru, hno⟩ | ⟨hh, hr, hmiss, e, k, hk⟩ | ⟨hh, hr, htlb⟩
  · simp only [hh, hr, if_true, Bool.false_eq_true, if_false]
    exact Table.Aged.hits hx hk hvpn hlru hno
  · obtain ⟨-, hvpn⟩ := vpn_of_reissued hc hr h hmiss hk
    simp only [hh, hr, if_true, Bool.false_eq_true, if_false]
    exact Table.Aged.refill hx hk (fun i => not_held_of_place hmiss) hvpn
  · simp only [hh, hr, Bool.false_eq_true, if_false]
    rw [show s'.tlb = x.machine.tlb from htlb]
    exact Table.Aged.idle hx

theorem reachable_aged (hT : cfg.useTLB = true) (hlen : s.tlb.length = tlbSize)
    (hreset : ∀ e ∈ s.tlb, e.valid = false) {x : Tracked} (h : (references cfg s).Reachable x) :
    x.Aged cfg := by
  refine h.invariant (I := fun x => x.Aged cfg) ?_ ?_
  · rintro _ rfl
    exact Table.Aged.empty hlen hreset
  · rintro x r x' hx ⟨hc, hs⟩
    exact hx.refer hT hc hs

end

/-- How a refill should choose its slot `k`: a free one if there is one, and
otherwise the one that was inserted first, or whose last hit is the oldest. -/
structure Chosen (cfg : Config) (x : Tracked) (k : Nat) : Prop where
  free : x.machine.tlb.Held k → ∀ j < tlbSize, x.machine.tlb.Held j
  fifo : cfg.fifoReplace = true → cfg.lruReplace = false → x.machine.tlb.Held k →
    ∀ j < tlbSize, j ≠ k →
      x.inserted (x.machine.tlb.nth k).vpn < x.inserted (x.machine.tlb.nth j).vpn
  lru : cfg.lruReplace = true → cfg.fifoReplace = false → x.machine.tlb.Held k →
    ∀ j < tlbSize, j ≠ k → x.hit (x.machine.tlb.nth k).vpn < x.hit (x.machine.tlb.nth j).vpn

/-- In every run of references since a reset no page is in the TLB twice, and every
refill puts the page in the slot that the policy asks for and changes no other
slot. -/
theorem tlb_replacement {cfg : Config} (hT : cfg.useTLB = true) {s : Vm}
    (hlen : s.tlb.length = tlbSize) (hreset : ∀ e ∈ s.tlb, e.valid = false) {x : Tracked}
    (h : (references cfg s).Reachable x) :
    (∀ i j, x.machine.tlb.Held i → x.machine.tlb.Held j →
      (x.machine.tlb.nth i).vpn = (x.machine.tlb.nth j).vpn → i = j) ∧
    ∀ r x', (references cfg s).step x r x' → x.machine.refills cfg r = true →
      ∃ k < tlbSize, Chosen cfg x k ∧ x'.machine.tlb.Held k ∧
        (x'.machine.tlb.nth k).vpn = r.1.addr.tdiv pageSize ∧
        ∀ j ≠ k, x'.machine.tlb.nth j = x.machine.tlb.nth j := by
  have hx := reachable_aged hT hlen hreset h
  have hxl : x.machine.tlb.length = tlbSize := hx.length
  refine ⟨hx.distinct, ?_⟩
  rintro r x' ⟨hc, hs⟩ hr
  rcases refer_cases hT hxl hs with ⟨-, hr', -⟩ | ⟨-, -, hmiss, e, k, hk⟩ | ⟨-, hr', -⟩
  · rw [hr] at hr'
    cases hr'
  · obtain ⟨hheld, hvpn⟩ := vpn_of_reissued hc hr hs hmiss hk
    refine ⟨k, hxl ▸ hk.inside, ⟨hxl ▸ hk.free, fun hF hL hfull j hj hne => ?_,
      fun hL hF hfull j hj hne => ?_⟩, hheld, hvpn, hk.others⟩
    · have hall := hk.free hfull
      have hvictim := hk.victim hall
      rw [hvictim] at hne ⊢
      exact hx.victim_fifo hF hL hall (hxl.symm ▸ hj) hne
    · have hall := hk.free hfull
      have hvictim := hk.victim hall
      rw [hvictim] at hne ⊢
      refine hx.victim_lru hF hL (fun i hi => ⟨hall i hi, ?_⟩) (hxl.symm ▸ hj) hne
      exact (hc hr).1 _ (Table.mem_iff_nth.mpr ⟨i, hi, rfl⟩) (hall i hi).2
  · rw [hr] at hr'
    cases hr'

/-- A thread with four pages in memory, whose flags mean nothing to the TLB. -/
def fourPages : Vm where
  mmBitmap := .new numPhysPages
  mainMemory _ := 0
  pt := [⟨0, 0, 0, true, false, false, false, 7, 9⟩, ⟨1, 0, 1, true, false, false, false, 6, 2⟩,
    ⟨2, 0, 2, true, false, false, false, 5, 4⟩, ⟨3, 0, 3, true, false, false, false, 8, 0⟩] ++
    List.replicate 124 .reset
  tlb := List.replicate tlbSize .reset
  threadArray := [some ⟨none, none, false⟩]
  currentThread := 0

/-- A reference to the first byte of a page. -/
def pageReference (vpn : Int) : Access × Env := (.read (vpn * pageSize) 1, .blank)

/-- Three pages fill the TLB, the first one is hit again, and the fourth one takes
the place of the second one. -/
theorem tlb_replacement_fourPages : ∃ (x x' : Tracked) (k : Nat),
    (references ⟨true, true, false, true⟩ fourPages).Reachable x ∧
    x.machine.tlb.map (·.vpn) = [0, 1, 2] ∧ Chosen ⟨true, true, false, true⟩ x k ∧
    x'.machine.tlb.map (·.vpn) = [0, 3, 2] ∧ (x'.machine.tlb.nth k).vpn = 3 := by
  obtain ⟨x, hx, hp⟩ := System.exists_reachable_guarded (Tracked.start fourPages)
    (refer ⟨true, true, false, true⟩) (Reissued ⟨true, true, false, true⟩)
    ([0, 0, 1, 1, 2, 2, 0].map pageReference)
    (p := fun x => x.machine.tlb.map (·.vpn) = [0, 1, 2] ∧
      Reissued ⟨true, true, false, true⟩ x (pageReference 3) ∧
      x.machine.refills ⟨true, true, false, true⟩ (pageReference 3) = true ∧
      (refer ⟨true, true, false, true⟩ x (pageReference 3)).toOption.any
        fun x' => x'.machine.tlb.map (·.vpn) = [0, 3, 2]) (by decide +kernel)
  obtain ⟨hvpns, hc, hr, hs⟩ := of_decide_eq_true hp
  obtain ⟨x', hs, hvpns'⟩ := exists_ok hs
  obtain ⟨-, hrefill⟩ := @tlb_replacement ⟨true, true, false, true⟩ rfl fourPages rfl (by decide)
    x hx
  obtain ⟨k, -, hchosen, -, hvpn, -⟩ := hrefill _ x' ⟨hc, hs⟩ hr
  exact ⟨x, x', k, hx, hvpns, hchosen, of_decide_eq_true hvpns', hvpn⟩

end Vm

end Nachos

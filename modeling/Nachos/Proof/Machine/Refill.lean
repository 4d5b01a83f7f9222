import Nachos.Proof.Machine.Alu
import Nachos.Proof.Machine.Restart
import Nachos.Proof.Machine.Unaligned
import Nachos.Proof.Userprog.Copies

/-!
# Refills of the TLB

An instruction takes two entries of the TLB at once, that of the page it is
fetched from and that of its operand, and a refill for the one may replace the
other. It does not do so twice: the entry of the page that was fetched from is the
newest under `LRU_REPLACE`, as its hit is the last one, and so is the entry that
was refilled under `FIFO_REPLACE` (`Table.Newest`), and a refill keeps the newest
entry (`Table.Refilled.keeps`). So the second attempt that misses leaves both
entries in the TLB, and the third one goes through (`Ready.retry`). If a load of the
base register is pending, the first attempt may be for another operand
(`Ready.retry_pending`).
-/

namespace Nachos

open Framework

namespace Table

variable {cfg : Config} {t t' : Table} {e : TranslationEntry} {k : Nat} {v B : Int}

/-! ## The newest entry -/

/-- The page has a valid entry. -/
def Has (t : Table) (v : Int) : Prop := ∃ k, t.Held k ∧ (t.nth k).vpn = v

/-- The page has one whose flag is above those of the others. -/
def Newest (cfg : Config) (t : Table) (v : Int) : Prop :=
  ∃ k, t.Held k ∧ (t.nth k).vpn = v ∧
    ∀ j ≠ k, t.Held j → victimFlag cfg (t.nth j) < victimFlag cfg (t.nth k)

/-- The flags of the valid entries are at most `B`. -/
def Under (flag : TranslationEntry → Int) (t : Table) (B : Int) : Prop :=
  ∀ e ∈ t, e.valid = true → flag e ≤ B

instance (flag : TranslationEntry → Int) (t : Table) (B : Int) : Decidable (t.Under flag B) :=
  inferInstanceAs (Decidable (∀ e ∈ t, _))

theorem Under.nth {flag : TranslationEntry → Int} (h : t.Under flag B) (hk : t.Held k) :
    flag (t.nth k) ≤ B :=
  h _ (mem_iff_nth.mpr ⟨k, hk.1, rfl⟩) hk.2

theorem Under.mono {flag : TranslationEntry → Int} (h : t.Under flag B) {B' : Int} (hB : B ≤ B') :
    t.Under flag B' :=
  fun e he hv => Int.le_trans (h e he hv) hB

theorem Under.below {flag : TranslationEntry → Int} (h : t.Under flag B) {M : Int} (hB : B < M)
    (k : Nat) : t.Below flag k M :=
  fun _ hj _ hv => Int.lt_of_le_of_lt (h.nth ⟨hj, hv⟩) hB

theorem held_of_core (h : t'.core = t.core) (k : Nat) : t'.Held k ↔ t.Held k := by
  have hl : t'.length = t.length := by rw [← length_core, h, length_core]
  unfold Held
  rw [hl, (TranslationEntry.of_core (nth_of_core h k)).2.2.2.1]

theorem has_of_core (h : t'.core = t.core) (v : Int) : t'.Has v ↔ t.Has v := by
  unfold Has
  refine exists_congr fun k => ?_
  rw [held_of_core h, (TranslationEntry.of_core (nth_of_core h k)).1]

/-- A hit under `LRU_REPLACE` makes its entry the newest. -/
theorem newest_stampLRU (hF : cfg.fifoReplace = false) (hk : t.Held k) :
    (t.stampLRU k).Newest cfg (t.nth k).vpn := by
  have hstamp := nth_stampLRU hk.1
  refine ⟨k, (held_of_core (core_stampLRU t k) k).mpr hk, by rw [hstamp, if_pos rfl],
    fun j hj hheld => ?_⟩
  have hheld := (held_of_core (core_stampLRU t k) j).mp hheld
  have habove : Below (·.lruFlag) t k _ := lt_freshFlag
  rw [hstamp, hstamp, if_neg hj, if_pos rfl]
  simp only [victimFlag, hF, Bool.false_eq_true, if_false]
  exact habove j hheld.1 hj hheld.2

/-- A stamp is at most one more than the other flags. -/
theorem Under.stampLRU (h : t.Under (·.lruFlag) B) (hB : -1 ≤ B) (hk : k < t.length) :
    (t.stampLRU k).Under (·.lruFlag) (B + 1) := by
  intro e he hv
  obtain ⟨j, hj, rfl⟩ := mem_iff_nth.mp he
  rw [length_stampLRU] at hj
  rw [nth_stampLRU hk] at hv ⊢
  split at hv <;> split
  · exact freshFlag_le_iff.mpr ⟨by omega, h.below (by omega) k⟩
  · contradiction
  · contradiction
  · exact Int.le_trans (h.nth ⟨hj, hv⟩) (by omega)

/-! ## One refill -/

namespace Refilled

variable (hr : Refilled cfg t t' e k)
include hr

theorem held_other {j : Nat} (hj : j ≠ k) : t'.Held j ↔ t.Held j := by
  unfold Held
  rw [hr.length, hr.others j hj]

/-- The page that was missed is in the refilled slot. -/
theorem held (he : e.valid = true) : t'.Held k ∧ (t'.nth k).vpn = e.vpn := by
  obtain ⟨hvpn, -, -, hv, -⟩ := TranslationEntry.of_core hr.entry
  exact ⟨⟨hr.length ▸ hr.inside, hv.trans he⟩, hvpn⟩

theorem has (he : e.valid = true) : t'.Has e.vpn := ⟨k, hr.held he⟩

/-- Under `FIFO_REPLACE` it is the newest. -/
theorem newest (hF : cfg.fifoReplace = true) (he : e.valid = true) : t'.Newest cfg e.vpn := by
  obtain ⟨hk, hvpn⟩ := hr.held he
  refine ⟨k, hk, hvpn, fun j hj hheld => ?_⟩
  simp only [victimFlag, hF, if_true]
  rw [hr.others j hj]
  exact (hr.fresh hF).2 j hj ((hr.held_other hj).mp hheld)

/-- A refill keeps the newest entry: there is a slot with a smaller flag, or a free
one. -/
theorem keeps (hone : cfg.fifoReplace ≠ cfg.lruReplace) (hlen : t.length = tlbSize)
    (hmax : t.Under (victimFlag cfg) intMax) (hn : t.Newest cfg v) : t'.Has v := by
  obtain ⟨i, hi, hv, hnew⟩ := hn
  have hne : i ≠ k := by
    rintro rfl
    have hall := hr.free hi
    obtain ⟨j, hj, hji⟩ : ∃ j, j < t.length ∧ j ≠ i := by
      rw [hlen]
      by_cases h0 : i = 0
      · exact ⟨1, by decide, by omega⟩
      · exact ⟨0, by decide, by omega⟩
    have hmax' : ∀ e ∈ t, victimFlag cfg e ≤ intMax := fun e he => by
      obtain ⟨n, hn, rfl⟩ := mem_iff_nth.mp he
      exact hmax.nth (hall n hn)
    have hle := findOneToReplace_least hone hmax' (mem_iff_nth.mpr ⟨j, hj, rfl⟩)
    rw [← hr.victim hall] at hle
    exact absurd (hnew j hji (hall j hj)) (Int.not_lt.mpr hle)
  exact ⟨i, (hr.held_other hne).mpr hi, by rw [hr.others i hne]; exact hv⟩

end Refilled

/-- `updateTLB` succeeds if no counter is full, and its stamp is at most one more
than the other flags. -/
theorem updateTLB_ok (cfg : Config) (hone : cfg.fifoReplace ≠ cfg.lruReplace)
    (stray : Int → TranslationEntry) (hlen : t.length = tlbSize)
    (h : t.Under (victimFlag cfg) B) (hB : -1 ≤ B ∧ B < intMax)
    (he : cfg.lruReplace = true → e.lruFlag ≤ B) :
    ∃ t', t.updateTLB cfg stray e = .ok t' ∧ t'.Under (victimFlag cfg) (B + 1) := by
  obtain ⟨k, hk⟩ : ∃ k, k = (t.findIdx? fun e => !e.valid).getD (t.findOneToReplace cfg) :=
    ⟨_, rfl⟩
  have hlt : k < t.length := by
    rw [hk]
    cases hi : t.findIdx? fun e => !e.valid with
    | none => exact findOneToReplace_lt cfg (by rw [hlen]; decide)
    | some i => exact (List.findIdx?_eq_some_iff_getElem.mp hi).1
  have hold : cfg.fifoReplace = true → ∀ j < tlbSize, j ≠ k →
      (t.entry stray j).valid = true → (t.entry stray j).fifoFlag ≤ B := fun hF j hj _ hv => by
    rw [entry_eq_nth stray (hlen ▸ hj)] at hv ⊢
    have := h.nth ⟨hlen ▸ hj, hv⟩
    simpa only [victimFlag, hF, if_true] using this
  obtain ⟨t₁, t₂, h₁, h₂, hl, hothers, -, hflag⟩ :=
    load_entry cfg stray tlbSize B (fun _ => e) hlt hB.1 hB.2 hold
  refine ⟨t₂, ?_, fun e' he' hv => ?_⟩
  · unfold updateTLB
    rw [← hk]
    simp only [h₁, ok_bind]
    exact h₂
  obtain ⟨j, hj, rfl⟩ := mem_iff_nth.mp he'
  by_cases hjk : j = k
  · subst hjk
    cases hF : cfg.fifoReplace with
    | true =>
      simp only [victimFlag, hF, if_true]
      exact hflag hF
    | false =>
      have hL : cfg.lruReplace = true := by
        cases hL : cfg.lruReplace with
        | true => rfl
        | false => exact absurd (hF.trans hL.symm) hone
      rw [if_neg (by simp [hF])] at h₂
      cases h₂
      obtain ⟨-, -, rfl⟩ := upd_eq_ok.mp h₁
      rw [Int.toNat_natCast, nth_modify _ _ _ _ hlt, if_pos rfl]
      simp only [victimFlag, hF, Bool.false_eq_true, if_false]
      have := he hL
      omega
  · rw [hothers j hjk] at hv ⊢
    have := h.nth ⟨hl ▸ hj, hv⟩
    omega

end Table

namespace Vm

/-! ## Pages in memory -/

/-- The flags are at most `B`: those of the TLB, and with `LRU_REPLACE` those of the
page table. -/
structure Calm (cfg : Config) (s : Vm) (B : Int) : Prop where
  tlb : s.tlb.Under (Table.victimFlag cfg) B
  table : cfg.lruReplace = true → ∀ sp, s.space s.currentThread = .ok sp →
    (s.pageTable cfg sp).Under (·.lruFlag) B

/-- The page table has the page in a frame of main memory, and so do its copies in
the TLB. -/
structure Backed (cfg : Config) (s : Vm) (vpn frame : Int) : Prop where
  page : 0 ≤ vpn
  bound : 0 ≤ frame ∧ frame < numPhysPages
  entry : ∃ sp e, s.Running cfg sp ∧
    s.mapping { cfg with useTLB := false } sp vpn = some (frame, e) ∧
    e.valid = true ∧ e.vpn = vpn ∧ e.ppn = frame ∧ e.readOnly = false
  copies : ∀ e ∈ s.tlb, e.valid = true → e.vpn = vpn → e.ppn = frame ∧ e.readOnly = false

section
variable {cfg : Config} {s s' : Vm} {sp : AddrSpace} {vpn frame B : Int} {e : TranslationEntry}

/-- Without a TLB a mapping is an entry of the page table. -/
theorem mapping_pageTable (hrun : s.Running cfg sp)
    (hm : s.mapping { cfg with useTLB := false } sp vpn = some (frame, e)) :
    e ∈ s.pageTable cfg sp ∧ (0 ≤ vpn → position cfg vpn frame < (s.pageTable cfg sp).length) := by
  unfold mapping at hm
  unfold pageTable position
  simp only [Bool.false_eq_true, if_false] at hm
  by_cases hR : cfg.useRPT = true
  · simp only [hR, if_true] at hm ⊢
    obtain ⟨i, hi, he⟩ := Option.map_eq_some_iff.mp hm
    cases he
    have hlt := (List.findIdx?_eq_some_iff_getElem.mp hi).1
    exact ⟨Table.mem_iff_nth.mpr ⟨i, hlt, rfl⟩, fun _ => by simpa using hlt⟩
  · simp only [hR, if_false, Bool.false_eq_true] at hm ⊢
    split at hm <;> [skip; cases hm]
    rename_i hv
    cases hm
    have hlt : vpn.toNat < sp.pt.length := by
      have := hrun.linear (by simpa using hR)
      omega
    exact ⟨Table.mem_iff_nth.mpr ⟨_, hlt, rfl⟩, fun _ => hlt⟩

/-- A page has one frame. -/
theorem Backed.unique (h : s.Backed cfg vpn frame) {frame' : Int}
    (h' : s.Backed cfg vpn frame') : frame' = frame := by
  obtain ⟨sp, e, hrun, hm, -⟩ := h.entry
  obtain ⟨sp', e', hrun', hm', -⟩ := h'.entry
  rw [hrun.unique hrun', hm] at hm'
  cases hm'
  rfl

theorem Backed.of_core (h : s.Backed cfg vpn frame) (hc : s'.core = s.core) :
    s'.Backed cfg vpn frame := by
  obtain ⟨sp, e, hrun, hm, hv, hvpn, hppn, hro⟩ := h.entry
  obtain ⟨sp', hrun', hcsp⟩ := hrun.of_core hc
  obtain ⟨e', hm', hce⟩ := mapping_of_core hc hcsp hm
  obtain ⟨h₁, -, h₃, h₄, h₅, -⟩ := TranslationEntry.of_core hce
  refine ⟨h.page, h.bound, ⟨sp', e', hrun', hm', h₄.trans hv, h₁.trans hvpn, h₃.trans hppn,
    h₅.trans hro⟩, fun e₁' he₁' hv₁ hvpn₁ => ?_⟩
  obtain ⟨e₁, he₁, hce₁⟩ := Table.mem_of_core (Vm.of_core hc).2.2.2.1 he₁'
  obtain ⟨h₁, -, h₃, h₄, h₅, -⟩ := TranslationEntry.of_core hce₁
  rw [h₃, h₅]
  exact h.copies e₁ he₁ (h₄ ▸ hv₁) (h₁ ▸ hvpn₁)

/-- A refill, for this page or another one. -/
theorem Backed.refill (h : s.Backed cfg vpn frame) {vpn' frame' : Int} {tlb : Table} {k : Nat}
    (h' : s.Backed cfg vpn' frame') (hr : s.tlb.Refilled cfg tlb e k)
    (he : e.vpn = vpn' ∧ e.ppn = frame' ∧ e.readOnly = false) :
    Backed cfg { s with tlb := tlb } vpn frame := by
  obtain ⟨sp, e₀, hrun, hm, hentry⟩ := h.entry
  refine ⟨h.page, h.bound, ⟨sp, e₀, hrun.setTLB hr.length, hm, hentry⟩, fun e₁ he₁ hv hvpn => ?_⟩
  obtain ⟨j, hj, rfl⟩ := Table.mem_iff_nth.mp he₁
  by_cases hjk : j = k
  · subst hjk
    obtain ⟨h₁, -, h₃, -, h₅, -⟩ := TranslationEntry.of_core hr.entry
    have hpage : vpn' = vpn := by rw [← hvpn, h₁, he.1]
    subst hpage
    rw [h₃, h₅, he.2.1]
    exact ⟨h.unique h', he.2.2⟩
  · rw [hr.others j hjk] at hv hvpn ⊢
    exact h.copies _ (Table.mem_iff_nth.mpr ⟨j, hr.length ▸ hj, rfl⟩) hv hvpn

theorem not_has (h : s.place vpn = none) : ¬ s.tlb.Has vpn := by
  rintro ⟨k, hk, hv⟩
  exact not_held_of_place h hk hv

theorem Calm.mono (h : s.Calm cfg B) {B' : Int} (hB : B ≤ B') : s.Calm cfg B' :=
  ⟨h.tlb.mono hB, fun hL sp hsp => (h.table hL sp hsp).mono hB⟩

/-- The word that is fetched. -/
theorem ofInt_value (m : Nat → Byte) (p : Nat) :
    BitVec.ofInt 32 (value ((List.range 4).map fun i => m (p + i))) = wordAt m p := by
  have hword : value ((List.range 4).map fun i => m (p + i)) = (wordAt m p).toInt := rfl
  rw [hword, BitVec.ofInt_toInt]

end

section
variable {cfg : Config} {env : Env} {s s' : Vm} {addr : Int} {size : Nat} {writing : Bool}
  {frame B : Int} {k : Nat}

theorem victimFlag_lru (hone : cfg.fifoReplace ≠ cfg.lruReplace) (hL : cfg.lruReplace = true) :
    cfg.fifoReplace = false ∧ Table.victimFlag cfg = fun e => e.lruFlag := by
  have hF : cfg.fifoReplace = false := by
    cases hF : cfg.fifoReplace with
    | true => exact absurd (hF.trans hL.symm) hone
    | false => rfl
  exact ⟨hF, funext fun e => by simp only [Table.victimFlag, hF, Bool.false_eq_true, if_false]⟩

/-- The page is not in the TLB. -/
theorem translate_missing (hT : cfg.useTLB = true) (hal : ¬ Misaligned addr size)
    (hk : s.place (addr.tdiv pageSize) = none) :
    s.translate cfg env addr size writing = .ok (s, .error .tlbMiss) := by
  have hl : s.lookup cfg env (addr.tdiv pageSize) = .ok (s, .error .tlbMiss) := by
    unfold place at hk
    rw [lookup, if_pos hT, hk]
    rfl
  unfold translate
  simp only [hl, ok_bind]
  exact if_neg hal

/-- What an access to a page in the TLB leaves: the entry is stamped, and no flag
has grown by more than one. -/
structure Hit (cfg : Config) (s s' : Vm) (k : Nat) (B : Int) : Prop where
  core : s'.core = s.core
  calm : s'.Calm cfg (B + 1)
  lru : cfg.lruReplace = true → s'.tlb = s.tlb.stampLRU k
  fifo : cfg.lruReplace = false → s'.tlb = s.tlb

/-- An access to a page that is in memory and in the TLB succeeds, if no counter is
full. -/
theorem Backed.translate (env : Env) (writing : Bool) (hT : cfg.useTLB = true)
    (hone : cfg.fifoReplace ≠ cfg.lruReplace)
    (h : s.Backed cfg (addr / pageSize) frame) (h0 : 0 ≤ addr) (hal : ¬ Misaligned addr size)
    (hfits : Fits addr frame) (hc : s.Calm cfg B) (hB : -1 ≤ B ∧ B < intMax)
    (hk : s.place (addr / pageSize) = some k) :
    ∃ s', s.translate cfg env addr size writing = .ok (s', .ok (physical frame addr : Int)) ∧
      Hit cfg s s' k B := by
  obtain ⟨sp, e, hrun, hm, -⟩ := h.entry
  obtain ⟨hheld, hvpn⟩ := held_of_place hk
  obtain ⟨hppn, hro⟩ := h.copies _ (Table.mem_iff_nth.mpr ⟨k, hheld.1, rfl⟩) hheld.2 hvpn
  have hm' : s.mapping cfg sp (addr / pageSize) = some (frame, s.tlb.nth k) := by
    rw [mapping, if_pos hT, hk, Option.map_some, hppn]
  have hlook : s.lookup cfg env _ = _ := lookup_mapped hrun hm'
  have htouch : s.touch cfg env _ frame = _ :=
    touch_eq hrun ((mapping_pageTable hrun hm).2 h.page) h.page h.bound.1
  have hlen := hrun.tlb hT
  have hmod : 0 ≤ addr % pageSize := Int.emod_nonneg _ (by decide)
  have hbound := h.bound
  have hpa : 0 ≤ frame * pageSize + addr % pageSize := by unfold pageSize at *; omega
  have hphys : (physical frame addr : Int) = frame * pageSize + addr % pageSize :=
    Int.toNat_of_nonneg hpa
  have hassert : 0 ≤ frame * pageSize + addr % pageSize ∧
      frame * pageSize + addr % pageSize + 4 ≤ memorySize := ⟨hpa, hfits⟩
  rw [if_pos hT, hk] at hlook
  unfold Misaligned at hal
  unfold Vm.translate
  rw [if_neg hal, Int.tdiv_eq_ediv_of_nonneg h0, Int.tmod_eq_emod_of_nonneg h0]
  simp only [hlook, ok_bind, hro, Bool.false_and, Bool.false_eq_true, if_false]
  rw [if_neg (by omega), htouch]
  by_cases hL : cfg.lruReplace = true
  · obtain ⟨hF, hflag⟩ := victimFlag_lru hone hL
    have htable := hc.table hL sp hrun.space
    have htlb := hc.tlb
    rw [hflag] at htlb
    obtain ⟨t, ht⟩ : ∃ t, t = (s.pageTable cfg sp).stampLRU
      (position cfg (addr / pageSize) frame) := ⟨_, rfl⟩
    obtain ⟨hrun', htable'⟩ := hrun.setTable (t := t) (by rw [ht, Table.length_stampLRU])
    obtain ⟨hcore, -⟩ := hrun.setTable_core (t := t) (by rw [ht, Table.core_stampLRU])
    have hsame : (s.setTable cfg sp t).tlb = s.tlb := (setTable_fields t).1
    rw [if_pos hL, if_pos (htable.below hB.2 _), ← ht]
    simp only [ok_bind, assert_of hassert]
    rw [touchTLB_eq (by rw [hsame, hlen]) (hlen ▸ hheld.1), if_pos hL, hsame,
      if_pos (htlb.below hB.2 k), hphys]
    refine ⟨_, rfl, ?_, ⟨?_, fun _ sp' hsp' => ?_⟩, fun _ => rfl, fun hL' => ?_⟩
    · rw [← hcore]
      simp [Vm.core, hsame, Table.core_stampLRU]
    · rw [hflag]
      exact htlb.stampLRU hB.1 hheld.1
    · have : sp' = spaceWith cfg sp t := by
        have := hrun'.space.symm.trans hsp'
        cases this
        rfl
      subst this
      show ((s.setTable cfg sp t).pageTable cfg _).Under _ _
      rw [htable', ht]
      exact htable.stampLRU hB.1 ((mapping_pageTable hrun hm).2 h.page)
    · rw [hL] at hL'
      cases hL'
  · rw [if_neg hL]
    simp only [ok_bind, assert_of hassert]
    rw [touchTLB_eq hlen (hlen ▸ hheld.1), if_neg hL, hphys]
    exact ⟨s, rfl, rfl, ⟨hc.tlb.mono (by omega), fun hL' => absurd hL' hL⟩,
      fun hL' => absurd hL' hL, fun _ => rfl⟩

/-- The handler of a TLB miss copies the entry. -/
theorem Backed.handle (hT : cfg.useTLB = true) (hone : cfg.fifoReplace ≠ cfg.lruReplace)
    (env : Env) (h : s.Backed cfg (addr / pageSize) frame) (h0 : 0 ≤ addr) (hc : s.Calm cfg B)
    (hB : -1 ≤ B ∧ B < intMax) : ∃ tlb e k,
      s.exceptionHandler cfg env .tlbMiss addr = .ok { s with tlb := tlb } ∧
      s.tlb.Refilled cfg tlb e k ∧ Calm cfg { s with tlb := tlb } (B + 1) ∧
      e.valid = true ∧ e.vpn = addr / pageSize ∧ e.ppn = frame ∧ e.readOnly = false := by
  obtain ⟨sp, e, hrun, hm, hentry⟩ := h.entry
  have hwalk : s.pageTableTranslation cfg env (addr / pageSize) = .ok (s, .ok (frame, e)) := by
    have hrun₀ : s.Running { cfg with useTLB := false } sp :=
      ⟨hrun.space, hrun.linear, hrun.inverted, fun hT => by cases hT⟩
    have hlook : s.lookup _ env _ = _ := lookup_mapped hrun₀ hm
    obtain ⟨⟨s₁, q⟩, hq, hl⟩ := bind_eq_ok.mp hlook
    obtain ⟨rfl, hr⟩ := Prod.mk.inj (Except.ok.inj hl)
    cases q with
    | error which => cases hr
    | ok p =>
      cases hr
      exact hq
  have hflag : cfg.lruReplace = true → e.lruFlag ≤ B := fun hL =>
    hc.table hL sp hrun.space e (mapping_pageTable hrun hm).1 hentry.1
  obtain ⟨tlb, htlb, hunder⟩ := Table.updateTLB_ok cfg hone env.stray (hrun.tlb hT) hc.tlb hB hflag
  obtain ⟨k, hk⟩ := Table.updateTLB_refilled (hrun.tlb hT) htlb
  refine ⟨tlb, e, k, ?_, hk, ⟨hunder, fun hL sp' hsp' => ?_⟩, hentry⟩
  · unfold exceptionHandler
    rw [Int.tdiv_eq_ediv_of_nonneg h0]
    simp only [hwalk, ok_bind, htlb]
    rfl
  · exact (hc.table hL sp' hsp').mono (by omega)

/-- Nothing but the TLB keeps the access from its success. -/
structure Servable (cfg : Config) (s : Vm) (addr frame : Int) : Prop where
  nonneg : 0 ≤ addr
  backed : s.Backed cfg (addr / pageSize) frame
  fits : Fits addr frame

theorem Servable.of_core (h : s.Servable cfg addr frame) (hc : s'.core = s.core) :
    s'.Servable cfg addr frame :=
  ⟨h.nonneg, h.backed.of_core hc, h.fits⟩

/-- The bytes of the access are in main memory. -/
theorem Servable.inside (h : s.Servable cfg addr frame) (hsz : size = 1 ∨ size = 2 ∨ size = 4) :
    physical frame addr + size ≤ memorySize := by
  have hfits := h.fits
  have hbound := h.backed.bound
  have hmod : 0 ≤ addr % pageSize := Int.emod_nonneg _ (by decide)
  unfold Fits at hfits
  unfold physical
  unfold pageSize at *
  omega

end

end Vm

/-! ## One attempt -/

/-- The address and the size of the operand in memory. -/
def Instruction.data (instr : Instruction) (r : Registers) : Option (BitVec 32 × Nat) :=
  let tmp := r instr.rs + instr.extra
  match instr.opCode with
  | .lb | .lbu | .sb => some (tmp, 1)
  | .lh | .lhu | .sh => some (tmp, 2)
  | .lw | .sw => some (tmp, 4)
  | .lwl | .lwr | .swl | .swr => some (tmp - (tmp &&& 3), 4)
  | _ => none

/-- The instruction is at its end, or it has raised an exception of its own: an
overflow, an illegal instruction, a system call or an address that is not
aligned. -/
def Completed (o : Option Trap) : Prop := ∀ e, o = some (.memory e) → e = .addressError

/-- The result is that of a completed instruction. -/
def Completes (x : Except Abort Ended) : Prop := ∃ c o, x = .ok (c, o) ∧ Completed o

theorem completes_none {x : Except Abort Ended} {c : Cpu} (h : x = .ok (c, none)) : Completes x :=
  ⟨c, none, h, fun e he => by cases he⟩

section
variable {cfg : Config} (hT : cfg.useTLB = true) (hone : cfg.fifoReplace ≠ cfg.lruReplace)
  {env : Env} {r : Registers} (hl : (r Reg.load).toNat < 32) {s : Vm} {a : BitVec 32} {size : Nat}
  {B : Int}

include hl in
theorem completes_misaligned (which : BitVec 32) :
    Completes (Cpu.raiseException ⟨r, s⟩ (.memory .addressError) which) :=
  ⟨_, _, Cpu.raiseException_eq hl s _ _, fun e he => by cases he; rfl⟩

/-- The access ended in a TLB miss. -/
def Misses (r : Registers) (s : Vm) (a : BitVec 32) (size : Nat) (x : Except Abort Ended) : Prop :=
  ¬ Vm.Misaligned a.toInt size ∧ s.place (a.toInt / pageSize) = none ∧
    x = .ok (⟨r.raised a, s⟩, some (.memory .tlbMiss))

include hT hone hl in
/-- `ReadMem` of a page in memory: it misses the page in the TLB, or goes on. -/
theorem readMem_attempt (env : Env) (hsz : size = 1 ∨ size = 2 ∨ size = 4) {frame : Int}
    (h : ¬ Vm.Misaligned a.toInt size → s.Servable cfg a.toInt frame) (hc : s.Calm cfg B)
    (hB : -1 ≤ B ∧ B < intMax) (rest : Cpu → BitVec 32 → Except Abort Ended) :
    Completes (Cpu.readMem cfg env ⟨r, s⟩ a size rest) ∨
    Misses r s a size (Cpu.readMem cfg env ⟨r, s⟩ a size rest) ∨
    ∃ k s', ¬ Vm.Misaligned a.toInt size ∧ s.place (a.toInt / pageSize) = some k ∧
      Vm.Hit cfg s s' k B ∧ Cpu.readMem cfg env ⟨r, s⟩ a size rest =
        rest ⟨r, s'⟩ (.ofInt 32 (Vm.value ((List.range size).map fun i =>
          s.mainMemory (Vm.physical frame a.toInt + i)))) := by
  by_cases hal : Vm.Misaligned a.toInt size
  · left
    have hload : s.load cfg env a.toInt size = .ok (s, .error .addressError) := by
      unfold Vm.load
      rw [Vm.translate_misaligned hal]
      rfl
    unfold Cpu.readMem
    simp only [hload, ok_bind]
    exact completes_misaligned hl a
  have h := h hal
  have hdiv : a.toInt.tdiv pageSize = a.toInt / pageSize := Int.tdiv_eq_ediv_of_nonneg h.nonneg
  cases hk : s.place (a.toInt / pageSize) with
  | none =>
    refine .inr (.inl ⟨hal, hk, ?_⟩)
    have hload : s.load cfg env a.toInt size = .ok (s, .error .tlbMiss) := by
      unfold Vm.load
      rw [Vm.translate_missing hT hal (hdiv ▸ hk)]
      rfl
    unfold Cpu.readMem
    simp only [hload, ok_bind]
    exact Cpu.raiseException_eq hl s _ _
  | some k =>
    obtain ⟨s', ht, hhit⟩ := h.backed.translate env false hT hone h.nonneg hal h.fits
      hc hB hk
    refine .inr (.inr ⟨k, s', hal, rfl, hhit, ?_⟩)
    have hin := h.inside hsz
    have hfetch : s'.fetch (Vm.physical frame a.toInt) size =
        .ok ((List.range size).map fun i => s.mainMemory (Vm.physical frame a.toInt + i)) := by
      rw [Vm.fetch_eq_ok, (Vm.of_core hhit.core).2.1]
      exact ⟨Int.natCast_nonneg _, by omega, rfl⟩
    unfold Cpu.readMem
    simp only [Vm.load_ok hsz ht hfetch, ok_bind]

include hT hone hl in
/-- `WriteMem`. -/
theorem writeMem_attempt (hsz : size = 1 ∨ size = 2 ∨ size = 4) {frame : Int}
    (h : ¬ Vm.Misaligned a.toInt size → s.Servable cfg a.toInt frame) (hc : s.Calm cfg B)
    (hB : -1 ≤ B ∧ B < intMax) (v : BitVec 32) (rest : Cpu → Except Abort Ended)
    (hrest : ∀ s', Completes (rest ⟨r, s'⟩)) :
    Completes (Cpu.writeMem cfg env ⟨r, s⟩ a size v rest) ∨
    Misses r s a size (Cpu.writeMem cfg env ⟨r, s⟩ a size v rest) := by
  by_cases hal : Vm.Misaligned a.toInt size
  · left
    have hsave : s.save cfg env a.toInt size v = .ok (s, .error .addressError) := by
      unfold Vm.save
      rw [Vm.translate_misaligned hal]
      rfl
    unfold Cpu.writeMem
    simp only [hsave, ok_bind]
    exact completes_misaligned hl a
  have h := h hal
  have hdiv : a.toInt.tdiv pageSize = a.toInt / pageSize := Int.tdiv_eq_ediv_of_nonneg h.nonneg
  cases hk : s.place (a.toInt / pageSize) with
  | none =>
    refine .inr ⟨hal, hk, ?_⟩
    have hsave : s.save cfg env a.toInt size v = .ok (s, .error .tlbMiss) := by
      unfold Vm.save
      rw [Vm.translate_missing hT hal (hdiv ▸ hk)]
      rfl
    unfold Cpu.writeMem
    simp only [hsave, ok_bind]
    exact Cpu.raiseException_eq hl s _ _
  | some k =>
    left
    obtain ⟨s', ht, hhit⟩ := h.backed.translate env true hT hone h.nonneg hal h.fits
      hc hB hk
    have hin := h.inside hsz
    have hlen : (Vm.bytes size v.toInt).length = size := by simp [Vm.bytes]
    have hstore := (@Vm.store_eq_ok s' _ (Vm.physical frame a.toInt : Int)
      (Vm.bytes size v.toInt)).mpr ⟨Int.natCast_nonneg _, by omega, rfl⟩
    unfold Cpu.writeMem
    simp only [Vm.save_ok hsz ht hstore, ok_bind]
    exact hrest _

/-- An operation raises exceptions of its own only. -/
theorem operate_completed {instr : Instruction} {r' : Registers} {which : Trap}
    (h : operate instr r = .ok (r', .error which)) : Completed (some which) := by
  have hown : which = .overflow ∨ which = .illegalInstr ∨ which = .syscall := by
    obtain ⟨op, rs, rt, rd, extra⟩ := instr
    cases op <;> simp only [operate] at h
    case add | addi | sub =>
      split at h
      · cases h
        exact .inl rfl
      · cases h
    case res | unimp =>
      cases h
      exact .inr (.inl rfl)
    case syscall =>
      cases h
      exact .inr (.inr rfl)
    case div =>
      split at h
      · cases h
      · obtain ⟨-, -, h⟩ := bind_eq_ok.mp h
        cases h
    case divu => split at h <;> cases h
    all_goals cases h
  intro e he
  rcases hown with rfl | rfl | rfl <;> cases he

include hT hone in
/-- The switch: it misses the page of the operand, or completes. -/
theorem execute_attempt (env : Env) {instr : Instruction} (hd : instr.Decoded) (hw : r.Wf)
    (hrfe : instr.opCode ≠ .rfe)
    (hdiv : ¬ DivideTraps instr r)
    (h : ∀ a size, instr.data r = some (a, size) →
      ∃ frame, ¬ Vm.Misaligned a.toInt size → s.Servable cfg a.toInt frame)
    (hc : s.Calm cfg B) (hB : -1 ≤ B ∧ B + 1 < intMax) :
    Completes (Cpu.execute cfg env ⟨r, s⟩ instr) ∨ ∃ a size, instr.data r = some (a, size) ∧
      Misses r s a size (Cpu.execute cfg env ⟨r, s⟩ instr) := by
  have hl := hw.load
  have hadvance : ∀ (s : Vm) (pcAfter n v : BitVec 32),
      Completes (Cpu.advance ⟨r, s⟩ pcAfter n v) := fun s pcAfter n v =>
    completes_none (Cpu.advance_eq hl s pcAfter n v)
  have hread : ∀ a size rest, size = 1 ∨ size = 2 ∨ size = 4 → instr.data r = some (a, size) →
      (∀ s' v, s'.core = s.core → s'.Calm cfg (B + 1) → ¬ s'.place (a.toInt / pageSize) = none →
        Completes (rest ⟨r, s'⟩ v)) →
      Completes (Cpu.readMem cfg env ⟨r, s⟩ a size rest) ∨ ∃ a' size',
        instr.data r = some (a', size') ∧
          Misses r s a' size' (Cpu.readMem cfg env ⟨r, s⟩ a size rest) := by
    intro a size rest hsz hdata hrest
    obtain ⟨frame, hf⟩ := h a size hdata
    rcases readMem_attempt hT hone hl env hsz hf hc ⟨hB.1, by omega⟩ rest with
      hx | hx | ⟨k, s', -, hk, hhit, hx⟩
    · exact .inl hx
    · exact .inr ⟨a, size, hdata, hx⟩
    · rw [hx]
      refine .inl (hrest s' _ hhit.core hhit.calm fun hnone => ?_)
      rw [Vm.place_of_core (Vm.of_core hhit.core).2.2.2.1, hk] at hnone
      cases hnone
  have hwrite : ∀ a size v (rest : Cpu → Except Abort Ended), size = 1 ∨ size = 2 ∨ size = 4 →
      instr.data r = some (a, size) → (∀ s', Completes (rest ⟨r, s'⟩)) →
      Completes (Cpu.writeMem cfg env ⟨r, s⟩ a size v rest) ∨ ∃ a' size',
        instr.data r = some (a', size') ∧
          Misses r s a' size' (Cpu.writeMem cfg env ⟨r, s⟩ a size v rest) := by
    intro a size v rest hsz hdata hrest
    obtain ⟨frame, hf⟩ := h a size hdata
    exact (writeMem_attempt hT hone hl hsz hf hc ⟨hB.1, by omega⟩ v rest hrest).imp id fun hx =>
      ⟨a, size, hdata, hx⟩
  unfold Cpu.execute
  simp only
  split
  case h_1 hop | h_2 hop =>
    exact hread _ _ _ (.inl rfl) (by simp only [Instruction.data, hop]) fun s' v _ _ _ =>
      hadvance s' _ _ _
  case h_3 hop | h_4 hop =>
    split
    · exact .inl (completes_misaligned hl _)
    · exact hread _ _ _ (.inr (.inl rfl)) (by simp only [Instruction.data, hop]) fun s' v _ _ _ =>
        hadvance s' _ _ _
  case h_5 hop =>
    split
    · exact .inl (completes_misaligned hl _)
    · exact hread _ _ _ (.inr (.inr rfl)) (by simp only [Instruction.data, hop]) fun s' v _ _ _ =>
        hadvance s' _ _ _
  case h_6 hop | h_7 hop =>
    exact hread _ _ _ (.inr (.inr rfl)) (by simp only [Instruction.data, hop]) fun s' v _ _ _ =>
      hadvance s' _ _ _
  case h_8 hop =>
    exact hwrite _ _ _ _ (.inl rfl) (by simp only [Instruction.data, hop]) fun s' =>
      hadvance s' _ _ _
  case h_9 hop =>
    exact hwrite _ _ _ _ (.inr (.inl rfl)) (by simp only [Instruction.data, hop]) fun s' =>
      hadvance s' _ _ _
  case h_10 hop =>
    exact hwrite _ _ _ _ (.inr (.inr rfl)) (by simp only [Instruction.data, hop]) fun s' =>
      hadvance s' _ _ _
  -- `SWL` and `SWR` read the word first, so its page is in the TLB when they store.
  case h_11 hop | h_12 hop =>
    have hdata : instr.data r = some (r instr.rs + instr.extra -
        ((r instr.rs + instr.extra) &&& 3), 4) := by
      simp only [Instruction.data, hop]
    refine hread _ _ _ (.inr (.inr rfl)) hdata fun s' v hcore hcalm hk => ?_
    obtain ⟨frame, hf⟩ := h _ _ hdata
    exact (writeMem_attempt hT hone hl (.inr (.inr rfl)) (fun hal => (hf hal).of_core hcore) hcalm
      ⟨by omega, hB.2⟩ _ _ fun s'' => hadvance s'' _ _ _).resolve_right fun hx => hk hx.2.1
  case h_13 h₁ h₂ h₃ h₄ h₅ h₆ h₇ h₈ h₉ h₁₀ h₁₁ h₁₂ =>
    left
    have hacc : instr.opCode ∉ OpCode.accesses := by
      simp only [OpCode.accesses, List.mem_cons, List.not_mem_nil, or_false, not_or]
      exact ⟨h₁, h₂, h₃, h₄, h₅, h₆, h₇, h₈, h₉, h₁₀, h₁₁, h₁₂⟩
    obtain ⟨⟨r', x⟩, hx⟩ := (operate_defined hrfe hacc).mpr hdiv
    have ho := operate_operated hd r
    rw [hx] at ho
    simp only [hx, ok_bind]
    cases ho with
    | raise which => exact ⟨_, _, Cpu.raiseException_eq hl s which 0, operate_completed hx⟩
    | jump hload pcAfter => exact completes_none (Cpu.advance_eq (hload ▸ hl) s pcAfter 0 0)

end

/-! ## The registers of the next attempt -/

/-- The address of the operand does not depend on the pending load. -/
def Instruction.Based (instr : Instruction) (r : Registers) : Prop :=
  instr.opCode ∈ OpCode.accesses → r.pending = Reg.zero ∨ instr.rs ≠ r.pending

/-- The quotient of a division is an `int`, with the pending load and without it. -/
def Divides (instr : Instruction) (r : Registers) : Prop :=
  ¬ DivideTraps instr r ∧ ¬ DivideTraps instr r.applied

instance (instr : Instruction) (r : Registers) : Decidable (instr.Based r) :=
  inferInstanceAs (Decidable (_ → _))

instance (instr : Instruction) (r : Registers) : Decidable (Divides instr r) :=
  inferInstanceAs (Decidable (_ ∧ _))

section
variable {instr : Instruction} {r r' : Registers}

theorem Instruction.data_none (h : instr.opCode ∉ OpCode.accesses) : instr.data r = none := by
  obtain ⟨op, rs, rt, rd, extra⟩ := instr
  cases op <;> first | rfl | exact absurd (by simp [OpCode.accesses]) h

theorem Instruction.data_congr (h : instr.opCode ∈ OpCode.accesses → r' instr.rs = r instr.rs) :
    instr.data r' = instr.data r := by
  by_cases hacc : instr.opCode ∈ OpCode.accesses
  · unfold data
    rw [h hacc]
  · rw [data_none hacc, data_none hacc]

theorem DivideTraps.congr (h : r' instr.rs = r instr.rs ∧ r' instr.rt = r instr.rt) :
    DivideTraps instr r' ↔ DivideTraps instr r := by
  unfold DivideTraps
  rw [h.1, h.2]

namespace Registers

theorem pending_raised (r : Registers) (a : BitVec 32) : (r.raised a).pending = Reg.zero := rfl

theorem raised_pc (r : Registers) (a : BitVec 32) : r.raised a Reg.pc = r Reg.pc := by
  rw [raised, if_neg (by decide), loaded_special _ _ _ (by decide) (by decide) (by decide)]

theorem raised_wf (r : Registers) (a : BitVec 32) : (r.raised a).Wf :=
  ⟨rfl, show (0 : BitVec 32).toNat < 32 by decide⟩

/-- A general register has its value with the pending load. -/
theorem raised_general (hw : r.Wf) (a : BitVec 32) {i : Reg} (hi : i.val < 32) :
    r.raised a i = r.applied i := by
  by_cases hz : i = Reg.zero
  · subst hz
    rw [applied, if_neg (by decide), if_neg (fun h => h.2 rfl), hw.zero]
    rfl
  · exact r.raised_eq_applied a hz (Reg.plain_of_lt hi).2.2

/-- No load is pending any more. -/
theorem applied_raised (hw : r.Wf) (a : BitVec 32) {i : Reg} (hi : i.val < 32) :
    (r.raised a).applied i = r.applied i := by
  obtain ⟨hl, hv, -⟩ := Reg.plain_of_lt hi
  rw [applied, if_neg (not_or.mpr ⟨hl, hv⟩), pending_raised, if_neg (fun h => h.2 h.1),
    raised_general hw a hi]

theorem applied_based (hd : instr.Decoded) (hb : instr.Based r)
    (hacc : instr.opCode ∈ OpCode.accesses) : r.applied instr.rs = r instr.rs := by
  obtain ⟨hl, hv, -⟩ := Reg.plain_of_lt hd.rs
  rw [applied, if_neg (not_or.mpr ⟨hl, hv⟩), if_neg]
  rintro ⟨hp, hz⟩
  rcases hb hacc with h | h
  · exact hz (hp.trans h)
  · exact h hp

theorem raised_divides (hd : instr.Decoded) (hw : r.Wf) (h : Divides instr r) (a : BitVec 32) :
    Divides instr (r.raised a) := by
  refine ⟨fun ht => h.2 ?_, fun ht => h.2 ?_⟩
  · exact (DivideTraps.congr ⟨raised_general hw a hd.rs, raised_general hw a hd.rt⟩).mp ht
  · exact (DivideTraps.congr ⟨applied_raised hw a hd.rs, applied_raised hw a hd.rt⟩).mp ht

end Registers

end

/-! ## The loop -/

/-- `OneInstruction` again and again, with each TLB miss handled; `none` if all of
the attempts miss. -/
def Cpu.retry (cfg : Config) (c : Cpu) : List Env → Except Abort (Option Ended)
  | [] => return none
  | env :: envs => do
    let (c, which) ← c.oneInstruction cfg env
    if which = some (.memory .tlbMiss) then
      let m ← c.memory.exceptionHandler cfg env .tlbMiss (c.registers Reg.badVAddr).toInt
      retry cfg { c with memory := m } envs
    else return some (c, which)

/-- The instruction at `pc`, in the frame `frame`, can be executed from `c`, but for
misses in the TLB. Its operand in memory is `d`, and `d'` when the pending load has
been executed. -/
structure Ready (cfg : Config) (instr : Instruction) (pc : BitVec 32) (frame : Int)
    (d d' : Option (BitVec 32 × Nat)) (B : Int) (c : Cpu) : Prop where
  wf : c.registers.Wf
  counter : c.registers Reg.pc = pc
  fetch : c.memory.Servable cfg pc.toInt frame
  word : .decode (Vm.wordAt c.memory.mainMemory (Vm.physical frame pc.toInt)) = instr
  data : instr.data c.registers = d
  next : instr.data c.registers.applied = d'
  operand : ∀ a size, d = some (a, size) ∨ d' = some (a, size) →
    ∃ f, ¬ Vm.Misaligned a.toInt size → c.memory.Servable cfg a.toInt f
  divides : Divides instr c.registers
  calm : c.memory.Calm cfg B

/-- A TLB miss on the page `v`, and its handler: the page is in the TLB then, and the
page `w` stays there if its entry was the newest. -/
structure Missed (cfg : Config) (t t' : Table) (v w : Int) : Prop where
  absent : ¬ t.Has v
  present : t'.Has v
  newest : cfg.fifoReplace = true → t'.Newest cfg v
  kept : t.Newest cfg w → t'.Has w

theorem Table.Refilled.missed {cfg : Config} {t t' : Table} {e : TranslationEntry} {k : Nat}
    (hr : Refilled cfg t t' e k) (hone : cfg.fifoReplace ≠ cfg.lruReplace)
    (hlen : t.length = tlbSize) (hmax : t.Under (victimFlag cfg) intMax) (habsent : ¬ t.Has e.vpn)
    (he : e.valid = true) (w : Int) : Missed cfg t t' e.vpn w :=
  ⟨habsent, hr.has he, fun hF => hr.newest hF he, hr.keeps hone hlen hmax⟩

/-- The attempt from `c` misses, and `c'` is behind the handler. -/
def Again (cfg : Config) (env : Env) (c c' : Cpu) : Prop :=
  ∃ c₁ m, c.oneInstruction cfg env = .ok (c₁, some (.memory .tlbMiss)) ∧
    c₁.memory.exceptionHandler cfg env .tlbMiss (c₁.registers Reg.badVAddr).toInt = .ok m ∧
    c' = ⟨c₁.registers, m⟩

section
variable {cfg : Config} {env : Env} {envs : List Env} {c c' : Cpu}

theorem Again.retry (h : Again cfg env c c') :
    c.retry cfg (env :: envs) = c'.retry cfg envs := by
  obtain ⟨c₁, m, h₁, hm, rfl⟩ := h
  simp only [Cpu.retry, h₁, ok_bind, if_true, hm]

/-- Some attempt completes the instruction. -/
def Finishes (cfg : Config) (c : Cpu) (envs : List Env) : Prop :=
  ∃ c' o, c.retry cfg envs = .ok (some (c', o)) ∧ Completed o

theorem Again.finishes (h : Again cfg env c c') (hf : Finishes cfg c' envs) :
    Finishes cfg c (env :: envs) := by
  obtain ⟨c₁, o, hx, ho⟩ := hf
  exact ⟨c₁, o, h.retry.trans hx, ho⟩

theorem finishes_completes (h : Completes (c.oneInstruction cfg env)) :
    Finishes cfg c (env :: envs) := by
  obtain ⟨c₁, o, hx, ho⟩ := h
  refine ⟨c₁, o, ?_, ho⟩
  have hne : o ≠ some (.memory .tlbMiss) := fun hc => by cases ho _ hc
  simp only [Cpu.retry, hx, ok_bind, if_neg hne]
  rfl

end

namespace Ready

variable {cfg : Config} (hT : cfg.useTLB = true) (hone : cfg.fifoReplace ≠ cfg.lruReplace)
  {instr : Instruction} {pc : BitVec 32} {frame : Int} {d d' : Option (BitVec 32 × Nat)} {B : Int}
  {c : Cpu}

/-- The same behind the handler of a miss: the registers are those of
`RaiseException`, and the TLB got an entry of a page in memory. -/
theorem handled (hdec : instr.Decoded) (h : Ready cfg instr pc frame d d' B c) {s : Vm} {tlb : Table}
    {e : TranslationEntry} {k : Nat} {v f B' : Int} (hcore : s.core = c.memory.core)
    (hv : s.Backed cfg v f) (hr : s.tlb.Refilled cfg tlb e k)
    (he : e.vpn = v ∧ e.ppn = f ∧ e.readOnly = false) (a : BitVec 32)
    (hc : Vm.Calm cfg { s with tlb := tlb } B') :
    Ready cfg instr pc frame d' d' B' ⟨c.registers.raised a, { s with tlb := tlb }⟩ := by
  have hserve : ∀ {addr frame : Int}, c.memory.Servable cfg addr frame →
      Vm.Servable cfg { s with tlb := tlb } addr frame := fun hs =>
    ⟨hs.nonneg, (hs.backed.of_core hcore).refill hv hr he, hs.fits⟩
  refine ⟨c.registers.raised_wf a, (c.registers.raised_pc a).trans h.counter, hserve h.fetch, ?_, ?_,
    ?_, fun a size hd => ?_,
    Registers.raised_divides hdec h.wf h.divides a, hc⟩
  · show Instruction.decode (Vm.wordAt s.mainMemory _) = instr
    rw [(Vm.of_core hcore).2.1]
    exact h.word
  · rw [← h.next]
    exact Instruction.data_congr fun _ => Registers.raised_general h.wf a hdec.rs
  · rw [← h.next]
    exact Instruction.data_congr fun _ => Registers.applied_raised h.wf a hdec.rs
  · obtain ⟨f, hf⟩ := h.operand a size (.inr (hd.elim id id))
    exact ⟨f, fun hal => hserve (hf hal)⟩

include hT hone in
/-- One attempt completes the instruction, or misses the page of the instruction, or
that of its operand. -/
theorem attempt (hdec : instr.Decoded) (hrfe : instr.opCode ≠ .rfe) (env : Env)
    (h : Ready cfg instr pc frame d d' B c) (hB : -1 ≤ B ∧ B + 2 < intMax) :
    Completes (c.oneInstruction cfg env) ∨ ∃ c', Again cfg env c c' ∧
      Ready cfg instr pc frame d' d' (B + 2) c' ∧
      ((∀ w, Missed cfg c.memory.tlb c'.memory.tlb (pc.toInt / pageSize) w) ∨
        ∃ a size, d = some (a, size) ∧
          Missed cfg c.memory.tlb c'.memory.tlb (a.toInt / pageSize) (pc.toInt / pageSize) ∧
          c.memory.tlb.Has (pc.toInt / pageSize) ∧
          (cfg.lruReplace = true → c'.memory.tlb.Has (pc.toInt / pageSize))) := by
  obtain ⟨r, s⟩ := c
  have hw : r.Wf := h.wf
  have hcalm : s.Calm cfg B := h.calm
  have hfetch : s.Servable cfg pc.toInt frame := h.fetch
  have hlen : s.tlb.length = tlbSize := by
    obtain ⟨sp, e, hrun, -⟩ := hfetch.backed.entry
    exact hrun.tlb hT
  have hone' : Cpu.oneInstruction cfg env ⟨r, s⟩ =
      Cpu.readMem cfg env ⟨r, s⟩ pc 4 fun c raw => c.execute cfg env (.decode raw) := by
    rw [← h.counter]
    rfl
  rcases readMem_attempt hT hone hw.load env (.inr (.inr rfl)) (fun _ => hfetch) hcalm
    ⟨hB.1, by omega⟩ fun c raw => c.execute cfg env (.decode raw) with
    hx | ⟨-, hk, hx⟩ | ⟨k, s₁, -, hk, hhit, hx⟩
  · exact .inl (hone' ▸ hx)
  -- The fetch misses.
  · obtain ⟨tlb, e, j, hm, hr, hc, hv, he⟩ :=
      hfetch.backed.handle hT hone env hfetch.nonneg hcalm ⟨hB.1, by omega⟩
    refine .inr ⟨⟨r.raised pc, { s with tlb := tlb }⟩, ⟨_, _, hone'.trans hx, hm, rfl⟩,
      h.handled hdec rfl hfetch.backed hr he pc (hc.mono (by omega)), .inl fun w => ?_⟩
    exact he.1 ▸ hr.missed hone hlen (hcalm.tlb.mono (by omega)) (he.1 ▸ Vm.not_has hk) hv w
  rw [Vm.ofInt_value, h.word] at hx
  have hserve : ∀ a size, instr.data r = some (a, size) →
      ∃ f, ¬ Vm.Misaligned a.toInt size → s₁.Servable cfg a.toInt f := fun a size hdata => by
    obtain ⟨f, hf⟩ := h.operand a size (.inl (h.data ▸ hdata))
    exact ⟨f, fun hal => (hf hal).of_core hhit.core⟩
  rcases execute_attempt hT hone env hdec hw hrfe h.divides.1 hserve hhit.calm
    ⟨by omega, by omega⟩ with hy | ⟨a, size, hdata, hal, hka, hy⟩
  · exact .inl ((hone'.trans hx) ▸ hy)
  -- The operand misses: the entry of the page of the instruction was hit just before.
  obtain ⟨f, hf⟩ := hserve a size hdata
  have hf := hf hal
  obtain ⟨tlb, e, j, hm, hr, hc, hv, he⟩ :=
    hf.backed.handle hT hone env hf.nonneg hhit.calm ⟨by omega, by omega⟩
  obtain ⟨hheld, hvpn⟩ := Vm.held_of_place hk
  have htlb := (Vm.of_core hhit.core).2.2.2.1
  have hlen₁ : s₁.tlb.length = tlbSize := by
    rw [← Table.length_core, htlb, Table.length_core, hlen]
  have hmiss : ∀ w, Missed cfg s₁.tlb tlb (a.toInt / pageSize) w := fun w =>
    he.1 ▸ hr.missed hone hlen₁ (hhit.calm.tlb.mono (by omega)) (he.1 ▸ Vm.not_has hka) hv w
  have hlru : cfg.lruReplace = true → tlb.Has (pc.toInt / pageSize) := fun hL => by
    refine (hmiss _).kept ?_
    rw [hhit.lru hL, ← hvpn]
    exact Table.newest_stampLRU (Vm.victimFlag_lru hone hL).1 hheld
  refine .inr ⟨⟨r.raised a, { s₁ with tlb := tlb }⟩,
    ⟨_, _, (hone'.trans hx).trans hy, hm, rfl⟩,
    h.handled hdec hhit.core hf.backed hr he a (hc.mono (by omega)),
    .inr ⟨a, size, h.data ▸ hdata, ⟨?_, (hmiss 0).present, (hmiss 0).newest, fun hn => ?_⟩,
      ⟨k, hheld, hvpn⟩, hlru⟩⟩
  · rw [← Table.has_of_core htlb]
    exact (hmiss 0).absent
  · cases hL : cfg.lruReplace with
    | true => exact hlru hL
    | false => exact (hmiss _).kept (hhit.fifo hL ▸ hn)

include hT hone in
/-- Both pages are in the TLB. -/
theorem completes (hdec : instr.Decoded) (hrfe : instr.opCode ≠ .rfe) (env : Env)
    (h : Ready cfg instr pc frame d d' B c) (hB : -1 ≤ B ∧ B + 2 < intMax)
    (hpc : c.memory.tlb.Has (pc.toInt / pageSize))
    (hd : ∀ a size, d = some (a, size) → c.memory.tlb.Has (a.toInt / pageSize)) :
    Completes (c.oneInstruction cfg env) := by
  rcases h.attempt hT hone hdec hrfe env hB with hx | ⟨c', -, -, hm | ⟨a, size, hda, hm, -⟩⟩
  · exact hx
  · exact absurd hpc (hm 0).absent
  · exact absurd (hd a size hda) hm.absent

include hT hone in
/-- Where the pending load does not change the operand, the third attempt completes
the instruction at the latest. -/
theorem retry (hdec : instr.Decoded) (hrfe : instr.opCode ≠ .rfe) (env₀ env₁ env₂ : Env)
    (h : Ready cfg instr pc frame d d B c) (hB : -1 ≤ B ∧ B + 6 < intMax) :
    Finishes cfg c [env₀, env₁, env₂] := by
  rcases h.attempt hT hone hdec hrfe env₀ ⟨hB.1, by omega⟩ with
    hx | ⟨c₁, ha₁, h₁, hm | ⟨a, size, hda, hm, -, hlru⟩⟩
  · exact finishes_completes hx
  -- First the page of the instruction was missing.
  · refine ha₁.finishes ?_
    rcases h₁.attempt hT hone hdec hrfe env₁ ⟨by omega, by omega⟩ with
      hx | ⟨c₂, ha₂, h₂, hm₂ | ⟨a, size, hda, hm₂, -, hlru⟩⟩
    · exact finishes_completes hx
    · exact absurd (hm 0).present (hm₂ 0).absent
    · refine ha₂.finishes (finishes_completes ?_)
      refine h₂.completes hT hone hdec hrfe env₂ ⟨by omega, by omega⟩ ?_ fun a' size' hda' => ?_
      · cases hF : cfg.fifoReplace with
        | true => exact hm₂.kept ((hm 0).newest hF)
        | false => exact hlru (by simpa [hF] using hone.symm)
      · rw [hda] at hda'
        cases hda'
        exact hm₂.present
  -- First the page of the operand was missing.
  · refine ha₁.finishes ?_
    rcases h₁.attempt hT hone hdec hrfe env₁ ⟨by omega, by omega⟩ with
      hx | ⟨c₂, ha₂, h₂, hm₂ | ⟨a', size', hda', hm₂, -⟩⟩
    · exact finishes_completes hx
    · refine ha₂.finishes (finishes_completes ?_)
      refine h₂.completes hT hone hdec hrfe env₂ ⟨by omega, by omega⟩ (hm₂ 0).present
        fun a' size' hda' => ?_
      rw [hda] at hda'
      cases hda'
      cases hF : cfg.fifoReplace with
      | true => exact (hm₂ _).kept (hm.newest hF)
      | false => exact absurd (hlru (by simpa [hF] using hone.symm)) (hm₂ 0).absent
    · rw [hda] at hda'
      cases hda'
      exact absurd hm.present hm₂.absent

include hT hone in
/-- `RaiseException` executes the pending load, so there is one more attempt where it
changes the operand. -/
theorem retry_pending (hdec : instr.Decoded) (hrfe : instr.opCode ≠ .rfe)
    (env₀ env₁ env₂ env₃ : Env) (h : Ready cfg instr pc frame d d' B c)
    (hB : -1 ≤ B ∧ B + 8 < intMax) : Finishes cfg c [env₀, env₁, env₂, env₃] := by
  rcases h.attempt hT hone hdec hrfe env₀ ⟨hB.1, by omega⟩ with hx | ⟨c₁, ha₁, h₁, -⟩
  · exact finishes_completes hx
  · exact ha₁.finishes (h₁.retry hT hone hdec hrfe env₁ env₂ env₃ ⟨by omega, by omega⟩)

end Ready

/-! ## Runs -/

namespace Vm

section
variable {cfg : Config} {s : Vm} {f : Nat} {vpn : Int}

theorem CopiedRPT.backed (h : CopiedRPT s) (hR : cfg.useRPT = true) (hu : s.inUser = true)
    (h0 : 0 ≤ vpn) (hh : HoldsRPT s f (s.currentThread, vpn)) : s.Backed cfg vpn f := by
  obtain ⟨a, ha⟩ := h.abs
  obtain ⟨hr, hus⟩ := Bool.and_eq_true_iff.mp hu
  obtain ⟨u, hthread, -⟩ := runnable_iff.mp hr
  obtain ⟨sp, hsp⟩ : ∃ sp, u.space = some sp := by
    rw [isUser, hthread, Option.bind_some] at hus
    exact Option.isSome_iff_exists.mp hus
  obtain ⟨e, hfound⟩ := ha.found hr ((ha.holds_iff f _).mp hh)
  obtain ⟨-, -, hppn, -⟩ := ha.table.slot_of_valid hh.1 hh.2.1
  have hrun : s.Running cfg sp := ⟨space_eq_ok.mpr ⟨u, hthread, hsp⟩,
    fun hR' => absurd hR' (by simp [hR]), fun _ => ha.table.length, fun _ => h.length⟩
  refine ⟨h0, ⟨Int.natCast_nonneg f, Int.ofNat_lt.mpr hh.1⟩, ⟨sp, s.pt.nth f, hrun, ?_, hh.2.1,
    hh.2.2.2, hppn, h.entries f⟩, fun e he hv hvpn => ?_⟩
  · unfold rptTranslation at hfound
    split at hfound <;> [cases hfound; skip]
    rename_i i hi
    have hif : i = f := Int.natCast_inj.mp (Prod.mk.inj (Except.ok.inj hfound)).1
    subst hif
    simp only [mapping, Bool.false_eq_true, if_false, hR, if_true, hi, Option.map_some]
  · obtain ⟨hro, hcopy⟩ := h.copies e he hv
    exact ⟨hcopy f (hvpn ▸ hh), hro⟩

theorem CopiedLinear.backed (h : CopiedLinear s) (hR : cfg.useRPT = false)
    (hf : f < numPhysPages) (hh : HoldsLinear s f (s.currentThread, vpn)) :
    s.Backed cfg vpn f := by
  obtain ⟨n, hn, hheld⟩ := hh
  obtain ⟨u, sp, e, hu, -, hsp, he, hval, hppn⟩ := held_eq_some.mp hheld
  have hn : vpn = n := hn
  subst hn
  have hspace := space_eq_ok.mpr ⟨u, hu, hsp⟩
  have hfiled := h.spaces _ sp hspace
  have hnth : sp.pt.nth n = e := by
    rw [Table.nth, List.getD_eq_getElem?_getD, he, Option.getD_some]
  have hlt : (n : Int) < sp.program.numPages := by
    have := (List.getElem?_eq_some_iff.mp he).1
    rw [hfiled.length] at this
    omega
  have hrun : s.Running cfg sp := ⟨hspace, fun _ => hfiled.length,
    fun hR' => absurd hR' (by simp [hR]), fun _ => h.length⟩
  refine ⟨Int.natCast_nonneg n, ⟨Int.natCast_nonneg f, Int.ofNat_lt.mpr hf⟩, ⟨sp, e, hrun, ?_, hval,
    hfiled.ok.vpn n e he hval, hppn, (hfiled.entry n e he).2.1⟩, fun e' he' hv hvpn => ?_⟩
  · simp only [mapping, Bool.false_eq_true, if_false, hR, Int.toNat_natCast, hnth]
    rw [if_pos ⟨Int.natCast_nonneg n, hlt, hval⟩, hppn]
  · obtain ⟨hro, sp', n', hspace', hvpn', hframe⟩ := h.copies e' he' hv
    rw [hspace] at hspace'
    cases hspace'
    have hnn : n' = n := by omega
    subst hnn
    rw [AddrSpace.frames, List.getElem?_map, he, Option.map_some] at hframe
    exact ⟨(Option.some.inj hframe).symm.trans hppn, hro⟩

end

/-- The page of an address is in memory for the running thread, and `Translate` takes
the address: it is not negative, and four bytes from it on are in main memory. -/
structure Present (cfg : Config) (s : Vm) (addr : BitVec 32) (f : Nat) : Prop where
  nonneg : 0 ≤ addr.toInt
  bound : f < numPhysPages
  frame : InFrame cfg s f (s.currentThread, addr.toInt / pageSize)
  fits : Fits addr.toInt f

/-- In every run such an access can be served. -/
theorem reachable_servable {cfg : Config} (hT : cfg.useTLB = true) {s : Vm}
    (h : ((System.ofFun (start cfg) (next cfg)).restrict (Regular cfg)).Reachable s)
    (hu : s.inUser = true) {addr : BitVec 32} {f : Nat} (hp : s.Present cfg addr f) :
    s.Servable cfg addr.toInt f := by
  have hcopied := reachable_copied hT h
  have hframe := hp.frame
  have h0 : 0 ≤ addr.toInt / pageSize := Int.ediv_nonneg hp.nonneg (by decide)
  refine ⟨hp.nonneg, ?_, hp.fits⟩
  unfold InFrame at hframe
  cases hR : cfg.useRPT with
  | true =>
    rw [if_pos hR] at hcopied hframe
    exact hcopied.backed hR hu h0 hframe
  | false =>
    rw [if_neg (by simp [hR])] at hcopied hframe
    exact hcopied.backed hR hp.bound hframe

/-- The instruction at the program counter, whose page is in the frame `f`. -/
def instructionAt (s : Vm) (pc : BitVec 32) (f : Nat) : Instruction :=
  .decode (wordAt s.mainMemory (physical f pc.toInt))

end Vm

/-- With a TLB, in every state of a run, an instruction whose pages are in memory is
executed with at most three TLB misses, and with at most two if its address does not
depend on a pending load, where no counter is about to overflow. Its operand is that
of the registers, or that of the registers with the pending load. -/
theorem reachable_finishes {cfg : Config} (hT : cfg.useTLB = true)
    (hone : cfg.fifoReplace ≠ cfg.lruReplace) {s : Vm}
    (h : ((System.ofFun (Vm.start cfg) (Vm.next cfg)).restrict (Vm.Regular cfg)).Reachable s)
    (hu : s.inUser = true) (hc : s.Calm cfg (intMax - 7)) {r : Registers} (hw : r.Wf) {f : Nat}
    (hf : s.Present cfg (r Reg.pc) f)
    (hd : ∀ r' ∈ [r, r.applied], ∀ addr size,
      (s.instructionAt (r Reg.pc) f).data r' = some (addr, size) →
      ¬ Vm.Misaligned addr.toInt size → ∃ f', s.Present cfg addr f')
    (hq : Divides (s.instructionAt (r Reg.pc) f) r) (env₀ env₁ env₂ env₃ : Env) :
    ((s.instructionAt (r Reg.pc) f).Based r → Finishes cfg ⟨r, s⟩ [env₀, env₁, env₂]) ∧
      (s.Calm cfg (intMax - 9) → Finishes cfg ⟨r, s⟩ [env₀, env₁, env₂, env₃]) := by
  have hdec : (s.instructionAt (r Reg.pc) f).Decoded := Instruction.decoded_decode _
  have hready : ∀ B, s.Calm cfg B → Ready cfg (s.instructionAt (r Reg.pc) f) (r Reg.pc) f
      ((s.instructionAt (r Reg.pc) f).data r) ((s.instructionAt (r Reg.pc) f).data r.applied) B
      ⟨r, s⟩ := by
    refine fun B hc => ⟨hw, rfl, Vm.reachable_servable hT h hu hf, rfl, rfl, rfl,
      fun addr size hdata => ?_, hq, hc⟩
    by_cases hal : Vm.Misaligned addr.toInt size
    · exact ⟨0, fun hn => absurd hal hn⟩
    · obtain ⟨f', hf'⟩ : ∃ f', s.Present cfg addr f' := by
        rcases hdata with hdata | hdata
        · exact hd r (by simp) addr size hdata hal
        · exact hd r.applied (by simp) addr size hdata hal
      exact ⟨f', fun _ => Vm.reachable_servable hT h hu hf'⟩
  refine ⟨fun hb => ?_, fun hc' => ?_⟩
  · have hready := hready _ hc
    rw [Instruction.data_congr fun hacc => Registers.applied_based hdec hb hacc] at hready
    exact hready.retry hT hone hdec (Instruction.decode_ne_rfe _) env₀ env₁ env₂ (by decide)
  · exact (hready _ hc').retry_pending hT hone hdec (Instruction.decode_ne_rfe _) env₀ env₁ env₂ env₃
      (by decide)

/-- `lw $6, 0($5)`, on the first of five pages. -/
def refillProgram : Program := ⟨word.encodeAll [0x8ca60000], 0, 5⟩

/-- Two pages are loaded, and the entries of the three others refilled: first that
of a data page, then that of the code. -/
def refillRun : List (Vm.Op × Env) :=
  ([.create (some refillProgram), .run 1, .read 128 1, .read 256 1, .read 384 1, .read 384 1,
    .read 0 1, .read 0 1, .read 512 1, .read 512 1] : List Vm.Op).map fun op => (op, Env.blank)

/-- `R5` is 128, and a load of 256 is pending for the register `load`. -/
def refillRegisters (load : BitVec 32) : Registers := fun i =>
  if i = Reg.load then load
  else if i = Reg.loadValue then 256
  else if i = Reg.nextPC then 4
  else if i.val = 5 then 128
  else 0

theorem exists_refillRun : ∃ s : Vm,
    ((System.ofFun (Vm.start ⟨true, true, true, false⟩) (Vm.next ⟨true, true, true, false⟩)).restrict
      (Vm.Regular ⟨true, true, true, false⟩)).Reachable s ∧
    s.inUser = true ∧ s.Calm ⟨true, true, true, false⟩ (intMax - 9) ∧
    s.Present ⟨true, true, true, false⟩ 0 3 ∧ s.Present ⟨true, true, true, false⟩ 128 0 ∧
    s.Present ⟨true, true, true, false⟩ 256 1 ∧ s.instructionAt 0 3 = .decode 0x8ca60000 ∧
    s.place 1 = none ∧
    Cpu.retry ⟨true, true, true, false⟩ ⟨refillRegisters 5, s⟩ [.blank, .blank, .blank] = .ok none := by
  obtain ⟨s, hr, hp⟩ := System.exists_reachable_guarded (Vm.start ⟨true, true, true, false⟩)
    (Vm.next ⟨true, true, true, false⟩) (Vm.Regular ⟨true, true, true, false⟩) refillRun
    (p := fun s => decide (s.inUser = true ∧
      s.tlb.Under (Table.victimFlag ⟨true, true, true, false⟩) (intMax - 9) ∧
      Vm.HoldsRPT s 3 (s.currentThread, 0) ∧ Vm.HoldsRPT s 0 (s.currentThread, 1) ∧
      Vm.HoldsRPT s 1 (s.currentThread, 2) ∧ Vm.wordAt s.mainMemory 384 = 0x8ca60000 ∧
      s.place 1 = none) &&
      (Cpu.retry ⟨true, true, true, false⟩ ⟨refillRegisters 5, s⟩
        [.blank, .blank, .blank]).toOption.any Option.isNone) (by decide +kernel)
  obtain ⟨hp, hretry⟩ := Bool.and_eq_true_iff.mp hp
  obtain ⟨hu, hunder, h₀, h₁, h₂, hword, hplace⟩ := of_decide_eq_true hp
  obtain ⟨x, hx, hn⟩ := Vm.exists_ok hretry
  refine ⟨s, hr, hu, ⟨hunder, fun hL => by cases hL⟩, ⟨by decide, by decide, h₀, by decide⟩,
    ⟨by decide, by decide, h₁, by decide⟩, ⟨by decide, by decide, h₂, by decide⟩, ?_, hplace, ?_⟩
  · exact congrArg Instruction.decode hword
  · rw [hx, Option.isNone_iff_eq_none.mp hn]

/-- With the load pending for `R5` it takes four attempts, and without it three are
enough. -/
theorem reachable_finishes_load : ∃ s : Vm,
    Cpu.retry ⟨true, true, true, false⟩ ⟨refillRegisters 5, s⟩ [.blank, .blank, .blank] = .ok none ∧
    Finishes ⟨true, true, true, false⟩ ⟨refillRegisters 5, s⟩ [.blank, .blank, .blank, .blank] ∧
    s.place 1 = none ∧
    Finishes ⟨true, true, true, false⟩ ⟨refillRegisters 0, s⟩ [.blank, .blank, .blank] := by
  obtain ⟨s, hr, hu, hc, h₀, h₁, h₂, hinstr, hplace, hretry⟩ := exists_refillRun
  have hc' : s.Calm ⟨true, true, true, false⟩ (intMax - 7) := hc.mono (by decide)
  -- The operand is at 128, or at 256 when the load has been executed.
  have hpage : ∀ {r' : Registers} {addr : BitVec 32} {size : Nat},
      (Instruction.decode 0x8ca60000).data r' = some (128, 4) ∨
        (Instruction.decode 0x8ca60000).data r' = some (256, 4) →
      (s.instructionAt 0 3).data r' = some (addr, size) →
      ∃ f' : Nat, s.Present ⟨true, true, true, false⟩ addr f' := by
    intro r' addr size hm hd
    rw [hinstr] at hd
    rw [hd] at hm
    rcases hm with hm | hm <;> cases hm
    · exact ⟨0, h₁⟩
    · exact ⟨1, h₂⟩
  have hload : ∀ r' ∈ [refillRegisters 5, (refillRegisters 5).applied],
      (Instruction.decode 0x8ca60000).data r' = some (128, 4) ∨
        (Instruction.decode 0x8ca60000).data r' = some (256, 4) := by
    intro r' hr'
    rcases List.mem_pair.mp hr' with rfl | rfl
    · exact .inl (by decide)
    · exact .inr (by decide)
  have hnone : ∀ r' ∈ [refillRegisters 0, (refillRegisters 0).applied],
      (Instruction.decode 0x8ca60000).data r' = some (128, 4) := by
    intro r' hr'
    rcases List.mem_pair.mp hr' with rfl | rfl <;> decide
  have hdivides : Divides (s.instructionAt 0 3) (refillRegisters 5) ∧
      Divides (s.instructionAt 0 3) (refillRegisters 0) ∧
      (s.instructionAt 0 3).Based (refillRegisters 0) := by
    rw [hinstr]
    decide
  have hfour := reachable_finishes rfl (by decide) hr hu hc' (r := refillRegisters 5)
    ⟨by decide, by decide⟩ h₀ (fun r' hr' addr size hd _ => hpage (hload r' hr') hd) hdivides.1
    .blank .blank .blank .blank
  have hthree := reachable_finishes rfl (by decide) hr hu hc' (r := refillRegisters 0)
    ⟨by decide, by decide⟩ h₀ (fun r' hr' addr size hd _ => hpage (.inl (hnone r' hr')) hd)
    hdivides.2.1 .blank .blank .blank .blank
  exact ⟨s, hretry, hfour.2 hc, hplace, hthree.1 hdivides.2.2⟩

/-- With the load pending, the first miss is on the page of 128, and its handler
replaces the oldest entry. `RaiseException` has executed the load, so the second miss is on the
page of 256, and its handler replaces the entry of the code. -/
theorem not_finishes : ¬ ∀ (cfg : Config) (s : Vm) (r : Registers) (f : Nat) (env₀ env₁ env₂ : Env),
    cfg.useTLB = true → cfg.fifoReplace ≠ cfg.lruReplace →
    ((System.ofFun (Vm.start cfg) (Vm.next cfg)).restrict (Vm.Regular cfg)).Reachable s →
    s.inUser = true → s.Calm cfg (intMax - 7) → r.Wf → s.Present cfg (r Reg.pc) f →
    (∀ (r' : Registers) (addr : BitVec 32) (size : Nat), r' = r ∨ (∃ a : BitVec 32, r' = r.raised a) →
      (s.instructionAt (r Reg.pc) f).data r' = some (addr, size) →
      ∃ f' : Nat, s.Present cfg addr f') →
    Divides (s.instructionAt (r Reg.pc) f) r →
    Finishes cfg ⟨r, s⟩ [env₀, env₁, env₂] := by
  intro hall
  obtain ⟨s, hr, hu, hc, h₀, h₁, h₂, hinstr, -, hretry⟩ := exists_refillRun
  have hdata : (s.instructionAt 0 3).data (refillRegisters 5) = some (128, 4) := by
    rw [hinstr]
    decide
  have hnext : ∀ a : BitVec 32,
      (s.instructionAt 0 3).data ((refillRegisters 5).raised a) = some (256, 4) := fun a => by
    rw [hinstr]
    rfl
  have hpages : ∀ (r' : Registers) (addr : BitVec 32) (size : Nat),
      r' = refillRegisters 5 ∨ (∃ a : BitVec 32, r' = (refillRegisters 5).raised a) →
      (s.instructionAt 0 3).data r' = some (addr, size) →
      ∃ f' : Nat, s.Present ⟨true, true, true, false⟩ addr f' := by
    rintro r' addr size (rfl | ⟨a, rfl⟩) hd
    · obtain ⟨rfl, -⟩ := Prod.mk.inj (Option.some.inj (hdata.symm.trans hd))
      exact ⟨0, h₁⟩
    · obtain ⟨rfl, -⟩ := Prod.mk.inj (Option.some.inj ((hnext a).symm.trans hd))
      exact ⟨1, h₂⟩
  have hdivides : Divides (s.instructionAt 0 3) (refillRegisters 5) := by
    rw [hinstr]
    decide
  obtain ⟨c, o, hx, -⟩ := hall _ s (refillRegisters 5) 3 .blank .blank .blank rfl (by decide) hr hu
    (hc.mono (by decide)) ⟨by decide, by decide⟩ h₀ hpages hdivides
  rw [hretry] at hx
  cases hx

end Nachos

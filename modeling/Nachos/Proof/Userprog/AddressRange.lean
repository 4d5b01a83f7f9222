import Nachos.Proof.Userprog.ByteArray

/-!
# The range check of a translation

What a thread can reach is from 0 to `numPages * PageSize`. The check of the
linear table is that the page number is not too large, on a page number that is
rounded towards zero; `USE_RPT` has no check. So an address behind the last page
is refused by the linear table only, and a negative one by neither
(`addressSafe_iff`). In range nothing behind a table is read: what `stray` says is
there makes no difference (`translate_congr`, `exceptionHandler_congr`).
-/

namespace Nachos

theorem bind_congr_ok {ε α β : Type} {x : Except ε α} {f g : α → Except ε β}
    (h : ∀ a, x = .ok a → f a = g a) : (x >>= f) = x >>= g := by
  cases x with
  | error e => rfl
  | ok a => exact h a rfl

namespace Table

variable {t : Table} (stray stray' : Int → TranslationEntry)

theorem view_congr {len : Nat} (h : len ≤ t.length) : t.view stray len = t.view stray' len := by
  unfold view
  rw [Nat.sub_eq_zero_of_le h]
  rfl

theorem entry_congr {i : Int} (h : 0 ≤ i ∧ i < t.length) :
    t.entry stray i = t.entry stray' i := by
  obtain ⟨k, rfl⟩ := Int.eq_ofNat_of_zero_le h.1
  rw [entry_eq_nth stray (by omega), entry_eq_nth stray' (by omega)]

theorem updateFIFOFlag_congr {len : Nat} (h : len ≤ t.length) (pos : Int) :
    t.updateFIFOFlag stray pos len = t.updateFIFOFlag stray' pos len := by
  unfold updateFIFOFlag
  rw [view_congr stray stray' h]

theorem updateLRUFlag_congr {len : Nat} (h : len ≤ t.length) (pos : Int) :
    t.updateLRUFlag stray pos len = t.updateLRUFlag stray' pos len := by
  unfold updateLRUFlag
  rw [view_congr stray stray' h]

theorem updateTLB_congr (cfg : Config) (h : t.length = tlbSize) (e : TranslationEntry) :
    t.updateTLB cfg stray e = t.updateTLB cfg stray' e := by
  unfold updateTLB
  refine bind_congr_ok fun t' ht' => ?_
  obtain ⟨-, -, rfl⟩ := upd_eq_ok.mp ht'
  rw [updateFIFOFlag_congr stray stray' (by rw [List.length_modify, h])]

end Table

namespace Vm

/-! ## The walk of the page table -/

/-- What the swap branch leaves: the page is in its frame, and nothing but main
memory, the swap file and the valid bits of the table has changed. -/
theorem swap_spec {env : Env} {s s' : Vm} {sp sp' : AddrSpace} {vpn ppn : Int}
    (h : s.swap env sp vpn ppn = .ok (s', sp')) :
    (∃ m, s' = { s with mainMemory := m }) ∧ sp'.program = sp.program ∧
      sp'.pt.map (fun e => { e with valid := true }) =
        sp.pt.map (fun e => { e with valid := true }) ∧
      sp'.pt.nth vpn.toNat = { sp.pt.nth vpn.toNat with valid := true } := by
  obtain ⟨sp₁, h₁, h⟩ := bind_eq_ok.mp h
  obtain ⟨pt, hpt, h⟩ := bind_eq_ok.mp h
  obtain ⟨page, -, h⟩ := bind_eq_ok.mp h
  obtain ⟨s₁, hs₁, h⟩ := bind_eq_ok.mp h
  cases h
  have hsp₁ : sp₁.program = sp.program ∧
      sp₁.pt.map (fun e => { e with valid := true }) =
        sp.pt.map (fun e => { e with valid := true }) := by
    split at h₁
    · cases h₁
      exact ⟨rfl, rfl⟩
    · obtain ⟨page', -, h₁⟩ := bind_eq_ok.mp h₁
      obtain ⟨vmFile, -, h₁⟩ := bind_eq_ok.mp h₁
      obtain ⟨pt', hpt', h₁⟩ := bind_eq_ok.mp h₁
      cases h₁
      obtain ⟨-, -, rfl⟩ := Table.upd_eq_ok.mp hpt'
      exact ⟨rfl, Table.map_modify _ _ _ fun _ => rfl⟩
  obtain ⟨-, -, rfl⟩ := store_eq_ok.mp hs₁
  obtain ⟨-, hv, rfl⟩ := Table.upd_eq_ok.mp hpt
  refine ⟨⟨_, rfl⟩, hsp₁.1, Eq.trans ?_ hsp₁.2, ?_⟩
  · exact Table.map_modify _ _ _ (f := fun e => { e with valid := true }) fun _ => rfl
  have hnth := congrArg (·[vpn.toNat]?) hsp₁.2
  simp only [List.getElem?_map] at hnth
  rw [List.getElem?_eq_getElem hv] at hnth
  obtain ⟨e, he, hvalid⟩ := Option.map_eq_some_iff.mp hnth.symm
  simp only
  rw [Table.nth_modify _ _ _ _ hv, if_pos rfl]
  simp only [Table.nth, List.getD_eq_getElem?_getD, he, List.getElem?_eq_getElem hv,
    Option.getD_some]
  exact hvalid.symm

theorem length_swap {env : Env} {s s' : Vm} {sp sp' : AddrSpace} {vpn ppn : Int}
    (h : s.swap env sp vpn ppn = .ok (s', sp')) : sp'.pt.length = sp.pt.length := by
  simpa using congrArg List.length (swap_spec h).2.2.1

section
variable {cfg : Config} {env : Env} {s s' : Vm} {vpn : Int}

theorem vpn_range {n : Nat} {addr : Int} (h : 0 ≤ addr ∧ addr < n * pageSize) :
    0 ≤ addr.tdiv pageSize ∧ addr.tdiv pageSize < n := by
  rw [Int.tdiv_eq_ediv_of_nonneg h.1]
  unfold pageSize at *
  omega

/-- The check of the linear table. -/
theorem pageTableTranslation_addressError {sp : AddrSpace} (hrun : s.Running cfg sp) :
    s.pageTableTranslation cfg env vpn = .ok (s, .error .addressError) ↔
      cfg.useRPT = false ∧ (sp.program.numPages : Int) ≤ vpn := by
  unfold pageTableTranslation
  cases hR : cfg.useRPT with
  | true =>
    simp only [if_true, Bool.true_eq_false, false_and, iff_false]
    intro h
    obtain ⟨-, h⟩ := Prod.mk.inj (Except.ok.inj h)
    unfold rptTranslation at h
    split at h <;> cases h
  | false =>
    simp only [Bool.false_eq_true, if_false, true_and]
    constructor
    · intro h
      by_contra hlt
      rw [linearTranslation, hrun.space] at h
      simp only [ok_bind, if_neg hlt] at h
      split at h <;> [cases h; skip]
      split at h
      · obtain ⟨⟨s₁, sp₁⟩, -, h⟩ := bind_eq_ok.mp h
        cases h
      · cases h
    · intro hle
      rw [linearTranslation, hrun.space]
      simp only [ok_bind, if_pos hle]
      rfl

/-- A walk that finds its page, in range: the machine keeps its tables, and the
page is mapped. -/
theorem pageTableTranslation_found {sp : AddrSpace} (hrun : s.Running cfg sp) {f : Int}
    {e : TranslationEntry} (hv : 0 ≤ vpn ∧ vpn < sp.program.numPages)
    (h : s.pageTableTranslation cfg env vpn = .ok (s', .ok (f, e))) : ∃ sp', s'.Running cfg sp' ∧
      sp'.program = sp.program ∧ (cfg.useTLB = false → s'.mapping cfg sp' vpn = some (f, e)) := by
  unfold pageTableTranslation at h
  split at h
  · rename_i hR
    obtain ⟨rfl, h⟩ := Prod.mk.inj (Except.ok.inj h)
    refine ⟨sp, hrun, rfl, fun hT => ?_⟩
    unfold rptTranslation at h
    split at h <;> [cases h; skip]
    rename_i i hi
    cases h
    rw [mapping, if_neg (Bool.eq_false_iff.mp hT), if_pos hR, hi]
    rfl
  · rename_i hR
    have hl := hrun.linear (by simpa using hR)
    have hentry : ∀ t : Table, t.length = sp.pt.length → t.entry env.stray vpn = t.nth vpn.toNat :=
      fun t ht => by
        have := t.entry_eq_nth (j := vpn.toNat) env.stray (by omega)
        rwa [Int.toNat_of_nonneg hv.1] at this
    rw [linearTranslation, hrun.space] at h
    simp only [ok_bind] at h
    rw [if_neg (by omega), hentry _ rfl] at h
    split at h
    · rename_i hvalid
      cases h
      refine ⟨sp, hrun, rfl, fun hT => ?_⟩
      rw [mapping, if_neg (Bool.eq_false_iff.mp hT), if_neg hR, if_pos ⟨hv.1, hv.2, hvalid⟩]
    · split at h <;> [skip; cases h]
      obtain ⟨⟨s₂, sp₂⟩, hswap, h⟩ := bind_eq_ok.mp h
      cases h
      have hlen := length_swap hswap
      obtain ⟨⟨m, rfl⟩, hprog, -, hnth⟩ := swap_spec hswap
      refine ⟨sp₂, ⟨?_, fun _ => ?_, fun hR' => absurd hR' hR, hrun.tlb⟩, hprog, fun hT => ?_⟩
      · exact (space_setSpace (s := { s with mainMemory := m }) hrun.space _ _).trans (if_pos rfl)
      · rw [hlen, hprog, hl]
      · rw [mapping, if_neg (Bool.eq_false_iff.mp hT), if_neg hR, hentry _ hlen, if_pos]
        exact ⟨hv.1, by rw [hprog]; exact hv.2, by rw [hnth]⟩

/-- The same of a lookup. -/
theorem lookup_found {sp : AddrSpace} (hrun : s.Running cfg sp) {f : Int} {e : TranslationEntry}
    {k : Option Nat} (hv : 0 ≤ vpn ∧ vpn < sp.program.numPages)
    (h : s.lookup cfg env vpn = .ok (s', .ok (f, e, k))) : ∃ sp', s'.Running cfg sp' ∧
      sp'.program = sp.program ∧ s'.mapping cfg sp' vpn = some (f, e) ∧
      k = if cfg.useTLB then s'.place vpn else none := by
  unfold lookup at h
  split at h
  · rename_i hT
    split at h
    · cases h
    · rename_i k' hk'
      cases h
      refine ⟨sp, hrun, rfl, ?_, ?_⟩
      · rw [mapping, if_pos hT, place, hk']
        rfl
      · rw [if_pos hT, place, hk']
  · rename_i hT
    obtain ⟨⟨s₁, q⟩, hq, h⟩ := bind_eq_ok.mp h
    cases q <;> cases h
    obtain ⟨sp', hrun', hprog, hm⟩ := pageTableTranslation_found hrun hv hq
    exact ⟨sp', hrun', hprog, hm (by simpa using hT), (if_neg hT).symm⟩

end

/-! ## What lies behind the tables -/

section
variable {cfg : Config} {s : Vm} {sp : AddrSpace} (hrun : s.Running cfg sp) (env env' : Env)
include hrun

theorem pageTableTranslation_congr {vpn : Int} (hv : 0 ≤ vpn ∧ vpn < sp.program.numPages) :
    s.pageTableTranslation cfg env vpn = s.pageTableTranslation cfg env' vpn := by
  unfold pageTableTranslation
  split
  · rfl
  · rename_i hR
    have hl := hrun.linear (by simpa using hR)
    have hentry : ∀ t : Table, t.length = sp.pt.length →
        t.entry env.stray vpn = t.entry env'.stray vpn := fun t ht =>
      Table.entry_congr _ _ ⟨hv.1, by omega⟩
    have hswap : ∀ ppn, s.swap env sp vpn ppn = s.swap env' sp vpn ppn := fun ppn => by
      unfold swap
      rw [Table.view_congr env.stray env'.stray (Nat.le_of_eq hl.symm)]
    unfold linearTranslation
    rw [hrun.space]
    simp only [ok_bind, hentry _ rfl, hswap]
    refine ite_congr rfl (fun _ => rfl) fun _ => ite_congr rfl (fun _ => rfl) fun _ =>
      ite_congr rfl (fun _ => ?_) fun _ => rfl
    refine bind_congr_ok fun x hx => ?_
    obtain ⟨s₂, sp₂⟩ := x
    rw [hentry _ (length_swap hx)]

theorem lookup_congr {vpn : Int} (hv : 0 ≤ vpn ∧ vpn < sp.program.numPages) :
    s.lookup cfg env vpn = s.lookup cfg env' vpn := by
  unfold lookup
  rw [pageTableTranslation_congr hrun env env' hv]

theorem touch_congr (vpn f : Int) : s.touch cfg env vpn f = s.touch cfg env' vpn f := by
  unfold touch
  by_cases hR : cfg.useRPT = true
  · rw [if_pos hR, if_pos hR,
      Table.updateLRUFlag_congr env.stray env'.stray (Nat.le_of_eq (hrun.inverted hR).symm)]
  · rw [if_neg hR, if_neg hR, hrun.space]
    simp only [ok_bind, Table.updateLRUFlag_congr env.stray env'.stray
      (Nat.le_of_eq (hrun.linear (by simpa using hR)).symm)]

theorem touchTLB_congr {k : Option Nat} (hk : cfg.useTLB = false → k = none) :
    s.touchTLB cfg env k = s.touchTLB cfg env' k := by
  cases k with
  | none => rfl
  | some k =>
    have hT : cfg.useTLB = true := by
      by_contra hT
      cases hk (by simpa using hT)
    simp only [touchTLB]
    rw [Table.updateLRUFlag_congr env.stray env'.stray (Nat.le_of_eq (hrun.tlb hT).symm)]

/-- In range a translation reads nothing behind a table. -/
theorem translate_congr {addr : Int} (hr : 0 ≤ addr ∧ addr < sp.program.numPages * pageSize)
    (size : Nat) (writing : Bool) :
    s.translate cfg env addr size writing = s.translate cfg env' addr size writing := by
  have hv := vpn_range hr
  unfold translate
  split
  · rfl
  · simp only [lookup_congr hrun env env' hv]
    refine bind_congr_ok fun x hx => ?_
    obtain ⟨s₁, r⟩ := x
    cases r with
    | error e => rfl
    | ok p =>
      obtain ⟨f, e, k⟩ := p
      obtain ⟨sp₁, hrun₁, -, -, hk⟩ := lookup_found hrun hv hx
      refine ite_congr rfl (fun _ => rfl) fun _ => ite_congr rfl (fun _ => rfl) fun _ => ?_
      simp only [touch_congr hrun₁ env env']
      refine bind_congr_ok fun s₂ hs₂ => bind_congr_ok fun _ _ => ?_
      obtain ⟨sp₂, hrun₂, -⟩ := hrun₁.of_core (touch_core hs₂)
      rw [touchTLB_congr hrun₂ env env' fun hT => by rw [hk, hT]; rfl]

theorem mapRPT_congr (hR : cfg.useRPT = true) (tid : Nat) (vpn ppn : Int) :
    s.mapRPT cfg env tid vpn ppn = s.mapRPT cfg env' tid vpn ppn := by
  unfold mapRPT
  refine bind_congr_ok fun pt hpt => ?_
  obtain ⟨-, -, rfl⟩ := Table.upd_eq_ok.mp hpt
  rw [Table.updateFIFOFlag_congr env.stray env'.stray (by rw [List.length_modify, hrun.inverted hR])]

theorem mapLinear_congr (hR : cfg.useRPT = false) {vpn : Int}
    (hv : 0 ≤ vpn ∧ vpn < sp.program.numPages) (ppn : Int) :
    s.mapLinear cfg env s.currentThread vpn ppn = s.mapLinear cfg env' s.currentThread vpn ppn := by
  have hl := hrun.linear hR
  unfold mapLinear
  rw [hrun.space]
  simp only [ok_bind]
  refine bind_congr_ok fun pt hpt => ?_
  obtain ⟨-, -, rfl⟩ := Table.upd_eq_ok.mp hpt
  rw [Table.updateFIFOFlag_congr env.stray env'.stray (by rw [List.length_modify, hl])]
  refine bind_congr_ok fun pt' hpt' => ?_
  have hlen : pt'.length = sp.pt.length := by
    split at hpt'
    · rw [← Table.length_core, Table.updateFIFOFlag_core hpt', Table.length_core, List.length_modify]
    · cases hpt'
      exact List.length_modify ..
  rw [Table.entry_congr env.stray env'.stray ⟨hv.1, by omega⟩]

theorem pageFaultHandler_congr {addr : Int}
    (hr : 0 ≤ addr ∧ addr < sp.program.numPages * pageSize) :
    s.pageFaultHandler cfg env addr = s.pageFaultHandler cfg env' addr := by
  have hv := vpn_range hr
  unfold pageFaultHandler
  refine bind_congr_ok fun x hx => bind_congr_ok fun sp' _ => bind_congr_ok fun fileAddr _ => ?_
  obtain ⟨s₁, ppn⟩ := x
  obtain ⟨b, rfl⟩ := pageFrame_eq hx
  have hrun₁ : Running cfg { s with mmBitmap := b } sp :=
    ⟨hrun.space, hrun.linear, hrun.inverted, hrun.tlb⟩
  unfold loadPageFrame
  cases hR : cfg.useRPT with
  | true =>
    simp only [if_true]
    rw [mapRPT_congr hrun₁ env env' hR]
  | false =>
    simp only [Bool.false_eq_true, if_false]
    rw [mapLinear_congr hrun₁ env env' hR hv]

/-- Neither do the exceptions of the access. -/
theorem exceptionHandler_congr {addr : Int}
    (hr : 0 ≤ addr ∧ addr < sp.program.numPages * pageSize) {which : ExceptionType}
    (hT : which = .tlbMiss → cfg.useTLB = true) :
    s.exceptionHandler cfg env which addr = s.exceptionHandler cfg env' which addr := by
  unfold exceptionHandler
  cases which with
  | pageFault => exact pageFaultHandler_congr hrun env env' hr
  | tlbMiss =>
    simp only [pageTableTranslation_congr hrun env env' (vpn_range hr)]
    refine bind_congr_ok fun x hx => ?_
    obtain ⟨s₁, r⟩ := x
    cases r with
    | error e =>
      obtain rfl := pageTableTranslation_stays hx
      cases e with
      | pageFault => exact pageFaultHandler_congr hrun env env' hr
      | tlbMiss | readOnly | busError | addressError => rfl
    | ok p =>
      obtain ⟨f, e⟩ := p
      obtain ⟨sp₁, hrun₁, -⟩ := pageTableTranslation_found hrun (vpn_range hr) hx
      simp only [Table.updateTLB_congr env.stray env'.stray cfg (hrun₁.tlb (hT rfl))]
  | readOnly | busError | addressError => rfl

end

/-! ## The check -/

/-- The access is not aligned to its size. -/
def Misaligned (addr : Int) (size : Nat) : Prop :=
  (size = 4 ∧ addr % 4 ≠ 0) ∨ (size = 2 ∧ addr % 2 ≠ 0)

instance (addr : Int) (size : Nat) : Decidable (Misaligned addr size) :=
  inferInstanceAs (Decidable (_ ∨ _))

/-- `AddressErrorException`, by `Translate` or by the handler of its TLB miss, and
nothing is changed. -/
def Rejects (cfg : Config) (env : Env) (s : Vm) (addr : Int) (size : Nat) (writing : Bool) : Prop :=
  s.translate cfg env addr size writing = .ok (s, .error .addressError) ∨
    s.translate cfg env addr size writing = .ok (s, .error .tlbMiss) ∧
      s.pageTableTranslation cfg env (addr.tdiv pageSize) = .ok (s, .error .addressError)

/-- What address translation should do: refuse what is out of range, give an
address in the frame of the page, and stay inside the tables. -/
structure AddressSafe (cfg : Config) (s : Vm) (sp : AddrSpace) (addr : Int) (size : Nat)
    (writing : Bool) : Prop where
  outside : ¬ (0 ≤ addr ∧ addr < sp.program.numPages * pageSize) →
    ∀ env, s.Rejects cfg env addr size writing
  inside : ∀ env s' pa, s.translate cfg env addr size writing = .ok (s', .ok pa) →
    ∃ sp' frame e, s'.Running cfg sp' ∧ s'.mapping cfg sp' (addr / pageSize) = some (frame, e) ∧
      0 ≤ frame ∧ frame < numPhysPages ∧ pa = frame * pageSize + addr % pageSize
  reads : ∀ env env',
    s.translate cfg env addr size writing = s.translate cfg env' addr size writing ∧
    ∀ s' which, s.translate cfg env addr size writing = .ok (s', .error which) →
      s'.exceptionHandler cfg env which addr = s'.exceptionHandler cfg env' which addr
  flags : ¬ Misaligned addr size → ∀ env s' frame e k,
    s.lookup cfg env (addr.tdiv pageSize) = .ok (s', .ok (frame, e, k)) →
    0 ≤ frame ∧ frame < numPhysPages → ∃ sp', s'.Running cfg sp' ∧
      0 ≤ (if cfg.useRPT then frame else addr.tdiv pageSize) ∧
      (if cfg.useRPT then frame else addr.tdiv pageSize) < (s'.pageTable cfg sp').length

section
variable {cfg : Config} {env : Env} {s s' : Vm} {sp : AddrSpace} {addr : Int} {size : Nat}
  {writing : Bool}

theorem translate_misaligned (h : Misaligned addr size) :
    s.translate cfg env addr size writing = .ok (s, .error .addressError) := by
  unfold translate
  exact if_pos h

/-- An exception of an aligned access. -/
theorem translate_raises (hal : ¬ Misaligned addr size) {which : ExceptionType}
    (h : s.translate cfg env addr size writing = .ok (s', .error which)) :
    s.lookup cfg env (addr.tdiv pageSize) = .ok (s', .error which) ∨
      which = .readOnly ∨ which = .busError := by
  unfold translate at h
  split at h
  · rename_i hm
    exact absurd hm hal
  obtain ⟨⟨s₁, r⟩, hl, h⟩ := bind_eq_ok.mp h
  cases r with
  | error e =>
    cases h
    exact .inl hl
  | ok p =>
    simp only at h
    split at h
    · cases h
      exact .inr (.inl rfl)
    · split at h
      · cases h
        exact .inr (.inr rfl)
      · obtain ⟨s₂, -, h⟩ := bind_eq_ok.mp h
        obtain ⟨-, -, h⟩ := bind_eq_ok.mp h
        obtain ⟨s₃, -, h⟩ := bind_eq_ok.mp h
        cases h

/-- A translation that succeeds. -/
theorem translate_found {pa : Int} (h : s.translate cfg env addr size writing = .ok (s', .ok pa)) :
    ∃ s₁ f e k, s.lookup cfg env (addr.tdiv pageSize) = .ok (s₁, .ok (f, e, k)) ∧
      0 ≤ f ∧ f < numPhysPages ∧ s'.core = s₁.core ∧ pa = f * pageSize + addr.tmod pageSize := by
  unfold translate at h
  split at h <;> [cases h; skip]
  obtain ⟨⟨s₁, r⟩, hl, h⟩ := bind_eq_ok.mp h
  cases r with
  | error e => cases h
  | ok p =>
    obtain ⟨f, e, k⟩ := p
    simp only at h
    split at h <;> [cases h; skip]
    split at h <;> [cases h; skip]
    rename_i hf
    obtain ⟨s₂, h₂, h⟩ := bind_eq_ok.mp h
    obtain ⟨-, -, h⟩ := bind_eq_ok.mp h
    obtain ⟨s₃, h₃, h⟩ := bind_eq_ok.mp h
    cases h
    exact ⟨s₁, f, e, k, hl, by omega, by omega, (touchTLB_core h₃).trans (touch_core h₂), rfl⟩

/-- A lookup that raises an exception. -/
theorem lookup_raises {vpn : Int} {which : ExceptionType}
    (h : s.lookup cfg env vpn = .ok (s', .error which)) : s' = s ∧
      (cfg.useTLB = true ∧ s.place vpn = none ∧ which = .tlbMiss ∨
        cfg.useTLB = false ∧ s.pageTableTranslation cfg env vpn = .ok (s, .error which)) := by
  unfold lookup at h
  split at h
  · rename_i hT
    split at h <;> cases h
    rename_i hk
    exact ⟨rfl, .inl ⟨hT, hk, rfl⟩⟩
  · rename_i hT
    obtain ⟨⟨s₁, q⟩, hq, h⟩ := bind_eq_ok.mp h
    cases q <;> cases h
    obtain rfl := pageTableTranslation_stays hq
    exact ⟨rfl, .inr ⟨by simpa using hT, hq⟩⟩

/-- An access in range. -/
theorem addressSafe_inside (hrun : s.Running cfg sp)
    (hr : 0 ≤ addr ∧ addr < sp.program.numPages * pageSize) :
    s.AddressSafe cfg sp addr size writing := by
  have hv := vpn_range hr
  have hdiv : addr.tdiv pageSize = addr / pageSize := Int.tdiv_eq_ediv_of_nonneg hr.1
  refine ⟨fun h => absurd hr h, fun env s' pa h => ?_, fun env env' => ⟨?_, fun s' which h => ?_⟩,
    fun _ env s' frame e k hl hf => ?_⟩
  · obtain ⟨s₁, f, e, k, hl, hf₀, hf₁, hc, rfl⟩ := translate_found h
    obtain ⟨sp₁, hrun₁, -, hm, -⟩ := lookup_found hrun hv hl
    obtain ⟨sp', hrun', hcsp⟩ := hrun₁.of_core hc
    obtain ⟨e', hm', -⟩ := mapping_of_core hc hcsp hm
    rw [hdiv] at hm'
    exact ⟨sp', f, e', hrun', hm', hf₀, hf₁, by rw [Int.tmod_eq_emod_of_nonneg hr.1]⟩
  · exact translate_congr hrun env env' hr size writing
  · by_cases hal : Misaligned addr size
    · rw [translate_misaligned hal] at h
      cases h
      rfl
    · rcases translate_raises hal h with hl | rfl | rfl
      · obtain ⟨rfl, hl⟩ := lookup_raises hl
        refine exceptionHandler_congr hrun env env' hr fun hw => ?_
        rcases hl with ⟨hT, -⟩ | ⟨-, hl⟩
        · exact hT
        · rcases pageTableTranslation_error hl with rfl | rfl <;> cases hw
      · rfl
      · rfl
  · obtain ⟨sp', hrun', hprog, -⟩ := lookup_found hrun hv hl
    refine ⟨sp', hrun', ?_⟩
    unfold pageTable
    cases hR : cfg.useRPT with
    | true =>
      have := hrun'.inverted hR
      simp only [if_true]
      omega
    | false =>
      have := hrun'.linear hR
      rw [hprog] at this
      simp only [Bool.false_eq_true, if_false]
      omega

/-- An access that raises an `AddressErrorException` whatever lies behind the
tables. -/
theorem addressSafe_rejected (hlook : ∀ env, ¬ Misaligned addr size → ∀ s' frame e k,
      s.lookup cfg env (addr.tdiv pageSize) ≠ .ok (s', .ok (frame, e, k)))
    (h : (∀ env, s.translate cfg env addr size writing = .ok (s, .error .addressError)) ∨
      ∀ env, s.translate cfg env addr size writing = .ok (s, .error .tlbMiss) ∧
        s.pageTableTranslation cfg env (addr.tdiv pageSize) = .ok (s, .error .addressError)) :
    s.AddressSafe cfg sp addr size writing := by
  rcases h with h | h
  · refine ⟨fun _ env => .inl (h env), fun env s' pa ht => ?_, fun env env' =>
      ⟨by rw [h, h], fun s' which ht => ?_⟩, fun hal env s' frame e k hl => ?_⟩
    · rw [h] at ht
      cases ht
    · rw [h] at ht
      cases ht
      rfl
    · exact absurd hl (hlook env hal _ _ _ _)
  · refine ⟨fun _ env => .inr (h env), fun env s' pa ht => ?_, fun env env' =>
      ⟨by rw [(h env).1, (h env').1], fun s' which ht => ?_⟩, fun hal env s' frame e k hl => ?_⟩
    · rw [(h env).1] at ht
      cases ht
    · rw [(h env).1] at ht
      cases ht
      simp only [exceptionHandler, (h env).2, (h env').2, ok_bind]
    · exact absurd hl (hlook env hal _ _ _ _)

/-- What is out of range is refused by the linear table only, and only if its page
number is too large. -/
theorem Rejects.condition (hrun : s.Running cfg sp) (hal : ¬ Misaligned addr size)
    (h : s.Rejects cfg env addr size writing) :
    cfg.useRPT = false ∧ (sp.program.numPages : Int) ≤ addr.tdiv pageSize ∧
      (cfg.useTLB = true → s.place (addr.tdiv pageSize) = none) := by
  rcases h with h | ⟨h, hw⟩
  · rcases translate_raises hal h with hl | hl | hl <;> [skip; cases hl; cases hl]
    rcases (lookup_raises hl).2 with ⟨-, -, hl⟩ | ⟨hT, hl⟩ <;> [cases hl; skip]
    obtain ⟨hR, hle⟩ := (pageTableTranslation_addressError hrun).mp hl
    exact ⟨hR, hle, fun hT' => absurd hT' (by rw [hT]; decide)⟩
  · rcases translate_raises hal h with hl | hl | hl <;> [skip; cases hl; cases hl]
    obtain ⟨hR, hle⟩ := (pageTableTranslation_addressError hrun).mp hw
    refine ⟨hR, hle, fun hT => ?_⟩
    rcases (lookup_raises hl).2 with ⟨-, hk, -⟩ | ⟨hT', -⟩
    · exact hk
    · rw [hT] at hT'
      cases hT'

/-- Translation is safe exactly for the accesses that are misaligned or in range,
and for those that the check of the linear table catches. -/
theorem addressSafe_iff (cfg : Config) (s : Vm) (sp : AddrSpace) (addr : Int) (size : Nat)
    (writing : Bool) (hrun : s.Running cfg sp) :
    s.AddressSafe cfg sp addr size writing ↔ Misaligned addr size ∨
      (0 ≤ addr ∧ addr < sp.program.numPages * pageSize) ∨
      (cfg.useRPT = false ∧ (sp.program.numPages : Int) ≤ addr.tdiv pageSize ∧
        (cfg.useTLB = true → s.place (addr.tdiv pageSize) = none)) := by
  constructor
  · intro h
    by_cases hal : Misaligned addr size
    · exact .inl hal
    · by_cases hr : 0 ≤ addr ∧ addr < sp.program.numPages * pageSize
      · exact .inr (.inl hr)
      · exact .inr (.inr ((h.outside hr .blank).condition hrun hal))
  · rintro (hal | hr | ⟨hR, hle, hplace⟩)
    · exact addressSafe_rejected (fun _ h => absurd hal h) (.inl fun _ => translate_misaligned hal)
    · exact addressSafe_inside hrun hr
    · by_cases hal : Misaligned addr size
      · exact addressSafe_rejected (fun _ h => absurd hal h)
          (.inl fun _ => translate_misaligned hal)
      · have hwalk := fun env => (@pageTableTranslation_addressError cfg env s _ sp hrun).mpr ⟨hR, hle⟩
        by_cases hT : cfg.useTLB = true
        · have hl : ∀ env, s.lookup cfg env (addr.tdiv pageSize) = .ok (s, .error .tlbMiss) :=
            fun env => by
              have hk := hplace hT
              unfold place at hk
              rw [lookup, if_pos hT, hk]
              rfl
          refine addressSafe_rejected (fun env _ _ _ _ _ h => ?_) (.inr fun env => ⟨?_, hwalk env⟩)
          · rw [hl] at h
            cases h
          · unfold translate
            simp only [hl, ok_bind]
            exact if_neg hal
        · have hl : ∀ env, s.lookup cfg env (addr.tdiv pageSize) = .ok (s, .error .addressError) :=
            fun env => by
              rw [lookup, if_neg hT, hwalk]
              rfl
          refine addressSafe_rejected (fun env _ _ _ _ _ h => ?_) (.inl fun env => ?_)
          · rw [hl] at h
            cases h
          · unfold translate
            simp only [hl, ok_bind]
            exact if_neg hal

end

theorem addressSafe_lastFrame :
    lastFrame.AddressSafe ⟨false, false, false, false⟩ lastFrameSpace 127 1 false :=
  (addressSafe_iff _ _ _ 127 1 false running_lastFrame).mpr (.inr (.inl (by decide)))

/-- A program of one page under `USE_RPT`, with no page in memory. -/
def unmapped : Vm where
  mmBitmap := .new numPhysPages
  mainMemory := fun _ => 0
  pt := List.replicate numPhysPages .reset
  tlb := []
  threadArray := [some ⟨some ⟨⟨[], 0, 1⟩, [], []⟩, none, false⟩]
  currentThread := 0

theorem running_unmapped : unmapped.Running ⟨false, true, false, false⟩ ⟨⟨[], 0, 1⟩, [], []⟩ :=
  ⟨rfl, fun h => absurd h (by decide), fun _ => List.length_replicate, fun h => absurd h (by decide)⟩

/-- The linear table takes -4 for an address in page 0, and `USE_RPT` takes the
first address behind the program for one of a page to load. -/
theorem not_addressSafe :
    ¬ lastFrame.AddressSafe ⟨false, false, false, false⟩ lastFrameSpace (-4) 4 false ∧
    ¬ unmapped.AddressSafe ⟨false, true, false, false⟩ ⟨⟨[], 0, 1⟩, [], []⟩ 128 1 false := by
  constructor
  · intro h
    have := (h.outside (by decide) .blank).condition running_lastFrame (by decide)
    exact absurd this.2.1 (by decide)
  · intro h
    have := (h.outside (by decide) .blank).condition running_unmapped (by decide)
    exact absurd this.1 (by decide)

end Vm

end Nachos

import Nachos.Framework.System
import Nachos.Proof.Userprog.AddressRange
import Nachos.Proof.Userprog.LinearProcess
import Nachos.Proof.Userprog.Recycled

/-!
# The use and dirty bits

`Translate` sets the two bits in its own copy of the entry, and nothing else
sets them. So a translation leaves them as they were, in the page table and in
the TLB (`SameBits`), and they are never set at all (`Unmarked`). `mark` runs
the machine and keeps the pages that were stored to since they were loaded:
`loadPageFrame` would write such a page to the swap file if it saw its bit.
-/

namespace Nachos

open Framework

/-- The use and the dirty bit. -/
def TranslationEntry.bits (e : TranslationEntry) : Bool × Bool := (e.use, e.dirty)

/-- The bits as an access to the page should leave them. -/
def TranslationEntry.Marked (e : TranslationEntry) (writing : Bool) : Prop :=
  e.use = true ∧ (writing = true → e.dirty = true)

instance (e : TranslationEntry) (writing : Bool) : Decidable (e.Marked writing) :=
  inferInstanceAs (Decidable (_ ∧ _))

namespace Table

def bits (t : Table) : List (Bool × Bool) := t.map TranslationEntry.bits

theorem bits_of_core {t t' : Table} (h : t'.core = t.core) : t'.bits = t.bits := by
  have hcore : ∀ t : Table, t.core.map TranslationEntry.bits = t.bits := fun t => by
    rw [core, List.map_map]
    rfl
  rw [← hcore, h, hcore]

theorem bits_of_valid {t t' : Table}
    (h : t'.map (fun e => { e with valid := true }) = t.map fun e => { e with valid := true }) :
    t'.bits = t.bits := by
  have hvalid : ∀ t : Table, (t.map fun e => { e with valid := true }).map TranslationEntry.bits =
      t.bits := fun t => by
    rw [List.map_map]
    rfl
  rw [← hvalid, h, hvalid]

/-- The first entry has the bits of an access. -/
def FirstMarked (t : Table) (writing : Bool) : Prop := ∃ e ∈ t.head?, e.Marked writing

instance (t : Table) (writing : Bool) : Decidable (t.FirstMarked writing) :=
  inferInstanceAs (Decidable (∃ e ∈ _, _))

theorem firstMarked_congr {t t' : Table} (h : t'.bits = t.bits) (writing : Bool) :
    t'.FirstMarked writing ↔ t.FirstMarked writing := by
  have hbits : ∀ t : Table, t.FirstMarked writing ↔
      ∃ b ∈ t.bits.head?, b.1 = true ∧ (writing = true → b.2 = true) := fun t => by
    cases t <;> simp [FirstMarked, bits, TranslationEntry.Marked, TranslationEntry.bits]
  rw [hbits, hbits, h]

/-- Nobody has set a bit. -/
def Unmarked (t : Table) : Prop := ∀ e ∈ t, e.bits = (false, false)

theorem Unmarked.of_bits {t t' : Table} (h : t.Unmarked) (hb : t'.bits = t.bits) :
    t'.Unmarked := by
  intro e he
  have : e.bits ∈ t.bits := hb ▸ List.mem_map_of_mem he
  obtain ⟨e', he', hbe⟩ := List.mem_map.mp this
  exact hbe ▸ h e' he'

end Table

namespace Vm

/-- The entries of a page in the page table. The first one is what a walk
finds. -/
def pageEntries (cfg : Config) (s : Vm) (t : Nat) (vpn : Int) : Table :=
  if cfg.useRPT then s.pt.filter fun e => e.vpn = vpn && e.tID = (t : Int)
  else if 0 ≤ vpn then ((s.table t)[vpn.toNat]?).toList
  else []

/-- The entries of a page in the TLB. The first one is what a lookup finds. -/
def copies (s : Vm) (vpn : Int) : Table := s.tlb.filter fun e => e.valid && e.vpn = vpn

/-- The entry of the page, in the page table of the running thread and in the TLB
if there is one, has the bits of an access. -/
def Marked (cfg : Config) (s : Vm) (vpn : Int) (writing : Bool) : Prop :=
  (s.pageEntries cfg s.currentThread vpn).FirstMarked writing ∧
    (cfg.useTLB = true → (s.copies vpn).FirstMarked writing)

instance (cfg : Config) (s : Vm) (vpn : Int) (writing : Bool) :
    Decidable (s.Marked cfg vpn writing) := inferInstanceAs (Decidable (_ ∧ _))

/-! ## One translation -/

/-- The tables agree in the bits. -/
structure SameBits (cfg : Config) (s s' : Vm) : Prop where
  entries : ∀ vpn, (s'.pageEntries cfg s'.currentThread vpn).bits =
    (s.pageEntries cfg s.currentThread vpn).bits
  copies : ∀ vpn, (s'.copies vpn).bits = (s.copies vpn).bits

section
variable {cfg : Config} {env : Env} {s s' : Vm}

theorem SameBits.marked (h : SameBits cfg s s') (vpn : Int) (writing : Bool) :
    s'.Marked cfg vpn writing ↔ s.Marked cfg vpn writing := by
  unfold Marked
  rw [Table.firstMarked_congr (h.entries vpn), Table.firstMarked_congr (h.copies vpn)]

theorem SameBits.trans {s₁ : Vm} (h : SameBits cfg s s₁) (h' : SameBits cfg s₁ s') :
    SameBits cfg s s' :=
  ⟨fun vpn => (h'.entries vpn).trans (h.entries vpn),
    fun vpn => (h'.copies vpn).trans (h.copies vpn)⟩

theorem table_of_core (h : s'.core = s.core) (t : Nat) : (s'.table t).core = (s.table t).core := by
  have ht := thread_of_core h t
  unfold table
  cases h₁ : s.thread t <;> cases h₂ : s'.thread t <;> rw [h₁, h₂] at ht <;> simp at ht ⊢
  rename_i u u'
  have hsp := (UserThread.of_core ht).2.2
  cases h₁ : u.space <;> cases h₂ : u'.space <;> rw [h₁, h₂] at hsp <;> simp at hsp ⊢
  exact (AddrSpace.of_core hsp).2

/-- The entries of a page of the linear table. -/
theorem bits_linear {t t' : Table} (h : t'.bits = t.bits) (i : Nat) :
    Table.bits (t'[i]?.toList) = Table.bits (t[i]?.toList) := by
  have hi : ∀ t : Table, Table.bits (t[i]?.toList) = (t.bits[i]?).toList := fun t => by
    rw [Table.bits, Table.bits, List.getElem?_map]
    cases t[i]? <;> rfl
  rw [hi, hi, h]

theorem SameBits.of_core (h : s'.core = s.core) : SameBits cfg s s' := by
  obtain ⟨-, -, hpt, htlb, hcur⟩ := Vm.of_core h
  have hfilter : ∀ (p : TranslationEntry → Bool) (t : Table), (∀ e, p e.core = p e) →
      Table.core (t.filter p) = t.core.filter p := fun p t hp => by
    rw [Table.core, Table.core, List.filter_map]
    exact congrArg _ (List.filter_congr fun e _ => (hp e).symm)
  refine ⟨fun vpn => ?_, fun vpn => Table.bits_of_core ?_⟩
  · unfold pageEntries
    rw [hcur]
    split
    · refine Table.bits_of_core ?_
      rw [hfilter _ _ fun _ => rfl, hfilter _ _ fun _ => rfl, hpt]
    · split
      · exact bits_linear (Table.bits_of_core (table_of_core h _)) _
      · rfl
  · rw [Vm.copies, Vm.copies, hfilter _ _ fun _ => rfl, hfilter _ _ fun _ => rfl, htlb]

/-- A walk changes nothing, or swaps pages of the running thread. -/
theorem pageTableTranslation_swaps {vpn : Int}
    {r : Except ExceptionType (Int × TranslationEntry)}
    (h : s.pageTableTranslation cfg env vpn = .ok (s', r)) : s' = s ∨
      cfg.useRPT = false ∧ ∃ m sp sp', s.space s.currentThread = .ok sp ∧
        s' = { s with mainMemory := m }.setSpace s.currentThread sp' ∧
        sp'.program = sp.program ∧ sp'.pt.length = sp.pt.length ∧ sp'.pt.bits = sp.pt.bits := by
  unfold pageTableTranslation at h
  split at h
  · exact .inl (Prod.mk.inj (Except.ok.inj h)).1.symm
  · rename_i hR
    obtain ⟨sp, hsp, h⟩ := bind_eq_ok.mp h
    split at h <;> [(cases h; exact .inl rfl); simp only at h]
    split at h <;> [(cases h; exact .inl rfl); skip]
    split at h <;> [skip; (cases h; exact .inl rfl)]
    obtain ⟨⟨s₁, sp₁⟩, hswap, h⟩ := bind_eq_ok.mp h
    cases h
    have hlen := length_swap hswap
    obtain ⟨⟨m, rfl⟩, hprog, hvalid, -⟩ := swap_spec hswap
    exact .inr ⟨by simpa using hR, m, sp, sp₁, hsp, rfl, hprog, hlen, Table.bits_of_valid hvalid⟩

theorem lookup_swaps {vpn : Int} {r : Except ExceptionType (Int × TranslationEntry × Option Nat)}
    (h : s.lookup cfg env vpn = .ok (s', r)) :
    s' = s ∨ ∃ q, s.pageTableTranslation cfg env vpn = .ok (s', q) := by
  unfold lookup at h
  split at h
  · split at h <;> cases h <;> exact .inl rfl
  · obtain ⟨⟨s₁, q⟩, hq, h⟩ := bind_eq_ok.mp h
    cases h
    exact .inr ⟨q, hq⟩

theorem SameBits.lookup {vpn : Int} {r : Except ExceptionType (Int × TranslationEntry × Option Nat)}
    (h : s.lookup cfg env vpn = .ok (s', r)) : SameBits cfg s s' := by
  rcases lookup_swaps h with rfl | ⟨q, hq⟩
  · exact ⟨fun _ => rfl, fun _ => rfl⟩
  rcases pageTableTranslation_swaps hq with rfl | ⟨hR, m, sp, sp', hsp, rfl, -, -, hbits⟩
  · exact ⟨fun _ => rfl, fun _ => rfl⟩
  · refine ⟨fun vpn => ?_, fun _ => rfl⟩
    have htable : Vm.table ({ s with mainMemory := m }.setSpace s.currentThread sp')
        s.currentThread = sp'.pt :=
      table_eq ((space_setSpace (s := { s with mainMemory := m }) hsp _ _).trans (if_pos rfl))
    unfold pageEntries
    rw [hR, if_neg Bool.false_ne_true, if_neg Bool.false_ne_true]
    split
    · refine bits_linear ?_ _
      rw [table_eq hsp]
      exact htable ▸ hbits
    · rfl

/-- `Translate` raises an exception behind its lookup or before it, or changes
flags. -/
theorem translate_behind {addr : Int} {size : Nat} {writing : Bool} {r : Except ExceptionType Int}
    (h : s.translate cfg env addr size writing = .ok (s', r)) :
    s' = s ∨ ∃ s₁ q, s.lookup cfg env (addr.tdiv pageSize) = .ok (s₁, q) ∧ s'.core = s₁.core := by
  cases r with
  | ok pa =>
    obtain ⟨s₁, f, e, k, hl, -, -, hc, -⟩ := translate_found h
    exact .inr ⟨s₁, _, hl, hc⟩
  | error which =>
    unfold translate at h
    split at h
    · cases h
      exact .inl rfl
    obtain ⟨⟨s₁, q⟩, hl, h⟩ := bind_eq_ok.mp h
    refine .inr ⟨s₁, q, hl, ?_⟩
    cases q with
    | error e =>
      cases h
      rfl
    | ok p =>
      simp only at h
      split at h
      · cases h
        rfl
      split at h
      · cases h
        rfl
      obtain ⟨s₂, -, h⟩ := bind_eq_ok.mp h
      obtain ⟨-, -, h⟩ := bind_eq_ok.mp h
      obtain ⟨s₃, -, h⟩ := bind_eq_ok.mp h
      cases h

theorem SameBits.translate {addr : Int} {size : Nat} {writing : Bool}
    {r : Except ExceptionType Int} (h : s.translate cfg env addr size writing = .ok (s', r)) :
    SameBits cfg s s' := by
  rcases translate_behind h with rfl | ⟨s₁, q, hl, hc⟩
  · exact ⟨fun _ => rfl, fun _ => rfl⟩
  · exact (SameBits.lookup hl).trans (.of_core hc)

end

/-! ## Runs -/

/-- Nobody has set a bit in any table. -/
structure Unmarked (cfg : Config) (s : Vm) : Prop where
  pt : s.pt.Unmarked
  tlb : s.tlb.Unmarked
  spaces : ∀ t sp, s.space t = .ok sp →
    sp.pt.Unmarked ∧ (cfg.useRPT = false → sp.pt.length = sp.program.numPages)

namespace Unmarked

variable {cfg : Config} {env : Env} {s s' : Vm}

theorem congr (h : s.Unmarked cfg) (hpt : s'.pt = s.pt) (htlb : s'.tlb = s.tlb)
    (hth : ∀ t, s'.space t = s.space t) : s'.Unmarked cfg :=
  ⟨hpt ▸ h.pt, htlb ▸ h.tlb, fun t sp hsp => h.spaces t sp ((hth t).symm.trans hsp)⟩

theorem of_core (h : s.Unmarked cfg) (hc : s'.core = s.core) : s'.Unmarked cfg := by
  obtain ⟨-, -, hpt, htlb, -⟩ := Vm.of_core hc
  refine ⟨h.pt.of_bits (Table.bits_of_core hpt), h.tlb.of_bits (Table.bits_of_core htlb),
    fun t sp' hsp' => ?_⟩
  obtain ⟨sp, hsp, hcsp⟩ := space_of_core hc hsp'
  obtain ⟨hprog, hptc⟩ := AddrSpace.of_core hcsp
  obtain ⟨hm, hl⟩ := h.spaces t sp hsp
  refine ⟨hm.of_bits (Table.bits_of_core hptc), fun hR => ?_⟩
  rw [hprog, ← hl hR, ← Table.length_core, hptc, Table.length_core]

/-- A new table of one thread. -/
theorem setSpace (h : s.Unmarked cfg) {t : Nat} {sp sp' : AddrSpace} (hsp : s.space t = .ok sp)
    (hm : sp'.pt.Unmarked) (hl : sp'.pt.length = sp.pt.length) (hp : sp'.program = sp.program) :
    (s.setSpace t sp').Unmarked cfg := by
  refine ⟨h.pt, h.tlb, fun t' sp₁ hsp₁ => ?_⟩
  rw [space_setSpace hsp] at hsp₁
  split at hsp₁
  · cases hsp₁
    refine ⟨hm, fun hR => ?_⟩
    rw [hl, hp]
    exact (h.spaces t sp hsp).2 hR
  · exact h.spaces t' sp₁ hsp₁

/-- A change of a thread that leaves its address space alone. -/
theorem setThread (h : s.Unmarked cfg) (t : Nat) {f : UserThread → UserThread}
    (hf : ∀ u, (f u).space = u.space) : (s.setThread t f).Unmarked cfg := by
  exact h.congr rfl rfl (space_setThread s t hf)

theorem upd {t t' : Table} {i : Int} {f : TranslationEntry → TranslationEntry} (h : t.Unmarked)
    (hu : t.upd i f = .ok t') (hf : ∀ e, (f e).bits = e.bits) :
    t'.Unmarked ∧ t'.length = t.length := by
  obtain ⟨-, -, rfl⟩ := Table.upd_eq_ok.mp hu
  exact ⟨h.of_bits (Table.map_modify TranslationEntry.bits _ _ hf), List.length_modify ..⟩

theorem set {t : Table} (h : t.Unmarked) (i : Nat) {e : TranslationEntry}
    (he : e.bits = (false, false)) : Table.Unmarked (t.set i e) := by
  intro e' he'
  rcases List.mem_or_eq_of_mem_set he' with h' | rfl
  · exact h e' h'
  · exact he

theorem nth {t : Table} (h : t.Unmarked) (i : Nat) : (t.nth i).bits = (false, false) := by
  unfold Table.nth
  rw [List.getD_eq_getElem?_getD]
  cases ht : t[i]? with
  | none => rfl
  | some e => exact h e (List.mem_of_getElem? ht)

theorem updateFIFOFlag {stray : Int → TranslationEntry} {t t' : Table} {i : Int} {len : Nat}
    {c : Prop} [Decidable c] (h : t.Unmarked)
    (hu : (if c then t.updateFIFOFlag stray i len else pure t) = .ok t') :
    t'.Unmarked ∧ t'.length = t.length := by
  have hc : t'.core = t.core := by
    split at hu
    · exact Table.updateFIFOFlag_core hu
    · cases hu
      rfl
  refine ⟨h.of_bits (Table.bits_of_core hc), ?_⟩
  rw [← Table.length_core, hc, Table.length_core]

/-- A walk, and the entry that it finds for a page of an address space. -/
theorem walk (h : s.Unmarked cfg) {vpn : Int} {r : Except ExceptionType (Int × TranslationEntry)}
    (hw : s.pageTableTranslation cfg env vpn = .ok (s', r)) : s'.Unmarked cfg ∧
      (0 ≤ vpn → ∀ f e, r = .ok (f, e) → e.bits = (false, false)) := by
  have hs' : s'.Unmarked cfg := by
    rcases pageTableTranslation_swaps hw with rfl | ⟨-, m, sp, sp', hsp, rfl, hp, hl, hb⟩
    · exact h
    · exact setSpace (s := { s with mainMemory := m }) (h.congr rfl rfl fun _ => rfl) hsp
        ((h.spaces _ sp hsp).1.of_bits hb) hl hp
  refine ⟨hs', fun hv f e hr => ?_⟩
  subst hr
  unfold pageTableTranslation at hw
  split at hw
  · obtain ⟨-, hr⟩ := Prod.mk.inj (Except.ok.inj hw)
    unfold rptTranslation at hr
    split at hr <;> cases hr
    exact nth h.pt _
  · rename_i hR
    have hR : cfg.useRPT = false := by simpa using hR
    have hentry : ∀ sp : AddrSpace, vpn < sp.program.numPages → sp.pt.Unmarked →
        sp.pt.length = sp.program.numPages →
        (sp.pt.entry env.stray vpn).bits = (false, false) := fun sp hlt hm hl => by
      have := sp.pt.entry_eq_nth (j := vpn.toNat) env.stray (by omega)
      rw [Int.toNat_of_nonneg hv] at this
      rw [this]
      exact nth hm _
    obtain ⟨sp, hsp, hw⟩ := bind_eq_ok.mp hw
    obtain ⟨hm, hl⟩ := h.spaces _ sp hsp
    split at hw <;> [cases hw; skip]
    rename_i hlt
    simp only at hw
    split at hw
    · cases hw
      exact hentry sp (by omega) hm (hl hR)
    · split at hw <;> [skip; cases hw]
      obtain ⟨⟨s₁, sp₁⟩, hswap, hw⟩ := bind_eq_ok.mp hw
      cases hw
      have hlen := length_swap hswap
      obtain ⟨-, hprog, hvalid, -⟩ := swap_spec hswap
      refine hentry sp₁ (by rw [hprog]; omega) (hm.of_bits (Table.bits_of_valid hvalid)) ?_
      rw [hlen, hl hR, hprog]

theorem lookup (h : s.Unmarked cfg) {vpn : Int}
    {r : Except ExceptionType (Int × TranslationEntry × Option Nat)}
    (hl : s.lookup cfg env vpn = .ok (s', r)) : s'.Unmarked cfg := by
  rcases lookup_swaps hl with rfl | ⟨q, hq⟩
  · exact h
  · exact (h.walk hq).1

theorem translate (h : s.Unmarked cfg) {addr : Int} {size : Nat} {writing : Bool}
    {r : Except ExceptionType Int} (ht : s.translate cfg env addr size writing = .ok (s', r)) :
    s'.Unmarked cfg := by
  rcases translate_behind ht with rfl | ⟨s₁, q, hl, hc⟩
  · exact h
  · exact (h.lookup hl).of_core hc

theorem store (h : s.Unmarked cfg) {addr : Int} {src : List Byte}
    (hs : s.store addr src = .ok s') : s'.Unmarked cfg := by
  obtain ⟨-, -, rfl⟩ := store_eq_ok.mp hs
  exact h.congr rfl rfl fun _ => rfl

theorem mapRPT (h : s.Unmarked cfg) {tid : Nat} {vpn ppn : Int}
    (hm : s.mapRPT cfg env tid vpn ppn = .ok s') : s'.Unmarked cfg := by
  obtain ⟨pt, hpt, hm⟩ := bind_eq_ok.mp hm
  obtain ⟨pt', hpt', hm⟩ := bind_eq_ok.mp hm
  cases hm
  obtain ⟨hu, -⟩ := upd h.pt hpt fun _ => rfl
  exact ⟨(updateFIFOFlag hu hpt').1, h.tlb, h.spaces⟩

theorem mapLinear (h : s.Unmarked cfg) {tid : Nat} {vpn ppn : Int}
    (hm : s.mapLinear cfg env tid vpn ppn = .ok s') : s'.Unmarked cfg := by
  obtain ⟨cur, -, hm⟩ := bind_eq_ok.mp hm
  obtain ⟨sp, hsp, hm⟩ := bind_eq_ok.mp hm
  obtain ⟨pt, hpt, hm⟩ := bind_eq_ok.mp hm
  obtain ⟨pt', hpt', hm⟩ := bind_eq_ok.mp hm
  obtain ⟨hu, hl⟩ := upd (h.spaces _ sp hsp).1 hpt fun _ => rfl
  obtain ⟨hu', hl'⟩ := updateFIFOFlag hu hpt'
  have hs₁ : (s.setSpace tid { sp with pt := pt' }).Unmarked cfg :=
    h.setSpace hsp hu' (hl'.trans hl) rfl
  simp only at hm
  split at hm
  · obtain ⟨cur', hcur', hm⟩ := bind_eq_ok.mp hm
    obtain ⟨page, -, hm⟩ := bind_eq_ok.mp hm
    obtain ⟨vmFile, -, hm⟩ := bind_eq_ok.mp hm
    cases hm
    exact hs₁.setSpace hcur' (hs₁.spaces _ cur' hcur').1 rfl rfl
  · cases hm
    exact hs₁

theorem loadPageFrame (h : s.Unmarked cfg) {tid : Nat} {vpn ppn fileAddr : Int} {f : List Byte}
    (hl : s.loadPageFrame cfg env tid vpn ppn fileAddr f = .ok s') : s'.Unmarked cfg := by
  obtain ⟨s₁, h₁, hl⟩ := bind_eq_ok.mp hl
  obtain ⟨page, -, hl⟩ := bind_eq_ok.mp hl
  refine store ?_ hl
  split at h₁
  · exact h.mapRPT h₁
  · exact h.mapLinear h₁

theorem pageFrame (h : s.Unmarked cfg) {ppn : Int} (hf : s.pageFrame cfg = .ok (s', ppn)) :
    s'.Unmarked cfg := by
  obtain ⟨b, rfl⟩ := pageFrame_eq hf
  exact h.congr rfl rfl fun _ => rfl

theorem pageFault (h : s.Unmarked cfg) {vaddr : Int}
    (hf : s.pageFaultHandler cfg env vaddr = .ok s') : s'.Unmarked cfg := by
  obtain ⟨⟨s₁, ppn⟩, h₁, hf⟩ := bind_eq_ok.mp hf
  obtain ⟨sp, -, hf⟩ := bind_eq_ok.mp hf
  obtain ⟨fileAddr, -, hf⟩ := bind_eq_ok.mp hf
  exact (h.pageFrame h₁).loadPageFrame hf

/-- The TLB gets a copy of the entry. -/
theorem updateTLB {stray : Int → TranslationEntry} {tlb tlb' : Table} {e : TranslationEntry}
    (h : tlb.Unmarked) (he : e.bits = (false, false))
    (hu : tlb.updateTLB cfg stray e = .ok tlb') : tlb'.Unmarked := by
  obtain ⟨k, -, hc⟩ := Table.updateTLB_core hu
  refine Table.Unmarked.of_bits (t := tlb.modify k fun _ => e) ?_ (Table.bits_of_core hc)
  rw [← List.set_eq_modify]
  exact set h k he

theorem exception (h : s.Unmarked cfg) {which : ExceptionType} {vaddr : Int} (hv : 0 ≤ vaddr)
    (hx : s.exceptionHandler cfg env which vaddr = .ok s') : s'.Unmarked cfg := by
  cases which with
  | pageFault => exact h.pageFault hx
  | tlbMiss =>
    obtain ⟨⟨s₁, r⟩, hr, hx⟩ := bind_eq_ok.mp hx
    obtain ⟨h₁, he⟩ := h.walk hr
    cases r with
    | error e =>
      cases e with
      | pageFault => exact h₁.pageFault hx
      | tlbMiss | readOnly | busError | addressError => cases hx
    | ok p =>
      obtain ⟨f, e⟩ := p
      obtain ⟨tlb, ht, hx⟩ := bind_eq_ok.mp hx
      cases hx
      exact ⟨h₁.pt, updateTLB h₁.tlb (he (Int.tdiv_nonneg hv (by decide)) f e rfl) ht, h₁.spaces⟩
  | readOnly | busError | addressError => cases hx

theorem read (h : s.Unmarked cfg) {addr : Int} {size : Nat} {v : Option Int} (hv : 0 ≤ addr)
    (hr : s.readMem cfg env addr size = .ok (s', v)) : s'.Unmarked cfg := by
  obtain ⟨⟨s₁, r⟩, ht, hr⟩ := bind_eq_ok.mp hr
  have h₁ := h.translate ht
  cases r with
  | error e =>
    obtain ⟨s₂, hx, hr⟩ := bind_eq_ok.mp hr
    cases hr
    exact h₁.exception hv hx
  | ok pa =>
    obtain ⟨-, -, hr⟩ := bind_eq_ok.mp hr
    obtain ⟨data, -, hr⟩ := bind_eq_ok.mp hr
    cases hr
    exact h₁

theorem write (h : s.Unmarked cfg) {addr v : Int} {size : Nat} {b : Bool} (hv : 0 ≤ addr)
    (hw : s.writeMem cfg env addr size v = .ok (s', b)) : s'.Unmarked cfg := by
  obtain ⟨⟨s₁, r⟩, ht, hw⟩ := bind_eq_ok.mp hw
  have h₁ := h.translate ht
  cases r with
  | error e =>
    obtain ⟨s₂, hx, hw⟩ := bind_eq_ok.mp hw
    cases hw
    exact h₁.exception hv hx
  | ok pa =>
    obtain ⟨-, -, hw⟩ := bind_eq_ok.mp hw
    obtain ⟨s₂, hs, hw⟩ := bind_eq_ok.mp hw
    cases hw
    exact h₁.store hs

theorem create (h : s.Unmarked cfg) {program : Option Program}
    (hc : s.create cfg program = .ok s') : s'.Unmarked cfg := by
  obtain ⟨i, -, hs, -⟩ := thread_create hc
  rw [hs]
  refine ⟨h.pt, h.tlb, fun t sp hsp => ?_⟩
  rcases (space_create hc t sp).2 hsp with hsp | ⟨p, rfl⟩
  · exact h.spaces t sp hsp
  · unfold AddrSpace.new
    refine ⟨fun e he => ?_, fun hR => ?_⟩
    · simp only at he
      split at he
      · cases he
      · rw [List.eq_of_mem_replicate he]
        rfl
    · simp [hR]

theorem run (h : s.Unmarked cfg) (n : Nat) : (s.run cfg n).Unmarked cfg := by
  refine ⟨?_, ?_, fun t sp hsp => ?_⟩
  · unfold Vm.run
    cases cfg.useTLB <;> exact h.pt
  · unfold Vm.run
    cases cfg.useTLB with
    | false => exact h.tlb
    | true =>
      intro e he
      obtain ⟨e', -, rfl⟩ := List.mem_map.mp he
      rfl
  · exact h.spaces t sp (space_of_run hsp)

theorem exitRPT {is : List Nat} (h : s.Unmarked cfg) (hx : s.exitRPT is = .ok s') :
    s'.Unmarked cfg := by
  induction is generalizing s with
  | nil =>
    cases hx
    exact h
  | cons i is ih =>
    unfold Vm.exitRPT at hx
    split at hx
    · obtain ⟨b, -, hx⟩ := bind_eq_ok.mp hx
      refine ih ?_ hx
      exact ⟨set h.pt i rfl, h.tlb, h.spaces⟩
    · exact ih h hx

theorem exit (h : s.Unmarked cfg) (hx : s.exit cfg = .ok s') : s'.Unmarked cfg := by
  obtain ⟨s₁, h₁, hx⟩ := bind_eq_ok.mp hx
  cases hx
  refine setThread ?_ _ fun _ => rfl
  unfold exitClean at h₁
  split at h₁
  · cases h₁
    exact h
  split at h₁
  · obtain ⟨s₂, h₂, h₁⟩ := bind_eq_ok.mp h₁
    cases h₁
    have h₂ := h.exitRPT h₂
    refine ⟨h₂.pt, fun e he => ?_, h₂.spaces⟩
    obtain ⟨e', he', rfl⟩ := List.mem_map.mp he
    split
    · rfl
    · exact h₂.tlb e' he'
  · obtain ⟨b, -, h₁⟩ := bind_eq_ok.mp h₁
    cases h₁
    refine ⟨h.pt, fun e he => ?_, h.spaces⟩
    obtain ⟨e', -, rfl⟩ := List.mem_map.mp he
    rfl

/-- The loop of `SaveAThread` with `USE_RPT`. -/
theorem saveRPT {tid offset : Nat} {d d' : Dump} {is : List Nat} (h : s.Unmarked cfg)
    (hx : saveRPT tid s d offset is = .ok (s', d')) : s'.Unmarked cfg := by
  induction is generalizing s d offset with
  | nil =>
    cases hx
    exact h
  | cons i is ih =>
    unfold Vm.saveRPT at hx
    simp only at hx
    split at hx
    · obtain ⟨b, -, hx⟩ := bind_eq_ok.mp hx
      obtain ⟨d₁, -, hx⟩ := bind_eq_ok.mp hx
      refine ih ?_ hx
      exact ⟨set h.pt i (nth h.pt i), h.tlb, h.spaces⟩
    · exact ih h hx

theorem suspend (h : s.Unmarked cfg) {tid : Nat} (hx : s.suspend cfg env tid = .ok s') :
    s'.Unmarked cfg := by
  obtain ⟨⟨s₁, f⟩, h₁, hx⟩ := bind_eq_ok.mp hx
  cases hx
  refine setThread ?_ _ fun _ => rfl
  unfold saveAThread at h₁
  simp only at h₁
  split at h₁
  · obtain ⟨d, -, h₁⟩ := bind_eq_ok.mp h₁
    obtain ⟨⟨s₂, d'⟩, h₂, h₁⟩ := bind_eq_ok.mp h₁
    cases h₁
    exact h.saveRPT h₂
  · obtain ⟨sp, hsp, h₁⟩ := bind_eq_ok.mp h₁
    obtain ⟨d, -, h₁⟩ := bind_eq_ok.mp h₁
    obtain ⟨⟨s₂, d', pt⟩, h₂, h₁⟩ := bind_eq_ok.mp h₁
    cases h₁
    obtain ⟨⟨b, rfl⟩, rfl⟩ := saveLinear_frame h₂
    have hb : Vm.Unmarked cfg { s with mmBitmap := b } := h.congr rfl rfl fun _ => rfl
    refine hb.setSpace hsp ((h.spaces _ sp hsp).1.of_bits ?_) (List.length_map ..) rfl
    rw [Table.bits, invalidate, List.map_map]
    rfl

theorem loadPages {tid n offset : Nat} {f buf : List Byte} (h : s.Unmarked cfg)
    (hx : loadPages cfg env tid f s buf offset n = .ok s') : s'.Unmarked cfg := by
  induction n generalizing s buf offset with
  | zero =>
    cases hx
    exact h
  | succ n ih =>
    obtain ⟨⟨vpn, buf'⟩, -, hx⟩ := bind_eq_ok.mp hx
    obtain ⟨⟨s₁, ppn⟩, h₁, hx⟩ := bind_eq_ok.mp hx
    obtain ⟨s₂, h₂, hx⟩ := bind_eq_ok.mp hx
    exact ih ((h.pageFrame h₁).loadPageFrame h₂) hx

theorem restore (h : s.Unmarked cfg) {tid : Nat} (hx : s.restore cfg env tid = .ok s') :
    s'.Unmarked cfg := by
  unfold Vm.restore at hx
  split at hx <;> [cases hx; skip]
  obtain ⟨s₁, h₁, hx⟩ := bind_eq_ok.mp hx
  cases hx
  refine setThread ?_ _ fun _ => rfl
  obtain ⟨⟨n, buf⟩, -, h₁⟩ := bind_eq_ok.mp h₁
  exact h.loadPages h₁

/-- Every operation that accesses no negative address. -/
theorem next (h : s.Unmarked cfg) {op : Op × Env} (hop : ∀ a ∈ op.1.access, 0 ≤ a.1)
    (hn : s.next cfg op = .ok s') : s'.Unmarked cfg := by
  unfold Vm.next at hn
  split at hn <;> [skip; (cases hn; exact h)]
  obtain ⟨op, env⟩ := op
  cases op with
  | create p => exact h.create hn
  | run t =>
    cases hn
    exact h.run t
  | read addr size =>
    obtain ⟨⟨s₁, v⟩, hr, hn⟩ := bind_eq_ok.mp hn
    cases hn
    exact h.read (hop _ rfl) hr
  | write addr size v =>
    obtain ⟨⟨s₁, b⟩, hw, hn⟩ := bind_eq_ok.mp hn
    cases hn
    exact h.write (hop _ rfl) hw
  | exit => exact h.exit hn
  | suspend t => exact h.suspend hn
  | restore t => exact h.restore hn

theorem start (cfg : Config) : (start cfg).Unmarked cfg := by
  have hrep : ∀ n c, Table.Unmarked (if c = true then List.replicate n .reset else []) := by
    intro n c e he
    split at he
    · rw [List.eq_of_mem_replicate he]
      rfl
    · cases he
  exact ⟨hrep _ _, hrep _ _, fun t sp hsp => absurd hsp (space_start cfg t sp)⟩

end Unmarked

/-- The machine, and the pages in memory that were stored to since they were
loaded, each with its thread. -/
structure Modified where
  machine : Vm
  stored : List (Nat × Int)

/-- The page is in memory, for its page table. -/
def inMemory (cfg : Config) (s : Vm) (p : Nat × Int) : Bool :=
  (s.pageEntries cfg p.1 p.2).any (·.valid)

/-- The page that an operation stores to. -/
def storesTo (cfg : Config) (s : Vm) : Op × Env → Option (Nat × Int)
  | (.write addr size v, env) =>
    if s.inUser && (s.writeMem cfg env addr size v).toOption.any Prod.snd then
      some (s.currentThread, addr.tdiv pageSize)
    else none
  | _ => none

/-- One operation. A page that is in memory no longer was dropped, and comes back
as it is loaded. -/
def mark (cfg : Config) (x : Modified) (op : Op × Env) : Except Abort Modified := do
  let s ← x.machine.next cfg op
  return ⟨s, (x.stored ++ (x.machine.storesTo cfg op).toList).filter fun p => s.inMemory cfg p⟩

def markStart (cfg : Config) : Modified := ⟨start cfg, []⟩

/-- The entries of a page that was stored to have their dirty bit, or the TLB has
it. -/
def Modified.DirtyKept (cfg : Config) (x : Modified) : Prop :=
  ∀ p ∈ x.stored, ∀ e ∈ x.machine.pageEntries cfg p.1 p.2, e.valid = true →
    e.dirty = true ∨ p.1 = x.machine.currentThread ∧ cfg.useTLB = true ∧
      ∃ e' ∈ x.machine.copies p.2, e'.dirty = true

instance (cfg : Config) (x : Modified) : Decidable (x.DirtyKept cfg) :=
  inferInstanceAs (Decidable (∀ p ∈ _, ∀ e ∈ _, _ → _ ∨ _))

/-- The operation stores to no page. -/
def StoresNothing (cfg : Config) (x : Modified) (op : Op × Env) : Prop :=
  x.machine.storesTo cfg op = none

/-- The operation accesses no negative address. -/
def Forward (_ : Modified) (op : Op × Env) : Prop := ∀ a ∈ op.1.access, 0 ≤ a.1

instance (cfg : Config) (x : Modified) (op : Op × Env) : Decidable (StoresNothing cfg x op) :=
  inferInstanceAs (Decidable (_ = _))

instance (x : Modified) (op : Op × Env) : Decidable (Forward x op) :=
  inferInstanceAs (Decidable (∀ a ∈ _, _))

section
variable {cfg : Config} {x : Modified}

/-- In a run that stores to no page there is none to write back. -/
theorem reachable_storesNothing
    (h : ((System.ofFun (markStart cfg) (mark cfg)).restrict (StoresNothing cfg)).Reachable x) :
    x.stored = [] := by
  refine h.invariant (I := fun x => x.stored = []) ?_ ?_
  · rintro _ rfl
    rfl
  · rintro x op x' hx ⟨hc, hs⟩
    obtain ⟨s', -, hs⟩ := bind_eq_ok.mp hs
    cases hs
    rw [hx, hc]
    rfl

/-- No run sets a bit, and the pages that were stored to are in memory. -/
theorem reachable_unmarked
    (h : ((System.ofFun (markStart cfg) (mark cfg)).restrict Forward).Reachable x) :
    x.machine.Unmarked cfg ∧ ∀ p ∈ x.stored, x.machine.inMemory cfg p = true := by
  refine h.invariant (I := fun x => x.machine.Unmarked cfg ∧
    ∀ p ∈ x.stored, x.machine.inMemory cfg p = true) ?_ ?_
  · rintro _ rfl
    refine ⟨.start cfg, fun p hp => ?_⟩
    cases hp
  · rintro x op x' ⟨hx, -⟩ ⟨hc, hs⟩
    obtain ⟨s', hn, hs⟩ := bind_eq_ok.mp hs
    cases hs
    exact ⟨hx.next hc hn, fun p hp => (List.mem_filter.mp hp).2⟩

theorem Unmarked.pageEntries {s : Vm} (h : s.Unmarked cfg) (t : Nat) (vpn : Int) :
    (s.pageEntries cfg t vpn).Unmarked := by
  intro e he
  unfold Vm.pageEntries at he
  split at he
  · exact h.pt e (List.mem_filter.mp he).1
  · split at he <;> [skip; cases he]
    have he := List.mem_of_getElem? (Option.mem_toList.mp he)
    cases hsp : s.space t with
    | ok sp =>
      rw [table_eq hsp] at he
      exact (h.spaces t sp hsp).1 e he
    | error a =>
      unfold Vm.space at hsp
      split at hsp <;> [skip; cases hsp]
      rename_i hnone
      rw [table, hnone] at he
      cases he

/-- A page that was stored to lost its dirty bit. -/
theorem dirtyKept_iff_stored (h : x.machine.Unmarked cfg)
    (hres : ∀ p ∈ x.stored, x.machine.inMemory cfg p = true) :
    x.DirtyKept cfg ↔ x.stored = [] := by
  constructor
  · intro hk
    by_contra hne
    obtain ⟨p, hp⟩ := List.exists_mem_of_ne_nil _ hne
    obtain ⟨e, he, hv⟩ := List.any_eq_true.mp (hres p hp)
    have hclean : ∀ e : TranslationEntry, e.bits = (false, false) → e.dirty = false := fun e he =>
      (Prod.mk.inj he).2
    rcases hk p hp e he hv with hd | ⟨-, -, e', he', hd⟩
    · rw [hclean e (h.pageEntries _ _ e he)] at hd
      cases hd
    · rw [hclean e' (h.tlb e' (List.mem_filter.mp he').1)] at hd
      cases hd
  · intro hnil p hp
    rw [hnil] at hp
    cases hp

/-- No page has the bits of an access. -/
theorem Unmarked.not_marked {s : Vm} (h : s.Unmarked cfg) (vpn : Int) (writing : Bool) :
    ¬ s.Marked cfg vpn writing := by
  rintro ⟨⟨e, he, huse, -⟩, -⟩
  have : e.use = false := (Prod.mk.inj (h.pageEntries _ _ e (List.mem_of_mem_head? he))).1
  rw [this] at huse
  cases huse

end

/-- `Translate` leaves the bits of an access in the entry iff they were there. The
dirty bits are right in every run that stores to no page. As long as nothing
behind a table is copied to the TLB, no entry ever has the bits of an access, and
the dirty bits are wrong as soon as a page in memory was stored to. -/
theorem useDirty_iff (cfg : Config) :
    (∀ (env : Env) (s s' : Vm) (addr : Int) (size : Nat) (writing : Bool) (pa : Int),
      s.translate cfg env addr size writing = .ok (s', .ok pa) →
      (s'.Marked cfg (addr.tdiv pageSize) writing ↔ s.Marked cfg (addr.tdiv pageSize) writing)) ∧
    (∀ x, ((System.ofFun (markStart cfg) (mark cfg)).restrict (StoresNothing cfg)).Reachable x →
      x.DirtyKept cfg) ∧
    ∀ x, ((System.ofFun (markStart cfg) (mark cfg)).restrict Forward).Reachable x →
      (∀ vpn writing, ¬ x.machine.Marked cfg vpn writing) ∧
      (x.DirtyKept cfg ↔ x.stored = []) := by
  refine ⟨fun env s s' addr size writing pa h => (SameBits.translate h).marked _ _,
    fun x h p hp => ?_, fun x h => ?_⟩
  · rw [reachable_storesNothing h] at hp
    cases hp
  · obtain ⟨hu, hres⟩ := reachable_unmarked h
    exact ⟨hu.not_marked, dirtyKept_iff_stored hu hres⟩

/-- A thread touches its first page, and does `op`. -/
def firstPage (op : Op) : List (Op × Env) :=
  [.create (some ⟨List.replicate 256 5, 0, 9⟩), .run 1, .read 0 4, op].map fun op => (op, .blank)

/-- A translation that succeeds. -/
theorem exists_translate {cfg : Config} {s : Vm} {addr : Int} {size : Nat} {writing : Bool}
    (h : (s.translate cfg .blank addr size writing).toOption.any
      (fun r => r.2.toOption.isSome) = true) :
    ∃ s' pa, s.translate cfg .blank addr size writing = .ok (s', .ok pa) := by
  obtain ⟨⟨s', r⟩, ht, hr⟩ := exists_ok h
  cases r with
  | error e => cases hr
  | ok pa => exact ⟨s', pa, ht⟩

/-- A store to the first page, and a run that only reads it. -/
theorem useDirty_iff_firstPage : ∃ (x y : Modified) (s' : Vm) (pa : Int),
    x.machine.translate ⟨false, true, false, false⟩ .blank 0 4 true = .ok (s', .ok pa) ∧
    x.stored = [(1, 0)] ∧ ¬ s'.Marked ⟨false, true, false, false⟩ 0 true ∧
    ¬ x.DirtyKept ⟨false, true, false, false⟩ ∧
    y.machine.inMemory ⟨false, true, false, false⟩ (1, 0) = true ∧
    y.DirtyKept ⟨false, true, false, false⟩ := by
  obtain ⟨x, hx, hp⟩ := System.exists_reachable_guarded (markStart ⟨false, true, false, false⟩)
    (mark ⟨false, true, false, false⟩) Forward (firstPage (.write 0 4 7))
    (p := fun x => x.stored = [(1, 0)] ∧
      (x.machine.translate ⟨false, true, false, false⟩ .blank 0 4 true).toOption.any
        fun r => r.2.toOption.isSome) (by decide +kernel)
  obtain ⟨y, hy, hq⟩ := System.exists_reachable_guarded (markStart ⟨false, true, false, false⟩)
    (mark ⟨false, true, false, false⟩) (StoresNothing ⟨false, true, false, false⟩)
    (firstPage (.read 0 4))
    (p := fun y => y.machine.inMemory ⟨false, true, false, false⟩ (1, 0)) (by decide +kernel)
  obtain ⟨hs, ht⟩ := of_decide_eq_true hp
  obtain ⟨s', pa, ht⟩ := exists_translate ht
  obtain ⟨hone, hreads, hall⟩ := useDirty_iff ⟨false, true, false, false⟩
  obtain ⟨hnot, hkept⟩ := hall x hx
  refine ⟨x, y, s', pa, ht, hs, fun hm => ?_, fun hk => ?_, hq, hreads y hy⟩
  · exact hnot 0 true ((hone _ _ _ 0 4 true pa ht).mp hm)
  · rw [hkept.mp hk] at hs
    cases hs

/-- Neither does a store that succeeds mark its page, nor is the page marked
behind it. -/
theorem not_useDirty :
    (¬ ∀ (cfg : Config) (env : Env) (s s' : Vm) (addr : Int) (size : Nat) (writing : Bool)
      (pa : Int),
      s.translate cfg env addr size writing = .ok (s', .ok pa) →
      s'.Marked cfg (addr.tdiv pageSize) writing) ∧
    ¬ ∀ (cfg : Config) (x : Modified), (System.ofFun (markStart cfg) (mark cfg)).Reachable x →
      x.DirtyKept cfg := by
  obtain ⟨x, hx, hp⟩ := System.exists_reachable (markStart ⟨false, true, false, false⟩)
    (mark ⟨false, true, false, false⟩) (firstPage (.write 0 4 7))
    (p := fun x => ¬ x.DirtyKept ⟨false, true, false, false⟩ ∧
      (x.machine.translate ⟨false, true, false, false⟩ .blank 0 4 true).toOption.any fun r =>
        r.2.toOption.isSome && !decide (r.1.Marked ⟨false, true, false, false⟩ 0 true))
    (by decide +kernel)
  obtain ⟨hk, ht⟩ := of_decide_eq_true hp
  refine ⟨fun hall => ?_, fun hall => hk (hall _ x hx)⟩
  obtain ⟨⟨s', r⟩, ht, hr⟩ := exists_ok ht
  obtain ⟨hok, hm⟩ := Bool.and_eq_true_iff.mp hr
  cases r with
  | error e => cases hok
  | ok pa =>
    have hm : ¬ s'.Marked ⟨false, true, false, false⟩ 0 true := by simpa using hm
    exact hm (hall _ _ _ _ 0 4 true pa ht)

end Vm

end Nachos

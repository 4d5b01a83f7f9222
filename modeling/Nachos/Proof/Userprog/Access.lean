import Nachos.Proof.Machine.Counters

/-!
# Single accesses

`mapping` is the frame that the table in use gives for a page, the TLB if there
is one. `Translate` of an address in a mapped page ends in one of two ways:
with the address in the frame (`Legal.translate_ok`), or, when a counter is full
or in the `ASSERT` that asks for four bytes whatever the size of the access is,
with the simulation (`Legal.translate_error`). It keeps the mappings
(`Legal.touched`).
-/

namespace Nachos

theorem AddrSpace.of_core {sp sp' : AddrSpace} (h : sp'.core = sp.core) :
    sp'.program = sp.program ∧ sp'.pt.core = sp.pt.core := by
  cases sp
  cases sp'
  simp_all [core]

namespace Vm

/-! ## Mapped pages -/

/-- A machine as it is built: the running thread has the address space `sp`, and
the tables have their sizes. -/
structure Running (cfg : Config) (s : Vm) (sp : AddrSpace) : Prop where
  space : s.space s.currentThread = .ok sp
  linear : cfg.useRPT = false → sp.pt.length = sp.program.numPages
  inverted : cfg.useRPT = true → s.pt.length = numPhysPages
  tlb : cfg.useTLB = true → s.tlb.length = tlbSize

/-- The place of a page in the TLB. -/
def place (s : Vm) (vpn : Int) : Option Nat := s.tlb.findIdx? fun e => e.valid && e.vpn = vpn

/-- The frame of a page and its entry, in the table in use. -/
def mapping (cfg : Config) (s : Vm) (sp : AddrSpace) (vpn : Int) : Option (Int × TranslationEntry) :=
  if cfg.useTLB then (s.place vpn).map fun k => ((s.tlb.nth k).ppn, s.tlb.nth k)
  else if cfg.useRPT then
    (s.pt.findIdx? fun e => e.vpn = vpn && e.tID = (s.currentThread : Int)).map
      fun i : Nat => ((i : Int), s.pt.nth i)
  else if 0 ≤ vpn ∧ vpn < sp.program.numPages ∧ (sp.pt.nth vpn.toNat).valid then
    some ((sp.pt.nth vpn.toNat).ppn, sp.pt.nth vpn.toNat)
  else none

/-- The page table of the running thread, and the place in it of a page in a
frame. -/
def pageTable (cfg : Config) (s : Vm) (sp : AddrSpace) : Table := if cfg.useRPT then s.pt else sp.pt

def position (cfg : Config) (vpn frame : Int) : Nat :=
  if cfg.useRPT then frame.toNat else vpn.toNat

def setTable (cfg : Config) (s : Vm) (sp : AddrSpace) (t : Table) : Vm :=
  if cfg.useRPT then { s with pt := t } else s.setSpace s.currentThread { sp with pt := t }

section
variable {cfg : Config} {env : Env} {s : Vm} {sp : AddrSpace} (hrun : s.Running cfg sp)
include hrun

theorem lookup_mapped {vpn frame : Int} {e : TranslationEntry}
    (hm : s.mapping cfg sp vpn = some (frame, e)) :
    s.lookup cfg env vpn = .ok (s, .ok (frame, e, if cfg.useTLB then s.place vpn else none)) := by
  unfold mapping at hm
  unfold lookup
  split at hm
  · rename_i hT
    rw [if_pos hT, if_pos hT]
    obtain ⟨k, hk, he⟩ := Option.map_eq_some_iff.mp hm
    cases he
    rw [place] at hk ⊢
    rw [hk]
    rfl
  · rename_i hT
    rw [if_neg hT, if_neg hT, pageTableTranslation]
    split at hm
    · rename_i hR
      rw [if_pos hR, rptTranslation]
      obtain ⟨i, hi, he⟩ := Option.map_eq_some_iff.mp hm
      cases he
      rw [hi]
      rfl
    · rename_i hR
      rw [if_neg hR]
      split at hm <;> [skip; cases hm]
      rename_i hv
      cases hm
      obtain ⟨h₀, hlt, hvalid⟩ := hv
      have hl := hrun.linear (by simpa using hR)
      have he : sp.pt.entry env.stray vpn = sp.pt.nth vpn.toNat := by
        have := sp.pt.entry_eq_nth (j := vpn.toNat) env.stray (by omega)
        rwa [Int.toNat_of_nonneg h₀] at this
      rw [linearTranslation, hrun.space]
      simp only [ok_bind]
      rw [if_neg (by omega), he, if_pos hvalid]
      rfl

theorem touch_eq {vpn frame : Int} (hpos : position cfg vpn frame < (s.pageTable cfg sp).length)
    (hv : 0 ≤ vpn) (hf : 0 ≤ frame) : s.touch cfg env vpn frame =
      if cfg.lruReplace = true then
        if (s.pageTable cfg sp).Below (·.lruFlag) (position cfg vpn frame) intMax then
          .ok (s.setTable cfg sp ((s.pageTable cfg sp).stampLRU (position cfg vpn frame)))
        else .error .undefined
      else .ok s := by
  unfold touch
  by_cases hL : cfg.lruReplace = true
  · rw [if_pos hL, if_pos hL]
    unfold pageTable position setTable at *
    by_cases hR : cfg.useRPT = true
    · simp only [hR, if_true] at hpos ⊢
      have hl := hrun.inverted hR
      have he := Table.updateLRUFlag_eq env.stray hpos
      rw [hl, Int.toNat_of_nonneg hf] at he
      rw [he]
      split <;> rfl
    · simp only [hR, if_false, Bool.false_eq_true] at hpos ⊢
      have hl := hrun.linear (by simpa using hR)
      have he := Table.updateLRUFlag_eq env.stray hpos
      rw [hl, Int.toNat_of_nonneg hv] at he
      rw [hrun.space]
      simp only [ok_bind]
      rw [he]
      split <;> rfl
  · rw [if_neg hL, if_neg hL]
    rfl

end

theorem touchTLB_eq {cfg : Config} {env : Env} {s : Vm} {k : Nat} (hl : s.tlb.length = tlbSize)
    (hk : k < tlbSize) : s.touchTLB cfg env (some k) =
      if cfg.lruReplace = true then
        if s.tlb.Below (·.lruFlag) k intMax then
          .ok { s with tlb := s.tlb.stampLRU k }
        else .error .undefined
      else .ok s := by
  have he := Table.updateLRUFlag_eq env.stray (hl ▸ hk)
  rw [hl] at he
  rw [touchTLB]
  split
  · rw [he]
    split <;> rfl
  · rfl

/-! ## Legal accesses -/

/-- An access that nothing speaks against: aligned, in the address space, in a
page that is mapped to a frame of main memory and not read-only if it writes. -/
structure Legal (cfg : Config) (s : Vm) (sp : AddrSpace) (addr : Int) (size : Nat) (writing : Bool)
    (frame : Int) (e : TranslationEntry) : Prop where
  sized : size = 1 ∨ size = 2 ∨ size = 4
  aligned : addr % size = 0
  range : 0 ≤ addr ∧ addr < sp.program.numPages * pageSize
  mapped : s.mapping cfg sp (addr / pageSize) = some (frame, e)
  writable : writing = true → e.readOnly = false
  frame : 0 ≤ frame ∧ frame < numPhysPages

/-- The `LRUFlag`s that the access advances are below `INT_MAX`. -/
def LruRoom (cfg : Config) (s : Vm) (sp : AddrSpace) (vpn frame : Int) : Prop :=
  cfg.lruReplace = true →
    (s.pageTable cfg sp).Below (·.lruFlag) (position cfg vpn frame) intMax ∧
    (cfg.useTLB = true → ∀ k, s.place vpn = some k → s.tlb.Below (·.lruFlag) k intMax)

/-- The place in main memory of an address in a frame. -/
def physical (frame addr : Int) : Nat := (frame * pageSize + addr % pageSize).toNat

/-- What `Translate` asks for at its end. -/
def Fits (addr frame : Int) : Prop := frame * pageSize + addr % pageSize + 4 ≤ memorySize

instance (addr frame : Int) : Decidable (Fits addr frame) := inferInstanceAs (Decidable (_ ≤ _))

/-- The machine after the access, up to the stored bytes. -/
def touched (cfg : Config) (s : Vm) (sp : AddrSpace) (vpn frame : Int) : Vm :=
  if cfg.lruReplace = true then
    let s' := s.setTable cfg sp ((s.pageTable cfg sp).stampLRU (position cfg vpn frame))
    if cfg.useTLB = true then { s' with tlb := s.tlb.stampLRU ((s.place vpn).getD 0) } else s'
  else s

section
variable {cfg : Config} {env : Env} {s : Vm} {sp : AddrSpace}

theorem setTable_fields (t : Table) : (s.setTable cfg sp t).tlb = s.tlb ∧
    (s.setTable cfg sp t).mainMemory = s.mainMemory ∧
    (s.setTable cfg sp t).currentThread = s.currentThread := by
  unfold setTable
  split <;> exact ⟨rfl, rfl, rfl⟩

namespace Legal

variable {addr : Int} {size : Nat} {writing : Bool} {frame : Int} {e : TranslationEntry}

theorem vpn (h : s.Legal cfg sp addr size writing frame e) :
    0 ≤ addr / pageSize ∧ addr / pageSize < sp.program.numPages := by
  have := h.range
  unfold pageSize at *
  omega

theorem position_lt (h : s.Legal cfg sp addr size writing frame e) (hrun : s.Running cfg sp) :
    position cfg (addr / pageSize) frame < (s.pageTable cfg sp).length := by
  have hv := h.vpn
  have hf := h.frame
  unfold position pageTable
  split
  · rename_i hR
    rw [hrun.inverted hR]
    omega
  · rename_i hR
    rw [hrun.linear (by simpa using hR)]
    omega

/-- `Translate` of a legal access, up to its lookup. -/
theorem translate (h : s.Legal cfg sp addr size writing frame e) (hrun : s.Running cfg sp) :
    s.translate cfg env addr size writing = (do
      let s' ← s.touch cfg env (addr / pageSize) frame
      assert (Fits addr frame)
      let s' ← s'.touchTLB cfg env (if cfg.useTLB then s.place (addr / pageSize) else none)
      return (s', .ok (frame * pageSize + addr % pageSize))) := by
  obtain ⟨h₀, h₁⟩ := h.range
  obtain ⟨hf₀, hf₁⟩ := h.frame
  have hmod : 0 ≤ addr % pageSize := Int.emod_nonneg _ (by decide)
  have hoff : 0 ≤ frame * pageSize + addr % pageSize := by unfold pageSize at *; omega
  have halign : ¬ ((size = 4 ∧ addr % 4 ≠ 0) ∨ (size = 2 ∧ addr % 2 ≠ 0)) := by
    have := h.aligned
    rintro (⟨rfl, hne⟩ | ⟨rfl, hne⟩) <;> exact hne this
  have hreadOnly : (e.readOnly && writing) = false := by
    cases writing with
    | false => exact Bool.and_false _
    | true => rw [h.writable rfl]; rfl
  unfold Vm.translate
  rw [if_neg halign, Int.tdiv_eq_ediv_of_nonneg h₀, Int.tmod_eq_emod_of_nonneg h₀]
  simp only
  rw [lookup_mapped hrun h.mapped]
  simp only [ok_bind, hreadOnly, Bool.false_eq_true, if_false]
  rw [if_neg (by omega)]
  simp only [hoff, true_and, Fits]
  rfl

/-- A mapped page is in the TLB, if there is one. -/
theorem place (h : s.Legal cfg sp addr size writing frame e) (hrun : s.Running cfg sp)
    (hT : cfg.useTLB = true) : ∃ k, s.place (addr / pageSize) = some k ∧ k < tlbSize := by
  have hm := h.mapped
  rw [mapping, if_pos hT] at hm
  obtain ⟨k, hk, -⟩ := Option.map_eq_some_iff.mp hm
  have := (List.findIdx?_eq_some_iff_getElem.mp hk).1
  exact ⟨k, hk, hrun.tlb hT ▸ this⟩

/-- A legal access succeeds if no counter is full and the four bytes from its
address on are in main memory. -/
theorem translate_ok (env : Env) (h : s.Legal cfg sp addr size writing frame e) (hrun : s.Running cfg sp)
    (hroom : s.LruRoom cfg sp (addr / pageSize) frame) (hfits : Fits addr frame) :
    s.translate cfg env addr size writing =
      .ok (s.touched cfg sp (addr / pageSize) frame, .ok (frame * pageSize + addr % pageSize)) := by
  rw [h.translate hrun, touch_eq hrun (h.position_lt hrun) h.vpn.1 h.frame.1]
  unfold touched
  by_cases hL : cfg.lruReplace = true
  · obtain ⟨ht, hTLB⟩ := hroom hL
    rw [if_pos hL, if_pos ht, if_pos hL]
    simp only [ok_bind, assert_of hfits]
    by_cases hT : cfg.useTLB = true
    · obtain ⟨k, hk, hlt⟩ := h.place hrun hT
      rw [if_pos hT, if_pos hT, hk]
      rw [touchTLB_eq (by rw [(setTable_fields _).1]; exact hrun.tlb hT) hlt, if_pos hL,
        (setTable_fields _).1, if_pos (hTLB hT k hk)]
      rfl
    · rw [if_neg hT, if_neg hT]
      rfl
  · rw [if_neg hL, if_neg hL]
    simp only [ok_bind, assert_of hfits]
    by_cases hT : cfg.useTLB = true
    · obtain ⟨k, hk, hlt⟩ := h.place hrun hT
      rw [if_pos hT, hk, touchTLB_eq (hrun.tlb hT) hlt, if_neg hL]
      rfl
    · rw [if_neg hT]
      rfl

/-- Otherwise it stops the simulator. -/
theorem translate_error (env : Env) (h : s.Legal cfg sp addr size writing frame e) (hrun : s.Running cfg sp)
    (hnot : ¬ (s.LruRoom cfg sp (addr / pageSize) frame ∧ Fits addr frame)) :
    ∃ a, s.translate cfg env addr size writing = .error a := by
  rw [h.translate hrun, touch_eq hrun (h.position_lt hrun) h.vpn.1 h.frame.1]
  by_cases hfits : Fits addr frame
  · have hroom : ¬ s.LruRoom cfg sp (addr / pageSize) frame := fun hr => hnot ⟨hr, hfits⟩
    unfold LruRoom at hroom
    simp only [not_forall] at hroom
    obtain ⟨hL, hroom⟩ := hroom
    rw [if_pos hL]
    by_cases ht : (s.pageTable cfg sp).Below (·.lruFlag) (position cfg (addr / pageSize) frame) intMax
    · simp only [ht, true_and, not_forall] at hroom
      obtain ⟨hT, k, hk, hfull⟩ := hroom
      obtain ⟨k', hk', hlt⟩ := h.place hrun hT
      rw [hk] at hk'
      cases hk'
      rw [if_pos ht]
      simp only [ok_bind, assert_of hfits]
      rw [if_pos hT, hk, touchTLB_eq (by rw [(setTable_fields _).1]; exact hrun.tlb hT) hlt,
        if_pos hL, (setTable_fields _).1, if_neg hfull]
      exact ⟨_, rfl⟩
    · rw [if_neg ht]
      exact ⟨_, rfl⟩
  · split
    · split
      · simp only [ok_bind, assert, if_neg hfits]
        exact ⟨_, rfl⟩
      · exact ⟨_, rfl⟩
    · simp only [ok_bind, assert, if_neg hfits]
      exact ⟨_, rfl⟩

end Legal

/-! ## Behind an access -/

theorem Running.of_core {s' : Vm} (hrun : s.Running cfg sp) (hc : s'.core = s.core) :
    ∃ sp', s'.Running cfg sp' ∧ sp'.core = sp.core := by
  obtain ⟨-, -, hpt, htlb, hcur⟩ := Vm.of_core hc
  obtain ⟨sp', hsp', hcsp⟩ := space_of_core hc.symm hrun.space
  obtain ⟨hprog, hptc⟩ := AddrSpace.of_core hcsp.symm
  refine ⟨sp', ⟨?_, fun hR => ?_, fun hR => ?_, fun hT => ?_⟩, hcsp.symm⟩
  · rw [hcur]
    exact hsp'
  · rw [hprog, ← hrun.linear hR, ← Table.length_core, hptc, Table.length_core]
  · rw [← hrun.inverted hR, ← Table.length_core, hpt, Table.length_core]
  · rw [← hrun.tlb hT, ← Table.length_core, htlb, Table.length_core]

theorem place_of_core {s' : Vm} (htlb : s'.tlb.core = s.tlb.core) (vpn : Int) :
    s'.place vpn = s.place vpn := by
  have hcore : ∀ t : Table, t.core.findIdx? (fun e => e.valid && e.vpn = vpn) =
      t.findIdx? fun e => e.valid && e.vpn = vpn := fun t => by
    rw [Table.core, List.findIdx?_map]
    rfl
  unfold place
  rw [← hcore s'.tlb, htlb, hcore]

theorem mapping_of_core {s' : Vm} {sp' : AddrSpace} (hc : s'.core = s.core)
    (hcsp : sp'.core = sp.core) {vpn frame : Int} {e : TranslationEntry}
    (hm : s.mapping cfg sp vpn = some (frame, e)) :
    ∃ e', s'.mapping cfg sp' vpn = some (frame, e') ∧ e'.core = e.core := by
  obtain ⟨-, -, hpt, htlb, hcur⟩ := Vm.of_core hc
  obtain ⟨hprog, hptc⟩ := AddrSpace.of_core hcsp
  unfold mapping at hm ⊢
  split at hm
  · rename_i hT
    obtain ⟨k, hk, he⟩ := Option.map_eq_some_iff.mp hm
    cases he
    have hn := Table.nth_of_core htlb k
    rw [if_pos hT, place_of_core htlb, hk, Option.map_some,
      (TranslationEntry.of_core hn).2.2.1]
    exact ⟨_, rfl, hn⟩
  · rename_i hT
    rw [if_neg hT]
    split at hm
    · rename_i hR
      obtain ⟨i, hi, he⟩ := Option.map_eq_some_iff.mp hm
      cases he
      have hcore : ∀ (t : Table) (tid : Int),
          t.core.findIdx? (fun e => e.vpn = vpn && e.tID = tid) =
            t.findIdx? fun e => e.vpn = vpn && e.tID = tid := fun t tid => by
        rw [Table.core, List.findIdx?_map]
        rfl
      rw [if_pos hR, ← hcore, hpt, hcur, hcore, hi]
      exact ⟨_, rfl, Table.nth_of_core hpt i⟩
    · rename_i hR
      split at hm <;> [skip; cases hm]
      rename_i hv
      cases hm
      have hn := Table.nth_of_core hptc vpn.toNat
      obtain ⟨-, -, hppn, hvalid, -⟩ := TranslationEntry.of_core hn
      rw [if_neg hR, if_pos (by rw [hprog, hvalid]; exact hv), hppn]
      exact ⟨_, rfl, hn⟩

/-- What is legal stays so. -/
theorem Legal.of_core {s' : Vm} {sp' : AddrSpace} {addr : Int} {size : Nat}
    {writing : Bool} {frame : Int} {e : TranslationEntry} (h : s.Legal cfg sp addr size writing frame e) (hc : s'.core = s.core)
    (hcsp : sp'.core = sp.core) : ∃ e', s'.Legal cfg sp' addr size writing frame e' := by
  have hprog := (AddrSpace.of_core hcsp).1
  obtain ⟨e', hm, he⟩ := mapping_of_core hc hcsp h.mapped
  refine ⟨e', h.sized, h.aligned, ?_, hm, ?_, h.frame⟩
  · rw [hprog]
    exact h.range
  · rw [(TranslationEntry.of_core he).2.2.2.2.1]
    exact h.writable

theorem Running.unique {sp' : AddrSpace} (h : s.Running cfg sp) (h' : s.Running cfg sp') :
    sp' = sp := by
  have := h.space.symm.trans h'.space
  cases this
  rfl

/-- The space of a thread whose table is `t` now. -/
def spaceWith (cfg : Config) (sp : AddrSpace) (t : Table) : AddrSpace :=
  if cfg.useRPT then sp else { sp with pt := t }

theorem Running.setTable (hrun : s.Running cfg sp) {t : Table}
    (ht : t.length = (s.pageTable cfg sp).length) :
    (s.setTable cfg sp t).Running cfg (spaceWith cfg sp t) ∧
      (s.setTable cfg sp t).pageTable cfg (spaceWith cfg sp t) = t := by
  unfold Vm.setTable spaceWith Vm.pageTable at *
  by_cases hR : cfg.useRPT = true
  · simp only [hR, if_true] at ht ⊢
    exact ⟨⟨hrun.space, hrun.linear, fun hR => ht.trans (hrun.inverted hR), hrun.tlb⟩, trivial⟩
  · simp only [hR, if_false, Bool.false_eq_true] at ht ⊢
    refine ⟨⟨?_, fun hR => ht.trans (hrun.linear hR), fun h => absurd h hR, hrun.tlb⟩, trivial⟩
    exact (space_setSpace hrun.space _ _).trans (if_pos rfl)

theorem Running.setTable_core (hrun : s.Running cfg sp) {t : Table}
    (ht : t.core = (s.pageTable cfg sp).core) :
    (s.setTable cfg sp t).core = s.core ∧ (spaceWith cfg sp t).core = sp.core := by
  unfold Vm.setTable spaceWith Vm.pageTable at *
  by_cases hR : cfg.useRPT = true
  · simp only [hR, if_true] at ht ⊢
    exact ⟨by simp [core, ht], trivial⟩
  · simp only [hR, if_false, Bool.false_eq_true] at ht ⊢
    have hsp : AddrSpace.core { sp with pt := t } = sp.core := by simp [AddrSpace.core, ht]
    exact ⟨core_setSpace hrun.space hsp, hsp⟩

theorem Running.setTLB (hrun : s.Running cfg sp) {tlb : Table} (ht : tlb.length = s.tlb.length) :
    Running cfg { s with tlb := tlb } sp :=
  ⟨hrun.space, hrun.linear, hrun.inverted, fun hT => ht.trans (hrun.tlb hT)⟩

/-- The access stamps an entry of each table, and changes nothing else. -/
theorem Legal.touched {addr : Int} {size : Nat} {writing : Bool} {frame : Int}
    {e : TranslationEntry} (h : s.Legal cfg sp addr size writing frame e)
    (hrun : s.Running cfg sp) : ∃ sp',
      (s.touched cfg sp (addr / pageSize) frame).core = s.core ∧ sp'.core = sp.core ∧
      (s.touched cfg sp (addr / pageSize) frame).Running cfg sp' ∧
      (s.LruRoom cfg sp (addr / pageSize) frame →
        (s.touched cfg sp (addr / pageSize) frame).LruRoom cfg sp' (addr / pageSize) frame) := by
  unfold Vm.touched
  split
  · rename_i hL
    obtain ⟨t, ht⟩ : ∃ t, t = (s.pageTable cfg sp).stampLRU
      (position cfg (addr / pageSize) frame) := ⟨_, rfl⟩
    obtain ⟨hrun', htable⟩ := hrun.setTable (t := t) (by rw [ht, Table.length_stampLRU])
    obtain ⟨hc, hcsp⟩ := hrun.setTable_core (t := t) (by rw [ht, Table.core_stampLRU])
    rw [← ht]
    have htlb : (s.setTable cfg sp t).tlb = s.tlb := (setTable_fields t).1
    have hbelow : s.LruRoom cfg sp (addr / pageSize) frame →
        t.Below (·.lruFlag) (position cfg (addr / pageSize) frame) intMax := fun hroom =>
      ht ▸ (Table.below_stampLRU (h.position_lt hrun)).mpr (hroom hL).1
    refine ⟨spaceWith cfg sp t, ?_, hcsp, ?_⟩
    · split
      · rw [← hc]
        simp [core, htlb, Table.core_stampLRU]
      · exact hc
    · by_cases hT : cfg.useTLB = true
      · obtain ⟨k, hk, hlt⟩ := h.place hrun hT
        rw [if_pos hT, hk]
        refine ⟨hrun'.setTLB (by rw [Option.getD_some, Table.length_stampLRU, htlb]),
          fun hroom _ => ⟨?_, fun _ k' hk' => ?_⟩⟩
        · show ((s.setTable cfg sp t).pageTable cfg (spaceWith cfg sp t)).Below _ _ _
          rw [htable]
          exact hbelow hroom
        · rw [place_of_core (s := s) (Table.core_stampLRU s.tlb k), hk] at hk'
          cases hk'
          exact (Table.below_stampLRU (by rw [hrun.tlb hT]; exact hlt)).mpr ((hroom hL).2 hT k hk)
      · rw [if_neg hT]
        refine ⟨hrun', fun hroom _ => ⟨?_, fun h => absurd h hT⟩⟩
        rw [htable]
        exact hbelow hroom
  · rename_i hL
    exact ⟨sp, rfl, rfl, hrun, id⟩

end

end Vm

end Nachos

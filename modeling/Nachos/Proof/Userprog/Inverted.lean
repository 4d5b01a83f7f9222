import Nachos.Framework.InvertedTable
import Nachos.Proof.Userprog.Dump

/-!
# The inverted page table refines its model

What the functions of virtual memory do with `USE_RPT`, and the relation `Abs`
between the machine and `Framework.InvertedTable`: a slot of the model is an
entry of `machine->pt`, `mmBitmap` has the bits of the valid ones, and the
pages pending for a suspended thread are those its file holds.
-/

namespace Nachos.Vm

open Framework

/-! ## Loading a page -/

/-- The machine with the page `vpn` of `tid` in the frame `f`. -/
def loadRPT (s : Vm) (b : Bitmap) (tid : Nat) (vpn : Int) (f : Nat) (page : List Byte) : Vm :=
  { s with
    mmBitmap := b
    pt := s.pt.modify f fun e => { e with tID := tid, vpn := vpn, valid := true, ppn := f }
    mainMemory := blit s.mainMemory (f * pageSize) page }

/-- The frame for a load and the bitmap after it: the lowest free frame, or
the one to replace when there is none. -/
def FrameRPT (cfg : Config) (s : Vm) (f : Nat) (b : Bitmap) : Prop :=
  f < numPhysPages ∧
    ((∀ j < f, s.mmBitmap.bit j = true) ∧ s.mmBitmap.bit f = false ∧ b = s.mmBitmap.put f true ∨
    (∀ j < numPhysPages, s.mmBitmap.bit j = true) ∧ f = s.pt.findOneToReplace cfg ∧ b = s.mmBitmap)

section
variable {cfg : Config} (hR : cfg.useRPT = true) {env : Env} {s s' : Vm}

include hR

theorem pageFrame_rpt (hw : s.mmBitmap.Wf) (hn : s.mmBitmap.numBits = numPhysPages)
    (hl : s.pt.length = numPhysPages) {p : Int} (h : s.pageFrame cfg = .ok (s', p)) :
    ∃ f b, p = (f : Nat) ∧ FrameRPT cfg s f b ∧ s' = { s with mmBitmap := b } := by
  rcases pageFrame_cases hw h with ⟨f, rfl, hf, hlow, hfree, rfl⟩ | ⟨hfull, rfl, v, rfl, hv⟩
  · exact ⟨f, _, rfl, ⟨hn ▸ hf, .inl ⟨hlow, hfree, rfl⟩⟩, rfl⟩
  · simp only [victim, hR, ite_true, pure_eq_ok, Except.ok.injEq] at hv
    subst hv
    refine ⟨_, _, rfl, ⟨?_, .inr ⟨hn ▸ hfull, rfl, rfl⟩⟩, rfl⟩
    rw [← hl]
    exact Table.findOneToReplace_lt cfg (by rw [hl]; decide)

theorem loadPageFrame_rpt {tid f : Nat} {vpn fileAddr : Int} {file : List Byte}
    (h : s.loadPageFrame cfg env tid vpn f fileAddr file = .ok s') :
    0 ≤ fileAddr ∧ s'.core =
      (s.loadRPT s.mmBitmap tid vpn f ((file.drop fileAddr.toNat).take pageSize)).core := by
  obtain ⟨s₁, h₁, h⟩ := bind_eq_ok.mp h
  obtain ⟨page, h₂, h⟩ := bind_eq_ok.mp h
  obtain ⟨hp, rfl⟩ := readAt_eq_ok.mp h₂
  obtain ⟨-, -, rfl⟩ := store_eq_ok.mp h
  rw [hR, if_pos rfl] at h₁
  obtain ⟨pt, hpt, h₁⟩ := bind_eq_ok.mp h₁
  obtain ⟨-, -, rfl⟩ := Table.upd_eq_ok.mp hpt
  obtain ⟨pt', hpt', h₁⟩ := bind_eq_ok.mp h₁
  cases h₁
  refine ⟨hp, ?_⟩
  have hcore : pt'.core = Table.core (s.pt.modify f fun e =>
      { e with tID := tid, vpn := vpn, valid := true, ppn := f }) := by
    split at hpt'
    · exact Table.updateFIFOFlag_core hpt'
    · cases hpt'; rfl
  simp only [core, loadRPT, hcore]
  congr 2

/-- A page fault. -/
theorem pageFaultHandler_rpt (hw : s.mmBitmap.Wf) (hn : s.mmBitmap.numBits = numPhysPages)
    (hl : s.pt.length = numPhysPages) {vaddr : Int}
    (h : s.pageFaultHandler cfg env vaddr = .ok s') :
    ∃ f b sp, FrameRPT cfg s f b ∧ s.space s.currentThread = .ok sp ∧
      0 ≤ sp.program.inFileAddr + vaddr.tdiv pageSize * pageSize ∧
      s'.core = (s.loadRPT b s.currentThread (vaddr.tdiv pageSize) f ((sp.program.executable.drop
        (sp.program.inFileAddr + vaddr.tdiv pageSize * pageSize).toNat).take pageSize)).core := by
  obtain ⟨⟨s₁, p⟩, h₁, h⟩ := bind_eq_ok.mp h
  obtain ⟨f, b, rfl, hf, rfl⟩ := pageFrame_rpt hR hw hn hl h₁
  obtain ⟨sp, hsp, h⟩ := bind_eq_ok.mp h
  obtain ⟨a, ha, h⟩ := bind_eq_ok.mp h
  obtain ⟨_, -, ha⟩ := bind_eq_ok.mp ha
  cases ha
  obtain ⟨hp, hc⟩ := loadPageFrame_rpt hR h
  exact ⟨f, b, sp, hf, hsp, hp, hc⟩

/-! ## Accesses -/

theorem stable_rpt (vpn : Int) : s.Stable cfg env vpn := fun s' r h => by
  simp only [pageTableTranslation, hR, ite_true] at h
  cases h
  rfl

theorem translation_rpt {vpn : Int} {r : Except ExceptionType (Int × TranslationEntry)}
    (h : s.pageTableTranslation cfg env vpn = .ok (s, r)) : s.rptTranslation vpn = r := by
  simp only [pageTableTranslation, hR, ite_true] at h
  exact (Prod.mk.inj (Except.ok.inj h)).2

end

/-! ## The relation -/

/-- An entry of the table is a slot of the model. -/
def SlotAt (e : TranslationEntry) (i : Nat) : Option (InvertedTable.Slot Nat Int) → Prop
  | none => e.tID = -1 ∧ e.valid = false
  | some ⟨t, v, b⟩ => e.tID = t ∧ e.vpn = v ∧ e.valid = b ∧ (b = true → e.ppn = i)

/-- The table and `mmBitmap`. -/
structure TableAbs (s : Vm) (slot : Nat → Option (InvertedTable.Slot Nat Int)) : Prop where
  length : s.pt.length = numPhysPages
  wf : s.mmBitmap.Wf
  numBits : s.mmBitmap.numBits = numPhysPages
  bit : ∀ i < numPhysPages, s.mmBitmap.bit i = (s.pt.nth i).valid
  slot : ∀ i < numPhysPages, SlotAt (s.pt.nth i) i (slot i)

theorem SlotAt.congr {e e' : TranslationEntry} {i : Nat} {o : Option (InvertedTable.Slot Nat Int)}
    (h : SlotAt e i o) (he : e'.core = e.core) : SlotAt e' i o := by
  obtain ⟨h₁, h₂, h₃, h₄, -⟩ := TranslationEntry.of_core he
  cases o with
  | none => simpa [SlotAt, h₂, h₄] using h
  | some e => simpa [SlotAt, h₁, h₂, h₃, h₄] using h

variable {slot : Nat → Option (InvertedTable.Slot Nat Int)}

theorem TableAbs.congr {s s' : Vm} (h : TableAbs s slot) (hb : s'.mmBitmap = s.mmBitmap)
    (hp : s'.pt.core = s.pt.core) : TableAbs s' slot where
  length := by rw [← Table.length_core, hp, Table.length_core]; exact h.length
  wf := hb ▸ h.wf
  numBits := hb ▸ h.numBits
  bit i hi := by
    rw [hb, h.bit i hi]
    exact (TranslationEntry.of_core (Table.nth_of_core hp i)).2.2.2.1.symm
  slot i hi := (h.slot i hi).congr (Table.nth_of_core hp i)

theorem TableAbs.of_core {s s' : Vm} (h : TableAbs s slot) (hc : s'.core = s.core) :
    TableAbs s' slot :=
  h.congr (Vm.of_core hc).1 (Vm.of_core hc).2.2.1

/-- A set bit is a valid slot. -/
theorem TableAbs.valid_iff {s : Vm} {a : InvertedTable.State Nat Int} (h : TableAbs s a.slot)
    {i : Nat} (hi : i < numPhysPages) : s.mmBitmap.bit i = true ↔ a.Valid i := by
  have hs := h.slot i hi
  rw [h.bit i hi, InvertedTable.State.Valid]
  cases ha : a.slot i with
  | none =>
    rw [ha] at hs
    simp [hs.2]
  | some e =>
    obtain ⟨t, v, b⟩ := e
    rw [ha] at hs
    simp [hs.2.2.1]

/-- The frame of the code is one the model allows. -/
theorem TableAbs.frame {cfg : Config} {s : Vm} {a : InvertedTable.State Nat Int}
    (h : TableAbs s a.slot) {f : Nat} {b : Bitmap} (hf : FrameRPT cfg s f b) :
    a.Frame numPhysPages f := by
  refine ⟨hf.1, ?_⟩
  rcases hf.2 with ⟨hlow, hfree, -⟩ | ⟨hfull, -⟩
  · refine .inl ⟨fun hv => ?_, fun j hj => ?_⟩
    · rw [(h.valid_iff hf.1).mpr hv] at hfree
      cases hfree
    · exact (h.valid_iff (Nat.lt_trans hj hf.1)).mp (hlow j hj)
  · exact .inr fun j hj => (h.valid_iff hj).mp (hfull j hj)

theorem TableAbs.load {cfg : Config} {s : Vm} (h : TableAbs s slot) {f tid : Nat} {b : Bitmap}
    {vpn : Int} {page : List Byte} (hf : FrameRPT cfg s f b) :
    TableAbs (s.loadRPT b tid vpn f page) (Function.update slot f (some ⟨tid, vpn, true⟩)) := by
  have hlt : f < s.pt.length := by rw [h.length]; exact hf.1
  have hbit : b.Wf ∧ b.numBits = numPhysPages ∧
      ∀ i < numPhysPages, b.bit i = if i = f then true else s.mmBitmap.bit i := by
    rcases hf.2 with ⟨-, -, rfl⟩ | ⟨hfull, -, rfl⟩
    · exact ⟨h.wf.put f true, h.numBits, fun i _ =>
        Bitmap.bit_put (h.wf.lt (by rw [h.numBits]; exact hf.1)) true i⟩
    · refine ⟨h.wf, h.numBits, fun i hi => ?_⟩
      rw [hfull i hi]
      split <;> rfl
  refine ⟨by simpa [loadRPT] using h.length, hbit.1, hbit.2.1, fun i hi => ?_, fun i hi => ?_⟩
  · simp only [loadRPT, Table.nth_modify _ _ _ _ hlt, hbit.2.2 i hi]
    split
    · rfl
    · exact h.bit i hi
  · simp only [loadRPT, Table.nth_modify _ _ _ _ hlt]
    by_cases e : i = f
    · subst e
      simp [SlotAt]
    · simpa [e] using h.slot i hi

/-! ## Suspended threads -/

/-- What is pending for a thread. -/
def ThreadAt : Option UserThread → Option (List Int) → Prop
  | none, p => p = none
  | some u, p => match u.saved with
    | none => p = if u.exited then none else some []
    | some f => u.exited = false ∧ u.space.isSome ∧ ∃ vs, p = some vs ∧ Encoded f vs

theorem ThreadAt.of_core {u u' : Option UserThread} {p : Option (List Int)} (h : ThreadAt u p)
    (hu : u'.map UserThread.core = u.map UserThread.core) : ThreadAt u' p := by
  cases u with
  | none =>
    rw [Option.map_none, Option.map_eq_none_iff] at hu
    subst hu
    exact h
  | some u =>
    rw [Option.map_some] at hu
    obtain ⟨w, rfl, hw⟩ := Option.map_eq_some_iff.mp hu
    obtain ⟨h₁, h₂, h₃⟩ := UserThread.of_core hw
    have h₃ : w.space.isSome = u.space.isSome := by
      simpa using congrArg Option.isSome h₃
    simpa only [ThreadAt, h₁, h₂, h₃] using h

/-- The machine's table is that of the model. -/
structure Mapped (s : Vm) (a : InvertedTable.State Nat Int) : Prop where
  table : TableAbs s a.slot
  spaced : ∀ i e, a.slot i = some e → s.isUser e.owner = true
  inv : a.Inv numPhysPages

/-- The machine refines the model. -/
structure Abs (s : Vm) (a : InvertedTable.State Nat Int) : Prop extends Mapped s a where
  thread : ∀ t, ThreadAt (s.thread t) (a.pending t)

theorem Mapped.of_core {s s' : Vm} {a : InvertedTable.State Nat Int} (h : Mapped s a)
    (hc : s'.core = s.core) : Mapped s' a where
  table := h.table.of_core hc
  spaced i e he := by rw [isUser_of_core hc]; exact h.spaced i e he
  inv := h.inv

/-- The relation does not look at the flags. -/
theorem Abs.of_core {s s' : Vm} {a : InvertedTable.State Nat Int} (h : Abs s a)
    (hc : s'.core = s.core) : Abs s' a where
  toMapped := h.toMapped.of_core hc
  thread t := (h.thread t).of_core (thread_of_core hc t)

/-- Nor at main memory and the TLB. -/
theorem Abs.congr {s : Vm} {a : InvertedTable.State Nat Int} (h : Abs s a) (m : Nat → Byte)
    (tlb : Table) : Abs { s with mainMemory := m, tlb := tlb } a :=
  ⟨⟨h.table.congr rfl rfl, h.spaced, h.inv⟩, h.thread⟩

/-! ## Every operation is one of the model -/

section
variable {cfg : Config} {env : Env} {s s' : Vm} {a : InvertedTable.State Nat Int}

theorem Abs.pending_of_runnable (h : Abs s a) {t : Nat} (hr : s.runnable t = true) :
    a.pending t = some [] := by
  obtain ⟨u, hu, hsv, hex⟩ := runnable_iff.mp hr
  have ht := h.thread t
  simpa [hu, ThreadAt, hsv, hex] using ht

theorem nth_of_findIdx? {t : Table} {p : TranslationEntry → Bool} {i : Nat}
    (h : t.findIdx? p = some i) :
    i < t.length ∧ p (t.nth i) = true ∧ ∀ j < i, p (t.nth j) = false := by
  obtain ⟨hlt, hp, hlow⟩ := List.findIdx?_eq_some_iff_getElem.mp h
  refine ⟨hlt, ?_, fun j hj => ?_⟩
  · simpa [Table.nth, List.getD_eq_getElem?_getD, hlt] using hp
  · have := hlow j hj
    simpa [Table.nth, List.getD_eq_getElem?_getD, Nat.lt_trans hj hlt] using this

theorem nth_of_findIdx?_none {t : Table} {p : TranslationEntry → Bool} (h : t.findIdx? p = none)
    {i : Nat} (hi : i < t.length) : p (t.nth i) = false := by
  have := List.findIdx?_eq_none_iff.mp h (t.nth i) ?_
  · simpa using this
  · rw [Table.nth, List.getD_eq_getElem?_getD, List.getElem?_eq_getElem hi]
    exact List.getElem_mem hi

/-- The entry a lookup finds is the first slot with the key. -/
theorem Mapped.rpt_ok (h : Mapped s a) {vpn f : Int} {e : TranslationEntry}
    (hr : s.rptTranslation vpn = .ok (f, e)) :
    ∃ i b, f = (i : Nat) ∧ i < numPhysPages ∧ e = s.pt.nth i ∧
      a.slot i = some ⟨s.currentThread, vpn, b⟩ ∧ e.valid = b ∧
      ∀ j < i, ∀ b, a.slot j ≠ some ⟨s.currentThread, vpn, b⟩ := by
  unfold rptTranslation at hr
  split at hr <;> [cases hr; skip]
  rename_i i hi
  cases hr
  obtain ⟨hlt, hp, hlow⟩ := nth_of_findIdx? hi
  rw [h.table.length] at hlt
  simp only [Bool.and_eq_true, decide_eq_true_eq] at hp
  have hs := h.table.slot i hlt
  cases ha : a.slot i with
  | none =>
    rw [ha] at hs
    have := hs.1.symm.trans hp.2
    omega
  | some e =>
    obtain ⟨t, v, b⟩ := e
    rw [ha] at hs
    obtain ⟨h₁, h₂, h₃, -⟩ := hs
    have ht : t = s.currentThread := by omega
    have hv : v = vpn := by rw [← h₂, hp.1]
    subst ht hv
    refine ⟨i, b, rfl, hlt, rfl, ha, h₃, fun j hj b' hj' => ?_⟩
    have hsj := h.table.slot j (Nat.lt_trans hj hlt)
    rw [hj'] at hsj
    have := hlow j hj
    simp [hsj.1, hsj.2.1] at this

/-- A lookup that finds nothing: no slot has the key. -/
theorem Mapped.rpt_error (h : Mapped s a) {vpn : Int} {e : ExceptionType}
    (hr : s.rptTranslation vpn = .error e) (i : Nat) (b : Bool) :
    a.slot i ≠ some ⟨s.currentThread, vpn, b⟩ := by
  unfold rptTranslation at hr
  split at hr <;> [skip; cases hr]
  rename_i hn
  intro ha
  have hi : i < numPhysPages := by
    by_contra hc
    rw [h.inv.bound i (by omega)] at ha
    cases ha
  have hs := h.table.slot i hi
  rw [ha] at hs
  have := nth_of_findIdx?_none hn (h.table.length ▸ hi)
  simp [hs.1, hs.2.1] at this

theorem Mapped.load (h : Mapped s a) {f tid : Nat} {b : Bitmap} {vpn : Int} (page : List Byte)
    {r : List Int} (hf : FrameRPT cfg s f b) (hr : a.pending tid = some r)
    (hv : vpn ∈ r ∨ ∀ i b, a.slot i ≠ some ⟨tid, vpn, b⟩) (hu : s.isUser tid = true) :
    Mapped (s.loadRPT b tid vpn f page) (a.load tid vpn f) where
  table := h.table.load hf
  spaced i e he := by
    by_cases hi : i = f
    · subst hi
      simp only [InvertedTable.State.load, Function.update_self, Option.some.injEq] at he
      subst he
      exact hu
    · simp only [InvertedTable.State.load, Function.update_of_ne hi] at he
      exact h.spaced i e he
  inv := h.inv.load (h.table.frame hf) hr hv

/-- A page fault of the running thread. -/
theorem Abs.fault (hR : cfg.useRPT = true) (h : Abs s a) (hu : s.inUser = true) {addr : Int}
    (hn : s.rptTranslation (addr.tdiv pageSize) = .error .pageFault)
    (hx : s.pageFaultHandler cfg env addr = .ok s') :
    ∃ f b sp, FrameRPT cfg s f b ∧ s.space s.currentThread = .ok sp ∧
      0 ≤ sp.program.inFileAddr + addr.tdiv pageSize * pageSize ∧
      s'.core = (s.loadRPT b s.currentThread (addr.tdiv pageSize) f ((sp.program.executable.drop
        (sp.program.inFileAddr + addr.tdiv pageSize * pageSize).toNat).take pageSize)).core ∧
      Abs s' (a.load s.currentThread (addr.tdiv pageSize) f) := by
  obtain ⟨hrun, huser⟩ := Bool.and_eq_true_iff.mp hu
  obtain ⟨f, b, sp, hf, hsp, hpos, hc⟩ :=
    pageFaultHandler_rpt hR h.table.wf h.table.numBits h.table.length hx
  have hp := h.pending_of_runnable hrun
  have hm := h.toMapped.load ((sp.program.executable.drop
    (sp.program.inFileAddr + addr.tdiv pageSize * pageSize).toNat).take pageSize) hf hp
    (.inr (h.toMapped.rpt_error hn)) huser
  refine ⟨f, b, sp, hf, hsp, hpos, hc, Abs.of_core ⟨hm, fun t => ?_⟩ hc⟩
  have hpend : (a.load s.currentThread (addr.tdiv pageSize) f).pending t = a.pending t := by
    by_cases ht : t = s.currentThread
    · subst ht; simp [InvertedTable.State.load, hp]
    · exact InvertedTable.State.load_pending_ne ht
  rw [hpend]
  exact h.thread t

/-- What follows an exception of an access. -/
theorem Abs.exception (hR : cfg.useRPT = true) (h : Abs s a) (hu : s.inUser = true) {addr : Int}
    {size : Nat} {w : Bool} {s₁ : Vm} {e : ExceptionType}
    (ht : s.translate cfg env addr size w = .ok (s₁, .error e))
    (hx : s₁.exceptionHandler cfg env e addr = .ok s') : ∃ a', Abs s' a' := by
  rcases exception_cases (stable_rpt hR _) ht hx with ⟨hn, hx⟩ | ⟨-, f, en, tlb, -, -, rfl⟩
  · obtain ⟨f, b, sp, -, -, -, -, h'⟩ := h.fault hR hu (translation_rpt hR hn) hx
    exact ⟨_, h'⟩
  · exact ⟨a, h.congr s.mainMemory tlb⟩

theorem Abs.read (hR : cfg.useRPT = true) (h : Abs s a) (hu : s.inUser = true) {addr : Int}
    {size : Nat} {v : Option Int} (hx : s.readMem cfg env addr size = .ok (s', v)) :
    ∃ a', Abs s' a' := by
  obtain ⟨⟨s₁, r⟩, ht, hx⟩ := bind_eq_ok.mp hx
  cases r with
  | error e =>
    obtain ⟨s₂, h₂, hx⟩ := bind_eq_ok.mp hx
    cases hx
    exact h.exception hR hu ht h₂
  | ok pa =>
    obtain ⟨_, -, hx⟩ := bind_eq_ok.mp hx
    obtain ⟨data, -, hx⟩ := bind_eq_ok.mp hx
    cases hx
    rcases translate_cases (fun _ => stable_rpt hR _) ht with ⟨e, he, -⟩ | ⟨_, _, _, _, -, hc, -⟩ <;> [cases he; skip]
    exact ⟨a, h.of_core hc⟩

theorem Abs.write (hR : cfg.useRPT = true) (h : Abs s a) (hu : s.inUser = true) {addr v : Int}
    {size : Nat} {b : Bool} (hx : s.writeMem cfg env addr size v = .ok (s', b)) :
    ∃ a', Abs s' a' := by
  obtain ⟨⟨s₁, r⟩, ht, hx⟩ := bind_eq_ok.mp hx
  cases r with
  | error e =>
    obtain ⟨s₂, h₂, hx⟩ := bind_eq_ok.mp hx
    cases hx
    exact h.exception hR hu ht h₂
  | ok pa =>
    obtain ⟨_, -, hx⟩ := bind_eq_ok.mp hx
    obtain ⟨s₂, h₂, hx⟩ := bind_eq_ok.mp hx
    cases hx
    obtain ⟨-, -, rfl⟩ := store_eq_ok.mp h₂
    rcases translate_cases (fun _ => stable_rpt hR _) ht with ⟨e, he, -⟩ | ⟨_, _, _, _, -, hc, -⟩ <;> [cases he; skip]
    exact ⟨a, (h.of_core hc).congr _ _⟩

end

end Nachos.Vm

import Nachos.Proof.Userprog.Replacement
import Nachos.Proof.Userprog.Tlb

/-!
# The copies of pages in memory

A copy in the TLB may be stale: its page was replaced since, or swapped out. But a
page that is in memory now has no stale copy. It came to its frame after a miss, so
there was no copy then, and `Scheduler::Run` drops all of them. This is
`CopiedRPT` for the inverted table and `CopiedLinear` for the linear ones; both hold
in every run, suspensions and full memories included (`reachable_copied`).
-/

namespace Nachos

open Framework

namespace Vm

/-- With a TLB the handler runs behind its misses only. -/
theorem tlbMiss_of_handled {cfg : Config} {env : Env} {s s₁ s' : Vm} {addr : Int} {size : Nat}
    {writing : Bool} {which : ExceptionType} (hT : cfg.useTLB = true)
    (ht : s.translate cfg env addr size writing = .ok (s₁, .error which))
    (hx : s₁.exceptionHandler cfg env which addr = .ok s') :
    which = .tlbMiss ∧ s₁ = s ∧ s.place (addr.tdiv pageSize) = none := by
  cases which with
  | tlbMiss => exact ⟨rfl, translate_stays ht (.inr rfl), place_of_tlbMiss ht⟩
  | pageFault =>
    have hal : ¬ Misaligned addr size := fun hm => by
      rw [translate_misaligned hm] at ht
      cases ht
    rcases translate_raises hal ht with hl | hw | hw <;> [skip; cases hw; cases hw]
    rcases (lookup_raises hl).2 with ⟨-, -, hw⟩ | ⟨hT', -⟩
    · cases hw
    · rw [hT] at hT'
      cases hT'
  | readOnly | busError | addressError => cases hx

/-- The thread that is restored does not run. -/
theorem ne_of_restored {s : Vm} {t : Nat} (h : s.enabled (.restore t) = true) :
    t ≠ s.currentThread := by
  rintro rfl
  obtain ⟨hu, hs⟩ := Bool.and_eq_true_iff.mp h
  obtain ⟨u, hu, hsaved, -⟩ := runnable_iff.mp (Bool.and_eq_true_iff.mp hu).1
  simp [hu, hsaved] at hs

/-! ## The inverted table -/

/-- The valid entries of the thread `u` are those that it had, and no entry became
read-only. -/
def Drops (u : Nat) (t t' : Table) : Prop :=
  ∀ j, ((t.nth j).readOnly = false → (t'.nth j).readOnly = false) ∧
    ((t'.nth j).valid = true → (t'.nth j).tID = u → (t'.nth j).core = (t.nth j).core)

theorem Drops.trans {u : Nat} {t t₁ t' : Table} (h : Drops u t t₁) (h' : Drops u t₁ t') :
    Drops u t t' := by
  intro j
  refine ⟨fun hro => (h' j).1 ((h j).1 hro), fun hv ht => ?_⟩
  have hc := (h' j).2 hv ht
  obtain ⟨-, htid, -, hval, -⟩ := TranslationEntry.of_core hc
  exact hc.trans ((h j).2 (hval ▸ hv) (htid ▸ ht))

theorem Drops.of_core (u : Nat) {t t' : Table} (h : t'.core = t.core) : Drops u t t' := by
  intro j
  have hj := Table.nth_of_core h j
  exact ⟨fun hro => (TranslationEntry.of_core hj).2.2.2.2.1.trans hro, fun _ _ => hj⟩

/-- A page of another thread is loaded. -/
theorem Drops.load {u t f : Nat} (hne : t ≠ u) (s : Vm) (b : Bitmap) (v : Int) (page : List Byte)
    (hf : f < s.pt.length) : Drops u s.pt (s.loadRPT b t v f page).pt := by
  intro j
  have hj : (s.loadRPT b t v f page).pt.nth j = if j = f then
      { s.pt.nth j with tID := (t : Int), vpn := v, valid := true, ppn := (f : Int) }
      else s.pt.nth j := Table.nth_modify s.pt _ f j hf
  rw [hj]
  split
  · exact ⟨id, fun _ ht => absurd (Int.natCast_inj.mp ht) hne⟩
  · exact ⟨id, fun _ _ => rfl⟩

theorem Drops.holds {u : Nat} {s s' : Vm} (h : Drops u s.pt s'.pt) {i : Nat} {v : Int}
    (hh : HoldsRPT s' i (u, v)) : HoldsRPT s i (u, v) := by
  obtain ⟨hi, hv, ht, hvpn⟩ := hh
  obtain ⟨h₁, h₂, -, h₄, -⟩ := TranslationEntry.of_core ((h i).2 hv ht)
  exact ⟨hi, h₄ ▸ hv, h₂ ▸ ht, h₁ ▸ hvpn⟩

/-- With the inverted table: the copy of a page in memory has its frame. -/
structure CopiedRPT (s : Vm) : Prop where
  abs : ∃ a, Abs s a
  entries : ∀ j, (s.pt.nth j).readOnly = false
  length : s.tlb.length = tlbSize
  copies : ∀ e ∈ s.tlb, e.valid = true → e.readOnly = false ∧
    ∀ i : Nat, HoldsRPT s i (s.currentThread, e.vpn) → e.ppn = i

namespace CopiedRPT

variable {cfg : Config} {env : Env} {s s' : Vm}

/-- No copy is new, and neither is a page of the running thread. -/
theorem drops (h : CopiedRPT s) (habs : ∃ a, Abs s' a) (hd : Drops s.currentThread s.pt s'.pt)
    (hcur : s'.currentThread = s.currentThread) (hl : s'.tlb.length = s.tlb.length)
    (htlb : ∀ e' ∈ s'.tlb, e'.valid = true → ∃ e ∈ s.tlb, e'.core = e.core) : CopiedRPT s' := by
  refine ⟨habs, fun j => (hd j).1 (h.entries j), hl.trans h.length, fun e' he' hv => ?_⟩
  obtain ⟨e, he, hc⟩ := htlb e' he' hv
  obtain ⟨h₁, -, h₃, h₄, h₅, -⟩ := TranslationEntry.of_core hc
  obtain ⟨hro, hcopy⟩ := h.copies e he (h₄ ▸ hv)
  rw [h₁, h₃, h₅, hcur]
  exact ⟨hro, fun i hi => hcopy i (hd.holds hi)⟩

theorem of_core (h : CopiedRPT s) (habs : ∃ a, Abs s' a) (hpt : s'.pt.core = s.pt.core)
    (htlb : s'.tlb.core = s.tlb.core) (hcur : s'.currentThread = s.currentThread) :
    CopiedRPT s' :=
  h.drops habs (.of_core _ hpt) hcur (by rw [← Table.length_core, htlb, Table.length_core])
    fun _ he' _ => Table.mem_of_core htlb he'

/-- A page fault: the page was missing in the TLB. -/
theorem fault (hR : cfg.useRPT = true) (h : CopiedRPT s) (hu : s.inUser = true) {addr : Int}
    (hn : s.rptTranslation (addr.tdiv pageSize) = .error .pageFault)
    (hk : s.place (addr.tdiv pageSize) = none)
    (hx : s.pageFaultHandler cfg env addr = .ok s') : CopiedRPT s' := by
  obtain ⟨a, ha⟩ := h.abs
  obtain ⟨f, b, sp, hf, -, -, hcore, habs⟩ := ha.fault hR hu hn hx
  obtain ⟨-, -, hpt, htlb, hcur⟩ := Vm.of_core hcore
  have hlt : f < s.pt.length := ha.table.length ▸ hf.1
  have hnth : ∀ j, (s'.pt.nth j).core = (if j = f then
      { s.pt.nth j with tID := (s.currentThread : Int), vpn := addr.tdiv pageSize, valid := true,
                        ppn := (f : Int) } else s.pt.nth j).core := fun j => by
    rw [Table.nth_of_core hpt j]
    exact congrArg _ (Table.nth_modify s.pt _ f j hlt)
  refine ⟨⟨_, habs⟩, fun j => ?_, ?_, fun e' he' hv => ?_⟩
  · rw [(TranslationEntry.of_core (hnth j)).2.2.2.2.1]
    split <;> exact h.entries j
  · rw [← Table.length_core, htlb, Table.length_core]
    exact h.length
  · obtain ⟨e, he, hc⟩ := Table.mem_of_core htlb he'
    obtain ⟨h₁, -, h₃, h₄, h₅, -⟩ := TranslationEntry.of_core hc
    have hv' : e.valid = true := h₄ ▸ hv
    obtain ⟨hro, hcopy⟩ := h.copies e he hv'
    rw [h₁, h₃, h₅, hcur]
    refine ⟨hro, fun i hi => hcopy i ?_⟩
    obtain ⟨hi, hvi, hti, hvpn⟩ := hi
    obtain ⟨g₁, g₂, -, g₄, -⟩ := TranslationEntry.of_core (hnth i)
    by_cases hif : i = f
    · rw [g₁, if_pos hif] at hvpn
      obtain ⟨k, hk', rfl⟩ := Table.mem_iff_nth.mp he
      exact absurd hvpn.symm (not_held_of_place hk ⟨hk', hv'⟩)
    · rw [if_neg hif] at g₁ g₂ g₄
      exact ⟨hi, g₄ ▸ hvi, g₂ ▸ hti, g₁ ▸ hvpn⟩

/-- A refill copies the entry of a page in memory, and a page is in one frame. -/
theorem miss (h : CopiedRPT s) (hu : s.inUser = true) {vpn f : Int}
    {en : TranslationEntry} {tlb : Table} (hn : s.rptTranslation vpn = .ok (f, en))
    (hx : s.tlb.updateTLB cfg env.stray en = .ok tlb) : CopiedRPT { s with tlb := tlb } := by
  obtain ⟨a, ha⟩ := h.abs
  have hr := (Bool.and_eq_true_iff.mp hu).1
  obtain ⟨i, rfl, hat, hh⟩ : ∃ i : Nat, f = i ∧ EntryAt cfg s.currentThread vpn i en ∧
      HoldsRPT s i (s.currentThread, vpn) := ha.holds_of_found hr hn
  obtain ⟨n, -, -, -, hen, -⟩ := ha.toMapped.rpt_ok hn
  obtain ⟨k, hk⟩ := Table.updateTLB_refilled h.length hx
  refine ⟨⟨a, ha.congr s.mainMemory tlb⟩, h.entries, hk.length.trans h.length, fun e he hv => ?_⟩
  obtain ⟨j, hj, rfl⟩ := Table.mem_iff_nth.mp he
  by_cases hjk : j = k
  · subst hjk
    obtain ⟨h₁, -, h₃, -, h₅, -⟩ := TranslationEntry.of_core hk.entry
    rw [h₅, h₃, h₁, hat.ppn, hat.vpn]
    refine ⟨hen ▸ h.entries n, fun i' hi' => ?_⟩
    exact congrArg _ (ha.inv.unique i i' _ _ ((ha.holds_iff i _).mp hh) ((ha.holds_iff i' _).mp hi'))
  · rw [hk.others j hjk] at hv ⊢
    exact h.copies _ (Table.mem_iff_nth.mpr ⟨j, hk.length ▸ hj, rfl⟩) hv

/-- An access. -/
theorem access (hR : cfg.useRPT = true) (hT : cfg.useTLB = true) (h : CopiedRPT s)
    (hu : s.inUser = true) {addr : Int} {size : Nat} {writing : Bool}
    (habs : ∃ a, Abs s' a) (ha : Accessed cfg env s s' addr size writing) : CopiedRPT s' := by
  rcases ha with ⟨s₁, pa, m, ht, rfl⟩ | ⟨s₁, which, ht, hx⟩
  · rcases translate_cases (fun _ => stable_rpt hR _) ht with ⟨_, he, -⟩ | ⟨_, _, _, _, -, hc, -⟩
    · cases he
    · obtain ⟨-, -, hpt, htlb, hcur⟩ := Vm.of_core hc
      exact h.of_core habs hpt htlb hcur
  · obtain ⟨rfl, rfl, hk⟩ := tlbMiss_of_handled hT ht hx
    rcases exception_cases (stable_rpt hR _) ht hx with ⟨hn, hf⟩ | ⟨-, f, en, tlb, hn, hm, rfl⟩
    · exact h.fault hR hu (translation_rpt hR hn) hk hf
    · exact h.miss hu (translation_rpt hR hn) hm

/-- `SC_Exit` leaves the thread no page, and drops no copy of another one. -/
theorem exit (hR : cfg.useRPT = true) (h : CopiedRPT s) (habs : ∃ a, Abs s' a)
    (hx : s.exit cfg = .ok s') : CopiedRPT s' := by
  obtain ⟨s₁, h₁, hx⟩ := bind_eq_ok.mp hx
  cases hx
  obtain ⟨a, ha⟩ := h.abs
  unfold exitClean at h₁
  split at h₁
  · cases h₁
    exact h.of_core habs rfl rfl rfl
  · rw [if_pos hR] at h₁
    obtain ⟨s₂, h₂, h₁⟩ := bind_eq_ok.mp h₁
    cases h₁
    obtain ⟨b, pt, rfl, -, -, -, hpt, -⟩ := exitRPT_spec (fun i hi => List.mem_range.mp hi)
      ha.table.wf ha.table.numBits ha.table.length h₂
    refine h.drops habs (fun j => ?_) rfl (List.length_map ..) fun e' he' hv => ?_
    · show ((s.pt.nth j).readOnly = false → (pt.nth j).readOnly = false) ∧
        ((pt.nth j).valid = true → (pt.nth j).tID = s.currentThread →
          (pt.nth j).core = (s.pt.nth j).core)
      rw [hpt]
      split
      · exact ⟨fun _ => rfl, fun hv => by cases hv⟩
      · exact ⟨id, fun _ _ => rfl⟩
    · obtain ⟨e, he, rfl⟩ := List.mem_map.mp he'
      split at hv
      · cases hv
      · rename_i hne
        exact ⟨e, he, by rw [if_neg hne]⟩

/-- `SaveAThread` of another thread. -/
theorem suspend (hR : cfg.useRPT = true) (h : CopiedRPT s) (habs : ∃ a, Abs s' a) {t : Nat}
    (hx : s.suspend cfg env t = .ok s') : CopiedRPT s' := by
  obtain ⟨⟨s₁, f⟩, h₁, hx⟩ := bind_eq_ok.mp hx
  cases hx
  obtain ⟨a, ha⟩ := h.abs
  obtain ⟨b, pt, x, r, rfl, -, -, hl, hpt, -⟩ :=
    saveAThread_spec hR ha.table.wf ha.table.numBits ha.table.length h₁
  refine h.drops habs (fun j => ?_) rfl rfl fun e he _ => ⟨e, he, rfl⟩
  show ((s.pt.nth j).readOnly = false → (pt.nth j).readOnly = false) ∧
    ((pt.nth j).valid = true → (pt.nth j).tID = s.currentThread →
      (pt.nth j).core = (s.pt.nth j).core)
  by_cases hj : j < numPhysPages
  · rw [hpt j hj]
    split
    · exact ⟨id, fun hv => by cases hv⟩
    · exact ⟨id, fun _ _ => rfl⟩
  · have hnone : pt.nth j = .reset := by
      rw [Table.nth, List.getD_eq_getElem?_getD, List.getElem?_eq_none (by omega)]
      rfl
    rw [hnone]
    exact ⟨fun _ => rfl, fun hv => by cases hv⟩

/-- `LoadAThread` of another thread: it loads pages of this thread only. -/
theorem loadPages (hR : cfg.useRPT = true) {t n offset : Nat} {f buf : List Byte}
    {u : Nat} (hne : t ≠ u) (hw : s.mmBitmap.Wf) (hn : s.mmBitmap.numBits = numPhysPages)
    (hl : s.pt.length = numPhysPages) (hx : s.loadPages cfg env t f buf offset n = .ok s') :
    Drops u s.pt s'.pt ∧ s'.tlb.core = s.tlb.core ∧ s'.currentThread = s.currentThread := by
  induction n generalizing s buf offset with
  | zero =>
    cases hx
    exact ⟨.of_core u rfl, rfl, rfl⟩
  | succ n ih =>
    obtain ⟨⟨vpn, buf'⟩, -, hx⟩ := bind_eq_ok.mp hx
    obtain ⟨⟨s₁, p⟩, h₁, hx⟩ := bind_eq_ok.mp hx
    obtain ⟨i, b, rfl, hf, rfl⟩ := pageFrame_rpt hR hw hn hl h₁
    obtain ⟨s₂, h₂, hx⟩ := bind_eq_ok.mp hx
    obtain ⟨-, hc⟩ := loadPageFrame_rpt hR h₂
    obtain ⟨hb, -, hpt, htlb, hcur⟩ := Vm.of_core hc
    have hbits : b.Wf ∧ b.numBits = numPhysPages := by
      rcases hf.2 with ⟨-, -, rfl⟩ | ⟨-, -, rfl⟩
      · exact ⟨hw.put i true, hn⟩
      · exact ⟨hw, hn⟩
    have hl₂ : s₂.pt.length = numPhysPages := by
      rw [← Table.length_core, hpt, Table.length_core]
      exact (List.length_modify ..).trans hl
    obtain ⟨hd, htlb', hcur'⟩ := ih (s := s₂) (hb ▸ hbits.1) (hb ▸ hbits.2) hl₂ hx
    have hdrops : Drops u s.pt s₂.pt :=
      (Drops.load hne { s with mmBitmap := b } b vpn _ (hl ▸ hf.1)).trans (.of_core u hpt)
    exact ⟨hdrops.trans hd, htlb'.trans htlb, hcur'.trans hcur⟩

theorem restore (hR : cfg.useRPT = true) (h : CopiedRPT s) (habs : ∃ a, Abs s' a) {t : Nat}
    (hne : t ≠ s.currentThread) (hx : s.restore cfg env t = .ok s') : CopiedRPT s' := by
  obtain ⟨a, ha⟩ := h.abs
  unfold Vm.restore at hx
  split at hx <;> [cases hx; skip]
  obtain ⟨s₁, h₁, hx⟩ := bind_eq_ok.mp hx
  cases hx
  obtain ⟨⟨n, buf⟩, -, h₁⟩ := bind_eq_ok.mp h₁
  obtain ⟨hd, htlb, hcur⟩ :=
    loadPages hR hne ha.table.wf ha.table.numBits ha.table.length h₁
  exact h.drops habs hd hcur (by rw [← Table.length_core, ← Table.length_core s.tlb]; exact congrArg _ htlb)
    fun _ he' _ => Table.mem_of_core htlb he'

/-- One step. -/
theorem next (hR : cfg.useRPT = true) (hT : cfg.useTLB = true) (h : CopiedRPT s)
    {op : Op × Env} (hs : s.ShortPages op) (hx : s.next cfg op = .ok s') : CopiedRPT s' := by
  obtain ⟨a, ha⟩ := h.abs
  have habs : ∃ a, Abs s' a := ha.next hR hs hx
  obtain ⟨op, env⟩ := op
  unfold Vm.next at hx
  split at hx <;> [rename_i hen; (cases hx; exact h)]
  cases op with
  | create p =>
    obtain ⟨i, -, hs', -⟩ := thread_create hx
    exact h.of_core habs (by rw [hs']) (by rw [hs']) (by rw [hs'])
  | run t =>
    cases hx
    refine ⟨habs, fun j => ?_, ?_, fun e he hv => ?_⟩
    · simp only [Vm.run, hT, if_true]
      exact h.entries j
    · simp only [Vm.run, hT, if_true, List.length_map]
      exact h.length
    · simp only [Vm.run, hT, if_true] at he
      obtain ⟨_, -, rfl⟩ := List.mem_map.mp he
      cases hv
  | read addr size =>
    obtain ⟨⟨s₁, v⟩, hr, hx⟩ := bind_eq_ok.mp hx
    cases hx
    exact h.access hR hT hen habs (readMem_cases hr)
  | write addr size v =>
    obtain ⟨⟨s₁, b⟩, hr, hx⟩ := bind_eq_ok.mp hx
    cases hx
    exact h.access hR hT hen habs (writeMem_cases hr)
  | exit => exact h.exit hR habs hx
  | suspend t => exact h.suspend hR habs hx
  | restore t => exact h.restore hR habs (ne_of_restored hen) hx

theorem start (hR : cfg.useRPT = true) (hT : cfg.useTLB = true) : CopiedRPT (start cfg) := by
  refine ⟨⟨_, abs_start hR⟩, fun j => ?_, by simp [Vm.start, hT], fun e he hv => ?_⟩
  · simp only [Vm.start, hR, if_true, Table.nth, List.getD_eq_getElem?_getD,
      List.getElem?_replicate]
    split <;> rfl
  · simp only [Vm.start, hT, if_true] at he
    rw [List.eq_of_mem_replicate he] at hv
    cases hv

end CopiedRPT

/-! ## Linear tables -/

end Vm

/-- The entries of an address space: none is dirty or read-only, and one that has a
frame number is that of its page. -/
structure AddrSpace.Filed (sp : AddrSpace) : Prop where
  length : sp.pt.length = sp.program.numPages
  entry : ∀ (n : Nat) e, sp.pt[n]? = some e → e.dirty = false ∧ e.readOnly = false ∧
    (e.vpn = n ∨ e.ppn = -1 ∧ e.valid = false)

/-- The frame numbers of its pages. -/
def AddrSpace.frames (sp : AddrSpace) : List Int := sp.pt.map (·.ppn)

namespace AddrSpace

variable {sp sp' : AddrSpace}

theorem Filed.ok (h : sp.Filed) : sp.Ok where
  length := h.length
  dirty e he := by
    obtain ⟨n, hn⟩ := List.mem_iff_getElem?.mp he
    exact (h.entry n e hn).1
  vpn n e he hv := by
    rcases (h.entry n e he).2.2 with hvpn | ⟨-, hinv⟩
    · exact hvpn
    · rw [hv] at hinv
      cases hinv

theorem frames_of_core (h : sp'.core = sp.core) : sp'.frames = sp.frames := by
  have hmap : ∀ t : Table, t.core.map (fun e => e.ppn) = t.map fun e => e.ppn := fun t => by
    rw [Table.core, List.map_map]
    rfl
  unfold frames
  rw [← hmap, (of_core h).2, hmap]

theorem Filed.of_core (h : sp.Filed) (hc : sp'.core = sp.core) : sp'.Filed := by
  obtain ⟨hp, hpt⟩ := AddrSpace.of_core hc
  refine ⟨?_, fun n e' he' => ?_⟩
  · rw [hp, ← h.length, ← Table.length_core, hpt, Table.length_core]
  · obtain ⟨e, he, hce⟩ := Table.entry_of_core hpt.symm he'
    obtain ⟨h₁, -, h₃, h₄, h₅, h₆⟩ := TranslationEntry.of_core hce
    rw [← h₁, ← h₃, ← h₄, ← h₅, ← h₆]
    exact h.entry n e he

theorem Filed.new (cfg : Config) (hR : cfg.useRPT = false) (p : Program) :
    (AddrSpace.new cfg p).Filed := by
  refine ⟨by simp [AddrSpace.new, hR], fun n e he => ?_⟩
  rw [Vm.getElem?_new he]
  exact ⟨rfl, rfl, .inr ⟨rfl, rfl⟩⟩

/-- A page is loaded. -/
theorem Filed.loadPage (h : sp.Filed) (v : Nat) (f : Int) : (Vm.loadPage sp v f).Filed := by
  refine ⟨(List.length_modify ..).trans h.length, fun n e' he' => ?_⟩
  rw [Vm.getElem?_loadPage] at he'
  split at he'
  · rename_i hn
    obtain ⟨e, he, rfl⟩ := Option.map_eq_some_iff.mp he'
    obtain ⟨hd, hro, -⟩ := h.entry n e he
    exact ⟨hd, hro, .inl (by rw [hn])⟩
  · exact h.entry n e' he'

theorem Filed.invalidate (h : sp.Filed) : Filed { sp with pt := Vm.invalidate sp.pt } := by
  refine ⟨(List.length_map ..).trans h.length, fun n e' he' => ?_⟩
  have he' : (sp.pt.map fun e => { e with valid := false })[n]? = some e' := he'
  rw [List.getElem?_map] at he'
  obtain ⟨e, he, rfl⟩ := Option.map_eq_some_iff.mp he'
  obtain ⟨hd, hro, hn⟩ := h.entry n e he
  exact ⟨hd, hro, hn.imp id fun hn => ⟨hn.1, rfl⟩⟩

end AddrSpace

namespace Vm

/-- The swap branch changes valid bits only, and sets none but that of the page. -/
theorem swap_entry {env : Env} {s s' : Vm} {sp sp' : AddrSpace} {vpn ppn : Int}
    (h : s.swap env sp vpn ppn = .ok (s', sp')) {n : Nat} {e' : TranslationEntry}
    (he' : sp'.pt[n]? = some e') : ∃ e, sp.pt[n]? = some e ∧ e' = { e with valid := e'.valid } ∧
      (e'.valid = true → e.valid = true ∨ n = vpn.toNat) := by
  obtain ⟨sp₁, h₁, h⟩ := bind_eq_ok.mp h
  obtain ⟨pt, hpt, h⟩ := bind_eq_ok.mp h
  obtain ⟨page, -, h⟩ := bind_eq_ok.mp h
  obtain ⟨s₁, -, h⟩ := bind_eq_ok.mp h
  cases h
  have hfirst : ∀ e₁, sp₁.pt[n]? = some e₁ → ∃ e, sp.pt[n]? = some e ∧
      e₁ = { e with valid := e₁.valid } ∧ (e₁.valid = true → e.valid = true) := by
    intro e₁ he₁
    split at h₁
    · cases h₁
      exact ⟨e₁, he₁, rfl, id⟩
    · obtain ⟨page', -, h₁⟩ := bind_eq_ok.mp h₁
      obtain ⟨vmFile, -, h₁⟩ := bind_eq_ok.mp h₁
      obtain ⟨pt', hpt', h₁⟩ := bind_eq_ok.mp h₁
      cases h₁
      obtain ⟨-, -, rfl⟩ := Table.upd_eq_ok.mp hpt'
      rw [List.getElem?_modify] at he₁
      split at he₁
      · obtain ⟨e, he, rfl⟩ := Option.map_eq_some_iff.mp he₁
        exact ⟨e, he, rfl, fun hv => by cases hv⟩
      · exact ⟨e₁, by simpa using he₁, rfl, id⟩
  obtain ⟨-, -, rfl⟩ := Table.upd_eq_ok.mp hpt
  simp only at he'
  rw [List.getElem?_modify] at he'
  split at he'
  · rename_i hn
    obtain ⟨e₁, he₁, rfl⟩ := Option.map_eq_some_iff.mp he'
    obtain ⟨e, he, heq, -⟩ := hfirst e₁ he₁
    exact ⟨e, he, by rw [heq], fun _ => .inr hn.symm⟩
  · obtain ⟨e, he, heq, hv⟩ := hfirst e' (by simpa using he')
    exact ⟨e, he, heq, fun hv' => .inl (hv hv')⟩

/-- The page that comes back has a frame number, so the entries stay in order. -/
theorem filed_swap {env : Env} {s s' : Vm} {sp sp' : AddrSpace} {vpn ppn : Int}
    (hf : sp.Filed) (h : s.swap env sp vpn ppn = .ok (s', sp'))
    (hppn : (sp.pt.nth vpn.toNat).ppn ≠ -1) : sp'.Filed ∧ sp'.frames = sp.frames := by
  have hprog := (swap_spec h).2.1
  have hvalid := (swap_spec h).2.2.1
  refine ⟨⟨by rw [length_swap h, hprog, hf.length], fun n e' he' => ?_⟩, ?_⟩
  · obtain ⟨e, he, heq, hv⟩ := swap_entry h he'
    obtain ⟨hd, hro, hn⟩ := hf.entry n e he
    rw [heq]
    refine ⟨hd, hro, hn.imp id fun hnone => ⟨hnone.1, ?_⟩⟩
    by_contra hval
    rcases hv (by simpa using hval) with hv | hv
    · rw [hnone.2] at hv
      cases hv
    · rw [← hv, Table.nth, List.getD_eq_getElem?_getD, he, Option.getD_some] at hppn
      exact hppn hnone.1
  · have := congrArg (List.map fun e : TranslationEntry => e.ppn) hvalid
    rw [List.map_map, List.map_map] at this
    exact this

/-- With linear tables: each copy has the frame number of its page, in memory or
not. -/
structure CopiedLinear (s : Vm) : Prop where
  spaces : ∀ t sp, s.space t = .ok sp → sp.Filed
  length : s.tlb.length = tlbSize
  copies : ∀ e ∈ s.tlb, e.valid = true → e.readOnly = false ∧
    ∃ sp n, s.space s.currentThread = .ok sp ∧ e.vpn = (n : Nat) ∧ sp.frames[n]? = some e.ppn

namespace CopiedLinear

variable {cfg : Config} {env : Env} {s s' : Vm}

/-- No copy is new, and the pages of the running thread keep their frame
numbers. -/
theorem keeps (h : CopiedLinear s) (hsp : ∀ t sp, s'.space t = .ok sp → sp.Filed)
    (hcur : s'.currentThread = s.currentThread) (hl : s'.tlb.length = s.tlb.length)
    (htlb : ∀ e' ∈ s'.tlb, e'.valid = true → (∃ e ∈ s.tlb, e'.core = e.core) ∧
      ∀ sp, s.space s.currentThread = .ok sp → ∃ sp', s'.space s.currentThread = .ok sp' ∧
        ∀ n : Nat, e'.vpn = n → sp'.frames[n]? = sp.frames[n]?) : CopiedLinear s' := by
  refine ⟨hsp, hl.trans h.length, fun e' he' hv => ?_⟩
  obtain ⟨⟨e, he, hc⟩, hframes⟩ := htlb e' he' hv
  obtain ⟨h₁, -, h₃, h₄, h₅, -⟩ := TranslationEntry.of_core hc
  obtain ⟨hro, sp, n, hspace, hvpn, hn⟩ := h.copies e he (h₄ ▸ hv)
  obtain ⟨sp', hspace', hsame⟩ := hframes sp hspace
  refine ⟨h₅.trans hro, sp', n, hcur ▸ hspace', h₁.trans hvpn, ?_⟩
  rw [hsame n (h₁.trans hvpn), h₃]
  exact hn

/-- The TLB and the spaces stay. -/
theorem congr (h : CopiedLinear s) (hsp : ∀ t, s'.space t = s.space t)
    (hcur : s'.currentThread = s.currentThread) (htlb : s'.tlb = s.tlb) : CopiedLinear s' := by
  refine ⟨fun t sp hs => h.spaces t sp ((hsp t).symm.trans hs), htlb ▸ h.length, fun e he hv => ?_⟩
  obtain ⟨hro, sp, n, hspace, hn⟩ := h.copies e (htlb ▸ he) hv
  exact ⟨hro, sp, n, by rw [hcur, hsp]; exact hspace, hn⟩

theorem of_core (h : CopiedLinear s) (hc : s'.core = s.core) : CopiedLinear s' := by
  obtain ⟨-, -, -, htlb, hcur⟩ := Vm.of_core hc
  refine h.keeps (fun t sp' hsp' => ?_) hcur
    (by rw [← Table.length_core, htlb, Table.length_core]) fun e' he' _ =>
      ⟨Table.mem_of_core htlb he', fun sp hsp => ?_⟩
  · obtain ⟨sp, hsp, hcsp⟩ := space_of_core hc hsp'
    exact (h.spaces t sp hsp).of_core hcsp
  · obtain ⟨sp', hsp', hcsp⟩ := space_of_core hc.symm hsp
    exact ⟨sp', hsp', fun n _ => by rw [AddrSpace.frames_of_core hcsp]⟩

/-- A new table of one thread. -/
theorem setSpace (h : CopiedLinear s) {t : Nat} {sp sp' : AddrSpace} (hsp : s.space t = .ok sp)
    (hf : sp'.Filed) (hframes : t = s.currentThread → ∀ e ∈ s.tlb, e.valid = true →
      ∀ n : Nat, e.vpn = n → sp'.frames[n]? = sp.frames[n]?) : CopiedLinear (s.setSpace t sp') := by
  refine h.keeps (fun t' sp₁ hsp₁ => ?_) rfl rfl fun e he hv => ⟨⟨e, he, rfl⟩, fun sp₁ hsp₁ => ?_⟩
  · rw [space_setSpace hsp] at hsp₁
    split at hsp₁
    · cases hsp₁
      exact hf
    · exact h.spaces t' sp₁ hsp₁
  · rw [space_setSpace hsp]
    split
    · rename_i ht
      rw [ht, hsp] at hsp₁
      cases hsp₁
      exact ⟨sp', rfl, hframes ht.symm e he hv⟩
    · exact ⟨sp₁, hsp₁, fun _ _ => rfl⟩

/-- No valid copy. -/
theorem flushed (hsp : ∀ t sp, s.space t = .ok sp → sp.Filed) (hl : s.tlb.length = tlbSize)
    (h : ∀ e ∈ s.tlb, e.valid = false) : CopiedLinear s :=
  ⟨hsp, hl, fun e he hv => by rw [h e he] at hv; cases hv⟩

/-- A change of a thread that leaves its address space alone. -/
theorem setThread (h : CopiedLinear s) (t : Nat) {f : UserThread → UserThread}
    (hf : ∀ u, (f u).space = u.space) : CopiedLinear (s.setThread t f) := by
  exact h.congr (space_setThread s t hf) rfl rfl

/-- A page is loaded, of another thread or one without a copy. -/
theorem load (h : CopiedLinear s) {t v f : Nat} {sp : AddrSpace} (hsp : s.space t = .ok sp)
    (hk : t = s.currentThread → s.place v = none) (b : Bitmap) (page : List Byte) :
    CopiedLinear (s.loadLinear b t sp v f page) := by
  have hset : CopiedLinear (s.setSpace t (loadPage sp v f)) := by
    refine h.setSpace hsp ((h.spaces t sp hsp).loadPage v f) fun ht e he hv n hn => ?_
    have hne : n ≠ v := by
      rintro rfl
      obtain ⟨k, hk', rfl⟩ := Table.mem_iff_nth.mp he
      exact not_held_of_place (hk ht) ⟨hk', hv⟩ hn
    simp only [AddrSpace.frames, List.getElem?_map, getElem?_loadPage, if_neg hne]
  exact hset.congr (fun _ => rfl) rfl rfl

/-- The walk swaps pages of the running thread at most, and finds the entry of the
page. -/
theorem walk (hR : cfg.useRPT = false) (h : CopiedLinear s) {vpn : Int} (hv : 0 ≤ vpn)
    {r : Except ExceptionType (Int × TranslationEntry)}
    (hx : s.pageTableTranslation cfg env vpn = .ok (s', r)) :
    CopiedLinear s' ∧ s'.tlb = s.tlb ∧ ∀ f e, r = .ok (f, e) → e.readOnly = false ∧ ∃ sp n,
      s'.space s'.currentThread = .ok sp ∧ e.vpn = (n : Nat) ∧ sp.frames[n]? = some e.ppn := by
  unfold pageTableTranslation at hx
  rw [hR, if_neg Bool.false_ne_true] at hx
  obtain ⟨sp, hsp, hx⟩ := bind_eq_ok.mp hx
  have hf := h.spaces _ sp hsp
  obtain ⟨n, rfl⟩ := Int.eq_ofNat_of_zero_le hv
  split at hx
  · cases hx
    exact ⟨h, rfl, fun f e he => by cases he⟩
  rename_i hlt
  have hlt : n < sp.pt.length := by
    rw [hf.length]
    omega
  -- What the walk finds is the entry of the page, valid now.
  have hfound : ∀ sp' : AddrSpace, sp'.Filed → n < sp'.pt.length →
      (sp'.pt.nth n).valid = true → (sp'.pt.nth n).readOnly = false ∧ (sp'.pt.nth n).vpn = n ∧
        sp'.frames[n]? = some (sp'.pt.nth n).ppn := fun sp' hf' hn hval => by
    have hget : sp'.pt[n]? = some (sp'.pt.nth n) := by
      rw [Table.nth, List.getD_eq_getElem?_getD, List.getElem?_eq_getElem hn, Option.getD_some]
    refine ⟨(hf'.entry n _ hget).2.1, hf'.ok.vpn n _ hget hval, ?_⟩
    rw [AddrSpace.frames, List.getElem?_map, hget, Option.map_some]
  simp only [Table.entry_eq_nth env.stray hlt] at hx
  split at hx
  · rename_i hval
    cases hx
    obtain ⟨hro, hvpn, hn⟩ := hfound sp hf hlt hval
    exact ⟨h, rfl, fun f e he => by cases he; exact ⟨hro, sp, n, hsp, hvpn, hn⟩⟩
  split at hx
  · rename_i hppn
    obtain ⟨⟨s₁, sp₁⟩, hswap, hx⟩ := bind_eq_ok.mp hx
    cases hx
    obtain ⟨hf₁, hframes⟩ := filed_swap hf hswap hppn
    have hlt₁ : n < sp₁.pt.length := length_swap hswap ▸ hlt
    have hval₁ : (sp₁.pt.nth n).valid = true := by
      have := (swap_spec hswap).2.2.2
      rw [Int.toNat_natCast] at this
      rw [this]
    obtain ⟨⟨m, rfl⟩, -⟩ := swap_spec hswap
    have h₁ : CopiedLinear { s with mainMemory := m } := h.congr (fun _ => rfl) rfl rfl
    refine ⟨h₁.setSpace hsp hf₁ fun _ _ _ _ _ _ => by rw [hframes], rfl, fun f e he => ?_⟩
    cases he
    obtain ⟨hro, hvpn, hn⟩ := hfound sp₁ hf₁ hlt₁ hval₁
    rw [Table.entry_eq_nth env.stray hlt₁]
    exact ⟨hro, sp₁, n,
      (space_setSpace (s := { s with mainMemory := m }) hsp _ _).trans (if_pos rfl), hvpn, hn⟩
  · cases hx
    exact ⟨h, rfl, fun f e he => by cases he⟩

/-- The frame of a page that is loaded has a number. -/
theorem loadPageFrame (hR : cfg.useRPT = false) (h : CopiedLinear s) {t : Nat}
    {vpn ppn fileAddr : Int} {file : List Byte} {sp : AddrSpace} (hsp : s.space t = .ok sp)
    (hk : t = s.currentThread → s.place vpn = none)
    (hx : s.loadPageFrame cfg env t vpn ppn fileAddr file = .ok s') :
    CopiedLinear s' ∧ s'.currentThread = s.currentThread := by
  obtain ⟨f, rfl⟩ : ∃ f : Nat, ppn = f := by
    obtain ⟨s₁, -, hx⟩ := bind_eq_ok.mp hx
    obtain ⟨page, -, hx⟩ := bind_eq_ok.mp hx
    have h0 := (store_eq_ok.mp hx).1
    unfold pageSize at h0
    exact ⟨ppn.toNat, (Int.toNat_of_nonneg (by omega)).symm⟩
  obtain ⟨v, rfl, hv, -, hc⟩ := loadPageFrame_linear hR hsp (h.spaces t sp hsp).ok hx
  exact ⟨(h.load hsp hk _ _).of_core hc, (Vm.of_core hc).2.2.2.2⟩

/-- A page fault. -/
theorem fault (hR : cfg.useRPT = false) (h : CopiedLinear s) {addr : Int}
    (hk : s.place (addr.tdiv pageSize) = none)
    (hx : s.pageFaultHandler cfg env addr = .ok s') : CopiedLinear s' := by
  obtain ⟨⟨s₁, p⟩, h₁, hx⟩ := bind_eq_ok.mp hx
  obtain ⟨b, rfl⟩ := pageFrame_eq h₁
  obtain ⟨sp, hsp, hx⟩ := bind_eq_ok.mp hx
  obtain ⟨fileAddr, -, hx⟩ := bind_eq_ok.mp hx
  have hb : CopiedLinear { s with mmBitmap := b } := h.congr (fun _ => rfl) rfl rfl
  exact (hb.loadPageFrame hR hsp (fun _ => hk) hx).1

/-- An access of no negative address. -/
theorem access (hR : cfg.useRPT = false) (hT : cfg.useTLB = true) (h : CopiedLinear s)
    {addr : Int} {size : Nat} {writing : Bool} (h0 : 0 ≤ addr)
    (ha : Accessed cfg env s s' addr size writing) : CopiedLinear s' := by
  have hv : 0 ≤ addr.tdiv pageSize := Int.tdiv_nonneg h0 (by decide)
  rcases ha with ⟨s₁, pa, m, ht, rfl⟩ | ⟨s₁, which, ht, hx⟩
  · rcases translate_cases (fun hT' => by rw [hT] at hT'; cases hT') ht with
      ⟨_, he, -⟩ | ⟨_, _, _, _, -, hc, -⟩
    · cases he
    · exact (h.of_core hc).congr (fun _ => rfl) rfl rfl
  · obtain ⟨rfl, rfl, hk⟩ := tlbMiss_of_handled hT ht hx
    obtain ⟨⟨s₂, r⟩, hw, hx⟩ := bind_eq_ok.mp hx
    cases r with
    | error e =>
      obtain rfl := pageTableTranslation_stays hw
      cases e with
      | pageFault => exact h.fault hR hk hx
      | tlbMiss | readOnly | busError | addressError => cases hx
    | ok p =>
      obtain ⟨f, en⟩ := p
      obtain ⟨h₂, -, hfound⟩ := h.walk hR hv hw
      obtain ⟨hro, sp, n, hsp, hvpn, hn⟩ := hfound f en rfl
      obtain ⟨tlb, hu, hx⟩ := bind_eq_ok.mp hx
      cases hx
      obtain ⟨k, hk⟩ := Table.updateTLB_refilled h₂.length hu
      refine ⟨h₂.spaces, hk.length.trans h₂.length, fun e he hv => ?_⟩
      obtain ⟨j, hj, rfl⟩ := Table.mem_iff_nth.mp he
      by_cases hjk : j = k
      · subst hjk
        obtain ⟨g₁, -, g₃, -, g₅, -⟩ := TranslationEntry.of_core hk.entry
        rw [g₁, g₃, g₅]
        exact ⟨hro, sp, n, hsp, hvpn, hn⟩
      · rw [hk.others j hjk] at hv ⊢
        exact h₂.copies _ (Table.mem_iff_nth.mpr ⟨j, hk.length ▸ hj, rfl⟩) hv

theorem create (hR : cfg.useRPT = false) (h : CopiedLinear s) {p : Option Program}
    (hx : s.create cfg p = .ok s') : CopiedLinear s' := by
  obtain ⟨i, -, hs', -⟩ := thread_create hx
  have htlb : s'.tlb = s.tlb := by rw [hs']
  have hcur : s'.currentThread = s.currentThread := by rw [hs']
  refine h.keeps (fun t sp hsp => ?_) hcur (by rw [htlb]) fun e he _ =>
    ⟨⟨e, htlb ▸ he, rfl⟩, fun sp hsp => ⟨sp, (space_create hx _ sp).1 hsp, fun _ _ => rfl⟩⟩
  rcases (space_create hx t sp).2 hsp with hsp | ⟨p, rfl⟩
  · exact h.spaces t sp hsp
  · exact .new cfg hR p

theorem run (hT : cfg.useTLB = true) (h : CopiedLinear s) (n : Nat) : CopiedLinear (s.run cfg n) := by
  have htlb : (s.run cfg n).tlb = s.tlb.map fun _ => .reset := by simp only [Vm.run, hT, if_true]
  refine .flushed (fun t sp hsp => ?_) ?_ fun e he => ?_
  · exact h.spaces t sp (space_of_run hsp)
  · rw [htlb, List.length_map, h.length]
  · rw [htlb] at he
    obtain ⟨_, -, rfl⟩ := List.mem_map.mp he
    rfl

theorem exit (hR : cfg.useRPT = false) (h : CopiedLinear s) (hx : s.exit cfg = .ok s') :
    CopiedLinear s' := by
  obtain ⟨s₁, h₁, hx⟩ := bind_eq_ok.mp hx
  cases hx
  refine setThread ?_ _ fun _ => rfl
  unfold exitClean at h₁
  split at h₁
  · cases h₁
    exact h
  · rw [hR, if_neg Bool.false_ne_true] at h₁
    obtain ⟨b, -, h₁⟩ := bind_eq_ok.mp h₁
    cases h₁
    refine .flushed h.spaces ((List.length_map ..).trans h.length) fun e he => ?_
    obtain ⟨_, -, rfl⟩ := List.mem_map.mp he
    rfl

theorem suspend (hR : cfg.useRPT = false) (h : CopiedLinear s) {t : Nat}
    (hx : s.suspend cfg env t = .ok s') : CopiedLinear s' := by
  obtain ⟨⟨s₁, f⟩, h₁, hx⟩ := bind_eq_ok.mp hx
  cases hx
  refine setThread ?_ _ fun _ => rfl
  unfold saveAThread at h₁
  simp only [hR, Bool.false_eq_true, if_false] at h₁
  obtain ⟨sp, hsp, h₁⟩ := bind_eq_ok.mp h₁
  obtain ⟨d, -, h₁⟩ := bind_eq_ok.mp h₁
  obtain ⟨⟨s₂, d', pt⟩, h₂, h₁⟩ := bind_eq_ok.mp h₁
  cases h₁
  obtain ⟨⟨b, rfl⟩, rfl⟩ := saveLinear_frame h₂
  have hb : CopiedLinear { s with mmBitmap := b } := h.congr (fun _ => rfl) rfl rfl
  refine hb.setSpace hsp (h.spaces t sp hsp).invalidate fun _ _ _ _ n _ => ?_
  simp only [AddrSpace.frames, invalidate, List.map_map]
  rfl

/-- `LoadAThread` of another thread. -/
theorem loadPages (hR : cfg.useRPT = false) (h : CopiedLinear s) {t n offset : Nat}
    {f buf : List Byte} (hne : t ≠ s.currentThread)
    (hx : s.loadPages cfg env t f buf offset n = .ok s') : CopiedLinear s' := by
  induction n generalizing s buf offset with
  | zero =>
    cases hx
    exact h
  | succ n ih =>
    obtain ⟨⟨vpn, buf'⟩, -, hx⟩ := bind_eq_ok.mp hx
    obtain ⟨⟨s₁, p⟩, h₁, hx⟩ := bind_eq_ok.mp hx
    obtain ⟨b, rfl⟩ := pageFrame_eq h₁
    obtain ⟨s₂, h₂, hx⟩ := bind_eq_ok.mp hx
    have hb : CopiedLinear { s with mmBitmap := b } := h.congr (fun _ => rfl) rfl rfl
    obtain ⟨sp, hsp⟩ : ∃ sp, Vm.space { s with mmBitmap := b } t = .ok sp := by
      obtain ⟨s₃, h₃, -⟩ := bind_eq_ok.mp h₂
      rw [hR, if_neg Bool.false_ne_true] at h₃
      obtain ⟨cur, -, h₃⟩ := bind_eq_ok.mp h₃
      obtain ⟨sp, hsp, -⟩ := bind_eq_ok.mp h₃
      exact ⟨sp, hsp⟩
    obtain ⟨hs₂, hcur⟩ := hb.loadPageFrame hR hsp (fun ht => absurd ht hne) h₂
    exact ih hs₂ (hcur ▸ hne) hx

theorem restore (hR : cfg.useRPT = false) (h : CopiedLinear s) {t : Nat}
    (hne : t ≠ s.currentThread) (hx : s.restore cfg env t = .ok s') : CopiedLinear s' := by
  unfold Vm.restore at hx
  split at hx <;> [cases hx; skip]
  obtain ⟨s₁, h₁, hx⟩ := bind_eq_ok.mp hx
  cases hx
  refine setThread ?_ _ fun _ => rfl
  obtain ⟨⟨n, buf⟩, -, h₁⟩ := bind_eq_ok.mp h₁
  exact h.loadPages hR hne h₁

/-- One step that accesses no negative address. -/
theorem next (hR : cfg.useRPT = false) (hT : cfg.useTLB = true) (h : CopiedLinear s)
    {op : Op × Env} (hop : ∀ a ∈ op.1.access, 0 ≤ a.1) (hx : s.next cfg op = .ok s') :
    CopiedLinear s' := by
  obtain ⟨op, env⟩ := op
  unfold Vm.next at hx
  split at hx <;> [rename_i hen; (cases hx; exact h)]
  cases op with
  | create p => exact h.create hR hx
  | run t =>
    cases hx
    exact h.run hT t
  | read addr size =>
    obtain ⟨⟨s₁, v⟩, hr, hx⟩ := bind_eq_ok.mp hx
    cases hx
    exact h.access hR hT (hop _ rfl) (readMem_cases hr)
  | write addr size v =>
    obtain ⟨⟨s₁, b⟩, hr, hx⟩ := bind_eq_ok.mp hx
    cases hx
    exact h.access hR hT (hop _ rfl) (writeMem_cases hr)
  | exit => exact h.exit hR hx
  | suspend t => exact h.suspend hR hx
  | restore t => exact h.restore hR (ne_of_restored hen) hx

theorem start (hT : cfg.useTLB = true) : CopiedLinear (start cfg) := by
  refine .flushed (fun t sp hsp => ?_) (by simp [Vm.start, hT]) fun e he => ?_
  · exact absurd hsp (space_start cfg t sp)
  · simp only [Vm.start, hT, if_true] at he
    rw [List.eq_of_mem_replicate he]
    rfl

end CopiedLinear

/-! ## Runs -/

/-- No page number takes more than four characters in a file of `SaveAThread`, and
nothing is read before a linear page table. -/
def Regular (cfg : Config) (s : Vm) (op : Op × Env) : Prop :=
  if cfg.useRPT then s.ShortPages op else ∀ a ∈ op.1.access, 0 ≤ a.1

instance (cfg : Config) (s : Vm) (op : Op × Env) : Decidable (Regular cfg s op) :=
  inferInstanceAs (Decidable (ite _ _ (∀ a ∈ op.1.access, 0 ≤ a.1)))

theorem reachable_copied {cfg : Config} (hT : cfg.useTLB = true) {s : Vm}
    (h : ((System.ofFun (start cfg) (next cfg)).restrict (Regular cfg)).Reachable s) :
    if cfg.useRPT then CopiedRPT s else CopiedLinear s := by
  cases hR : cfg.useRPT with
  | true =>
    simp only [if_true]
    refine h.invariant (I := CopiedRPT) ?_ ?_
    · rintro _ rfl
      exact .start hR hT
    · rintro s op s' hs ⟨hc, hn⟩
      simp only [Regular, hR, if_true] at hc
      exact hs.next hR hT hc hn
  | false =>
    simp only [Bool.false_eq_true, if_false]
    refine h.invariant (I := CopiedLinear) ?_ ?_
    · rintro _ rfl
      exact .start hT
    · rintro s op s' hs ⟨hc, hn⟩
      simp only [Regular, hR, Bool.false_eq_true, if_false] at hc
      exact hs.next hR hT hc hn

end Vm

end Nachos

import Nachos.Proof.Userprog.InvertedProcess
import Nachos.Proof.Userprog.Memory

/-!
# Memory with the inverted page table

Reads return what was stored (`reachable_faithful_rpt`), in every run that
accesses no negative address and replaces no page that differs from the
executable: a page fault on a full memory drops the page in the frame that
`findOneToReplace` chooses, and the page is loaded from the executable again.
-/

namespace Nachos.Vm

open Framework

/-- A valid entry says that the page is in the frame. -/
def HoldsRPT (s : Vm) (i : Nat) (k : Nat × Int) : Prop :=
  i < numPhysPages ∧ (s.pt.nth i).valid = true ∧ (s.pt.nth i).tID = k.1 ∧ (s.pt.nth i).vpn = k.2

instance (s : Vm) (i : Nat) (k : Nat × Int) : Decidable (HoldsRPT s i k) :=
  inferInstanceAs (Decidable (_ ∧ _))

/-- The frame has just what the executable has at the place of its page. -/
def onFile (s : Vm) (i : Nat) : Prop :=
  ∀ o : Fin pageSize, s.fileCell ((s.pt.nth i).tID.toNat, (s.pt.nth i).vpn) o =
    some (s.mainMemory (i * pageSize + o))

instance (s : Vm) (i : Nat) : Decidable (s.onFile i) := inferInstanceAs (Decidable (∀ _, _))

/-- If the access replaces a page, this is one that the executable has. -/
def CleanRPT (cfg : Config) (env : Env) (s : Vm) (addr : Int) : Prop :=
  s.faults cfg env addr = true → s.full → s.onFile (s.pt.findOneToReplace cfg)

/-- A free frame is found first at the end. -/
instance (cfg : Config) (env : Env) (s : Vm) (addr : Int) : Decidable (CleanRPT cfg env s addr) :=
  decidable_of_iff (s.mmBitmap.bit (numPhysPages - 1) = true → s.full →
      s.faults cfg env addr = true → s.onFile (s.pt.findOneToReplace cfg))
    ⟨fun h hf hfull => h (hfull _ (by decide)) hfull hf, fun h _ hfull hf => h hf hfull⟩

section
variable {cfg : Config} {env : Env} {s s' : Vm} {a : InvertedTable.State Nat Int}

theorem TableAbs.holds_iff (h : TableAbs s a.slot) (hb : ∀ i, numPhysPages ≤ i → a.slot i = none)
    (i : Nat) (k : Nat × Int) : HoldsRPT s i k ↔ a.slot i = some ⟨k.1, k.2, true⟩ := by
  constructor
  · rintro ⟨hi, hv, ht, hp⟩
    obtain ⟨t, ht', -, hs⟩ := h.slot_of_valid hi hv
    rw [hs, hp, show t = k.1 by omega]
  · intro hs
    have hi : i < numPhysPages := by
      by_contra hc
      rw [hb i (by omega)] at hs
      cases hs
    have hat := h.slot i hi
    rw [hs] at hat
    exact ⟨hi, hat.2.2.1, hat.1, hat.2.1⟩

theorem Abs.holds_iff (h : Abs s a) (i : Nat) (k : Nat × Int) :
    HoldsRPT s i k ↔ a.slot i = some ⟨k.1, k.2, true⟩ :=
  h.table.holds_iff h.inv.bound i k

/-- The same slots are the same pages. -/
theorem Abs.holds_eq {a' : InvertedTable.State Nat Int} (h : Abs s a) (h' : Abs s' a')
    (hs : a'.slot = a.slot) : HoldsRPT s' = HoldsRPT s := by
  funext i k
  rw [eq_iff_iff, h'.holds_iff, h.holds_iff, hs]

/-- A page that is in a frame is found there. -/
theorem Abs.found (h : Abs s a) (hr : s.runnable s.currentThread = true) {f : Nat} {vpn : Int}
    (hf : a.slot f = some ⟨s.currentThread, vpn, true⟩) :
    ∃ e, s.rptTranslation vpn = .ok ((f : Int), e) := by
  cases hl : s.rptTranslation vpn with
  | error e => exact absurd hf (h.toMapped.rpt_error hl f true)
  | ok p =>
    obtain ⟨i, b, hi, -, -, hs, -, hlow⟩ := h.toMapped.rpt_ok (f := p.1) (e := p.2) hl
    have hb := h.inv.first_valid (h.pending_of_runnable hr) hs hlow
    subst hb
    have := h.inv.unique i f _ _ hs hf
    subst this
    exact ⟨p.2, by rw [← hi]⟩

/-- What a walk finds is in the frame. -/
theorem Abs.holds_of_found (h : Abs s a) (hr : s.runnable s.currentThread = true) {f vpn : Int}
    {e : TranslationEntry} (hf : s.rptTranslation vpn = .ok (f, e)) :
    ∃ i : Nat, f = i ∧ EntryAt cfg s.currentThread vpn i e ∧
      HoldsRPT s i (s.currentThread, vpn) := by
  obtain ⟨i, b, hi, hlt, rfl, hslot, -, hlow⟩ := h.toMapped.rpt_ok hf
  have hb := h.inv.first_valid (h.pending_of_runnable hr) hslot hlow
  subst hb
  have hat := h.table.slot i hlt
  rw [hslot] at hat
  obtain ⟨h₁, h₂, h₃, h₄⟩ := hat
  exact ⟨i, hi, ⟨h₃, h₂, h₄ rfl, fun _ => h₁⟩, (h.holds_iff i _).mpr hslot⟩

/-- A page fault. -/
theorem Abs.loads (hR : cfg.useRPT = true) (h : Abs s a) (hu : s.inUser = true) {addr : Int}
    (hn : s.rptTranslation (addr.tdiv pageSize) = .error .pageFault)
    (hx : s.pageFaultHandler cfg env addr = .ok s') :
    (∃ a', Abs s' a') ∧ ∃ p f, Loads cfg HoldsRPT s s' (addr.tdiv pageSize) p f := by
  obtain ⟨f, b, sp, hf, hsp, hpos, hcore, habs⟩ := h.fault hR hu hn hx
  obtain ⟨u, hu', hspace⟩ := space_eq_ok.mp hsp
  refine ⟨⟨_, habs⟩, sp.program, f, ?_⟩
  constructor
  case program => simp [program, hu', hspace]
  case place => exact hpos
  case memory => exact (Vm.of_core hcore).2.1
  case thread =>
    intro t
    refine ⟨program_of_core hcore t, runnable_of_core hcore t, fun hd u hu => ?_⟩
    obtain ⟨u', hu', hcu⟩ := thread_of_core_some hcore.symm hu
    rw [(UserThread.of_core hcu).1]
    exact hd u' hu'
  case current => exact (Vm.of_core hcore).2.2.2.2
  case tlb => exact (Vm.of_core hcore).2.2.2.1
  case frame =>
    refine hf.2.imp (fun hc => hc.2.1) fun hc => ⟨hc.1, ?_⟩
    simp [victim, hR, hc.2.1]
  case absent => exact fun i hi => h.toMapped.rpt_error hn i true ((h.holds_iff i _).mp hi)
  case holds =>
    funext i k
    rw [eq_iff_iff, habs.holds_iff]
    simp only [InvertedTable.State.load]
    by_cases e : i = f
    · subst e
      simp [Prod.ext_iff, eq_comm]
    · rw [Function.update_of_ne e, if_neg e, h.holds_iff]

/-- The inverted table, under any condition. -/
def invertedTables (hR : cfg.useRPT = true) (C : Env → Vm → Int → Prop) : PageTables cfg C where
  Inv s := ∃ a, Abs s a
  holds := HoldsRPT
  start := by
    refine ⟨⟨_, abs_start hR⟩, fun i k hi => ?_⟩
    cases ((abs_start hR).holds_iff i k).mp hi
  page := by
    rintro s - i k k' ⟨-, -, ht, hv⟩ ⟨-, -, ht', hv'⟩
    exact Prod.ext (by omega) (hv.symm.trans hv')
  user := by
    rintro s ⟨a, h⟩ i k hi
    exact h.spaced i _ ((h.holds_iff i k).mp hi)
  free := by
    rintro s ⟨a, h⟩ i k ⟨hi, hv, -⟩
    rw [h.table.bit i hi, hv]
  core := by
    rintro s s' ⟨a, h⟩ hc
    exact ⟨⟨a, h.of_core hc⟩, h.holds_eq (h.of_core hc) rfl⟩
  congr := by
    rintro s ⟨a, h⟩ m tlb
    exact ⟨⟨a, h.congr m tlb⟩, rfl⟩
  create := by
    rintro s s' p ⟨a, h⟩ hx
    obtain ⟨i, h'⟩ := h.create hx
    exact ⟨⟨_, h'⟩, h.holds_eq h' rfl⟩
  run := by
    rintro s ⟨a, h⟩ t
    exact ⟨⟨a, h.run t⟩, h.holds_eq (h.run t) rfl⟩
  exit := by
    rintro s s' ⟨a, h⟩ hr hx
    have h' := h.exit hR hr hx
    refine ⟨⟨_, h'⟩, ?_⟩
    funext i k
    rw [eq_iff_iff, h'.holds_iff, h.holds_iff, InvertedTable.State.leave_slot]
  stable := fun _ _ vpn => stable_rpt hR vpn
  found := by
    rintro env s vpn f e ⟨a, h⟩ hu - hf
    exact h.holds_of_found (Bool.and_eq_true_iff.mp hu).1 (translation_rpt hR hf)
  walk := by
    rintro s i vpn ⟨a, h⟩ hu hi env
    obtain ⟨e, he⟩ := h.found (Bool.and_eq_true_iff.mp hu).1 ((h.holds_iff i _).mp hi)
    exact ⟨e, by simp [pageTableTranslation, hR, he]⟩
  fault := by
    rintro env s s' addr ⟨a, h⟩ hu - hn hx
    exact h.loads hR hu (translation_rpt hR hn) hx

theorem writes_rpt (hR : cfg.useRPT = true) : (invertedTables hR (CleanRPT cfg)).Writes := by
  rintro env s addr v k - hc hf hfull hv ⟨-, -, ht, hp⟩ o
  simp only [victim, hR, ite_true, pure_eq_ok, Except.ok.injEq] at hv
  have := hc hf hfull o
  rwa [hv, ht, hp, Int.toNat_natCast] at this

end

/-- With `USE_RPT` and no TLB, in every run whose accesses are to addresses
that are not negative and replace only pages that the executable has, every
read returns what its thread expects. -/
theorem reachable_faithful_rpt {cfg : Config} (hR : cfg.useRPT = true) (hT : cfg.useTLB = false)
    {x : Traced} {op : Op × Env}
    (h : ((System.ofFun (traceStart cfg) (trace cfg)).restrict
      (Accesses (CleanRPT cfg))).Reachable x)
    (hc : Accesses (CleanRPT cfg) x op) : Faithful cfg x op :=
  PageTables.reachable_faithful hT (writes_rpt hR) h hc

/-- A byte of the first page is stored to, and one page more is read before it. -/
def evictOps : List (Op × Env) :=
  ([.write 0 1 7, .read memorySize 1, .read 0 1] : List Op).map fun op => (op, .blank)

/-- A byte of the sixth page is stored to. Another thread's page replaces the first one,
and the thread comes back to it. -/
def reloadOps : List (Op × Env) :=
  ([.write 641 1 7, .create (some ⟨List.replicate 128 8, 0, 1⟩), .run 2, .read 0 1, .read 0 1,
    .run 1, .read 0 1] : List Op).map fun op => (op, .blank)

/-- A thread has filled main memory, and goes on in one way or the other. -/
theorem exists_filled : ∃ x, ((System.ofFun (traceStart ⟨false, true, false, false⟩)
      (trace ⟨false, true, false, false⟩)).restrict
        (Accesses (CleanRPT ⟨false, true, false, false⟩))).Reachable x ∧
    (∃ y, evictOps.foldlM (trace ⟨false, true, false, false⟩) x = .ok y ∧
      y.machine.inUser = true ∧ y.shadow y.machine.currentThread 0 = some 7#8 ∧
      (y.machine.readMem ⟨false, true, false, false⟩ .blank 0 1).toOption.bind Prod.snd = some 0) ∧
    ∃ y, reloadOps.foldlM (System.guarded (trace ⟨false, true, false, false⟩)
        (Accesses (CleanRPT ⟨false, true, false, false⟩))) x = some y ∧
      (y.shadow 1 0 = some 0#8 ∧
        Accesses (CleanRPT ⟨false, true, false, false⟩) y (.read 0 1, .blank)) ∧
      y.shadow 1 641 = some 7#8 ∧
        Accesses (CleanRPT ⟨false, true, false, false⟩) y (.read 641 1, .blank) := by
  obtain ⟨x, hr, hp⟩ := System.exists_reachable_guarded (traceStart ⟨false, true, false, false⟩)
    (trace ⟨false, true, false, false⟩) (Accesses (CleanRPT ⟨false, true, false, false⟩))
    (fillRun ⟨List.replicate 128 0, 0, 129⟩ [])
    (p := fun x => (evictOps.foldlM (trace ⟨false, true, false, false⟩) x).toOption.any (fun y =>
        y.machine.inUser = true ∧ y.shadow y.machine.currentThread 0 = some 7#8 ∧
        (y.machine.readMem ⟨false, true, false, false⟩ .blank 0 1).toOption.bind Prod.snd = some 0) &&
      (reloadOps.foldlM (System.guarded (trace ⟨false, true, false, false⟩)
        (Accesses (CleanRPT ⟨false, true, false, false⟩))) x).any fun y =>
      (y.shadow 1 0 = some 0#8 ∧
        Accesses (CleanRPT ⟨false, true, false, false⟩) y (.read 0 1, .blank)) ∧
      y.shadow 1 641 = some 7#8 ∧
        Accesses (CleanRPT ⟨false, true, false, false⟩) y (.read 641 1, .blank))
    (by decide +kernel)
  obtain ⟨hevict, hreload⟩ := Bool.and_eq_true_iff.mp hp
  obtain ⟨y, hy, hlost⟩ := exists_ok hevict
  obtain ⟨y', hy', hkept⟩ := (Option.any_eq_true _ _).mp hreload
  exact ⟨x, hr, ⟨y, hy, of_decide_eq_true hlost⟩, y', hy', of_decide_eq_true hkept⟩

/-- The first page has been loaded again, and the stored byte is still there. -/
theorem reachable_faithful_rpt_stored : ∃ x,
    ((System.ofFun (traceStart ⟨false, true, false, false⟩)
      (trace ⟨false, true, false, false⟩)).restrict
        (Accesses (CleanRPT ⟨false, true, false, false⟩))).Reachable x ∧
    (x.shadow 1 0 = some 0#8 ∧ Accesses (CleanRPT ⟨false, true, false, false⟩) x (.read 0 1, .blank)) ∧
    Faithful ⟨false, true, false, false⟩ x (.read 0 1, .blank) ∧
    (x.shadow 1 641 = some 7#8 ∧
      Accesses (CleanRPT ⟨false, true, false, false⟩) x (.read 641 1, .blank)) ∧
    Faithful ⟨false, true, false, false⟩ x (.read 641 1, .blank) := by
  obtain ⟨x, hx, -, y, hy, hfirst, hstored⟩ := exists_filled
  have hr := System.reachable_guarded _ hx hy
  exact ⟨y, hr, hfirst, reachable_faithful_rpt rfl rfl hr hfirst.2, hstored,
    reachable_faithful_rpt rfl rfl hr hstored.2⟩

/-- A byte is stored in the first page of a full memory; after one page more
the thread comes back, and the byte is lost. -/
theorem not_faithful_rpt_evicted : ¬ ∀ x op,
    (System.ofFun (traceStart ⟨false, true, false, false⟩)
      (trace ⟨false, true, false, false⟩)).Reachable x →
    Faithful ⟨false, true, false, false⟩ x op := by
  intro hall
  obtain ⟨x, hx, ⟨y, hy, hu, hs, hv⟩, -⟩ := exists_filled
  have hr := System.reachable_foldlM hx.of_restrict hy
  exact not_faithful_of_read hu hs hv (by decide) (hall y _ hr)

end Nachos.Vm

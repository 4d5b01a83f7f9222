import Nachos.Proof.Userprog.LinearProcess
import Nachos.Proof.Userprog.Memory

/-!
# Memory with linear page tables

Reads return what was stored (`reachable_faithful_linear`), in every run that
accesses no negative address and takes no page fault on a full memory. There,
an index of the page table is taken for the number of a frame, and two pages
share this frame.
-/

namespace Nachos.Vm

open Framework

/-- A valid entry says that the page is in the frame. -/
def HoldsLinear (s : Vm) (i : Nat) (k : Nat × Int) : Prop :=
  ∃ n : Nat, k.2 = n ∧ s.held (k.1, n) = some (i : Int)

/-- A page fault finds a free frame. -/
def RoomyAccess (cfg : Config) (env : Env) (s : Vm) (addr : Int) : Prop :=
  s.faults cfg env addr = true → ¬ s.full

instance (cfg : Config) (env : Env) (s : Vm) (addr : Int) : Decidable (RoomyAccess cfg env s addr) :=
  inferInstanceAs (Decidable (_ → _))

theorem holdsLinear_congr {s s' : Vm} (h : s'.held = s.held) : HoldsLinear s' = HoldsLinear s := by
  funext i k
  simp only [HoldsLinear, h]

section
variable {cfg : Config} {env : Env} {s s' : Vm} {pend : Nat → List Int}

/-- A page fault with a free frame. -/
theorem Linear.loads (hR : cfg.useRPT = false) (h : Linear s pend) (hu : s.inUser = true) {addr : Int}
    (hroom : ¬ s.full)
    (hn : s.pageTableTranslation cfg env (addr.tdiv pageSize) = .ok (s, .error .pageFault))
    (hx : s.pageFaultHandler cfg env addr = .ok s') :
    ∃ p f, Loads cfg HoldsLinear s s' (addr.tdiv pageSize) p f := by
  obtain ⟨u, sp, hu, hex, hsp, hp⟩ := h.inUser hu
  obtain ⟨f, v, hv, hf, hfree, hnone, hpos, hcore, hheld, hT⟩ :=
    h.toTables.fault hR hu hex hsp hp hroom hn hx
  -- No page holds the frame before.
  have hnew : ∀ k, s.held k ≠ some (f : Int) := fun k hk => by
    obtain ⟨i, hi, -, hb⟩ := (h.excl.used _).mpr ⟨k, hk⟩
    rw [← Int.ofNat.inj hi, hfree] at hb
    cases hb
  rw [hv]
  refine ⟨sp.program, f, ?_⟩
  constructor
  case program => simp [program, hu, hsp]
  case place => exact hpos
  case memory => exact (Vm.of_core hcore).2.1
  case thread =>
    intro t
    have hth := thread_loadLinear hu sp (s.mmBitmap.put f true) v f ((sp.program.executable.drop
      (sp.program.inFileAddr + (v : Int) * pageSize).toNat).take pageSize) t
    refine ⟨?_, ?_, fun hd w hw => ?_⟩
    · rw [program_of_core hcore, program, program, hth]
      split
      · rename_i e
        rw [e, hu]
        simp [hsp, loadPage]
      · rfl
    · rw [runnable_of_core hcore, Vm.runnable, Vm.runnable, hth]
      split
      · rename_i e
        rw [e, hu]
        rfl
      · rfl
    · by_cases e : t = s.currentThread
      · obtain ⟨u', hu', hcu⟩ := thread_of_core_some hcore.symm (hth.trans (if_pos e))
        rw [e, hu] at hw
        cases hw
        exact (UserThread.of_core hcu).1.trans (hd u' hu')
      · obtain ⟨u', hu', hcu⟩ := thread_of_core_some hcore.symm (hth.trans ((if_neg e).trans hw))
        exact (UserThread.of_core hcu).1.trans (hd u' hu')
  case current => exact (Vm.of_core hcore).2.2.2.2
  case tlb => exact (Vm.of_core hcore).2.2.2.1
  case frame => exact .inl hfree
  case absent =>
    rintro i ⟨n, hn, hk⟩
    obtain rfl := Int.ofNat.inj hn
    rw [hnone] at hk
    cases hk
  case holds =>
    funext i k
    obtain ⟨t, w⟩ := k
    rw [eq_iff_iff]
    simp only [HoldsLinear, hheld, Prod.mk.injEq]
    by_cases e : i = f
    · subst e
      rw [if_pos rfl]
      constructor
      · rintro ⟨n, rfl, hk⟩
        split at hk
        · rename_i hc
          exact ⟨hc.1, by rw [hc.2]⟩
        · exact absurd hk (hnew _)
      · rintro ⟨rfl, rfl⟩
        exact ⟨v, rfl, by rw [if_pos ⟨rfl, rfl⟩]⟩
    · rw [if_neg e]
      refine exists_congr fun n => and_congr_right fun _ => ?_
      split
      · rename_i hc
        rw [hc.1, hc.2, hnone]
        simp only [Option.some.injEq, Nat.cast_inj, reduceCtorEq, iff_false]
        exact fun hc => e hc.symm
      · rfl

theorem Linear.page (h : Linear s pend) {i : Nat} {k k' : Nat × Int} (hk : HoldsLinear s i k)
    (hk' : HoldsLinear s i k') : k = k' := by
  obtain ⟨t, v⟩ := k
  obtain ⟨t', v'⟩ := k'
  obtain ⟨n, rfl, hn⟩ := hk
  obtain ⟨n', rfl, hn'⟩ := hk'
  cases h.excl.unique _ _ _ hn hn'
  rfl

theorem HoldsLinear.isUser {i : Nat} {k : Nat × Int} (h : HoldsLinear s i k) :
    s.isUser k.1 = true := by
  obtain ⟨n, -, hk⟩ := h
  obtain ⟨u, sp, -, hu, -, hsp, -⟩ := held_eq_some.mp hk
  simp [Vm.isUser, hu, hsp]

/-- The linear tables, under a condition that leaves room. -/
def linearTables (hR : cfg.useRPT = false) (C : Env → Vm → Int → Prop)
    (hC : ∀ env s addr, C env s addr → RoomyAccess cfg env s addr) : PageTables cfg C where
  Inv s := ∃ pend, Linear s pend
  holds := HoldsLinear
  start := by
    refine ⟨⟨_, linear_start⟩, ?_⟩
    rintro i k ⟨n, -, hk⟩
    have h₀ : Linear (Vm.start cfg) fun _ => [] := linear_start
    obtain ⟨j, -, -, hb⟩ := (h₀.excl.used _).mpr ⟨_, hk⟩
    rw [show (Vm.start cfg).mmBitmap = .new numPhysPages from rfl, Bitmap.bit_new] at hb
    cases hb
  page := by
    rintro s ⟨pend, h⟩ i k k' hk hk'
    exact h.page hk hk'
  user := fun _ _ _ h => HoldsLinear.isUser h
  free := by
    rintro s ⟨pend, h⟩ i k ⟨n, -, hk⟩
    obtain ⟨j, hj, -, hb⟩ := (h.excl.used _).mpr ⟨_, hk⟩
    rwa [Int.ofNat.inj hj]
  core := by
    rintro s s' ⟨pend, h⟩ hc
    exact ⟨⟨pend, h.of_core hc⟩, holdsLinear_congr (held_of_core hc)⟩
  congr := by
    rintro s ⟨pend, h⟩ m tlb
    exact ⟨⟨pend, h.toTables.congr m tlb, h.saved⟩, rfl⟩
  create := by
    rintro s s' p ⟨pend, h⟩ hx
    obtain ⟨i, hheld, h'⟩ := h.create hR hx
    exact ⟨⟨_, h'⟩, holdsLinear_congr hheld⟩
  run := by
    rintro s ⟨pend, h⟩ t
    obtain ⟨hheld, h'⟩ : (s.run cfg t).held = s.held ∧ Linear (s.run cfg t) pend := h.run t
    exact ⟨⟨_, h'⟩, holdsLinear_congr hheld⟩
  exit := by
    rintro s s' ⟨pend, h⟩ hr hx
    obtain ⟨hheld, h'⟩ := h.exit hR hr hx
    refine ⟨⟨_, h'⟩, ?_⟩
    funext i k
    rw [eq_iff_iff]
    simp only [HoldsLinear, hheld]
    by_cases e : k.1 = s.currentThread
    · simp [e]
    · simp [e]
  stable := by
    rintro env s ⟨pend, h⟩ hu vpn
    obtain ⟨u, sp, hu, hex, hsp, hp⟩ := h.inUser hu
    exact stable_linear hR h.toTables hu hex hsp hp vpn
  found := by
    rintro env s vpn f e ⟨pend, h⟩ hu hpos hf
    obtain ⟨u, sp, hu, hex, hsp, hp⟩ := h.inUser hu
    obtain ⟨n, rfl⟩ := Int.eq_ofNat_of_zero_le (hpos hR)
    obtain ⟨hlt, he, hval, hf⟩ := (translation_linear hR h.toTables hu hex hsp hp hf).2.2 f e rfl
    have hok := (h.space _ u sp hu hsp).1
    have hlen : n < sp.pt.length := by
      rw [hok.length]
      omega
    have hget := List.getElem?_eq_getElem hlen
    rw [entry_eq env.stray hget] at he
    rw [← he] at hget
    have hk := held_eq_some.mpr ⟨u, sp, e, hu, hex, hsp, hget, hval, hf.symm⟩
    obtain ⟨i, hi, -⟩ := (h.excl.used _).mpr ⟨_, hk⟩
    exact ⟨i, hi, ⟨hval, hok.vpn n e hget hval, hf.symm.trans hi, fun hc => by simp [hR] at hc⟩,
      n, rfl, by rw [hk, hi]⟩
  walk := by
    rintro s i vpn ⟨pend, h⟩ - ⟨n, hn, hk⟩ env
    obtain rfl : vpn = n := hn
    exact h.toTables.found hR hk
  fault := by
    rintro env s s' addr ⟨pend, h⟩ hu hc hn hx
    have hroom := hC env s addr hc (by simp [faults, hn])
    exact ⟨⟨pend, h.fault hR hu hroom hn hx⟩, h.loads hR hu hroom hn hx⟩

theorem writes_linear (hR : cfg.useRPT = false) :
    (linearTables hR (RoomyAccess cfg) fun _ _ _ h => h).Writes :=
  fun _ _ _ _ _ _ hc hf hfull => absurd hfull (hc hf)

end

/-- Without `USE_RPT` and the TLB, in every run whose accesses are to addresses
that are not negative and fault only while there is a free frame, every read
returns what its thread expects. -/
theorem reachable_faithful_linear {cfg : Config} (hR : cfg.useRPT = false)
    (hT : cfg.useTLB = false) {x : Traced} {op : Op × Env}
    (h : ((System.ofFun (traceStart cfg) (trace cfg)).restrict
      (Accesses (RoomyAccess cfg))).Reachable x)
    (hc : Accesses (RoomyAccess cfg) x op) : Faithful cfg x op :=
  PageTables.reachable_faithful hT (writes_linear hR) h hc

/-- One byte is stored and can be read. -/
theorem reachable_faithful_linear_stored : ∃ x,
    ((System.ofFun (traceStart ⟨false, false, true, false⟩)
      (trace ⟨false, false, true, false⟩)).restrict
      (Accesses (RoomyAccess ⟨false, false, true, false⟩))).Reachable x ∧
    (x.shadow 1 5 = some 7#8 ∧
      Accesses (RoomyAccess ⟨false, false, true, false⟩) x (.read 5 1, .blank)) ∧
    Faithful ⟨false, false, true, false⟩ x (.read 5 1, .blank) := by
  obtain ⟨x, hr, hp⟩ := System.exists_reachable_guarded (traceStart ⟨false, false, true, false⟩)
    (trace ⟨false, false, true, false⟩) (Accesses (RoomyAccess ⟨false, false, true, false⟩))
    ([.create (some ⟨[], 0, 1⟩), .run 1, .write 5 1 7, .write 5 1 7].map fun op => (op, Env.blank))
    (p := fun x => x.shadow 1 5 = some 7#8 ∧
      Accesses (RoomyAccess ⟨false, false, true, false⟩) x (.read 5 1, .blank)) (by decide +kernel)
  obtain ⟨hv, hc⟩ := of_decide_eq_true hp
  exact ⟨x, hr, ⟨hv, hc⟩, reachable_faithful_linear rfl rfl hr hc⟩

/-- The first page of a full memory shares its frame with the page behind, and a store
there changes the byte that was stored in it. -/
theorem not_faithful_linear_shared : ¬ ∀ x op,
    (System.ofFun (traceStart ⟨false, false, false, false⟩)
      (trace ⟨false, false, false, false⟩)).Reachable x →
    Faithful ⟨false, false, false, false⟩ x op := by
  intro hall
  obtain ⟨x, hx, -, y, hy, hu, hs, hv⟩ := exists_shared
  exact not_faithful_of_read hu hs hv (by decide) (hall y _ (System.reachable_foldlM hx hy))

end Nachos.Vm

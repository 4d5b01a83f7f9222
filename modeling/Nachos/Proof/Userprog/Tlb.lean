import Nachos.Proof.Userprog.InvertedMemory
import Nachos.Proof.Userprog.LinearMemory

/-!
# The TLB

`Machine::updateTLB` copies entries of the page table, and `Translate` with
`USE_TLB` looks at the copies only. `Scheduler::Run` and `SC_Exit` drop them; a
page fault does not, so a copy of the entry of a page that it replaces stays.

`PageTables.Cached` is the invariant, over either kind of page table. It gives
`Coherent` in every run that replaces no page with a copy in the TLB
(`reachable_coherent`).
-/

namespace Nachos

theorem Table.mem_of_core {t t' : Table} (h : t'.core = t.core) {e' : TranslationEntry}
    (he : e' ∈ t') : ∃ e ∈ t, e'.core = e.core := by
  have : e'.core ∈ t.core := h ▸ List.mem_map_of_mem he
  obtain ⟨e, he, hc⟩ := List.mem_map.mp this
  exact ⟨e, he, hc.symm⟩

namespace Vm

open Framework

theorem EntryAt.of_core {cfg : Config} {t i : Nat} {vpn : Int} {e e' : TranslationEntry}
    (h : EntryAt cfg t vpn i e) (hc : e'.core = e.core) : EntryAt cfg t vpn i e' := by
  obtain ⟨h₁, h₂, h₃, h₄, -⟩ := TranslationEntry.of_core hc
  exact ⟨h₄.trans h.valid, h₁.trans h.vpn, h₃.trans h.ppn, fun hR => h₂.trans (h.tID hR)⟩

/-- The page is in the frame. -/
def InFrame (cfg : Config) (s : Vm) (i : Nat) (k : Nat × Int) : Prop :=
  if cfg.useRPT then HoldsRPT s i k else HoldsLinear s i k

/-- The TLB agrees with the page table of the running thread. -/
structure Coherent (cfg : Config) (s : Vm) : Prop where
  /-- The page table maps the page to the frame of the copy. -/
  mapped : ∀ e ∈ s.tlb, e.valid = true → ∀ env, ∃ en,
    s.pageTableTranslation cfg env e.vpn = .ok (s, .ok (e.ppn, en))
  /-- The frame holds this page, and no other one. -/
  held : ∀ e ∈ s.tlb, e.valid = true → ∃ i : Nat, e.ppn = i ∧
    ∀ k, InFrame cfg s i k ↔ k = (s.currentThread, e.vpn)
  /-- `Translate` returns the address that the page table gives. -/
  translate : ∀ env addr size w s' pa, s.translate cfg env addr size w = .ok (s', .ok pa) →
    ∃ f en, s.pageTableTranslation cfg env (addr.tdiv pageSize) = .ok (s, .ok (f, en)) ∧
      pa = f * pageSize + addr.tmod pageSize

/-- If the access replaces a page, the TLB has no copy of its entry. Linear
page tables leave no page to replace. -/
def Uncached (cfg : Config) (env : Env) (s : Vm) (addr : Int) : Prop :=
  if cfg.useRPT then
    s.faults cfg env addr = true → s.full → ∀ e ∈ s.tlb, e.valid = true →
      e.ppn ≠ (s.pt.findOneToReplace cfg : Int)
  else 0 ≤ addr.tdiv pageSize ∧ RoomyAccess cfg env s addr

instance (cfg : Config) (env : Env) (s : Vm) (addr : Int) : Decidable (Uncached cfg env s addr) :=
  inferInstanceAs (Decidable (ite _ (_ → _ → _) _))

/-- The operation suspends or restores no thread. -/
def Resident : Op × Env → Bool
  | (.suspend _, _) | (.restore _, _) => false
  | _ => true

/-- All accesses meet `C`, and no thread is suspended. -/
def Cacheable (C : Env → Vm → Int → Prop) (s : Vm) : Op × Env → Prop
  | (.read addr _, env) | (.write addr _ _, env) => C env s addr
  | op => Resident op = true

instance (C : Env → Vm → Int → Prop) [∀ env s addr, Decidable (C env s addr)] (s : Vm)
    (op : Op × Env) : Decidable (Cacheable C s op) :=
  match op with
  | (.read addr _, env) | (.write addr _ _, env) => inferInstanceAs (Decidable (C env s addr))
  | (.create _, _) | (.run _, _) | (.suspend _, _) | (.restore _, _) | (.exit, _) =>
    inferInstanceAs (Decidable (_ = true))

namespace PageTables

variable {cfg : Config} {C : Env → Vm → Int → Prop} (P : PageTables cfg C) {env : Env} {s s' : Vm}

/-- Each valid copy is one of an entry of the running thread. -/
structure Cached (s : Vm) : Prop where
  inv : P.Inv s
  entry : ∀ e ∈ s.tlb, e.valid = true → s.inUser = true ∧
    ∃ i, EntryAt cfg s.currentThread e.vpn i e ∧ P.holds s i (s.currentThread, e.vpn)

variable (cfg C) in
/-- What the TLB needs of the condition. -/
structure Fresh : Prop where
  /-- The entry of a page that is replaced has no copy. -/
  victim : ∀ env s addr v, C env s addr → s.faults cfg env addr = true → s.full →
    s.victim cfg = .ok v → ∀ e ∈ s.tlb, e.valid = true → e.ppn ≠ (v : Int)
  page : ∀ env s addr, C env s addr → cfg.useRPT = false → 0 ≤ addr.tdiv pageSize

variable {P}

/-- The flags do not matter. -/
theorem Cached.of_core (h : P.Cached s) (hc : s'.core = s.core) : P.Cached s' := by
  obtain ⟨hinv, hholds⟩ := P.core h.inv hc
  obtain ⟨-, -, -, htlb, hcur⟩ := Vm.of_core hc
  refine ⟨hinv, fun e' he' hv => ?_⟩
  obtain ⟨e, he, hce⟩ := Table.mem_of_core htlb he'
  obtain ⟨hvpn, -, -, hval, -⟩ := TranslationEntry.of_core hce
  obtain ⟨hu, i, hat, hh⟩ := h.entry e he (hval ▸ hv)
  rw [inUser_of_core hc, hcur, hvpn, hholds]
  exact ⟨hu, i, hat.of_core hce, hh⟩

/-- The operation leaves no valid copy. -/
theorem Cached.of_flushed (hinv : P.Inv s) (h : ∀ e ∈ s.tlb, e.valid = false) : P.Cached s :=
  ⟨hinv, fun e he hv => by rw [h e he] at hv; cases hv⟩

/-- A page fault. -/
theorem Cached.fault (hF : Fresh cfg C) (h : P.Cached s) (hu : s.inUser = true)
    {addr : Int} (hC : C env s addr)
    (hn : s.pageTableTranslation cfg env (addr.tdiv pageSize) = .ok (s, .error .pageFault))
    (hx : s.pageFaultHandler cfg env addr = .ok s') : P.Cached s' := by
  obtain ⟨hinv, p, f, hl⟩ := P.fault h.inv hu hC hn hx
  refine ⟨hinv, fun e' he' hv => ⟨inUser_of_loads hl hinv hu, ?_⟩⟩
  obtain ⟨e, he, hce⟩ := Table.mem_of_core hl.tlb he'
  obtain ⟨hvpn, -, -, hval, -⟩ := TranslationEntry.of_core hce
  obtain ⟨-, i, hat, hh⟩ := h.entry e he (hval ▸ hv)
  have hne : i ≠ f := by
    rintro rfl
    rcases hl.frame with hfree | ⟨hfull, hvic⟩
    · rw [P.free h.inv i _ hh] at hfree
      cases hfree
    · exact hF.victim env s addr i hC (by simp [faults, hn]) hfull hvic e he hat.valid hat.ppn
  rw [hl.current, hl.holds, hvpn]
  exact ⟨i, hat.of_core hce, by simpa only [if_neg hne] using hh⟩

/-- A TLB miss copies the entry that the walk finds. -/
theorem Cached.miss (hF : Fresh cfg C) (h : P.Cached s) (hu : s.inUser = true)
    {addr f : Int} {en : TranslationEntry} {tlb : Table} (hC : C env s addr)
    (hn : s.pageTableTranslation cfg env (addr.tdiv pageSize) = .ok (s, .ok (f, en)))
    (hx : s.tlb.updateTLB cfg env.stray en = .ok tlb) : P.Cached { s with tlb := tlb } := by
  obtain ⟨i, -, hat, hh⟩ := P.found h.inv hu (hF.page env s addr hC) hn
  obtain ⟨k, -, hk⟩ := Table.updateTLB_core hx
  obtain ⟨hinv, hholds⟩ := P.congr h.inv s.mainMemory tlb
  refine ⟨hinv, fun e' he' hv => ⟨hu, ?_⟩⟩
  obtain ⟨e, he, hce⟩ := Table.mem_of_core hk he'
  obtain ⟨hvpn, -, -, hval, -⟩ := TranslationEntry.of_core hce
  have hcopy : e = en ∨ e ∈ s.tlb := by
    obtain ⟨j, hj⟩ := List.mem_iff_getElem?.mp he
    rw [List.getElem?_modify] at hj
    split at hj
    · obtain ⟨_, -, hj⟩ := Option.map_eq_some_iff.mp hj
      exact .inl hj.symm
    · exact .inr (List.mem_of_getElem? (by simpa using hj))
  rw [show P.holds { s with tlb := tlb } = P.holds s from hholds, hvpn]
  rcases hcopy with rfl | he
  · rw [hat.vpn]
    exact ⟨i, hat.of_core hce, hh⟩
  · obtain ⟨-, j, hat', hh'⟩ := h.entry e he (hval ▸ hv)
    exact ⟨j, hat'.of_core hce, hh'⟩

/-- An access that raises an exception. -/
theorem Cached.exception (hF : Fresh cfg C) (h : P.Cached s) (hu : s.inUser = true)
    {addr : Int} {size : Nat} {w : Bool} {s₁ : Vm} {e : ExceptionType} (hC : C env s addr)
    (ht : s.translate cfg env addr size w = .ok (s₁, .error e))
    (hx : s₁.exceptionHandler cfg env e addr = .ok s') : P.Cached s' := by
  rcases exception_cases (P.stable h.inv hu _) ht hx with
    ⟨hn, hf⟩ | ⟨-, f, en, tlb, hn, hm, rfl⟩
  · exact h.fault hF hu hC hn hf
  · exact h.miss hF hu hC hn hm

/-- `SC_Exit` drops the copies of the thread. -/
theorem Cached.exit (h : P.Cached s) (hr : s.runnable s.currentThread = true)
    (hx : s.exit cfg = .ok s') : P.Cached s' := by
  refine .of_flushed (P.exit h.inv hr hx).1 ?_
  obtain ⟨s₁, h₁, hx⟩ := bind_eq_ok.mp hx
  cases hx
  change ∀ e ∈ s₁.tlb, e.valid = false
  unfold exitClean at h₁
  split at h₁
  · rename_i hsp
    cases h₁
    intro e he
    by_contra hv
    obtain ⟨hu, -⟩ := h.entry e he (by simpa using hv)
    simp [inUser, isUser, hsp] at hu
  · split at h₁
    · rename_i hR
      obtain ⟨s₂, h₂, h₁⟩ := bind_eq_ok.mp h₁
      obtain ⟨b, pt, rfl⟩ := exitRPT_frame h₂
      cases h₁
      intro e' he'
      obtain ⟨e, he, rfl⟩ := List.mem_map.mp he'
      split
      · rfl
      · rename_i hne
        by_contra hv
        obtain ⟨-, i, hat, -⟩ := h.entry e he (by simpa using hv)
        exact hne (hat.tID hR)
    · obtain ⟨b, -, h₁⟩ := bind_eq_ok.mp h₁
      cases h₁
      intro e' he'
      obtain ⟨e, -, rfl⟩ := List.mem_map.mp he'
      rfl

/-- A new thread. -/
theorem Cached.create (h : P.Cached s) {p : Option Program} (hx : s.create cfg p = .ok s') :
    P.Cached s' := by
  obtain ⟨hinv, hholds⟩ := P.create h.inv hx
  obtain ⟨i, hi, hs', hth⟩ := thread_create hx
  have htlb : s'.tlb = s.tlb := by rw [hs']
  have hcur : s'.currentThread = s.currentThread := by rw [hs']
  refine ⟨hinv, fun e he hv => ?_⟩
  obtain ⟨hu, hentry⟩ := h.entry e (htlb ▸ he) hv
  refine ⟨?_, by rwa [hcur, hholds]⟩
  obtain ⟨u, hu', -⟩ := runnable_iff.mp (Bool.and_eq_true_iff.mp hu).1
  have hne : s.currentThread ≠ i := by
    rintro e
    rw [e, hi] at hu'
    cases hu'
  have hsame : s'.thread s'.currentThread = s.thread s.currentThread := by
    rw [hcur, hth, if_neg hne]
  simpa only [inUser, runnable, isUser, hsame] using hu

/-- One step. -/
theorem Cached.next (hT : cfg.useTLB = true) (hF : Fresh cfg C) (h : P.Cached s)
    {op : Op × Env} (hc : Cacheable C s op) (hx : next cfg s op = .ok s') : P.Cached s' := by
  obtain ⟨op, env⟩ := op
  unfold Vm.next at hx
  split at hx <;> [rename_i hen; (cases hx; exact h)]
  cases op with
  | create p => exact h.create hx
  | run t =>
    cases hx
    refine .of_flushed (P.run h.inv t).1 fun e he => ?_
    simp only [Vm.run, hT, ite_true] at he
    obtain ⟨_, -, rfl⟩ := List.mem_map.mp he
    rfl
  | read addr size =>
    obtain ⟨⟨s₀, v⟩, hr, hx⟩ := bind_eq_ok.mp hx
    cases hx
    obtain ⟨⟨s₁, r⟩, ht, hr⟩ := bind_eq_ok.mp hr
    cases r with
    | error e =>
      obtain ⟨s₂, h₂, hr⟩ := bind_eq_ok.mp hr
      cases hr
      exact h.exception hF hen hc ht h₂
    | ok pa =>
      obtain ⟨_, -, hr⟩ := bind_eq_ok.mp hr
      obtain ⟨data, -, hr⟩ := bind_eq_ok.mp hr
      cases hr
      rcases translate_cases (by simp [hT]) ht with ⟨_, he, -⟩ | ⟨_, _, _, _, -, hcore, -⟩ <;>
        [cases he; exact h.of_core hcore]
  | write addr size v =>
    obtain ⟨⟨s₀, b⟩, hr, hx⟩ := bind_eq_ok.mp hx
    cases hx
    obtain ⟨⟨s₁, r⟩, ht, hr⟩ := bind_eq_ok.mp hr
    cases r with
    | error e =>
      obtain ⟨s₂, h₂, hr⟩ := bind_eq_ok.mp hr
      cases hr
      exact h.exception hF hen hc ht h₂
    | ok pa =>
      obtain ⟨_, -, hr⟩ := bind_eq_ok.mp hr
      obtain ⟨s₂, h₂, hr⟩ := bind_eq_ok.mp hr
      cases hr
      obtain ⟨-, -, rfl⟩ := store_eq_ok.mp h₂
      rcases translate_cases (by simp [hT]) ht with ⟨_, he, -⟩ | ⟨_, _, _, _, -, hcore, -⟩ <;>
        [cases he; skip]
      have h₁ := h.of_core hcore
      obtain ⟨hinv, hholds⟩ :=
        P.congr h₁.inv (blit s₁.mainMemory pa.toNat (bytes size v)) s₁.tlb
      exact ⟨hinv, fun e he hv => hholds ▸ h₁.entry e he hv⟩
  | exit => exact h.exit hen hx
  | suspend t | restore t => cases hc

/-- The invariant is enough. -/
theorem Cached.coherent (hT : cfg.useTLB = true)
    (hI : ∀ s i k, P.holds s i k ↔ InFrame cfg s i k) (h : P.Cached s) : Coherent cfg s := by
  have hmapped : ∀ e ∈ s.tlb, e.valid = true → ∀ env, ∃ en,
      s.pageTableTranslation cfg env e.vpn = .ok (s, .ok (e.ppn, en)) := by
    intro e he hv env
    obtain ⟨hu, i, hat, hh⟩ := h.entry e he hv
    rw [hat.ppn]
    exact P.walk h.inv hu hh env
  refine ⟨hmapped, fun e he hv => ?_, fun env addr size w s' pa ht => ?_⟩
  · obtain ⟨-, i, hat, hh⟩ := h.entry e he hv
    refine ⟨i, hat.ppn, fun k => ⟨fun hk => ?_, ?_⟩⟩
    · exact P.page h.inv i _ _ ((hI s i k).mpr hk) hh
    · rintro rfl
      exact (hI s i _).mp hh
  · rcases translate_cases (by simp [hT]) ht with ⟨_, he, -⟩ | ⟨_, f, e, k, he, -, hl, rfl, -⟩ <;>
      [cases he; skip]
    cases he
    unfold lookup at hl
    rw [if_pos hT] at hl
    split at hl <;> cases hl
    rename_i k hk
    obtain ⟨hlt, hp, -⟩ := List.findIdx?_eq_some_iff_getElem.mp hk
    simp only [Bool.and_eq_true, decide_eq_true_eq] at hp
    have hnth : s.tlb.nth k = s.tlb[k] := by simp [Table.nth, hlt]
    obtain ⟨en, hen⟩ := hmapped (s.tlb[k]) (List.getElem_mem hlt) hp.1 env
    rw [hp.2] at hen
    exact ⟨_, en, hen, by rw [hnth]⟩

/-- In every run whose accesses meet the condition the TLB is coherent. -/
theorem reachable_cached (hT : cfg.useTLB = true) (hF : Fresh cfg C)
    (h : ((System.ofFun (Vm.start cfg) (Vm.next cfg)).restrict (Cacheable C)).Reachable s) :
    P.Cached s := by
  refine h.invariant (I := P.Cached) ?_ ?_
  · rintro _ rfl
    refine .of_flushed P.start.1 fun e he => ?_
    simp only [Vm.start, hT, ite_true] at he
    rw [List.eq_of_mem_replicate he]
    rfl
  · rintro s op s' hs ⟨hc, hn⟩
    exact hs.next hT hF hc hn

end PageTables

theorem fresh_uncached (cfg : Config) :
    PageTables.Fresh cfg (Uncached cfg) := by
  refine ⟨fun env s addr v hC hf hfull hv => ?_, fun env s addr hC hR => ?_⟩
  · unfold Uncached at hC
    split at hC
    · rename_i hR
      simp only [victim, hR, ite_true, pure_eq_ok, Except.ok.injEq] at hv
      exact hv ▸ hC hf hfull
    · exact absurd hfull (hC.2 hf)
  · simp only [Uncached, hR, Bool.false_eq_true, ite_false] at hC
    exact hC.1

/-- With `USE_TLB`, in every run without suspensions whose accesses replace no
page with a copy in the TLB, the TLB agrees with the page table. -/
theorem reachable_coherent {cfg : Config} (hT : cfg.useTLB = true) {s : Vm}
    (h : ((System.ofFun (start cfg) (next cfg)).restrict
      (Cacheable (Uncached cfg))).Reachable s) : Coherent cfg s := by
  cases hR : cfg.useRPT with
  | true =>
    let P := invertedTables hR (Uncached cfg)
    have hc : P.Cached s := PageTables.reachable_cached hT (fresh_uncached cfg) h
    refine hc.coherent hT fun s i k => ?_
    simp only [InFrame, hR, ite_true]
    rfl
  | false =>
    let P := linearTables hR (Uncached cfg) fun env s addr hC => by
      simp only [Uncached, hR, Bool.false_eq_true, ite_false] at hC
      exact hC.2
    have hc : P.Cached s := PageTables.reachable_cached hT (fresh_uncached cfg) h
    refine hc.coherent hT fun s i k => ?_
    simp only [InFrame, hR, Bool.false_eq_true, ite_false]
    rfl

/-- One page is loaded, and its entry copied. -/
theorem reachable_coherent_copied : ∃ s,
    ((System.ofFun (start ⟨true, true, true, false⟩) (next ⟨true, true, true, false⟩)).restrict
      (Cacheable (Uncached ⟨true, true, true, false⟩))).Reachable s ∧
    (s.tlb.any fun e => e.valid && e.vpn = 3) = true ∧ Coherent ⟨true, true, true, false⟩ s := by
  obtain ⟨s, hr, hp⟩ := System.exists_reachable_guarded (start ⟨true, true, true, false⟩)
    (next ⟨true, true, true, false⟩) (Cacheable (Uncached ⟨true, true, true, false⟩))
    ([.create (some ⟨[], 0, 4⟩), .run 1, .read 384 1, .read 384 1].map fun op => (op, Env.blank))
    (p := fun s => s.tlb.any fun e => e.valid && e.vpn = 3) (by decide +kernel)
  exact ⟨s, hr, hp, reachable_coherent rfl hr⟩

/-- The first page of a full memory has a copy of its entry in the TLB when
one page more replaces it. -/
theorem not_coherent_evicted : ¬ ∀ s,
    ((System.ofFun (start ⟨true, true, false, false⟩) (next ⟨true, true, false, false⟩)).restrict
      fun _ op => Resident op = true).Reachable s → Coherent ⟨true, true, false, false⟩ s := by
  intro hall
  obtain ⟨s, hr, hp⟩ := System.exists_reachable_guarded (start ⟨true, true, false, false⟩)
    (next ⟨true, true, false, false⟩) (fun _ op => Resident op = true)
    (fillRun ⟨[], 0, 129⟩ [.read 0 1, .read memorySize 1])
    (p := fun s => (s.tlb.any fun e => e.valid && e.vpn = 0) &&
      s.faults ⟨true, true, false, false⟩ .blank 0) (by decide +kernel)
  obtain ⟨he, hf⟩ := Bool.and_eq_true_iff.mp hp
  obtain ⟨e, he, hv⟩ := List.any_eq_true.mp he
  obtain ⟨hv, h0⟩ := Bool.and_eq_true_iff.mp hv
  obtain ⟨en, hm⟩ := (hall s hr).mapped e he hv .blank
  rw [of_decide_eq_true h0] at hm
  rw [faults, show Int.tdiv 0 pageSize = 0 from rfl, hm] at hf
  cases hf

end Vm

end Nachos

import Nachos.Framework.Paging
import Nachos.Framework.System
import Nachos.Proof.Userprog.Core
import Nachos.Spec.Shadow

/-!
# Main memory as pages in frames

`paging` reads main memory and the shadow as a state of `Framework.Paging`: a
page is one of a thread, and its file the executable. A load and a store of
the machine are those of the model (`paging_load`, `paging_store`).

`PageTables` says what this needs of the page tables, which may be inverted or
linear: an invariant, the pages that are in the frames, and what each operation
does to them. Under it reads return what was stored
(`PageTables.reachable_faithful`).
-/

namespace Nachos.Vm

open Framework

/-- The program of a thread. -/
def program (s : Vm) (t : Nat) : Option Program :=
  ((s.thread t).bind UserThread.space).map AddrSpace.program

/-- A byte of the executable, at its place in a page. -/
def fileCell (s : Vm) (k : Nat × Int) (o : Fin pageSize) : Option Byte :=
  (s.program k.1).bind fun p =>
    if 0 ≤ p.inFileAddr + k.2 * pageSize then
      p.executable[(p.inFileAddr + k.2 * pageSize).toNat + o]? else none

/-- Main memory `m` and the shadow `g`, with the pages that are in the frames. -/
def paging (m : Nat → Byte) (g : Shadow) (holds : Nat → Nat × Int → Prop) :
    Paging.State Nat (Nat × Int) (Fin pageSize) Byte where
  holds := holds
  mem i o := m (i * pageSize + o)
  shadow k o := g k.1 (k.2 * pageSize + o)

theorem blit_apply (m : Nat → Byte) (a : Nat) (src : List Byte) (x : Nat) :
    blit m a src x = if a ≤ x then (src[x - a]?).getD (m x) else m x := by
  simp [blit, List.getD_eq_getElem?_getD]

/-- A store inside a frame. -/
theorem blit_frame (m : Nat → Byte) {f off : Nat} {bs : List Byte} (h : off + bs.length ≤ pageSize)
    (i : Nat) (o : Fin pageSize) : blit m (f * pageSize + off) bs (i * pageSize + o) =
      if i = f ∧ off ≤ o then (bs[o - off]?).getD (m (i * pageSize + o))
      else m (i * pageSize + o) := by
  have ho := o.isLt
  rw [blit_apply]
  unfold pageSize at *
  by_cases e : i = f
  · subst e
    by_cases hle : off ≤ o
    · rw [if_pos (by omega), if_pos ⟨rfl, hle⟩, show i * 128 + o - (i * 128 + off) = o - off by omega]
    · rw [if_neg (by omega), if_neg (by omega)]
  · rw [if_neg (fun hc : i = f ∧ _ => e hc.1)]
    split
    · rw [List.getElem?_eq_none (by omega)]
      rfl
    · rfl

/-- A load of the machine. -/
theorem paging_load {s : Vm} {t : Nat} {p : Program} {v : Int} (hp : s.program t = some p)
    (hpos : 0 ≤ p.inFileAddr + v * pageSize) (m : Nat → Byte) (g : Shadow)
    (holds : Nat → Nat × Int → Prop) (f : Nat) :
    let m' := blit m (f * pageSize)
      ((p.executable.drop (p.inFileAddr + v * pageSize).toNat).take pageSize)
    paging m' (g.load t v fun o => m' (f * pageSize + o))
        (fun i k => if i = f then k = (t, v) else holds i k) =
      (paging m g holds).load s.fileCell (t, v) f := by
  intro m'
  have hcell : ∀ i (o : Fin pageSize), m' (i * pageSize + o) =
      if i = f then (s.fileCell (t, v) o).getD (m (i * pageSize + o)) else m (i * pageSize + o) := by
    intro i o
    have hlen : 0 + ((p.executable.drop (p.inFileAddr + v * pageSize).toNat).take pageSize).length ≤
        pageSize := by simp
    have := blit_frame m (f := f) hlen i o
    rw [Nat.add_zero] at this
    simp only [m', this, Nat.zero_le, and_true, Nat.sub_zero, fileCell, hp, Option.bind_some,
      if_pos hpos, List.getElem?_take, List.getElem?_drop, o.isLt, ite_true]
  simp only [paging, Paging.State.load, Paging.State.mk.injEq, true_and]
  refine ⟨?_, ?_⟩
  · funext i o
    rw [hcell]
    by_cases e : i = f
    · subst e; simp
    · simp [e]
  · funext k o
    obtain ⟨u, w⟩ := k
    have ho := o.isLt
    have hdiv : (w * pageSize + o : Int) / pageSize = w := by unfold pageSize at *; omega
    have hmod : (w * pageSize + o : Int) % pageSize = o := by unfold pageSize at *; omega
    by_cases e : (u, w) = (t, v)
    · cases e
      simp only [Shadow.load, hdiv, hmod, and_self, ite_true, Function.update_self, hcell,
        Int.toNat_natCast]
    · rw [Function.update_of_ne e, Shadow.load, if_neg]
      rintro ⟨rfl, h⟩
      exact e (by rw [← h, hdiv])

/-- A store of the machine. -/
theorem paging_store {bs : List Byte} {off : Nat} (h : off + bs.length ≤ pageSize)
    (m : Nat → Byte) (g : Shadow) (holds : Nat → Nat × Int → Prop) (t : Nat) (v : Int) (f : Nat) :
    paging (blit m (f * pageSize + off) bs) (g.store t (v * pageSize + off) bs) holds =
      (paging m g holds).store (t, v) f fun o => if off ≤ o then bs[o - off]? else none := by
  simp only [paging, Paging.State.store, Paging.State.mk.injEq, true_and]
  refine ⟨?_, ?_⟩
  · funext i o
    rw [blit_frame m h]
    by_cases e : i = f
    · subst e
      by_cases hle : off ≤ o <;> simp [hle]
    · simp [e]
  · funext k o
    obtain ⟨u, w⟩ := k
    have ho := o.isLt
    unfold Shadow.store
    unfold pageSize at *
    by_cases e : (u, w) = (t, v)
    · cases e
      by_cases hle : off ≤ o
      · rw [Function.update_self, if_pos ⟨rfl, by omega⟩, if_pos hle]
        congr 2
        omega
      · rw [Function.update_self, if_neg (by omega), if_neg hle, Option.none_or]
    · rw [Function.update_of_ne e]
      split
      · rename_i hc
        have : v < w := by
          have : v ≠ w := by
            rintro rfl
            exact e (Prod.ext hc.1 rfl)
          omega
        rw [List.getElem?_eq_none (by omega), Option.none_or]
      · rfl

/-- The pages of a thread that leaves. -/
theorem paging_drop (m : Nat → Byte) (g : Shadow) (holds : Nat → Nat × Int → Prop) (t : Nat) :
    paging m (g.drop t) (fun i k => holds i k ∧ k.1 ≠ t) =
      (paging m g holds).drop fun k => decide (k.1 = t) := by
  simp [paging, Paging.State.drop, Shadow.drop]

/-- An access that succeeds is inside a page. -/
theorem access_inside {addr : Int} {size : Nat} (h : 0 ≤ addr)
    (ha : ¬ ((size = 4 ∧ addr % 4 ≠ 0) ∨ (size = 2 ∧ addr % 2 ≠ 0)))
    (hs : size = 1 ∨ size = 2 ∨ size = 4) :
    ∃ off : Nat, addr.tmod pageSize = off ∧ addr = addr.tdiv pageSize * pageSize + off ∧
      off + size ≤ pageSize := by
  have h₁ := Int.mul_tdiv_add_tmod addr pageSize
  have h₂ := Int.tmod_nonneg (pageSize : Int) h
  have h₃ := Int.tmod_lt_of_pos addr (show (0 : Int) < pageSize by decide)
  refine ⟨(addr.tmod pageSize).toNat, by omega, by rw [Int.mul_comm] at h₁; omega, ?_⟩
  unfold pageSize at *
  omega

theorem program_of_core {s s' : Vm} (h : s'.core = s.core) (t : Nat) :
    s'.program t = s.program t := by
  have ht := thread_of_core h t
  unfold program
  cases h₁ : s.thread t <;> cases h₂ : s'.thread t <;> rw [h₁, h₂] at ht <;> simp at ht ⊢
  have := congrArg (Option.map AddrSpace.program) (UserThread.of_core ht).2.2
  simpa [Function.comp_def, AddrSpace.core] using this

theorem fileCell_congr {s s' : Vm} {k : Nat × Int} (h : s'.program k.1 = s.program k.1) :
    s'.fileCell k = s.fileCell k := by
  funext o
  simp only [fileCell, h]

/-- A read of one byte that returns another one. -/
theorem not_faithful_of_read {cfg : Config} {env : Env} {x : Traced} {addr v : Int} {b : Byte}
    (hu : x.machine.inUser = true) (hs : x.shadow x.machine.currentThread addr = some b)
    (hv : (x.machine.readMem cfg env addr 1).toOption.bind Prod.snd = some v) (hne : v ≠ b.toInt) :
    ¬ Faithful cfg x (.read addr 1, env) := by
  intro hf
  cases hx : x.machine.readMem cfg env addr 1 with
  | error e => simp [hx, Except.toOption] at hv
  | ok q =>
    obtain ⟨s, w⟩ := q
    have hw : w = some v := by simpa [hx, Except.toOption] using hv
    subst hw
    obtain ⟨bs, hlen, hbs, rfl⟩ := hf hu s v hx
    obtain ⟨b', rfl⟩ := List.length_eq_one_iff.mp hlen
    have hb := hbs 0 (by decide)
    rw [show addr + (0 : Nat) = addr by omega, hs] at hb
    cases hb
    exact hne rfl

/-! ## Any page tables -/

/-- A page fault of the running thread loads the page into the frame `f`. -/
structure Loads (cfg : Config) (holds : Vm → Nat → Nat × Int → Prop) (s s' : Vm) (vpn : Int)
    (p : Program) (f : Nat) : Prop where
  program : s.program s.currentThread = some p
  place : 0 ≤ p.inFileAddr + vpn * pageSize
  memory : s'.mainMemory = blit s.mainMemory (f * pageSize)
    ((p.executable.drop (p.inFileAddr + vpn * pageSize).toNat).take pageSize)
  thread : ∀ t, s'.program t = s.program t ∧ s'.runnable t = s.runnable t ∧ (Dead s' t → Dead s t)
  current : s'.currentThread = s.currentThread
  tlb : s'.tlb.core = s.tlb.core
  frame : s.mmBitmap.bit f = false ∨ s.full ∧ s.victim cfg = .ok f
  absent : ∀ i, ¬ holds s i (s.currentThread, vpn)
  holds : holds s' = fun i k => if i = f then k = (s.currentThread, vpn) else holds s i k

theorem Loads.self {cfg : Config} {holds : Vm → Nat → Nat × Int → Prop} {s s' : Vm} {vpn : Int}
    {p : Program} {f : Nat} (h : Loads cfg holds s s' vpn p f) :
    holds s' f (s'.currentThread, vpn) := by
  simp [h.holds, h.current]

/-- The entry of the page that is in the frame `i`. -/
structure EntryAt (cfg : Config) (t : Nat) (vpn : Int) (i : Nat) (e : TranslationEntry) : Prop where
  valid : e.valid = true
  vpn : e.vpn = vpn
  ppn : e.ppn = i
  tID : cfg.useRPT = true → e.tID = t

/-- The page tables of the threads: an invariant and the pages in the frames,
as long as accesses that fault meet `C`. -/
structure PageTables (cfg : Config) (C : Env → Vm → Int → Prop) where
  Inv : Vm → Prop
  holds : Vm → Nat → Nat × Int → Prop
  start : Inv (start cfg) ∧ ∀ i k, ¬ holds (start cfg) i k
  page : ∀ {s}, Inv s → ∀ i k k', holds s i k → holds s i k' → k = k'
  user : ∀ {s}, Inv s → ∀ i k, holds s i k → s.isUser k.1 = true
  free : ∀ {s}, Inv s → ∀ i k, holds s i k → s.mmBitmap.bit i = true
  core : ∀ {s s'}, Inv s → s'.core = s.core → Inv s' ∧ holds s' = holds s
  congr : ∀ {s}, Inv s → ∀ m tlb, Inv { s with mainMemory := m, tlb := tlb } ∧
    holds { s with mainMemory := m, tlb := tlb } = holds s
  create : ∀ {s s' p}, Inv s → s.create cfg p = .ok s' → Inv s' ∧ holds s' = holds s
  run : ∀ {s}, Inv s → ∀ t, Inv (s.run cfg t) ∧ holds (s.run cfg t) = holds s
  exit : ∀ {s s'}, Inv s → s.runnable s.currentThread = true → s.exit cfg = .ok s' →
    Inv s' ∧ holds s' = fun i k => holds s i k ∧ k.1 ≠ s.currentThread
  stable : ∀ {env s}, Inv s → s.inUser = true → ∀ vpn, s.Stable cfg env vpn
  found : ∀ {env s vpn f e}, Inv s → s.inUser = true → (cfg.useRPT = false → 0 ≤ vpn) →
    s.pageTableTranslation cfg env vpn = .ok (s, .ok (f, e)) →
    ∃ i : Nat, f = i ∧ EntryAt cfg s.currentThread vpn i e ∧ holds s i (s.currentThread, vpn)
  walk : ∀ {s i vpn}, Inv s → s.inUser = true → holds s i (s.currentThread, vpn) → ∀ env,
    ∃ e, s.pageTableTranslation cfg env vpn = .ok (s, .ok ((i : Int), e))
  fault : ∀ {env s s' addr}, Inv s → s.inUser = true → C env s addr →
    s.pageTableTranslation cfg env (addr.tdiv pageSize) = .ok (s, .error .pageFault) →
    s.pageFaultHandler cfg env addr = .ok s' →
    Inv s' ∧ ∃ p f, Loads cfg holds s s' (addr.tdiv pageSize) p f

/-- All accesses are to addresses that are not negative and meet `C`. -/
def Accesses (C : Env → Vm → Int → Prop) (x : Traced) : Op × Env → Prop
  | (.read addr _, env) | (.write addr _ _, env) => 0 ≤ addr ∧ C env x.machine addr
  | _ => True

instance (C : Env → Vm → Int → Prop) [∀ env s addr, Decidable (C env s addr)] (x : Traced)
    (op : Op × Env) : Decidable (Accesses C x op) :=
  match op with
  | (.read _ _, _) | (.write _ _ _, _) => inferInstanceAs (Decidable (_ ∧ _))
  | (.create _, _) | (.run _, _) | (.suspend _, _) | (.restore _, _) | (.exit, _) =>
    inferInstanceAs (Decidable True)

namespace PageTables

variable {cfg : Config} {C : Env → Vm → Int → Prop} (P : PageTables cfg C) {env : Env} {x x' : Traced}

/-- What the threads expect is in the frames. -/
structure Seen (x : Traced) : Prop where
  inv : P.Inv x.machine
  paging : (paging x.machine.mainMemory x.shadow (P.holds x.machine)).Inv x.machine.fileCell
  dead : ∀ t, Dead x.machine t → ∀ addr, x.shadow t addr = none

variable {P}

theorem inUser_of_loads {s s' : Vm} {vpn : Int} {p : Program} {f : Nat}
    (h : Loads cfg P.holds s s' vpn p f) (hinv : P.Inv s') (hu : s.inUser = true) :
    s'.inUser = true := by
  refine Bool.and_eq_true_iff.mpr ⟨?_, ?_⟩
  · rw [h.current, (h.thread _).2.1]
    exact (Bool.and_eq_true_iff.mp hu).1
  · exact P.user hinv f (s'.currentThread, vpn) h.self

/-- What memory needs of the condition: a page that is replaced is as the
executable has it. -/
def Writes (P : PageTables cfg C) : Prop :=
  ∀ env s addr v k, P.Inv s → C env s addr → s.faults cfg env addr = true → s.full →
    s.victim cfg = .ok v → P.holds s v k →
    ∀ o : Fin pageSize, s.fileCell k o = some (s.mainMemory (v * pageSize + o))

section
variable (hT : cfg.useTLB = false)

include hT

/-- A page fault. -/
theorem Seen.fault (hW : Writes P) (h : P.Seen x) (hu : x.machine.inUser = true) {addr : Int}
    {size : Nat} {w : Bool} {s₁ s' : Vm} {e : ExceptionType} (hC : C env x.machine addr)
    (ht : x.machine.translate cfg env addr size w = .ok (s₁, .error e))
    (hx : s₁.exceptionHandler cfg env e addr = .ok s') :
    P.Seen ⟨s', x.shadow.loaded cfg env s' (addr.tdiv pageSize)⟩ := by
  rcases exception_cases (P.stable h.inv hu _) ht hx with ⟨hn, hx⟩ | ⟨hT', -⟩ <;>
    [skip; simp [hT] at hT']
  obtain ⟨hinv, p, f, hl⟩ := P.fault h.inv hu hC hn hx
  obtain ⟨en, hfound⟩ := P.walk hinv (inUser_of_loads hl hinv hu) hl.self env
  have hload : x.shadow.loaded cfg env s' (addr.tdiv pageSize) =
      x.shadow.load x.machine.currentThread (addr.tdiv pageSize)
        fun o => s'.mainMemory (f * pageSize + o) := by
    simp [Shadow.loaded, hfound, hl.current]
  have hfile : s'.fileCell = x.machine.fileCell :=
    funext fun k => fileCell_congr (hl.thread k.1).1
  refine ⟨hinv, ?_, fun t ht a => ?_⟩
  · simp only [hload, hfile, hl.holds, hl.memory]
    rw [paging_load hl.program hl.place]
    refine h.paging.load hl.absent fun k hk => ?_
    rcases hl.frame with hfree | ⟨hfull, hv⟩
    · rw [P.free h.inv f k hk] at hfree
      cases hfree
    · exact hW env x.machine addr f k h.inv hC (by simp [faults, hn]) hfull hv hk
  · have hdead := (hl.thread t).2.2 ht
    have hne : t ≠ x.machine.currentThread := by
      rintro rfl
      exact not_dead_of_runnable (Bool.and_eq_true_iff.mp hu).1 hdead
    simp [hload, Shadow.load, hne, h.dead t hdead]

/-- An access that finds its page. -/
theorem Seen.hit (h : P.Seen x) (hu : x.machine.inUser = true) {addr pa : Int} {size : Nat} {w : Bool}
    {s' : Vm} (hpos : 0 ≤ addr) (hs : size = 1 ∨ size = 2 ∨ size = 4)
    (ht : x.machine.translate cfg env addr size w = .ok (s', .ok pa)) :
    s'.core = x.machine.core ∧ ∃ f off : Nat, pa = (f * pageSize + off : Nat) ∧
      addr = addr.tdiv pageSize * pageSize + off ∧ off + size ≤ pageSize ∧
      P.holds x.machine f (x.machine.currentThread, addr.tdiv pageSize) := by
  have hst : x.machine.Stable cfg env (addr.tdiv pageSize) := P.stable h.inv hu _
  rcases translate_cases (fun _ => hst) ht with
    ⟨e, he, -⟩ | ⟨_, f, e, k, he, hcore, hl, rfl, hal⟩ <;> [cases he; skip]
  cases he
  obtain ⟨q, hq, hr⟩ := (lookup_stable (fun _ => hst) hl).2 hT
  cases q with
  | error e => cases hr
  | ok p =>
    cases hr
    obtain ⟨i, hi, -, hh⟩ := P.found (f := p.1) (e := p.2) h.inv hu
      (fun _ => Int.tdiv_nonneg hpos (by decide)) hq
    obtain ⟨off, h₁, h₂, h₃⟩ := access_inside hpos hal hs
    exact ⟨hcore, i, off, by rw [h₁, hi]; simp, h₂, h₃, hh⟩

/-- A read returns what the thread expects. -/
theorem Seen.faithful (h : P.Seen x) {op : Op × Env} (hc : Accesses C x op) : Faithful cfg x op := by
  unfold Faithful
  split <;> [skip; trivial]
  rename_i addr size env
  intro hu s v hx
  obtain ⟨⟨s₁, r⟩, ht, hx⟩ := bind_eq_ok.mp hx
  cases r with
  | error e =>
    obtain ⟨s₂, -, hx⟩ := bind_eq_ok.mp hx
    cases hx
  | ok pa =>
    obtain ⟨_, hs, hx⟩ := bind_eq_ok.mp hx
    obtain ⟨data, hd, hx⟩ := bind_eq_ok.mp hx
    cases hx
    obtain ⟨hcore, f, off, rfl, haddr, hoff, hf⟩ := h.hit hT hu hc.1 (assert_eq_ok.mp hs) ht
    obtain ⟨-, -, rfl⟩ := fetch_eq_ok.mp hd
    refine ⟨_, by simp, fun i hi => ?_, rfl⟩
    have hres := h.paging.resident f _ hf ⟨off + i, by omega⟩
    simp only [Vm.paging] at hres
    have hai : addr + (i : Int) = addr.tdiv pageSize * pageSize + ((off + i : Nat) : Int) := by
      omega
    rw [hai, hres]
    simp only [List.getElem?_map, List.getElem?_range hi, Option.map_some, Int.toNat_natCast,
      (of_core hcore).2.1, Nat.add_assoc]

omit hT

/-- The machine changes flags only. -/
theorem Seen.of_core (h : P.Seen x) {s' : Vm} (hc : s'.core = x.machine.core) :
    P.Seen ⟨s', x.shadow⟩ := by
  obtain ⟨hinv, hholds⟩ := P.core h.inv hc
  refine ⟨hinv, ?_, fun t ht => h.dead t fun u hu => ?_⟩
  · simp only [hholds, (Vm.of_core hc).2.1]
    exact h.paging.congr fun k o _ => by rw [fileCell_congr (program_of_core hc k.1)]
  · obtain ⟨u', hu', hcu⟩ := thread_of_core_some hc.symm hu
    rw [(UserThread.of_core hcu).1]
    exact ht u' hu'

/-- The threads that exist stay as they are. -/
theorem Seen.of_thread (h : P.Seen x) {s' : Vm} (hinv : P.Inv s')
    (hm : s'.mainMemory = x.machine.mainMemory) (hh : P.holds s' = P.holds x.machine)
    (hth : ∀ t, ¬ Dead x.machine t → s'.thread t = x.machine.thread t)
    (hdead : ∀ t, Dead s' t → Dead x.machine t) : P.Seen ⟨s', x.shadow⟩ := by
  refine ⟨hinv, ?_, fun t ht => h.dead t (hdead t ht)⟩
  simp only [hm, hh]
  refine h.paging.congr fun k o hk => ?_
  have hlive : ¬ Dead x.machine k.1 := fun hd => hk (h.dead k.1 hd _)
  rw [fileCell_congr]
  simp only [program, hth k.1 hlive]

/-- A store. -/
theorem Seen.store (h : P.Seen x) (hu : x.machine.inUser = true) {f off : Nat} {v : Int}
    {bs : List Byte} (hoff : off + bs.length ≤ pageSize)
    (hf : P.holds x.machine f (x.machine.currentThread, v)) :
    P.Seen ⟨{ x.machine with mainMemory := blit x.machine.mainMemory (f * pageSize + off) bs },
      x.shadow.store x.machine.currentThread (v * pageSize + off) bs⟩ := by
  obtain ⟨hinv, hholds⟩ :=
    P.congr h.inv (blit x.machine.mainMemory (f * pageSize + off) bs) x.machine.tlb
  refine ⟨hinv, ?_, fun t ht addr => ?_⟩
  · rw [show P.holds { x.machine with
      mainMemory := blit x.machine.mainMemory (f * pageSize + off) bs } = P.holds x.machine from hholds,
      paging_store hoff]
    exact h.paging.store hf _
  · have hne : t ≠ x.machine.currentThread := by
      rintro rfl
      exact not_dead_of_runnable (Bool.and_eq_true_iff.mp hu).1 ht
    simp only [Shadow.store, hne, false_and, ite_false]
    exact h.dead t ht addr

include hT

/-- One step. -/
theorem Seen.trace (hW : Writes P) (h : P.Seen x) {op : Op × Env} (hc : Accesses C x op)
    (hx : trace cfg x op = .ok x') : P.Seen x' := by
  obtain ⟨op, env⟩ := op
  unfold Vm.trace at hx
  split at hx <;> [rename_i hen; (cases hx; exact h)]
  cases op with
  | create p =>
    obtain ⟨s, hs, hx⟩ := bind_eq_ok.mp hx
    cases hx
    obtain ⟨hinv, hh⟩ := P.create h.inv hs
    obtain ⟨i, hi, hs', hth⟩ := thread_create hs
    have hne : ∀ t ≠ i, s.thread t = x.machine.thread t := fun t e => by rw [hth, if_neg e]
    have hdi : Dead x.machine i := fun u hu => by rw [hi] at hu; cases hu
    refine h.of_thread hinv (by rw [hs']) hh (fun t ht => hne t ?_) fun t ht => ?_
    · rintro rfl
      exact ht hdi
    · by_cases e : t = i
      · exact e ▸ hdi
      · exact fun u hu => ht u ((hne t e).trans hu)
  | run t =>
    cases hx
    obtain ⟨hinv, hh⟩ := P.run h.inv t
    have hm : (x.machine.run cfg t).mainMemory = x.machine.mainMemory := by
      unfold Vm.run
      cases cfg.useTLB <;> rfl
    refine h.of_thread hinv hm hh (fun w hw => ?_) fun w hw u hu => ?_
    · rw [thread_run, if_neg]
      rintro ⟨-, he⟩
      obtain ⟨u, hu, he⟩ := (Option.any_eq_true _ _).mp he
      exact hw fun u' hu' => by rw [hu] at hu'; cases hu'; exact he
    · by_cases hc : w = x.machine.currentThread ∧ (x.machine.thread w).any UserThread.exited = true
      · simpa [hu] using hc.2
      · exact hw u (by rw [thread_run, if_neg hc]; exact hu)
  | read addr size =>
    obtain ⟨⟨s, v⟩, hr, hx⟩ := bind_eq_ok.mp hx
    cases hx
    obtain ⟨⟨s₁, r⟩, ht, hr⟩ := bind_eq_ok.mp hr
    cases r with
    | error e =>
      obtain ⟨s₂, h₂, hr⟩ := bind_eq_ok.mp hr
      cases hr
      exact h.fault hT hW hen hc.2 ht h₂
    | ok pa =>
      obtain ⟨_, hs, hr⟩ := bind_eq_ok.mp hr
      obtain ⟨data, -, hr⟩ := bind_eq_ok.mp hr
      cases hr
      exact h.of_core (h.hit hT hen hc.1 (assert_eq_ok.mp hs) ht).1
  | write addr size v =>
    obtain ⟨⟨s, b⟩, hr, hx⟩ := bind_eq_ok.mp hx
    cases hx
    obtain ⟨⟨s₁, r⟩, ht, hr⟩ := bind_eq_ok.mp hr
    cases r with
    | error e =>
      obtain ⟨s₂, h₂, hr⟩ := bind_eq_ok.mp hr
      cases hr
      exact h.fault hT hW hen hc.2 ht h₂
    | ok pa =>
      obtain ⟨_, hs, hr⟩ := bind_eq_ok.mp hr
      obtain ⟨s₂, h₂, hr⟩ := bind_eq_ok.mp hr
      cases hr
      obtain ⟨-, -, rfl⟩ := store_eq_ok.mp h₂
      obtain ⟨hcore, f, off, rfl, haddr, hoff, hf⟩ := h.hit hT hen hc.1 (assert_eq_ok.mp hs) ht
      have hcur : s₁.currentThread = x.machine.currentThread := (Vm.of_core hcore).2.2.2.2
      have hu : s₁.inUser = true := by
        rw [inUser_of_core hcore]
        exact hen
      have hf' : P.holds s₁ f (s₁.currentThread, addr.tdiv pageSize) := by
        rw [(P.core h.inv hcore).2, hcur]
        exact hf
      have := (h.of_core hcore).store hu
        (show off + (bytes size v).length ≤ pageSize by simpa [bytes] using hoff) hf'
      rw [← haddr] at this
      simp only [ite_true, Int.toNat_natCast]
      rw [← hcur]
      exact this
  | exit =>
    obtain ⟨s, hs, hx⟩ := bind_eq_ok.mp hx
    cases hx
    obtain ⟨hinv, hh⟩ := P.exit h.inv hen hs
    obtain ⟨hm, hth⟩ := exit_thread hs
    refine ⟨hinv, ?_, fun t ht addr => ?_⟩
    · simp only [hh, hm]
      rw [paging_drop]
      refine (h.paging.drop _).congr fun k o _ => ?_
      rw [fileCell_congr]
      simp only [program, hth]
      split
      · cases x.machine.thread k.1 <;> rfl
      · rfl
    · simp only [Shadow.drop]
      split
      · rfl
      · rename_i e
        exact h.dead t (fun u hu => ht u (by rw [hth, if_neg e]; exact hu)) addr
  | suspend t | restore t =>
    cases hx
    exact h

/-- In every run whose accesses all meet the condition every read returns what
its thread expects. -/
theorem reachable_faithful (hW : Writes P) {op : Op × Env}
    (h : ((System.ofFun (traceStart cfg) (Vm.trace cfg)).restrict (Accesses C)).Reachable x)
    (hc : Accesses C x op) : Faithful cfg x op := by
  have : P.Seen x := by
    refine h.invariant (I := P.Seen) ?_ ?_
    · rintro _ rfl
      have hnone : ∀ i k, ¬ P.holds (traceStart cfg).machine i k := P.start.2
      exact ⟨P.start.1, ⟨fun i k _ hi => absurd hi (hnone i k), fun i _ k hi => absurd hi (hnone i k),
        fun i k hi => absurd hi (hnone i k), fun _ _ => .inl fun _ => rfl⟩, fun _ _ _ => rfl⟩
    · rintro x op x' hx ⟨hc, ht⟩
      exact hx.trace hT hW hc ht
  exact this.faithful hT hc

end

end PageTables

end Nachos.Vm

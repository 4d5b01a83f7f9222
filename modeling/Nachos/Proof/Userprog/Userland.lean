import Nachos.Proof.Userprog.Alone
import Nachos.Proof.Userprog.InvertedMemory
import Nachos.Proof.Userprog.LinearMemory

/-!
# User programs do not notice each other

Any number of threads run user programs on one processor, with page faults,
interrupts and context switches between any two instructions. In every state each
of them is where its program, alone on a machine with a memory of its own, can be
(`reachable_alone`): the first contents of this memory are those of the executable,
and what other threads left in the frames where the executable has nothing.

What a page had when it was loaded for the first time is not known before
(`first`). So the invariant is about every memory that has the known first contents
(`Runs`), and as these only grow while a thread lives (`Keeps`), one first memory does
for all of its life.
-/

namespace Nachos

open Framework

open Vm (Shadow PageTables Dead overlay)

namespace Cpu

variable (cfg : Config) (env : Env) (c : Cpu)

/-- The address and the size of the instruction's operand. -/
def operand : Option (BitVec 32 × Nat) :=
  match c.memory.load cfg env (c.registers Reg.pc).toInt 4 with
  | .ok (_, .ok raw) => (Instruction.decode raw).data c.registers
  | _ => none

/-- The state after the instruction, if it is a page fault. -/
def pageFault : Option Cpu :=
  match c.oneInstruction cfg env with
  | .ok (c, some (.memory .pageFault)) => some c
  | _ => none

/-- The instruction accesses no negative address. -/
def Nonneg : Prop :=
  0 ≤ (c.registers Reg.pc).toInt ∧ ∀ x ∈ c.operand cfg env, 0 ≤ x.1.toInt

instance : Decidable (c.Nonneg cfg env) := inferInstanceAs (Decidable (_ ∧ _))

/-- If the instruction is a page fault, this meets `C`. -/
def FaultMeets (C : Env → Vm → Int → Prop) : Prop :=
  ∀ c' ∈ c.pageFault cfg env, C env c'.memory (c'.registers Reg.badVAddr).toInt

instance (C : Env → Vm → Int → Prop) [∀ env s addr, Decidable (C env s addr)] :
    Decidable (c.FaultMeets cfg env C) := inferInstanceAs (Decidable (∀ _ ∈ _, _))

end Cpu

namespace Userland

/-- Instructions access no negative address, and their page faults meet `C`. -/
def Meets (cfg : Config) (C : Env → Vm → Int → Prop) (u : Userland) : Op × Env → Prop
  | (.instruction, env) => u.toCpu.Nonneg cfg env ∧ u.toCpu.FaultMeets cfg env C
  | _ => True

instance (cfg : Config) (C : Env → Vm → Int → Prop) [∀ env s addr, Decidable (C env s addr)]
    (u : Userland) (op : Op × Env) : Decidable (Meets cfg C u op) :=
  match op with
  | (.instruction, _) => inferInstanceAs (Decidable (_ ∧ _))
  | (.create _, _) | (.execute, _) | (.interrupt, _) | (.finish, _) | (.run _, _) =>
    inferInstanceAs (Decidable True)

/-- A program `p` with the registers `r` and the known bytes `g`: with any memory
that has the bytes `f` at first, it comes there alone. -/
structure Runs (p : Option Program) (r : Option Registers) (g f : Int → Option Byte) : Prop where
  first : ∀ a, f a = none ↔ g a = none
  image : ∀ q, p = some q → ∀ (a : Int) (b b' : Byte), 0 ≤ q.inFileAddr + a / pageSize * pageSize →
    q.executable[(q.inFileAddr + a).toNat]? = some b → f a = some b' → b' = b
  blank : r = none → ∀ a, g a = none
  wf : ∀ r', r = some r' → r'.Wf
  alone : ∀ q r', p = some q → r = some r' → ∀ m₀ : Int → Byte, (∀ a b, f a = some b → m₀ a = b) →
    (Solo.system q m₀).Reachable ⟨r', overlay g m₀⟩

section
variable {cfg : Config} {C : Env → Vm → Int → Prop} {P : PageTables cfg C} {env : Env}
  {u u' : Userland} {g f : Shadow}

/-- The invariant; `f` are the first contents. -/
structure Inv (P : PageTables cfg C) (u : Userland) (g f : Shadow) : Prop where
  seen : P.Seen ⟨u.memory, g⟩
  absent : ∀ t, t ≠ u.current → u.memory.runnable t = false → u.userRegisters t = none
  runs : ∀ t, u.memory.runnable t = true →
    Runs (u.memory.program t) (u.registersOf t) (g t) (f t)

/-- What a thread that lives keeps: its program, and the first contents that are known. -/
def Keeps (s s' : Vm) (f f' : Shadow) : Prop :=
  ∀ t, s.runnable t = true → s'.program t = s.program t ∧ ∀ a b, f t a = some b → f' t a = some b

/-- The first memory, if the rest of it is zero. -/
theorem Runs.exists_image {p : Program} {r : Option Registers} {g f : Int → Option Byte}
    (h : Runs (some p) r g f) : ∃ m₀ : Int → Byte, p.Image m₀ ∧ ∀ a b, f a = some b → m₀ a = b := by
  obtain ⟨m, hm⟩ : ∃ m : Int → Option Byte, ∀ a, m a =
      if 0 ≤ p.inFileAddr + a / pageSize * pageSize then p.executable[(p.inFileAddr + a).toNat]?
      else none := ⟨_, fun _ => rfl⟩
  refine ⟨fun a => (f a).getD ((m a).getD 0), fun a b ha hb => ?_, fun a b hb => by simp [hb]⟩
  show (f a).getD ((m a).getD 0) = b
  rw [hm, if_pos ha, hb]
  cases hf : f a with
  | none => rfl
  | some b' => exact h.image p rfl a b b' ha hb hf

/-- The thread goes on to `r'`, with what is known of its memory as before. -/
theorem Runs.step {p : Option Program} {r r' : Registers} {g f : Int → Option Byte}
    (h : Runs p (some r) g f) {e : Solo.Event} (hw : r'.Wf)
    (hs : ∀ m₀, Solo.next ⟨r, overlay g m₀⟩ e = .ok ⟨r', overlay g m₀⟩) : Runs p (some r') g f where
  first := h.first
  image := h.image
  blank hn := by cases hn
  wf r'' hr := by
    cases hr
    exact hw
  alone q r'' hq hr m₀ hm := by
    cases hr
    exact .step (h.alone q r hq rfl m₀ hm) (hs m₀)

theorem registersOf_self {t : Nat} (h : t = u.current) :
    u.registersOf t = (u.userRegisters t).map fun _ => u.registers := by
  unfold registersOf
  simp only [if_pos h]

theorem registersOf_other {t : Nat} (h : t ≠ u.current) : u.registersOf t = u.userRegisters t := by
  unfold registersOf
  simp only [if_neg h, Option.map_id']

theorem registersOf_current (h : (u.userRegisters u.current).isSome = true) :
    u.registersOf u.current = some u.registers := by
  obtain ⟨r, hr⟩ := Option.isSome_iff_exists.mp h
  rw [registersOf_self rfl, hr, Option.map_some]

/-- The running thread goes on, with other registers and in another memory. -/
theorem Inv.update (h : Inv P u g f) {c : Cpu} {halted : Bool} {g' f' : Shadow}
    (hseen : P.Seen ⟨c.memory, g'⟩) (hcur : c.memory.currentThread = u.current)
    (hth : ∀ t, c.memory.program t = u.memory.program t ∧ c.memory.runnable t = u.memory.runnable t)
    (hothers : ∀ t, t ≠ u.current → g' t = g t ∧ f' t = f t)
    (hrun : u.memory.runnable u.current = true → Runs (u.memory.program u.current)
      ((u.userRegisters u.current).map fun _ => c.registers) (g' u.current) (f' u.current)) :
    Inv P { u with toCpu := c, halted := halted } g' f' where
  seen := hseen
  absent t ht hr := by
    rw [(hth t).2] at hr
    exact h.absent t (fun e => ht (e.trans hcur.symm)) hr
  runs t hr := by
    rw [(hth t).2] at hr
    rw [(hth t).1]
    by_cases e : t = u.current
    · subst e
      rw [registersOf_self (u := { u with toCpu := c, halted := halted }) hcur.symm]
      exact hrun hr
    · have he : t ≠ ({ u with toCpu := c, halted := halted } : Userland).current := fun hc =>
        e (hc.trans hcur)
      rw [registersOf_other he, (hothers t e).1, (hothers t e).2, ← registersOf_other e]
      exact h.runs t hr

/-- An event of the running thread alone. -/
theorem Inv.event (h : Inv P u g f) {c : Cpu} {halted : Bool} {g' : Shadow} (e : Solo.Event)
    (hp : (u.userRegisters u.current).isSome = true) (ht : P.Tracks u.memory g c.memory g')
    (hw : c.registers.Wf)
    (hs : ∀ m₀, Solo.next ⟨u.registers, overlay (g u.current) m₀⟩ e =
      .ok ⟨c.registers, overlay (g' u.current) m₀⟩) :
    Inv P { u with toCpu := c, halted := halted } g' f := by
  refine h.update ht.seen ht.current (fun t => ⟨ht.program t, ht.runnable t⟩)
    (fun t he => ⟨ht.others t he, rfl⟩) fun hr => ?_
  have hold := h.runs u.current hr
  rw [registersOf_current hp] at hold
  obtain ⟨r, hr'⟩ := Option.isSome_iff_exists.mp hp
  rw [hr', Option.map_some]
  refine ⟨fun a => (hold.first a).trans (ht.known a).symm, hold.image, fun hn => (by cases hn),
    fun r' hr => ?_, fun q r' hq hr m₀ hm => ?_⟩
  · cases hr
    exact hw
  · cases hr
    exact .step (hold.alone q u.registers hq rfl m₀ hm) (hs m₀)

/-- A page is loaded; what it had is known from then on. -/
theorem Runs.load {p : Option Program} {r : Registers} {t : Nat} (h : Runs p (some r) (g t) (f t))
    {v : Int} {page : Nat → Byte}
    (hp : ∀ q, p = some q → ∀ o b, o < pageSize →
      q.executable[(q.inFileAddr + v * pageSize).toNat + o]? = some b → page o = b) :
    Runs p (some r) (g.load t v page t) (f.load t v page t) where
  first a := by
    have := h.first a
    simp only [Shadow.load, true_and]
    split
    · simp
    · exact this
  image q hq a b b' ha hb hf := by
    simp only [Shadow.load, true_and] at hf
    split at hf
    · rename_i hv
      cases hold : f t a with
      | some b'' =>
        rw [hold] at hf
        exact h.image q hq a b b' ha hb (hold.trans hf)
      | none =>
        rw [hold] at hf
        cases hf
        have ho : (a % pageSize).toNat < pageSize := by unfold pageSize; omega
        refine hp q hq _ b ho ?_
        rw [← hb]
        congr 1
        unfold pageSize at *
        omega
    · exact h.image q hq a b b' ha hb hf
  blank hn := by cases hn
  wf := h.wf
  alone q r' hq hr m₀ hm := by
    have hold : ∀ a b, f t a = some b → m₀ a = b := fun a b hb => by
      refine hm a b ?_
      simp only [Shadow.load, hb, Option.some_or, ite_self]
    have hover : overlay (g.load t v page t) m₀ = overlay (g t) m₀ := by
      funext a
      simp only [overlay, Shadow.load, true_and]
      split
      · rename_i hv
        cases hg : g t a with
        | some b => rfl
        | none =>
          have hf := (h.first a).mpr hg
          refine (hm a _ ?_).symm
          simp only [Shadow.load, hf, hv, and_self, if_true, Option.none_or]
          rfl
      · rfl
    rw [hover]
    exact h.alone q r' hq hr m₀ hold

section
variable (hT : cfg.useTLB = false) (hW : P.Writes)

include hT hW in
/-- A page fault is handled. -/
theorem Inv.fault (h : Inv P u g f) (hu : u.memory.inUser = true)
    (hp : (u.userRegisters u.current).isSome = true) {c : Cpu} {halted : Bool} {addr : Int}
    {size : Nat} {w : Bool} (hC : C env u.memory addr)
    (ht : u.memory.translate cfg env addr size w = .ok (u.memory, .error .pageFault))
    (hx : u.memory.exceptionHandler cfg env .pageFault addr = .ok c.memory)
    (hc : c.registers = u.registers) :
    ∃ g' f', Inv P { u with toCpu := c, halted := halted } g' f' ∧
      Keeps u.memory c.memory f f' := by
  obtain ⟨p, page, hprog, hseen, hcur, hth, hpage⟩ := h.seen.faulted hT hW hu hC ht hx
  refine ⟨_, f.load u.current (addr.tdiv pageSize) page, h.update hseen hcur hth
    (fun t ht => ⟨?_, ?_⟩) fun hr => ?_, fun t _ => ⟨(hth t).1, fun a b hb => ?_⟩⟩
  · exact funext fun a => if_neg fun hc => ht hc.1
  · exact funext fun a => if_neg fun hc => ht hc.1
  · have hold := h.runs u.current hr
    rw [registersOf_current hp] at hold
    obtain ⟨r, hr'⟩ := Option.isSome_iff_exists.mp hp
    rw [hr', Option.map_some, hc]
    refine hold.load fun q hq o b ho hb => hpage o b ho ?_
    obtain rfl : p = q := Option.some.inj (hprog.symm.trans hq)
    exact hb
  · simp only [Shadow.load, hb, Option.some_or, ite_self]

include hT hW in
/-- The running thread finishes. -/
theorem Inv.exit (h : Inv P u g f) (hr : u.memory.runnable u.current = true) {m : Vm}
    (hx : u.memory.exit cfg = .ok m) :
    Inv P { u with memory := m } (g.drop u.current) f ∧ Keeps u.memory m f f := by
  have hth : ∀ t, m.thread t = if t = u.current then
      (u.memory.thread t).map fun x => { x with exited := true } else u.memory.thread t :=
    (Vm.exit_thread hx).2
  have hcur : m.currentThread = u.current := by
    obtain ⟨s₁, h₁, hx⟩ := bind_eq_ok.mp hx
    obtain ⟨b, pt, tlb, rfl⟩ := Vm.exitClean_frame h₁
    cases hx
    rfl
  have hother : ∀ t, t ≠ u.current → m.thread t = u.memory.thread t := fun t e => by
    rw [hth, if_neg e]
  refine ⟨⟨?_, fun t ht hr' => ?_, fun t hr' => ?_⟩, fun t _ => ⟨?_, fun _ _ => id⟩⟩
  · refine h.seen.trace hT hW (show Vm.Accesses C ⟨u.memory, g⟩ (.exit, .blank) from trivial) ?_
    show (if u.memory.runnable u.current then _ else _) = _
    rw [if_pos hr]
    exact bind_eq_ok.mpr ⟨m, hx, rfl⟩
  · replace ht : t ≠ u.current := fun e => ht (e.trans hcur.symm)
    refine h.absent t ht ?_
    rw [← hr', Vm.runnable, Vm.runnable, hother t ht]
  · have hne : t ≠ u.current := by
      rintro rfl
      obtain ⟨x, hx, -, hex⟩ := Vm.runnable_iff.mp hr'
      replace hx : m.thread u.current = some x := hx
      rw [hth, if_pos rfl] at hx
      obtain ⟨y, -, rfl⟩ := Option.map_eq_some_iff.mp hx
      cases hex
    have hrun := h.runs t (by rw [← hr', Vm.runnable, Vm.runnable, hother t hne])
    have hreg : ({ u with memory := m } : Userland).registersOf t = u.registersOf t := by
      rw [registersOf_other hne,
        registersOf_other (u := { u with memory := m }) fun e => hne (e.trans hcur)]
    have hdrop : g.drop u.current t = g t := funext fun a => if_neg hne
    rw [hreg, hdrop, Vm.program, hother t hne]
    exact hrun
  · rw [Vm.program, Vm.program, hth]
    split
    · cases u.memory.thread t <;> rfl
    · rfl

include hT hW in
/-- A new thread. -/
theorem Inv.create (h : Inv P u g f) (hr : u.memory.runnable u.current = true)
    {program : Option Program} {m : Vm} (hx : u.memory.create cfg program = .ok m) :
    ∃ f', Inv P { u with memory := m } g f' ∧ Keeps u.memory m f f' := by
  obtain ⟨i, hi, hm, hth⟩ := Vm.thread_create hx
  have hcur : m.currentThread = u.current := by rw [hm]; rfl
  have hdead : Dead u.memory i := fun x hx => by rw [hi] at hx; cases hx
  have hne : i ≠ u.current := by
    rintro rfl
    exact Vm.not_dead_of_runnable hr hdead
  have hother : ∀ t, t ≠ i → m.thread t = u.memory.thread t := fun t e => by rw [hth, if_neg e]
  have hreg : ∀ t, ({ u with memory := m } : Userland).registersOf t = u.registersOf t := fun t => by
    by_cases e : t = u.current
    · rw [registersOf_self e, registersOf_self (u := { u with memory := m }) (e.trans hcur.symm)]
    · rw [registersOf_other e,
        registersOf_other (u := { u with memory := m }) fun hc => e (hc.trans hcur)]
  refine ⟨f.drop i, ⟨?_, fun t ht hr' => ?_, fun t hr' => ?_⟩, fun t ht => ?_⟩
  · refine h.seen.trace hT hW
      (show Vm.Accesses C ⟨u.memory, g⟩ (.create program, .blank) from trivial) ?_
    show (if u.memory.runnable u.current then _ else _) = _
    rw [if_pos hr]
    exact bind_eq_ok.mpr ⟨m, hx, rfl⟩
  · refine h.absent t (fun e => ht (e.trans hcur.symm)) ?_
    by_cases e : t = i
    · rw [e, Vm.runnable, hi]
      rfl
    · rw [← hr', Vm.runnable, Vm.runnable, hother t e]
  · rw [hreg]
    by_cases e : t = i
    · subst e
      have hnone : u.registersOf t = none := by
        rw [registersOf_other hne, h.absent t hne (by rw [Vm.runnable, hi]; rfl)]
      have hg : ∀ a, g t a = none := h.seen.dead t hdead
      rw [hnone]
      refine ⟨fun a => ?_, fun q _ a b b' _ _ hf => ?_, fun _ => hg, fun r hr => (by cases hr),
        fun q r _ hr => (by cases hr)⟩
      · simp [Shadow.drop, hg]
      · simp [Shadow.drop] at hf
    · have hdrop : f.drop i t = f t := funext fun a => if_neg e
      rw [hdrop, Vm.program, hother t e]
      exact h.runs t (by rw [← hr', Vm.runnable, Vm.runnable, hother t e])
  · have e : t ≠ i := by
      rintro rfl
      exact Vm.not_dead_of_runnable ht hdead
    refine ⟨by rw [Vm.program, Vm.program, hother t e], fun a b hb => ?_⟩
    exact (if_neg e).trans hb

/-- The states before and after `AddrSpace::Execute`. -/
theorem execute_eq_ok (hx : u.execute = .ok u') : ∃ p, u.memory.program u.current = some p ∧
    u'.memory = u.memory ∧ u'.registers = Solo.initRegisters p ∧
    u'.userRegisters =
      Function.update u.userRegisters u.current (some (Solo.initRegisters p)) := by
  obtain ⟨sp, hsp, hx⟩ := bind_eq_ok.mp hx
  obtain ⟨x, hx', hspace⟩ := Vm.space_eq_ok.mp hsp
  cases hx
  exact ⟨sp.program, by simp [Vm.program, hx', hspace], rfl, rfl, rfl⟩

/-- `AddrSpace::Execute`. -/
theorem Inv.execute (h : Inv P u g f) (hen : u.enabled .execute = true)
    (hx : u.execute = .ok u') : Inv P u' g f := by
  obtain ⟨p, hp, hm, hreg, hsaved⟩ := execute_eq_ok hx
  have hnone : u.userRegisters u.current = none := by
    simp only [enabled, Bool.and_eq_true, Option.isNone_iff_eq_none] at hen
    exact hen.2.2
  have hcur : u'.current = u.current := by
    show u'.memory.currentThread = _
    rw [hm]
    rfl
  have hother : ∀ t, t ≠ u.current → u'.userRegisters t = u.userRegisters t := fun t ht => by
    rw [hsaved, Function.update_of_ne ht]
  refine ⟨hm ▸ h.seen, fun t ht hr => ?_, fun t hr => ?_⟩
  · rw [hcur] at ht
    rw [hother t ht]
    exact h.absent t ht (hm ▸ hr)
  · rw [hm] at hr ⊢
    have hrun := h.runs t hr
    by_cases e : t = u.current
    · subst e
      have hself : u'.registersOf u.current = some (Solo.initRegisters p) := by
        rw [← hreg, ← hcur]
        exact registersOf_current (by rw [hcur, hsaved, Function.update_self]; rfl)
      rw [registersOf_self rfl, hnone, Option.map_none] at hrun
      rw [hself]
      refine ⟨hrun.first, hrun.image, fun hn => (by cases hn), fun r hr => ?_,
        fun q r hq hr m₀ hm => ?_⟩
      · cases hr
        exact initRegisters_wf _
      · cases hr
        obtain rfl : p = q := Option.some.inj (hp.symm.trans hq)
        have hover : overlay (g u.current) m₀ = m₀ := funext fun a => by
          simp only [overlay, hrun.blank rfl a, Option.getD_none]
        rw [hover]
        exact .init rfl
    · rw [registersOf_other e] at hrun
      rw [registersOf_other (fun hc => e (hc.trans hcur)), hother t e]
      exact hrun

/-- A pending load is finished by an interrupt. -/
theorem Inv.interrupt (h : Inv P u g f) {r : Registers}
    (hx : u.registers.delayedLoad 0 0 = .ok r) : Inv P { u with registers := r } g f := by
  refine h.update h.seen rfl (fun t => ⟨rfl, rfl⟩) (fun t _ => ⟨rfl, rfl⟩) fun hr => ?_
  have hold := h.runs u.current hr
  rw [registersOf_self rfl] at hold
  cases hu : u.userRegisters u.current with
  | none =>
    rw [hu] at hold
    exact hold
  | some r₀ =>
    rw [hu, Option.map_some] at hold
    obtain ⟨r', hr', hl, -, hz, -⟩ := Registers.delayedLoad_spec (hold.wf _ rfl).load 0 0
    obtain rfl : r' = r := Except.ok.inj (hr'.symm.trans hx)
    have hw : r'.Wf := ⟨hz, by rw [hl]; decide⟩
    refine hold.step (e := .flush none) hw fun m₀ => ?_
    exact bind_eq_ok.mpr ⟨r', hx, rfl⟩

/-- An exception: a pending load is finished. -/
theorem Inv.raise (h : Inv P u g f) (hp : (u.userRegisters u.current).isSome = true) {c : Cpu}
    {halted : Bool} (ht : P.Tracks u.memory g c.memory g) (hw : c.registers.Wf) {a : BitVec 32}
    (ha : (u.registers.write Reg.badVAddr a).delayedLoad 0 0 = .ok c.registers) :
    Inv P { u with toCpu := c, halted := halted } g f := by
  refine h.event (.flush (some a)) hp ht hw fun m₀ => ?_
  exact bind_eq_ok.mpr ⟨c.registers, ha, rfl⟩

theorem sysAdd_wf {r : Registers} (hw : r.Wf) : r.sysAdd.Wf := by
  refine ⟨?_, ?_⟩
  · show ((((r.write _ _).write _ _).write _ _).write _ _) Reg.zero = 0
    rw [Registers.write_ne _ _ (by decide), Registers.write_ne _ _ (by decide),
      Registers.write_ne _ _ (by decide), Registers.write_ne _ _ (by decide)]
    exact hw.zero
  · show (((((r.write _ _).write _ _).write _ _).write _ _) Reg.load).toNat < 32
    rw [Registers.write_ne _ _ (by decide), Registers.write_ne _ _ (by decide),
      Registers.write_ne _ _ (by decide), Registers.write_ne _ _ (by decide)]
    exact hw.load

include hT hW in
/-- A system call of the running thread. -/
theorem Inv.syscall (h : Inv P u g f) (hr : u.memory.runnable u.current = true)
    (hp : (u.userRegisters u.current).isSome = true) {c c' : Cpu} {handled : Handled}
    (ht : P.Tracks u.memory g c.memory g) (hw : c.registers.Wf) {a : BitVec 32}
    (ha : (u.registers.write Reg.badVAddr a).delayedLoad 0 0 = .ok c.registers)
    (hs : ∀ m₀, Solo.oneInstruction ⟨u.registers, overlay (g u.current) m₀⟩ =
      .ok (⟨c.registers, overlay (g u.current) m₀⟩, some .syscall))
    (hx : c.exceptionHandler cfg env .syscall = .ok (c', handled)) :
    ∃ g', Inv P { u with toCpu := c', halted := handled = .halts } g' f ∧
      Keeps u.memory c'.memory f f := by
  unfold Cpu.exceptionHandler at hx
  dsimp only at hx
  split at hx
  · cases hx
    exact ⟨g, h.raise hp ht hw ha, fun t _ => ⟨ht.program t, fun _ _ => id⟩⟩
  · split at hx
    · obtain ⟨m, hm, hx⟩ := bind_eq_ok.mp hx
      cases hx
      have hraised : Inv P { u with toCpu := c, halted := Handled.finishes = .halts } g f :=
        h.raise hp ht hw ha
      have hr' : c.memory.runnable c.memory.currentThread = true := by
        rw [ht.runnable, ht.current]
        exact hr
      obtain ⟨hexit, hkeep⟩ := hraised.exit hT hW hr' hm
      refine ⟨_, hexit, fun t hrt => ?_⟩
      obtain ⟨hprog, -⟩ := hkeep t ((ht.runnable t).trans hrt)
      exact ⟨hprog.trans (ht.program t), fun _ _ => id⟩
    · split at hx
      · rename_i hadd
        cases hx
        refine ⟨g, h.event .instruction hp ht (sysAdd_wf hw) fun m₀ => ?_,
          fun t _ => ⟨ht.program t, fun _ _ => id⟩⟩
        refine bind_eq_ok.mpr ⟨_, hs m₀, ?_⟩
        exact bind_eq_ok.mpr ⟨(), assert_eq_ok.mpr hadd, rfl⟩
      · cases hx

theorem raised_badVAddr {r r' : Registers} (hw : r.Wf) {a : BitVec 32}
    (h : (r.write Reg.badVAddr a).delayedLoad 0 0 = .ok r') : r' Reg.badVAddr = a := by
  have hl : (r.write Reg.badVAddr a Reg.load).toNat < 32 := by
    rw [Registers.write_ne _ _ (by decide)]
    exact hw.load
  obtain ⟨r₁, h₁, -, -, -, -, hsame⟩ := Registers.delayedLoad_spec hl 0 0
  obtain rfl : r₁ = r' := Except.ok.inj (h₁.symm.trans h)
  have hp : Reg.badVAddr ≠ (r.write Reg.badVAddr a).pending := fun e => by
    have := (r.write Reg.badVAddr a).pending_lt
    rw [← e] at this
    exact absurd this (by decide)
  rw [hsame _ (by decide) (by decide) (by decide) hp, Registers.write_self]

include hT hW in
/-- A turn of the loop of `Machine::Run`. -/
theorem Inv.instruction (h : Inv P u g f) (hen : u.enabled .instruction = true)
    (hm : Meets cfg C u (.instruction, env)) (hx : u.instruction cfg env = .ok u') :
    ∃ g' f', Inv P u' g' f' ∧ Keeps u.memory u'.memory f f' := by
  have hen' : u.memory.inUser = true ∧ (u.userRegisters u.current).isSome = true := by
    simp only [enabled, Bool.and_eq_true] at hen
    exact hen.2
  obtain ⟨hu, hp⟩ := hen'
  have hr : u.memory.runnable u.current = true := (Bool.and_eq_true_iff.mp hu).1
  have hw : u.registers.Wf := (h.runs u.current hr).wf _ (registersOf_current hp)
  have hf := Vm.PageTables.oneInstruction_follows env hT (c := u.toCpu) h.seen hu hm.1.1
    fun m raw a size hl hd => hm.1.2 (a, size) (by
      show Cpu.operand cfg env u.toCpu = some (a, size)
      simp only [Cpu.operand, hl, hd])
  obtain ⟨⟨c, which⟩, ho, hx⟩ := bind_eq_ok.mp hx
  have hwc : c.registers.Wf := (oneInstruction_clean hw).wf c which ho
  cases which with
  | none =>
    cases hx
    obtain ⟨g', ht, hs⟩ := hf.done c ho
    refine ⟨g', f, h.event .instruction hp ht hwc fun m₀ => ?_,
      fun t _ => ⟨ht.program t, fun _ _ => id⟩⟩
    exact bind_eq_ok.mpr ⟨_, hs m₀, rfl⟩
  | some which =>
    obtain ⟨⟨c', handled⟩, hh, hx⟩ := bind_eq_ok.mp hx
    cases hx
    obtain ⟨ht, ⟨a, ha, hfault⟩, hsame⟩ := hf.trap c which ho
    cases which with
    | syscall =>
      obtain ⟨g', h'⟩ := h.syscall hT hW hr hp ht hwc ha (hsame fun e he => by cases he) hh
      exact ⟨g', f, h'⟩
    | memory e =>
      obtain ⟨m, hm', hh⟩ := bind_eq_ok.mp hh
      cases hh
      rcases hfault e rfl with rfl | ⟨size, w, htr⟩ <;> [cases hm'; skip]
      have hu' : c.memory.inUser = true := ht.inUser.trans hu
      have hva : c.registers Reg.badVAddr = a := raised_badVAddr hw ha
      rw [hva] at hm'
      obtain rfl := ht.seen.handled hT hu' htr hm'
      have hC : C env c.memory (c.registers Reg.badVAddr).toInt := hm.2 c (by
        show Cpu.pageFault cfg env u.toCpu = some c
        simp only [Cpu.pageFault, ho])
      rw [hva] at hC
      have hraised : Inv P { u with toCpu := c } g f := h.raise hp ht hwc ha
      have hp' : (u.userRegisters c.memory.currentThread).isSome = true := by
        rw [ht.current]
        exact hp
      obtain ⟨g', f', hinv, hkeep⟩ : ∃ g' f', Inv P { u with
          toCpu := { c with memory := m }, halted := Handled.returns = .halts } g' f' ∧
          Keeps c.memory m f f' := hraised.fault hT hW hu' hp' hC htr hm' rfl
      refine ⟨g', f', hinv, fun t hrt => ?_⟩
      obtain ⟨hprog, hfirst⟩ := hkeep t ((ht.runnable t).trans hrt)
      exact ⟨hprog.trans (ht.program t), hfirst⟩
    | overflow | illegalInstr => cases hh

/-- A switch goes on with the threads as they are. -/
theorem runnable_run (s : Vm) (n t : Nat) :
    (s.run cfg n).runnable t = s.runnable t ∧
      (s.runnable t = true → (s.run cfg n).program t = s.program t) := by
  have hth := Vm.thread_run cfg s n t
  split at hth
  · rename_i he
    have hdead : s.runnable t = false := by
      obtain ⟨x, hx, hex⟩ := (Option.any_eq_true _ _).mp he.2
      simp only [Vm.runnable, hx, Option.any_some, hex, Bool.not_true, Bool.and_false]
    refine ⟨?_, fun hr => by rw [hdead] at hr; cases hr⟩
    rw [hdead, Vm.runnable, hth]
    rfl
  · exact ⟨by rw [Vm.runnable, Vm.runnable, hth], fun _ => by rw [Vm.program, Vm.program, hth]⟩

theorem run_current (u : Userland) (n : Nat) : (u.run cfg n).current = n := by
  show (u.memory.run cfg n).currentThread = n
  unfold Vm.run
  cases cfg.useTLB <;> rfl

variable (cfg) in
/-- The registers of a thread after a switch. -/
theorem registersOf_run (u : Userland) (n t : Nat) : (u.run cfg n).registersOf t =
    if t = u.current ∧ u.memory.runnable t = false then none else u.registersOf t := by
  obtain ⟨saved, hsaved⟩ : ∃ saved : Nat → Option Registers, saved = Function.update u.userRegisters
      u.current (if u.memory.runnable u.current then u.registersOf u.current else none) := ⟨_, rfl⟩
  have hregs : (u.run cfg n).registers = (saved n).getD u.registers := by
    rw [hsaved]
    rfl
  have hcur : (u.run cfg n).current = n := run_current u n
  have hself : (u.run cfg n).registersOf t = saved t := by
    unfold registersOf
    rw [show (u.run cfg n).userRegisters = saved from hsaved.symm, hcur, hregs]
    by_cases e : t = n
    · subst e
      cases saved t <;> simp
    · simp only [if_neg e, Option.map_id']
  rw [hself, hsaved]
  by_cases e : t = u.current
  · subst e
    rw [Function.update_self]
    cases u.memory.runnable u.current <;> simp
  · rw [Function.update_of_ne e, if_neg fun hc => e hc.1, registersOf_other e]

include hT hW in
/-- `Scheduler::Run`. -/
theorem Inv.run (h : Inv P u g f) {n : Nat} (hr : u.memory.runnable n = true) :
    Inv P (u.run cfg n) g f := by
  refine ⟨?_, fun t ht hr' => ?_, fun t hr' => ?_⟩
  · refine h.seen.trace hT hW (show Vm.Accesses C ⟨u.memory, g⟩ (.run n, .blank) from trivial) ?_
    show (if u.memory.runnable n then _ else _) = _
    rw [if_pos hr]
    rfl
  · replace hr' : u.memory.runnable t = false := (runnable_run u.memory n t).1.symm.trans hr'
    have hreg := registersOf_run cfg u n t
    rw [registersOf_other ht] at hreg
    rw [hreg]
    split
    · rfl
    · rename_i hc
      have hne : t ≠ u.current := fun e => hc ⟨e, hr'⟩
      rw [registersOf_other hne]
      exact h.absent t hne hr'
  · replace hr' : u.memory.runnable t = true := (runnable_run u.memory n t).1.symm.trans hr'
    show Runs ((u.memory.run cfg n).program t) _ _ _
    rw [(runnable_run u.memory n t).2 hr', registersOf_run, if_neg fun hc => by simp [hr'] at hc]
    exact h.runs t hr'

include hT hW in
/-- An operation. -/
theorem Inv.next (h : Inv P u g f) {op : Op × Env} (hm : Meets cfg C u op)
    (hx : Userland.next cfg u op = .ok u') :
    ∃ g' f', Inv P u' g' f' ∧ Keeps u.memory u'.memory f f' := by
  have hsame : Keeps u.memory u.memory f f := fun t _ => ⟨rfl, fun _ _ => id⟩
  obtain ⟨op, env⟩ := op
  unfold Userland.next at hx
  split at hx <;> [rename_i hen; (cases hx; exact ⟨g, f, h, hsame⟩)]
  cases op with
  | create program =>
    obtain ⟨m, hm, hx⟩ := bind_eq_ok.mp hx
    cases hx
    exact ⟨g, h.create hT hW (Bool.and_eq_true_iff.mp hen).2 hm⟩
  | execute =>
    obtain ⟨p, -, hm, -⟩ := execute_eq_ok hx
    exact ⟨g, f, h.execute hen hx, hm ▸ hsame⟩
  | instruction => exact h.instruction hT hW hen hm hx
  | interrupt =>
    obtain ⟨r, hr, hx⟩ := bind_eq_ok.mp hx
    cases hx
    exact ⟨g, f, h.interrupt hr, hsame⟩
  | finish =>
    obtain ⟨m, hm, hx⟩ := bind_eq_ok.mp hx
    cases hx
    have hr := (Bool.and_eq_true_iff.mp (Bool.and_eq_true_iff.mp hen).2).1
    exact ⟨_, f, h.exit hT hW hr hm⟩
  | run t =>
    cases hx
    exact ⟨g, f, h.run hT hW (Bool.and_eq_true_iff.mp hen).2,
      fun i hi => ⟨(runnable_run u.memory t i).2 hi, fun _ _ => id⟩⟩

/-- Nothing is in memory at the start. -/
theorem Inv.start (P : PageTables cfg C) (r : Registers) :
    Inv P (Userland.start cfg r) (fun _ _ => none) fun _ _ => none where
  seen := by
    have hnone : ∀ i k, ¬ P.holds (Vm.start cfg) i k := P.start.2
    refine ⟨P.start.1, ⟨fun i k _ hi => absurd hi (hnone i k), fun i _ k hi => absurd hi (hnone i k),
      fun i k hi => absurd hi (hnone i k), fun _ _ => .inl fun _ => rfl⟩, fun _ _ _ => rfl⟩
  absent _ _ _ := rfl
  runs t _ := by
    have hr : (Userland.start cfg r).registersOf t = none := rfl
    rw [hr]
    exact ⟨fun _ => Iff.rfl, fun q _ a b b' _ _ hf => (by cases hf), fun _ _ => rfl,
      fun r' hr => (by cases hr), fun q r' _ hr => (by cases hr)⟩

include hT hW in
/-- The invariant in every run. -/
theorem reachable_inv {r : Registers} (h : ((System.ofFun (Userland.start cfg r)
    (Userland.next cfg)).restrict (Meets cfg C)).Reachable u) : ∃ g f, Inv P u g f := by
  refine h.invariant (I := fun u => ∃ g f, Inv P u g f) ?_ ?_
  · rintro _ rfl
    exact ⟨_, _, .start P r⟩
  · rintro u op u' ⟨g, f, h⟩ ⟨hm, hx⟩
    obtain ⟨g', f', h', -⟩ := h.next hT hW hm hx
    exact ⟨g', f', h'⟩

/-- A thread that is in its program stays there while it lives. -/
theorem begun_next {op : Op × Env} {t : Nat} (ht : u.memory.runnable t = true)
    (hs : (u.registersOf t).isSome = true) (hx : Userland.next cfg u op = .ok u') :
    (u'.registersOf t).isSome = true := by
  have hiff : ∀ u : Userland, (u.registersOf t).isSome = (u.userRegisters t).isSome := fun u => by
    rw [registersOf, Option.isSome_map]
  rw [hiff] at hs ⊢
  obtain ⟨op, env⟩ := op
  unfold Userland.next at hx
  split at hx <;> [skip; (cases hx; exact hs)]
  cases op with
  | create | interrupt | finish =>
    obtain ⟨x, -, hx⟩ := bind_eq_ok.mp hx
    cases hx
    exact hs
  | execute =>
    obtain ⟨p, -, -, -, he⟩ := execute_eq_ok hx
    rw [he]
    by_cases e : t = u.current
    · rw [e, Function.update_self]
      rfl
    · rw [Function.update_of_ne e]
      exact hs
  | instruction =>
    obtain ⟨⟨c, which⟩, -, hx⟩ := bind_eq_ok.mp hx
    cases which with
    | none =>
      cases hx
      exact hs
    | some which =>
      obtain ⟨⟨c, handled⟩, -, hx⟩ := bind_eq_ok.mp hx
      cases hx
      exact hs
  | run n =>
    cases hx
    rw [← hiff, registersOf_run, if_neg fun hc => by simp [ht] at hc, hiff]
    exact hs

/-- The thread `t` is where its program can be alone, from the first memory `m₀`: it has
the registers it has there, and its pages in main memory have the bytes they have there. -/
def Alone (holds : Vm → Nat → Nat × Int → Prop) (t : Nat) (p : Program) (m₀ : Int → Byte)
    (u : Userland) : Prop :=
  ∃ r m, u.registersOf t = some r ∧ (Solo.system p m₀).Reachable ⟨r, m⟩ ∧
    ∀ frame vpn, holds u.memory frame (t, vpn) → ∀ o < pageSize,
      u.memory.mainMemory (frame * pageSize + o) = m (vpn * pageSize + o)

/-- The runs from `u` in which `t` lives. -/
def life (cfg : Config) (C : Env → Vm → Int → Prop) (u : Userland) (t : Nat) :
    System Userland (Op × Env) :=
  (System.ofFun u (Userland.next cfg)).restrict fun u op =>
    Meets cfg C u op ∧ u.memory.runnable t = true

/-- With each first memory that has what is known at the end. -/
theorem Inv.alone (h : Inv P u g f) {t : Nat} {p : Program} (ht : u.memory.runnable t = true)
    (hp : u.memory.program t = some p) (hs : (u.registersOf t).isSome = true) {m₀ : Int → Byte}
    (hm : ∀ a b, f t a = some b → m₀ a = b) : Alone P.holds t p m₀ u := by
  obtain ⟨r, hr⟩ := Option.isSome_iff_exists.mp hs
  refine ⟨r, _, hr, (h.runs t ht).alone p r hp hr m₀ hm, fun frame vpn hf o ho => ?_⟩
  rw [overlay, h.seen.known hf ho, Option.getD_some]

include hT hW in
/-- In the life of a thread, from a state on in which it is in its program. -/
theorem Inv.life (h : Inv P u g f) {t : Nat} {p : Program} (hp : u.memory.program t = some p)
    (hs : (u.registersOf t).isSome = true) {ops : List (Op × Env)}
    (hops : (Userland.life cfg C u t).Trace ops u') (ht : u'.memory.runnable t = true) :
    ∃ g' f', Inv P u' g' f' ∧ u'.memory.program t = some p ∧ (u'.registersOf t).isSome = true ∧
      ∀ as u₁, as <+: ops → as.foldlM (Userland.next cfg) u = .ok u₁ →
        ∀ m₀, (∀ a b, f' t a = some b → m₀ a = b) → Alone P.holds t p m₀ u₁ := by
  induction hops with
  | init hi =>
    cases hi
    refine ⟨g, f, h, hp, hs, fun as u₁ ha hu m₀ hm => ?_⟩
    obtain rfl := List.prefix_nil.mp ha
    cases hu
    exact h.alone ht hp hs hm
  | @step ops u₂ u₃ op hprev hstep ih =>
    obtain ⟨⟨hmeets, ht₂⟩, hx⟩ := hstep
    obtain ⟨g₂, f₂, h₂, hp₂, hs₂, hall⟩ := ih ht₂
    obtain ⟨g₃, f₃, h₃, hkeep⟩ := h₂.next hT hW hmeets hx
    obtain ⟨hprog, hfirst⟩ := hkeep t ht₂
    have hp₃ : u₃.memory.program t = some p := hprog.trans hp₂
    have hs₃ := begun_next ht₂ hs₂ hx
    refine ⟨g₃, f₃, h₃, hp₃, hs₃, fun as u₁ ha hu m₀ hm => ?_⟩
    rcases List.prefix_concat_iff.mp ha with rfl | ha
    · rw [(System.Trace.step hprev ⟨⟨hmeets, ht₂⟩, hx⟩).foldlM] at hu
      cases hu
      exact h₃.alone ht hp₃ hs₃ hm
    · exact hall as u₁ ha hu m₀ fun a b hb => hm a b (hfirst a b hb)

include hT hW in
/-- Each thread is, all its life, where its program can be alone. -/
theorem reachable_alone {r₀ : Registers} (h : ((System.ofFun (Userland.start cfg r₀)
    (Userland.next cfg)).restrict (Meets cfg C)).Reachable u) {t : Nat} {p : Program}
    (hp : u.memory.program t = some p) (hs : (u.registersOf t).isSome = true)
    {ops : List (Op × Env)} (hops : (Userland.life cfg C u t).Trace ops u')
    (ht : u'.memory.runnable t = true) :
    ∃ m₀, p.Image m₀ ∧ ∀ as u₁, as <+: ops → as.foldlM (Userland.next cfg) u = .ok u₁ →
      Alone P.holds t p m₀ u₁ := by
  obtain ⟨g, f, h⟩ := reachable_inv hT hW h
  obtain ⟨g', f', h', hp', -, hall⟩ := h.life hT hW hp hs hops ht
  have hrun := h'.runs t ht
  rw [hp'] at hrun
  obtain ⟨m₀, himage, hm⟩ := hrun.exists_image
  exact ⟨m₀, himage, fun as u₁ ha hu => hall as u₁ ha hu m₀ hm⟩

end

end

/-- With `USE_RPT` and no TLB, in every run without negative addresses whose page faults
replace only pages that the executable has, each thread that is in its program is, all
its life, where its program can be alone from one first memory. -/
theorem reachable_alone_rpt {cfg : Config} (hR : cfg.useRPT = true) (hT : cfg.useTLB = false)
    {r₀ : Registers} {u u' : Userland} (h : ((System.ofFun (Userland.start cfg r₀)
      (next cfg)).restrict (Meets cfg (Vm.CleanRPT cfg))).Reachable u)
    {t : Nat} {p : Program} (hp : u.memory.program t = some p)
    (hs : (u.registersOf t).isSome = true) {ops : List (Op × Env)}
    (hops : (life cfg (Vm.CleanRPT cfg) u t).Trace ops u') (ht : u'.memory.runnable t = true) :
    ∃ m₀, p.Image m₀ ∧ ∀ as u₁, as <+: ops → as.foldlM (next cfg) u = .ok u₁ →
      Alone Vm.HoldsRPT t p m₀ u₁ :=
  reachable_alone hT (Vm.writes_rpt hR) h hp hs hops ht

/-- `addiu $2,$0,42; syscall`. -/
def adder : Program := ⟨[0x2a, 0, 0x02, 0x24, 0x0c, 0, 0, 0], 0, 1⟩

/-- Two threads are made for the program, and the first one begins it. -/
def addersBegin : List (Op × Env) :=
  ([.create (some adder), .create (some adder), .run 1, .execute] : List Op).map fun op =>
    (op, Env.blank)

/-- The second one begins it, too, and the first one is interrupted behind its first
instruction. -/
def addersGo : List (Op × Env) :=
  ([.instruction, .instruction, .run 2, .execute, .instruction, .run 1, .instruction, .interrupt,
    .run 2] : List Op).map fun op => (op, Env.blank)

/-- One first memory for the state in which the first thread begins and the one in which
it has been interrupted and the second thread runs. -/
theorem reachable_alone_rpt_switched : ∃ u u' m₀, ((System.ofFun
      (Userland.start ⟨false, true, true, false⟩ fun _ => 0)
      (next ⟨false, true, true, false⟩)).restrict
        (Meets ⟨false, true, true, false⟩ (Vm.CleanRPT ⟨false, true, true, false⟩))).Reachable u ∧
    (life ⟨false, true, true, false⟩ (Vm.CleanRPT ⟨false, true, true, false⟩) u 1).Trace addersGo u' ∧
    (u'.memory.currentThread = 2 ∧ (u'.registersOf 1).map (fun r => r Reg.pc) = some 8) ∧
    adder.Image m₀ ∧ Alone Vm.HoldsRPT 1 adder m₀ u ∧ Alone Vm.HoldsRPT 1 adder m₀ u' := by
  obtain ⟨u, h, hp⟩ := System.exists_reachable_guarded
    (Userland.start ⟨false, true, true, false⟩ fun _ => 0) (next ⟨false, true, true, false⟩)
    (Meets ⟨false, true, true, false⟩ (Vm.CleanRPT ⟨false, true, true, false⟩)) addersBegin
    (p := fun u => decide (u.memory.program 1 = some adder ∧ (u.registersOf 1).isSome = true) &&
      (addersGo.foldlM (System.guarded (next ⟨false, true, true, false⟩) fun u op =>
        Meets ⟨false, true, true, false⟩ (Vm.CleanRPT ⟨false, true, true, false⟩) u op ∧ u.memory.runnable 1 = true) u).any
          fun u' => u'.memory.runnable 1 = true ∧ u'.memory.currentThread = 2 ∧
            (u'.registersOf 1).map (fun r => r Reg.pc) = some 8) (by decide +kernel)
  obtain ⟨hp, hany⟩ := Bool.and_eq_true_iff.mp hp
  obtain ⟨hprog, hs⟩ := of_decide_eq_true hp
  obtain ⟨u', hr, hu'⟩ := (Option.any_eq_true _ _).mp hany
  obtain ⟨ht, hcur, hpc⟩ := of_decide_eq_true hu'
  have hops : (life _ _ u 1).Trace addersGo u' := System.trace_guarded addersGo (.init rfl) hr
  obtain ⟨m₀, himage, hall⟩ := reachable_alone_rpt rfl rfl h hprog hs hops ht
  exact ⟨u, u', m₀, h, hops, ⟨hcur, hpc⟩, himage, hall [] u List.nil_prefix rfl,
    hall addersGo u' List.prefix_rfl hops.foldlM⟩

/-- Without `USE_RPT` and the TLB, the same in every run without negative addresses whose
page faults find a free frame. -/
theorem reachable_alone_linear {cfg : Config} (hR : cfg.useRPT = false) (hT : cfg.useTLB = false)
    {r₀ : Registers} {u u' : Userland} (h : ((System.ofFun (Userland.start cfg r₀)
      (next cfg)).restrict (Meets cfg (Vm.RoomyAccess cfg))).Reachable u)
    {t : Nat} {p : Program} (hp : u.memory.program t = some p)
    (hs : (u.registersOf t).isSome = true) {ops : List (Op × Env)}
    (hops : (life cfg (Vm.RoomyAccess cfg) u t).Trace ops u') (ht : u'.memory.runnable t = true) :
    ∃ m₀, p.Image m₀ ∧ ∀ as u₁, as <+: ops → as.foldlM (next cfg) u = .ok u₁ →
      Alone Vm.HoldsLinear t p m₀ u₁ :=
  reachable_alone hT (Vm.writes_linear hR) h hp hs hops ht

/-- One first memory for the state in which the first thread begins and the one in which
it has been interrupted and the second thread runs. -/
theorem reachable_alone_linear_switched : ∃ u u' m₀, ((System.ofFun
      (Userland.start ⟨false, false, true, false⟩ fun _ => 0)
      (next ⟨false, false, true, false⟩)).restrict
        (Meets ⟨false, false, true, false⟩ (Vm.RoomyAccess ⟨false, false, true, false⟩))).Reachable u ∧
    (life ⟨false, false, true, false⟩ (Vm.RoomyAccess ⟨false, false, true, false⟩) u 1).Trace addersGo u' ∧
    (u'.memory.currentThread = 2 ∧ (u'.registersOf 1).map (fun r => r Reg.pc) = some 8) ∧
    adder.Image m₀ ∧ Alone Vm.HoldsLinear 1 adder m₀ u ∧ Alone Vm.HoldsLinear 1 adder m₀ u' := by
  obtain ⟨u, h, hp⟩ := System.exists_reachable_guarded
    (Userland.start ⟨false, false, true, false⟩ fun _ => 0) (next ⟨false, false, true, false⟩)
    (Meets ⟨false, false, true, false⟩ (Vm.RoomyAccess ⟨false, false, true, false⟩)) addersBegin
    (p := fun u => decide (u.memory.program 1 = some adder ∧ (u.registersOf 1).isSome = true) &&
      (addersGo.foldlM (System.guarded (next ⟨false, false, true, false⟩) fun u op =>
        Meets ⟨false, false, true, false⟩ (Vm.RoomyAccess ⟨false, false, true, false⟩) u op ∧ u.memory.runnable 1 = true) u).any
          fun u' => u'.memory.runnable 1 = true ∧ u'.memory.currentThread = 2 ∧
            (u'.registersOf 1).map (fun r => r Reg.pc) = some 8) (by decide +kernel)
  obtain ⟨hp, hany⟩ := Bool.and_eq_true_iff.mp hp
  obtain ⟨hprog, hs⟩ := of_decide_eq_true hp
  obtain ⟨u', hr, hu'⟩ := (Option.any_eq_true _ _).mp hany
  obtain ⟨ht, hcur, hpc⟩ := of_decide_eq_true hu'
  have hops : (life _ _ u 1).Trace addersGo u' := System.trace_guarded addersGo (.init rfl) hr
  obtain ⟨m₀, himage, hall⟩ := reachable_alone_linear rfl rfl h hprog hs hops ht
  exact ⟨u, u', m₀, h, hops, ⟨hcur, hpc⟩, himage, hall [] u List.nil_prefix rfl,
    hall addersGo u' List.prefix_rfl hops.foldlM⟩

end Userland

end Nachos

import Mathlib.Logic.Relation
import Nachos.Framework.System
import Nachos.Impl.Userprog.Context
import Nachos.Proof.Machine.DelayedLoad
import Nachos.Proof.Userprog.Image
import Nachos.Proof.Userprog.Inverted
import Nachos.Proof.Userprog.Linear

/-!
# Instructions can be restarted

An instruction that ends in an exception has done nothing else: it raises its
exceptions before it sets a register or stores (`oneInstruction_clean`), and
`RaiseException` applies the pending load. Executed again behind the handler it
does what it would have done at first (`oneInstruction_restart`). Two things
differ: a page that an earlier access of the instruction swapped in, and
`LoadValueReg` where `LWL` or `LWR` of `R0` follows a load of `R0`
(`not_oneInstruction_restart`).

The registers are those that a run can have (`Registers.Wf`, `reachable_wf`).
-/

namespace Nachos

open Framework

/-- What an operation does to the registers `r`. -/
inductive Operated (r : Registers) : Except Abort (Registers × Except Trap (BitVec 32)) → Prop
  | abort (e : Abort) : Operated r (.error e)
  | raise (which : Trap) : Operated r (.ok (r, .error which))
  | jump {r' : Registers} (h : r' Reg.load = r Reg.load) (pcAfter : BitVec 32) :
    Operated r (.ok (r', .ok pcAfter))

/-- An operation raises its exception before it changes a register, and leaves
the pending load alone. -/
theorem operate_operated {instr : Instruction} (hd : instr.Decoded) (r : Registers) :
    Operated r (operate instr r) := by
  obtain ⟨op, rs, rt, rd, extra⟩ := instr
  have hw : ∀ {i : Reg} (r : Registers) (v : BitVec 32), i ≠ Reg.load →
      r.write i v Reg.load = r Reg.load := fun r v hi => r.write_ne v hi.symm
  have hrd : ∀ v, r.write rd v Reg.load = r Reg.load := fun v => hw r v (Reg.plain_of_lt hd.rd).1
  have hrt : ∀ v, r.write rt v Reg.load = r Reg.load := fun v => hw r v (Reg.plain_of_lt hd.rt).1
  have hhilo : ∀ x y, ((r.write Reg.hi x).write Reg.lo y) Reg.load = r Reg.load := fun x y => by
    rw [hw _ _ (by decide), hw _ _ (by decide)]
  cases op <;> simp only [operate]
  case add | sub =>
    split
    · exact .raise _
    · exact .jump (hrd _) _
  case addi =>
    split
    · exact .raise _
    · exact .jump (hrt _) _
  case addu | and | nor | or | sll | sllv | slt | sltu | sra | srav | srl | srlv | subu | xor | mfhi
    | mflo | jalr => exact .jump (hrd _) _
  case addiu | andi | lui | ori | slti | sltiu | xori => exact .jump (hrt _) _
  case beq | bne | bgez | bgtz | blez | bltz | j | jr => exact .jump rfl _
  case jal | bgezal | bltzal | mthi | mtlo => exact .jump (hw _ _ (by decide)) _
  case syscall | res | unimp => exact .raise _
  case mult | multu => exact .jump (hhilo _ _) _
  case divu =>
    split
    · exact .jump (hhilo _ _) _
    · exact .jump (hhilo _ _) _
  case div =>
    split
    · exact .jump (hhilo _ _) _
    · unfold defined
      split
      · exact .jump (hhilo _ _) _
      · exact .abort _
  all_goals exact .abort _

section
variable {cfg : Config} {env : Env}

/-- Translations of addresses, and nothing else. -/
def Vm.Walked (cfg : Config) (env : Env) : Vm → Vm → Prop :=
  Relation.ReflTransGen fun s s' => ∃ addr size writing x,
    s.translate cfg env addr size writing = .ok (s', x)

theorem Vm.load_walked {s s' : Vm} {addr : Int} {size : Nat} {x : Except ExceptionType (BitVec 32)}
    (h : s.load cfg env addr size = .ok (s', x)) : Walked cfg env s s' := by
  obtain ⟨⟨s₁, y⟩, ht, h⟩ := bind_eq_ok.mp h
  refine .single ⟨addr, size, false, y, ?_⟩
  cases y with
  | error e =>
    cases h
    exact ht
  | ok a =>
    obtain ⟨_, -, h⟩ := bind_eq_ok.mp h
    obtain ⟨data, -, h⟩ := bind_eq_ok.mp h
    cases h
    exact ht

theorem Vm.save_walked {s s' : Vm} {addr : Int} {size : Nat} {v : BitVec 32} {e : ExceptionType}
    (h : s.save cfg env addr size v = .ok (s', .error e)) : Walked cfg env s s' := by
  obtain ⟨⟨s₁, y⟩, ht, h⟩ := bind_eq_ok.mp h
  refine .single ⟨addr, size, true, y, ?_⟩
  cases y with
  | error e =>
    cases h
    exact ht
  | ok a =>
    obtain ⟨_, -, h⟩ := bind_eq_ok.mp h
    obtain ⟨s₂, -, h⟩ := bind_eq_ok.mp h
    cases h

/-- `load` is `ReadMem`, with the exception handler left to the instruction. -/
theorem Vm.readMem_eq_load (s : Vm) (addr : Int) (size : Nat) {s₁ : Vm}
    {x : Except ExceptionType (BitVec 32)} (h : s.load cfg env addr size = .ok (s₁, x)) :
    (∀ e, x = .error e → s.readMem cfg env addr size =
      (s₁.exceptionHandler cfg env e addr).map fun s => (s, none)) ∧
    ∀ v, x = .ok v → ∃ i, s.readMem cfg env addr size = .ok (s₁, some i) ∧ v = .ofInt 32 i := by
  obtain ⟨⟨s₂, y⟩, ht, h⟩ := bind_eq_ok.mp h
  unfold readMem
  rw [ht]
  cases y with
  | error e =>
    cases h
    refine ⟨fun e' he => ?_, fun v hv => by cases hv⟩
    cases he
    simp only [ok_bind]
    cases s₁.exceptionHandler cfg env e addr <;> rfl
  | ok a =>
    obtain ⟨u, hs, h⟩ := bind_eq_ok.mp h
    obtain ⟨data, hd, h⟩ := bind_eq_ok.mp h
    cases h
    refine ⟨fun e he => (by cases he), fun v hv => ⟨value data, ?_, (Except.ok.inj hv).symm⟩⟩
    simp only [ok_bind, hs, hd, pure_eq_ok]

/-- `save` is `WriteMem`. -/
theorem Vm.writeMem_eq_save (s : Vm) (addr : Int) (size : Nat) (v : BitVec 32) {s₁ : Vm}
    {x : Except ExceptionType Unit} (h : s.save cfg env addr size v = .ok (s₁, x)) :
    (∀ e, x = .error e → s.writeMem cfg env addr size v.toInt =
      (s₁.exceptionHandler cfg env e addr).map fun s => (s, false)) ∧
    (x = .ok () → s.writeMem cfg env addr size v.toInt = .ok (s₁, true)) := by
  obtain ⟨⟨s₂, y⟩, ht, h⟩ := bind_eq_ok.mp h
  unfold writeMem
  rw [ht]
  cases y with
  | error e =>
    cases h
    refine ⟨fun e' he => ?_, fun hv => by cases hv⟩
    cases he
    simp only [ok_bind]
    cases s₁.exceptionHandler cfg env e addr <;> rfl
  | ok a =>
    obtain ⟨u, hs, h⟩ := bind_eq_ok.mp h
    obtain ⟨s₃, hd, h⟩ := bind_eq_ok.mp h
    cases h
    refine ⟨fun e he => (by cases he), fun _ => ?_⟩
    simp only [ok_bind, hs, hd, pure_eq_ok]

/-- The state that an instruction which started in `c` hands to the exception
handler: the pending load was applied and cleared, and memory was not stored
to. -/
structure Trapped (cfg : Config) (env : Env) (c c' : Cpu) : Prop where
  registers : ∀ i, i ≠ Reg.badVAddr → c'.registers i = c.registers.applied i
  walked : Vm.Walked cfg env c.memory c'.memory

/-- What is known of an instruction that started in `c`. -/
structure Clean (cfg : Config) (env : Env) (c : Cpu) (x : Except Abort Ended) : Prop where
  wf : ∀ c' o, x = .ok (c', o) → c'.registers.Wf
  trap : ∀ c' which, x = .ok (c', some which) → Trapped cfg env c c'

namespace Clean

variable {c : Cpu} {m : Vm}

theorem raiseException (hw : c.registers.Wf) (hm : Vm.Walked cfg env c.memory m) (which : Trap)
    (badVAddr : BitVec 32) :
    Clean cfg env c (Cpu.raiseException ⟨c.registers, m⟩ which badVAddr) := by
  have hbad : ∀ i, i ≠ Reg.badVAddr → c.registers.write Reg.badVAddr badVAddr i = c.registers i :=
    fun i hi => c.registers.write_ne _ hi
  obtain ⟨r', e, hl, hv, hz, hp, hr⟩ := Registers.delayedLoad_spec
    (r := c.registers.write Reg.badVAddr badVAddr) (by rw [hbad _ (by decide)]; exact hw.load) 0 0
  have hpend : (c.registers.write Reg.badVAddr badVAddr).pending = c.registers.pending := by
    unfold Registers.pending
    rw [Fin.mk.injEq, hbad _ (by decide)]
  rw [hpend, hbad _ (by decide)] at hp
  rw [hpend] at hr
  have hwf : r'.Wf := ⟨hz, by rw [hl]; decide⟩
  unfold Cpu.raiseException
  rw [e]
  refine ⟨fun c' o h => ?_, fun c' t h => ?_⟩
  · cases h
    exact hwf
  · cases h
    refine ⟨fun i hi => ?_, hm⟩
    show r' i = c.registers.applied i
    unfold Registers.applied
    split
    · rename_i h
      rcases h with rfl | rfl
      · exact hl
      · exact hv
    · rename_i h
      obtain ⟨h₁, h₂⟩ := not_or.mp h
      by_cases h₃ : i = Reg.zero
      · rw [if_neg fun hc => hc.2 h₃, h₃, hz, hw.zero]
      · by_cases h₄ : i = c.registers.pending
        · rw [if_pos ⟨h₄, h₃⟩, h₄, hp (h₄ ▸ h₃)]
        · rw [if_neg fun hc => h₄ hc.1, hr i h₁ h₂ h₃ h₄, hbad i hi]

theorem advance (c' : Cpu) (hl : (c'.registers Reg.load).toNat < 32) {nextReg : BitVec 32}
    (hn : nextReg.toNat < 32) (pcAfter v : BitVec 32) :
    Clean cfg env c (c'.advance pcAfter nextReg v) := by
  obtain ⟨r', e, hload, -, hz, -⟩ := Registers.delayedLoad_spec hl nextReg v
  obtain ⟨r'', e', -, -, -, hr⟩ := Cpu.advance_spec e pcAfter
  rw [e']
  refine ⟨fun c'' o h => ?_, fun c'' t h => ?_⟩
  · cases h
    refine ⟨?_, ?_⟩
    · show r'' Reg.zero = 0
      rw [hr _ (by decide) (by decide) (by decide), hz]
    · show (r'' Reg.load).toNat < 32
      rw [hr _ (by decide) (by decide) (by decide), hload]
      exact hn
  · cases h

theorem readMem (hw : c.registers.Wf) (hm : Vm.Walked cfg env c.memory m) (addr : BitVec 32)
    (size : Nat) {rest : Cpu → BitVec 32 → Except Abort Ended}
    (hr : ∀ m v, Vm.Walked cfg env c.memory m → Clean cfg env c (rest ⟨c.registers, m⟩ v)) :
    Clean cfg env c (Cpu.readMem cfg env ⟨c.registers, m⟩ addr size rest) := by
  unfold Cpu.readMem
  cases hl : m.load cfg env addr.toInt size with
  | error e => exact ⟨fun _ _ h => (by cases h), fun _ _ h => (by cases h)⟩
  | ok p =>
    obtain ⟨m', x⟩ := p
    have hm' := hm.trans (Vm.load_walked hl)
    cases x with
    | error which => exact raiseException hw hm' _ _
    | ok v => exact hr m' v hm'

theorem writeMem (hw : c.registers.Wf) (hm : Vm.Walked cfg env c.memory m) (addr : BitVec 32)
    (size : Nat) (v : BitVec 32) {rest : Cpu → Except Abort Ended}
    (hr : ∀ m, Clean cfg env c (rest ⟨c.registers, m⟩)) :
    Clean cfg env c (Cpu.writeMem cfg env ⟨c.registers, m⟩ addr size v rest) := by
  unfold Cpu.writeMem
  cases hs : m.save cfg env addr.toInt size v with
  | error e => exact ⟨fun _ _ h => (by cases h), fun _ _ h => (by cases h)⟩
  | ok p =>
    obtain ⟨m', x⟩ := p
    cases x with
    | error which => exact raiseException hw (hm.trans (Vm.save_walked hs)) _ _
    | ok u => exact hr m'

end Clean

theorem Reg.toNat_ofNat {i : Reg} (h : i.val < 32) : (BitVec.ofNat 32 i.val).toNat < 32 := by
  rw [BitVec.toNat_ofNat]
  omega

/-- Every instruction is clean: it raises its exceptions before it changes
anything. -/
theorem execute_clean {c : Cpu} {m : Vm} (hw : c.registers.Wf)
    (hm : Vm.Walked cfg env c.memory m) {instr : Instruction} (hd : instr.Decoded) :
    Clean cfg env c (Cpu.execute cfg env ⟨c.registers, m⟩ instr) := by
  have hload : ∀ (m : Vm) (pcAfter v : BitVec 32),
      Clean cfg env c (Cpu.advance ⟨c.registers, m⟩ pcAfter (.ofNat 32 instr.rt) v) :=
    fun m pcAfter v => .advance ⟨c.registers, m⟩ hw.load (Reg.toNat_ofNat hd.rt) pcAfter v
  have hdone : ∀ (m : Vm) (pcAfter : BitVec 32),
      Clean cfg env c (Cpu.advance ⟨c.registers, m⟩ pcAfter 0 0) :=
    fun m pcAfter => .advance ⟨c.registers, m⟩ hw.load (by decide) pcAfter 0
  unfold Cpu.execute
  simp only
  split
  case h_1 | h_2 | h_6 | h_7 => exact .readMem hw hm _ _ fun m v _ => hload m _ _
  case h_3 | h_4 | h_5 =>
    split
    · exact .raiseException hw hm _ _
    · exact .readMem hw hm _ _ fun m v _ => hload m _ _
  case h_8 | h_9 | h_10 => exact .writeMem hw hm _ _ _ fun m => hdone m _
  case h_11 | h_12 =>
    exact .readMem hw hm _ _ fun m v hm => .writeMem hw hm _ _ _ fun m => hdone m _
  case h_13 =>
    have ho := operate_operated hd c.registers
    generalize operate instr c.registers = x at ho
    cases ho with
    | abort e => exact ⟨fun _ _ h => (by cases h), fun _ _ h => (by cases h)⟩
    | raise which => exact .raiseException hw hm _ _
    | @jump r' h pcAfter =>
      refine .advance ⟨r', m⟩ ?_ (by decide) pcAfter 0
      show (r' Reg.load).toNat < 32
      rw [h]
      exact hw.load

theorem oneInstruction_clean {c : Cpu} (hw : c.registers.Wf) :
    Clean cfg env c (c.oneInstruction cfg env) :=
  .readMem hw .refl _ _ fun _ v hm => execute_clean hw hm (Instruction.decoded_decode v)

namespace Vm

/-- No page of the running thread is swapped out: this takes a linear page table
and no TLB. -/
def Unswapped (cfg : Config) (s : Vm) : Prop :=
  cfg.useTLB = false → cfg.useRPT = false → ∀ sp, s.space s.currentThread = .ok sp →
    ∀ e ∈ sp.pt, e.valid = true ∨ e.ppn = -1

theorem Unswapped.of_core {s s' : Vm} (h : Unswapped cfg s) (hc : s'.core = s.core) :
    Unswapped cfg s' := by
  intro hT hR sp' hsp' e' he'
  obtain ⟨sp, hsp, hspc⟩ := space_of_core hc hsp'
  rw [(Vm.of_core hc).2.2.2.2] at hsp
  have hpt : sp.pt.core = sp'.pt.core := congrArg AddrSpace.pt hspc.symm
  have hmem : e'.core ∈ sp.pt.core := hpt ▸ List.mem_map_of_mem he'
  obtain ⟨e, he, hec⟩ := List.mem_map.mp hmem
  obtain ⟨-, -, hppn, hvalid, -⟩ := TranslationEntry.of_core hec
  rw [← hppn, ← hvalid]
  exact h hT hR sp hsp e he

/-- Then the walk of the page table changes nothing. -/
theorem Unswapped.stable {s : Vm} (h : Unswapped cfg s) (hT : cfg.useTLB = false) (vpn : Int) :
    s.Stable cfg env vpn := by
  intro s' x hx
  cases hR : cfg.useRPT with
  | true => exact stable_rpt hR vpn s' x hx
  | false =>
    unfold pageTableTranslation at hx
    rw [if_neg (by simp [hR])] at hx
    obtain ⟨sp, hsp, hx⟩ := bind_eq_ok.mp hx
    split at hx
    · cases hx
      rfl
    · simp only at hx
      split at hx
      · cases hx
        rfl
      · rename_i hv
        split at hx
        · rename_i hp
          obtain ⟨⟨s₁, sp₁⟩, hs, -⟩ := bind_eq_ok.mp hx
          obtain ⟨hpos, hlt⟩ := swap_bounds hs
          have he : sp.pt.entry env.stray vpn ∈ sp.pt := by
            rw [Table.entry, if_pos hpos, List.getD_eq_getElem?_getD, List.getElem?_eq_getElem hlt]
            exact List.getElem_mem hlt
          exact ((h hT hR sp hsp _ he).elim hv hp).elim
        · cases hx
          rfl

/-- Translations leave main memory alone unless a page is swapped out. -/
theorem Walked.mainMemory {s s' : Vm} (h : Walked cfg env s s') (hu : Unswapped cfg s) :
    s'.mainMemory = s.mainMemory ∧ Unswapped cfg s' := by
  induction h with
  | refl => exact ⟨rfl, hu⟩
  | tail _ ht ih =>
    obtain ⟨addr, size, writing, x, ht⟩ := ht
    obtain ⟨hm, hu⟩ := ih
    rcases translate_cases (fun hT => hu.stable hT _) ht with ⟨e, -, rfl, -⟩ | ⟨_, _, _, _, -, hc, -⟩
    · exact ⟨hm, hu⟩
    · exact ⟨(Vm.of_core hc).2.1.trans hm, hu.of_core hc⟩

end Vm

/-- The registers that an instruction leaves the same when it is executed again
in the memory `m`: all but `BadVAddrReg`, and but `LoadValueReg` when it merges
into a load of `R0`. -/
def Restored (cfg : Config) (env : Env) (r : Registers) (m : Vm) (i : Reg) : Prop :=
  i ≠ Reg.badVAddr ∧ (i = Reg.loadValue → ∀ m' raw,
    m.load cfg env (r Reg.pc).toInt 4 = .ok (m', .ok raw) →
      ¬ (Instruction.decode raw).MergesZero r.pending)

/-- The instruction in the memory `m` keeps to the load-delay rule. -/
def RespectsDelay (cfg : Config) (env : Env) (r : Registers) (m : Vm) : Prop :=
  ∀ m' raw, m.load cfg env (r Reg.pc).toInt 4 = .ok (m', .ok raw) →
    (Instruction.decode raw).Respects r.pending

/-- The state that the handler gets is ahead of the one before. -/
theorem Trapped.ahead {c c' : Cpu} (h : Trapped cfg env c c') (hw : c.registers.Wf) :
    Ahead c.registers.pending c.registers c'.registers := by
  have hp := c.registers.pending_lt
  have hpl := Reg.plain_of_lt hp
  refine ⟨hp, (Nat.mod_eq_of_lt hw.load).symm, ⟨?_, ?_⟩, fun hz => ?_, fun i hi hil => ?_⟩
  · rw [h.registers _ (by decide)]
    rfl
  · rw [h.registers _ (by decide)]
    rfl
  · rw [h.registers _ hpl.2.2, Registers.applied, if_neg (not_or.mpr ⟨hpl.1, hpl.2.1⟩),
      if_pos ⟨rfl, hz⟩]
  · rw [h.registers _ hi.2.2, Registers.applied, if_neg (not_or.mpr ⟨hi.1, hi.2.1⟩),
      if_neg fun hc => hil.elim (fun hl => hl hc.1) fun hz => hc.2 (hc.1.trans hz)]

/-- An instruction that ends in an exception has changed nothing but the pending
load, which was applied and cleared; executed again, in any memory, it does what
it does there from the registers before. -/
theorem oneInstruction_restart {c c' : Cpu} {which : Trap} (hw : c.registers.Wf)
    (h : c.oneInstruction cfg env = .ok (c', some which)) :
    c'.registers.Wf ∧ (∀ i, i ≠ Reg.badVAddr → c'.registers i = c.registers.applied i) ∧
      Vm.Walked cfg env c.memory c'.memory ∧
      (Vm.Unswapped cfg c.memory → c'.memory.mainMemory = c.memory.mainMemory) ∧
      ∀ m, RespectsDelay cfg env c.registers m →
        Agree (Restored cfg env c.registers m) (Cpu.oneInstruction cfg env ⟨c.registers, m⟩)
          (Cpu.oneInstruction cfg env ⟨c'.registers, m⟩) := by
  have hclean : Clean cfg env c (c.oneInstruction cfg env) := oneInstruction_clean hw
  have ht := hclean.trap c' which h
  refine ⟨hclean.wf _ _ h, ht.registers, ht.walked, fun hu => (ht.walked.mainMemory hu).1,
    fun m hr => ?_⟩
  refine oneInstruction_agree (ht.ahead hw) hw.zero (fun i hi => hi.1) m fun m' raw hl => ?_
  exact ⟨hr m' raw hl, fun hs => hs.2 rfl m' raw hl⟩

/-- A round of `Machine::Run`. The run ends at an exception other than those of
memory accesses. -/
def Cpu.round (cfg : Config) (c : Cpu) (env : Env) : Except Abort Cpu := do
  let (c, which) ← c.oneInstruction cfg env
  match which with
  | none => return c
  | some (.memory e) =>
    let m ← c.memory.exceptionHandler cfg env e (c.registers Reg.badVAddr).toInt
    return { c with memory := m }
  | some _ => .error .assert

theorem initRegisters_wf {A F H : Type} (sp : SpaceState A F H) : sp.initRegisters.Wf := by
  refine ⟨?_, ?_⟩
  · show ((Registers.write _ _ _).write _ _).write _ _ Reg.zero = 0
    rw [Registers.write_ne _ _ (by decide), Registers.write_ne _ _ (by decide),
      Registers.write_ne _ _ (by decide)]
  · show (((Registers.write _ _ _).write _ _).write _ _ Reg.load).toNat < 32
    rw [Registers.write_ne _ _ (by decide), Registers.write_ne _ _ (by decide),
      Registers.write_ne _ _ (by decide)]
    decide

/-- In every run `R0` is zero and the pending load is of a general register. -/
theorem reachable_wf {c₀ c : Cpu} (hw : c₀.registers.Wf)
    (h : (System.ofFun c₀ (Cpu.round cfg)).Reachable c) : c.registers.Wf := by
  refine h.invariant (I := fun c => c.registers.Wf) ?_ ?_
  · rintro _ rfl
    exact hw
  · intro c env c' hc hs
    obtain ⟨⟨c₁, which⟩, ho, hs⟩ := bind_eq_ok.mp hs
    have hc₁ := (oneInstruction_clean hc).wf c₁ which ho
    cases which with
    | none =>
      cases hs
      exact hc₁
    | some t =>
      cases t with
      | memory e =>
        obtain ⟨m, -, hs⟩ := bind_eq_ok.mp hs
        cases hs
        exact hc₁
      | _ => cases hs

end

theorem Agree.registers {S : Reg → Prop} {x y : Except Abort Ended} (h : Agree S x y) {c c₁ : Cpu}
    {which which₁ : Option Trap} (hx : x = .ok (c, which)) (hy : y = .ok (c₁, which₁)) {i : Reg}
    (hi : S i) : c₁.registers i = c.registers i := by
  cases h with
  | abort e => cases hx
  | ended h m t =>
    cases hx
    cases hy
    exact h i hi

/-- `LW` of register 5 is pending, and the fetch of the next instruction is a
page fault. -/
theorem oneInstruction_restart_fetch : ∃ c c' : Cpu,
    c.registers.pending = (5 : Fin 40) ∧
    c.oneInstruction ⟨false, true, false, false⟩ .blank = .ok (c', some (.memory .pageFault)) ∧
    c'.registers (5 : Fin 40) = 9 ∧
    ∀ m, RespectsDelay ⟨false, true, false, false⟩ .blank c.registers m →
      Agree (Restored ⟨false, true, false, false⟩ .blank c.registers m)
        (Cpu.oneInstruction ⟨false, true, false, false⟩ .blank ⟨c.registers, m⟩)
        (Cpu.oneInstruction ⟨false, true, false, false⟩ .blank ⟨c'.registers, m⟩) := by
  let r : Registers := (Registers.write (fun _ => 0) Reg.load 5).write Reg.loadValue 9
  obtain ⟨⟨c', which⟩, h, hp⟩ := Vm.exists_ok
    (x := Cpu.oneInstruction ⟨false, true, false, false⟩ .blank
      ⟨r, Vm.start ⟨false, true, false, false⟩⟩)
    (q := fun y => y.2 = some (.memory .pageFault) ∧ y.1.registers (5 : Fin 40) = 9)
    (by decide +kernel)
  obtain ⟨hwhich, h5⟩ := of_decide_eq_true hp
  obtain rfl : which = some (.memory .pageFault) := hwhich
  have hw : r.Wf := ⟨by decide, by decide⟩
  exact ⟨⟨r, _⟩, c', rfl, h, h5, (oneInstruction_restart hw h).2.2.2.2⟩

/-- `lw $0, 0($1)` and `lwl $0, 128($1)`, and a second page. -/
def mergeProgram : Program := ⟨word.encodeAll [0x8c200000, 0x88200080], 0, 2⟩

/-- The registers and the memory in which `mergeProgram` starts. -/
def mergeStart : Cpu :=
  ⟨SpaceState.initRegisters ⟨(), 2, (), ()⟩,
    (([.create (some mergeProgram), .run 1].map fun op => (op, Env.blank)).foldlM
      (Vm.next ⟨false, true, false, false⟩)
      (Vm.start ⟨false, true, false, false⟩)).toOption.getD (Vm.start ⟨false, true, false, false⟩)⟩

/-- No load but of `R0` is pending, the next instruction is a page fault, and
behind the handler the two executions leave different values of
`LoadValueReg`. -/
def mergeLost (c : Cpu) : Bool :=
  let run := Cpu.oneInstruction ⟨false, true, false, false⟩ .blank
  decide (c.registers.pending = Reg.zero) && (run c).toOption.any fun y : Ended =>
    decide (y.2 = some (.memory .pageFault)) &&
    (y.1.memory.exceptionHandler ⟨false, true, false, false⟩ .blank .pageFault
      (y.1.registers Reg.badVAddr).toInt).toOption.any fun m : Vm =>
        (run ⟨c.registers, m⟩).toOption.any
          (fun z : Ended => decide (z.1.registers Reg.loadValue = 0x200000)) &&
        (run ⟨y.1.registers, m⟩).toOption.any
          fun z : Ended => decide (z.1.registers Reg.loadValue = 0)

/-- A page of the code is swapped out, and the data is not loaded. -/
def swappedStart : Cpu :=
  ⟨SpaceState.initRegisters ⟨(), 2, (), ()⟩,
    { mmBitmap := .new numPhysPages
      mainMemory := fun _ => 0
      pt := []
      tlb := []
      threadArray := [some ⟨some ⟨⟨[], 0, 2⟩, [{ TranslationEntry.reset with ppn := 0 }, .reset],
        word.encodeAll [0x8c200080]⟩, none, false⟩]
      currentThread := 0 }⟩

/-- A page that is swapped in for the fetch changes main memory before the load
ends in a page fault. And `LWL` of `R0` merges into a pending load of `R0`, whose
value is gone when it is executed again. -/
theorem not_oneInstruction_restart :
    (¬ ∀ (cfg : Config) (env : Env) (c c' : Cpu) (e : ExceptionType), c.registers.Wf →
      c.oneInstruction cfg env = .ok (c', some (.memory e)) → (e = .pageFault ∨ e = .tlbMiss) →
      c'.memory.mainMemory = c.memory.mainMemory) ∧
    ¬ ∀ (cfg : Config) (env : Env) (c c' : Cpu) (e : ExceptionType) (m : Vm),
      (System.ofFun mergeStart (Cpu.round cfg)).Reachable c →
      c.oneInstruction cfg env = .ok (c', some (.memory e)) → (e = .pageFault ∨ e = .tlbMiss) →
      c'.memory.exceptionHandler cfg env e (c'.registers Reg.badVAddr).toInt = .ok m →
      RespectsDelay cfg env c.registers m →
      Agree (fun i => i ≠ Reg.badVAddr) (Cpu.oneInstruction cfg env ⟨c.registers, m⟩)
        (Cpu.oneInstruction cfg env ⟨c'.registers, m⟩) := by
  refine ⟨fun hall => ?_, fun hall => ?_⟩
  · obtain ⟨⟨c', which⟩, h, hp⟩ := Vm.exists_ok
      (x := swappedStart.oneInstruction ⟨false, false, false, false⟩ .blank)
      (q := fun y => y.2 = some (.memory .pageFault) ∧ y.1.memory.mainMemory 3 = 0x8c)
      (by decide +kernel)
    obtain ⟨hwhich, hm⟩ := of_decide_eq_true hp
    obtain rfl : which = some (.memory .pageFault) := hwhich
    have := hall _ _ _ c' _ (initRegisters_wf _) h (.inl rfl)
    rw [this] at hm
    exact absurd hm (by decide)
  · obtain ⟨c, hr, hp⟩ := System.exists_reachable mergeStart
      (Cpu.round ⟨false, true, false, false⟩) [.blank, .blank] (p := mergeLost) (by decide +kernel)
    obtain ⟨hz, hp⟩ := Bool.and_eq_true_iff.mp hp
    obtain ⟨⟨c', which⟩, h, hp⟩ := Vm.exists_ok hp
    obtain ⟨hwhich, hp⟩ := Bool.and_eq_true_iff.mp hp
    obtain rfl : which = some (.memory .pageFault) := of_decide_eq_true hwhich
    obtain ⟨m, hm, hp⟩ := Vm.exists_ok hp
    obtain ⟨h₁, h₂⟩ := Bool.and_eq_true_iff.mp hp
    obtain ⟨⟨c₁, w₁⟩, h₁, hv₁⟩ := Vm.exists_ok h₁
    obtain ⟨⟨c₂, w₂⟩, h₂, hv₂⟩ := Vm.exists_ok h₂
    have hagree := hall _ _ c c' _ m hr h (.inl rfl) hm fun _ _ _ => .inl (of_decide_eq_true hz)
    have heq := hagree.registers h₁ h₂ (i := Reg.loadValue) (by decide)
    rw [of_decide_eq_true hv₁, of_decide_eq_true hv₂] at heq
    exact absurd heq (by decide)

end Nachos

import Nachos.Framework.DoubleWord
import Nachos.Impl.Machine.Disk
import Nachos.Proof.Machine.Execute
import Nachos.Proof.Userprog.Core
import Nachos.Spec.Mips

/-!
# Delay slots

`OneInstruction` keeps its delays in four pseudo-registers. `Tracks` relates
them to the state of the reference machine, and every instruction that ends
without an exception preserves it (`execute_tracks`), so whole runs do
(`run_tracks`).
-/

namespace Nachos

/-- The load that is pending: none, or one whose value matters unless it is for
`R0`. -/
def Registers.Loading (r : Registers) : Option (Reg × BitVec 32) → Prop
  | none => r Reg.load = 0
  | some (l, v) => l.val < 32 ∧ r Reg.load = .ofNat 32 l ∧ (l ≠ Reg.zero → r Reg.loadValue = v)

/-- The state of the reference machine that the simulator is in. -/
structure Mips.Tracks (m : Mips) (c : Cpu) : Prop where
  zero : c.registers Reg.zero = 0
  regs : ∀ i : Reg, i.val < 34 → i ≠ Reg.zero → m.regs i = c.registers i
  pc : m.pc = c.registers Reg.pc
  next : m.next = c.registers Reg.nextPC
  load : c.registers.Loading m.load
  memory : m.memory = c.memory

namespace Mips

theorem link_eq (m : Mips) : m.link = m.next + 4 := by
  unfold link next
  cases m.branch with
  | none =>
    show m.pc + 8 = m.pc + 4 + 4
    rw [BitVec.add_assoc]
    rfl
  | some target => rfl

namespace Tracks

variable {m : Mips} {c : Cpu}

theorem read (h : m.Tracks c) {i : Reg} (hi : i.val < 34) : m.read i = c.registers i := by
  unfold Mips.read
  split_ifs with hz
  · rw [hz, h.zero]
  · exact h.regs i hi hz

theorem link (h : m.Tracks c) : m.link = c.registers Reg.nextPC + 4 := by
  rw [link_eq, h.next]

theorem load_lt (h : m.Tracks c) : (c.registers Reg.load).toNat < 32 := by
  have hl := h.load
  cases hm : m.load with
  | none =>
    rw [hm] at hl
    rw [show c.registers Reg.load = 0 from hl]
    decide
  | some p =>
    rw [hm] at hl
    have := hl.1
    rw [hl.2.1, BitVec.toNat_ofNat]
    omega

/-- What arrives at the end of an instruction, in a register that it leaves equal
on both sides. -/
theorem loaded (h : m.Tracks c) {i : Reg} (hi : i.val < 34) (hz : i ≠ Reg.zero)
    {regs r : Registers} (hregs : regs i = r i) (hsame : ∀ i : Reg, 34 ≤ i.val → r i = c.registers i)
    (branch : Option (BitVec 32)) (load : Option (Reg × BitVec 32)) (n v : BitVec 32) :
    (m.retire regs branch load).regs i = r.loaded n v i := by
  have hl := h.load
  have hpending : r.pending.val = (c.registers Reg.load).toNat % 32 := by
    show (r Reg.load).toNat % 32 = _
    rw [hsame _ (by decide)]
  have hne : ∀ j : Reg, 34 ≤ j.val → i ≠ j := by
    rintro j hj rfl
    omega
  rw [Registers.loaded, if_neg hz, if_neg (hne _ (by decide)), if_neg (hne _ (by decide)),
    Mips.retire]
  cases hm : m.load with
  | none =>
    rw [hm] at hl
    rw [show c.registers Reg.load = 0 from hl] at hpending
    rw [if_neg fun e => hz (Fin.ext (by rw [e, hpending]; rfl))]
    exact hregs
  | some p =>
    obtain ⟨l, w⟩ := p
    rw [hm] at hl
    obtain ⟨hl32, hload, hvalue⟩ := hl
    have hp : r.pending = l := by
      refine Fin.ext ?_
      rw [hpending, hload, BitVec.toNat_ofNat]
      omega
    show regs.write l w i = _
    rw [hp, Registers.write_apply]
    split_ifs with hil
    · rw [hsame _ (by decide), hvalue (hil ▸ hz)]
    · exact hregs

/-- Where an instruction merges into `R0`, its result is not used. -/
theorem merged (h : m.Tracks c) {i : Reg} (hi : i.val < 32) (hz : i ≠ Reg.zero) :
    m.merged i = forwarded c.registers i := by
  have hl := h.load
  have hread := h.read (i := i) (by omega)
  unfold Mips.merged forwarded
  rw [BitVec.toInt_eq_toNat_of_lt (by have := h.load_lt; omega)]
  cases hm : m.load with
  | none =>
    rw [hm] at hl
    rw [show c.registers Reg.load = 0 from hl, if_neg, hread]
    intro e
    exact hz (Fin.ext (by exact_mod_cast e.symm))
  | some p =>
    obtain ⟨l, w⟩ := p
    rw [hm] at hl
    obtain ⟨hl32, hload, hvalue⟩ := hl
    rw [hload, BitVec.toNat_ofNat, Nat.mod_eq_of_lt (by omega)]
    show (if l = i then w else m.read i) = _
    by_cases hli : l = i
    · rw [if_pos hli, if_pos (by rw [hli]), hvalue (hli ▸ hz)]
    · rw [if_neg hli, if_neg (fun e => hli (Fin.ext (by exact_mod_cast e))), hread]

/-- The end of an instruction: `r` are the registers behind the switch. -/
theorem retire (h : m.Tracks c) {regs r : Registers} {branch : Option (BitVec 32)}
    {load : Option (Reg × BitVec 32)} {pcAfter n v : BitVec 32}
    (hregs : ∀ i : Reg, i.val < 34 → i ≠ Reg.zero → regs i = r i)
    (hsame : ∀ i : Reg, 34 ≤ i.val → r i = c.registers i)
    (hbranch : branch.getD (m.next + 4) = pcAfter)
    (hload : (r.advanced pcAfter n v).Loading load) :
    (m.retire regs branch load).Tracks ⟨r.advanced pcAfter n v, c.memory⟩ where
  zero := rfl
  regs i hi hz :=
    (h.loaded hi hz (hregs i hi hz) hsame branch load n v).trans
      (r.advanced_general pcAfter n v hi).symm
  pc := h.next.trans (hsame _ (by decide)).symm
  next := hbranch
  load := hload
  memory := h.memory

/-- An instruction without a load. -/
theorem retire_done (h : m.Tracks c) {regs r : Registers} {branch : Option (BitVec 32)}
    {pcAfter : BitVec 32} (hregs : ∀ i : Reg, i.val < 34 → i ≠ Reg.zero → regs i = r i)
    (hsame : ∀ i : Reg, 34 ≤ i.val → r i = c.registers i)
    (hbranch : branch.getD (m.next + 4) = pcAfter) :
    (m.retire regs branch none).Tracks ⟨r.advanced pcAfter 0 0, c.memory⟩ :=
  h.retire hregs hsame hbranch rfl

/-- An instruction with one. -/
theorem retire_load (h : m.Tracks c) {i : Reg} (hi : i.val < 32) {v w : BitVec 32}
    (hv : i ≠ Reg.zero → w = v) :
    (m.retire m.regs none (some (i, v))).Tracks
      ⟨c.registers.advanced (c.registers Reg.nextPC + 4) (.ofNat 32 i) w, c.memory⟩ :=
  h.retire h.regs (fun _ _ => rfl) (by rw [h.next]; rfl) ⟨hi, rfl, hv⟩

theorem setMemory (h : m.Tracks c) (memory : Vm) :
    Tracks { m with memory := memory } ⟨c.registers, memory⟩ :=
  ⟨h.zero, h.regs, h.pc, h.next, h.load, rfl⟩

end Tracks

end Mips

/-! ## Instructions without memory -/

/-- The branches and jumps. -/
def OpCode.controls : List OpCode :=
  [.beq, .bne, .bgez, .bgtz, .blez, .bltz, .bgezal, .bltzal, .j, .jal, .jr, .jalr]

/-- The results of an operation on registers that agree on the first 34. -/
inductive Twin (r s : Registers) :
    Except Abort (Registers × Except Trap (BitVec 32)) →
    Except Abort (Registers × Except Trap (BitVec 32)) → Prop
  | abort (e : Abort) : Twin r s (.error e) (.error e)
  | raise (which : Trap) : Twin r s (.ok (r, .error which)) (.ok (s, .error which))
  | set {r' s' : Registers} (h : ∀ i : Reg, i.val < 34 → s' i = r' i)
    (k : ∀ i : Reg, 34 ≤ i.val → r' i = r i) :
    Twin r s (.ok (r', .ok (r Reg.nextPC + 4))) (.ok (s', .ok (s Reg.nextPC + 4)))

/-- Arithmetic depends on the first 34 registers and sets no others. -/
theorem operate_twin {r s : Registers} (h : ∀ i : Reg, i.val < 34 → s i = r i)
    {instr : Instruction} (hd : instr.Decoded) (hc : instr.opCode ∉ OpCode.controls) :
    Twin r s (operate instr r) (operate instr s) := by
  obtain ⟨op, rs, rt, rd, extra⟩ := instr
  have hrs : s rs = r rs := h rs (Nat.lt_trans hd.rs (by decide))
  have hrt : s rt = r rt := h rt (Nat.lt_trans hd.rt (by decide))
  have hhi : s Reg.hi = r Reg.hi := h _ (by decide)
  have hlo : s Reg.lo = r Reg.lo := h _ (by decide)
  have hset : ∀ (i : Reg) (v : BitVec 32), i.val < 34 →
      Twin r s (.ok (r.write i v, .ok (r Reg.nextPC + 4)))
        (.ok (s.write i v, .ok (s Reg.nextPC + 4))) := fun i v hi => by
    refine .set (fun j hj => ?_) fun j hj => r.write_ne v (by rintro rfl; omega)
    rw [Registers.write_apply, Registers.write_apply, h j hj]
  have hrd := fun v => hset rd v (Nat.lt_trans hd.rd (by decide))
  have hrt' := fun v => hset rt v (Nat.lt_trans hd.rt (by decide))
  have hhilo : ∀ x y : BitVec 32,
      Twin r s (.ok ((r.write Reg.hi x).write Reg.lo y, .ok (r Reg.nextPC + 4)))
        (.ok ((s.write Reg.hi x).write Reg.lo y, .ok (s Reg.nextPC + 4))) := fun x y => by
    refine .set (fun j hj => ?_) fun j hj => ?_
    · simp only [Registers.write_apply, h j hj]
    · rw [Registers.write_ne _ _ (by rintro rfl; exact absurd hj (by decide)),
        Registers.write_ne _ _ (by rintro rfl; exact absurd hj (by decide))]
  cases op <;> simp only [operate, hrs, hrt, hhi, hlo]
  case add | sub =>
    split
    · exact .raise _
    · exact hrd _
  case addi =>
    split
    · exact .raise _
    · exact hrt' _
  case addu | and | nor | or | sll | sllv | slt | sltu | sra | srav | srl | srlv | subu | xor | mfhi
    | mflo => exact hrd _
  case addiu | andi | lui | ori | slti | sltiu | xori => exact hrt' _
  case mthi => exact hset Reg.hi _ (by decide)
  case mtlo => exact hset Reg.lo _ (by decide)
  case syscall | res | unimp => exact .raise _
  case mult | multu => exact hhilo _ _
  case divu =>
    split
    · exact hhilo _ _
    · exact hhilo _ _
  case div =>
    split
    · exact hhilo _ _
    · unfold defined
      split
      · exact hhilo _ _
      · exact .abort _
  case beq | bne | bgez | bgtz | blez | bltz | bgezal | bltzal | j | jal | jr | jalr =>
    exact absurd (by simp [OpCode.controls]) hc
  all_goals exact .abort _

namespace Mips.Tracks

variable {m : Mips} {c : Cpu}

theorem linked (h : m.Tracks c) {l : Reg} {i : Reg} (hi : i.val < 34) (hz : i ≠ Reg.zero) :
    m.linked (some l) i = c.registers.write l (c.registers Reg.nextPC + 4) i := by
  rw [Mips.linked, Registers.write_apply, Registers.write_apply, h.link, h.regs i hi hz]

/-- A branch or jump, in the simulator. -/
theorem operate_control (h : m.Tracks c) {instr : Instruction} (hd : instr.Decoded)
    {l : Option Reg} {target : Option (BitVec 32)} (hc : m.control true instr = some (l, target)) :
    ∃ r, operate instr c.registers = .ok (r, .ok (target.getD (m.next + 4))) ∧
      (∀ i : Reg, i.val < 34 → i ≠ Reg.zero → m.linked l i = r i) ∧
      ∀ i : Reg, 34 ≤ i.val → r i = c.registers i := by
  obtain ⟨op, rs, rt, rd, extra⟩ := instr
  have hrs : m.read rs = c.registers rs := h.read (Nat.lt_trans hd.rs (by decide))
  have hrt : m.read rt = c.registers rt := h.read (Nat.lt_trans hd.rt (by decide))
  have taken : ∀ (b : Bool) (x y : BitVec 32),
      (if b then some x else none).getD y = if b then x else y := fun b x y => by
    cases b <;> rfl
  have same : ∀ (l : Reg) (v : BitVec 32), l.val < 32 → ∀ i : Reg, 34 ≤ i.val →
      c.registers.write l v i = c.registers i := fun l v hl i hi =>
    c.registers.write_ne v (by rintro rfl; omega)
  simp only [control, hrs, hrt, h.link, h.next, Bool.true_and] at hc
  cases op <;> simp only [reduceCtorEq] at hc <;>
    obtain ⟨rfl, rfl⟩ := Prod.mk.inj (Option.some.inj hc) <;>
    simp only [operate, taken, h.next, Option.getD_some]
  case beq | bne | bgez | bgtz | blez | bltz | j | jr =>
    exact ⟨_, rfl, h.regs, fun _ _ => rfl⟩
  case jal => exact ⟨_, rfl, fun i hi hz => h.linked hi hz, same _ _ (by decide)⟩
  case bgezal | bltzal =>
    refine ⟨_, ?_, fun i hi hz => h.linked hi hz, same _ _ (by decide)⟩
    simp only [Registers.write_apply, decide_eq_true_eq]
  case jalr =>
    refine ⟨_, ?_, fun i hi hz => h.linked hi hz, same _ _ hd.rd⟩
    simp only [Registers.write_apply, decide_eq_true_eq]

theorem control_none {instr : Instruction} {linkFirst : Bool}
    (hc : m.control linkFirst instr = none) : instr.opCode ∉ OpCode.controls := by
  intro hmem
  simp only [OpCode.controls, List.mem_cons, List.not_mem_nil, or_false] at hmem
  unfold control at hc
  rcases hmem with h | h | h | h | h | h | h | h | h | h | h | h <;> simp [h] at hc

end Mips.Tracks

/-! ## Parts of a word -/

/-- The masks of the code for the low `k` bits of a word. -/
structure Masks (k : Nat) (sign low high : BitVec 32) : Prop where
  pos : 0 < k
  le : k ≤ 32
  sign : sign = BitVec.twoPow 32 (k - 1)
  low : ∀ i < 32, low.getLsbD i = decide (i < k)
  high : ∀ i < 32, high.getLsbD i = decide (k ≤ i)

theorem masks_byte : Masks 8 0x80 0xff 0xffffff00 := ⟨by decide, by decide, rfl, by decide, by decide⟩

theorem masks_half : Masks 16 0x8000 0xffff 0xffff0000 := ⟨by decide, by decide, rfl, by decide, by decide⟩

namespace Masks

variable {k : Nat} {sign low high : BitVec 32}

theorem zeroExtend (h : Masks k sign low high) (v : BitVec 32) :
    v &&& low = (v.setWidth k).setWidth 32 := by
  refine BitVec.eq_of_getLsbD_eq fun i hi => ?_
  rw [BitVec.getLsbD_and, h.low i hi, BitVec.getLsbD_setWidth, BitVec.getLsbD_setWidth,
    decide_eq_true hi, Bool.true_and, Bool.and_comm]

theorem signExtend (h : Masks k sign low high) (v : BitVec 32) :
    (if v &&& sign ≠ 0 then v ||| high else v &&& low) = (v.setWidth k).signExtend 32 := by
  have hmsb : (v.setWidth k).msb = v.getLsbD (k - 1) := by
    rw [BitVec.msb_eq_getLsbD_last, BitVec.getLsbD_setWidth,
      decide_eq_true (show k - 1 < k by have := h.pos; omega), Bool.true_and]
  have hk := h.le
  have hpos := h.pos
  have htest := DoubleWord.and_twoPow_ne_zero v (k := k - 1) (by omega)
  refine BitVec.eq_of_getLsbD_eq fun i hi => ?_
  rw [BitVec.getLsbD_signExtend, decide_eq_true hi, Bool.true_and, hmsb, h.sign,
    BitVec.getLsbD_setWidth]
  by_cases hv : v.getLsbD (k - 1) = true
  · rw [if_pos (htest.mpr hv), BitVec.getLsbD_or, h.high i hi, hv]
    by_cases hik : i < k
    · simp [hik]
    · simp [hik, Nat.le_of_not_lt hik]
  · rw [if_neg (mt htest.mp hv), BitVec.getLsbD_and, h.low i hi, Bool.eq_false_iff.mpr hv]
    by_cases hik : i < k
    · simp [hik]
    · simp [hik]

end Masks

/-! ## All instructions -/

section
variable {cfg : Config} {env : Env}

theorem Cpu.raiseException_ne {c c' : Cpu} {which : Trap} {badVAddr : BitVec 32} :
    c.raiseException which badVAddr ≠ .ok (c', none) := by
  unfold raiseException
  cases (c.registers.write Reg.badVAddr badVAddr).delayedLoad 0 0 with
  | error e => exact fun h => by cases h
  | ok r => exact fun h => by cases h

/-- What the reference machine answers to the end of an instruction. -/
def Mips.Follows (c' : Cpu) (x : Except Abort (Option Mips)) : Prop :=
  ∃ m', x = .ok (some m') ∧ m'.Tracks c'

namespace Mips.Tracks

variable {m : Mips} {c c' : Cpu}

theorem readMem (h : m.Tracks c) {addr : BitVec 32} {size : Nat}
    {rest : Cpu → BitVec 32 → Except Abort Ended}
    {rest' : Mips → BitVec 32 → Except Abort (Option Mips)}
    (he : c.readMem cfg env addr size rest = .ok (c', none))
    (hrest : ∀ memory v, rest ⟨c.registers, memory⟩ v = .ok (c', none) →
      Follows c' (rest' { m with memory := memory } v)) :
    Follows c' (m.readMem cfg env addr size rest') := by
  unfold Cpu.readMem at he
  unfold Mips.readMem
  rw [h.memory]
  cases hl : c.memory.load cfg env addr.toInt size with
  | error e =>
    rw [hl] at he
    cases he
  | ok p =>
    obtain ⟨memory, x⟩ := p
    rw [hl] at he
    cases x with
    | error which => exact absurd he Cpu.raiseException_ne
    | ok v => exact hrest memory v he

/-- A load that must be aligned. -/
theorem aligned (h : m.Tracks c) {addr mask : BitVec 32} {size : Nat} {which : Trap}
    {rest : Cpu → BitVec 32 → Except Abort Ended}
    {rest' : Mips → BitVec 32 → Except Abort (Option Mips)}
    (he : (if addr &&& mask ≠ 0 then c.raiseException which addr
      else c.readMem cfg env addr size rest) = .ok (c', none))
    (hrest : ∀ memory v, rest ⟨c.registers, memory⟩ v = .ok (c', none) →
      Follows c' (rest' { m with memory := memory } v)) :
    Follows c' (if addr &&& mask ≠ 0 then .ok none else m.readMem cfg env addr size rest') := by
  by_cases ha : addr &&& mask ≠ 0
  · rw [if_pos ha] at he
    exact absurd he Cpu.raiseException_ne
  · rw [if_neg ha] at he ⊢
    exact h.readMem he hrest

theorem writeMem (h : m.Tracks c) {addr v : BitVec 32} {size : Nat}
    {rest : Cpu → Except Abort Ended} {rest' : Mips → Except Abort (Option Mips)}
    (he : c.writeMem cfg env addr size v rest = .ok (c', none))
    (hrest : ∀ memory, rest ⟨c.registers, memory⟩ = .ok (c', none) →
      Follows c' (rest' { m with memory := memory })) :
    Follows c' (m.writeMem cfg env addr size v rest') := by
  unfold Cpu.writeMem at he
  unfold Mips.writeMem
  rw [h.memory]
  cases hs : c.memory.save cfg env addr.toInt size v with
  | error e =>
    rw [hs] at he
    cases he
  | ok p =>
    obtain ⟨memory, x⟩ := p
    rw [hs] at he
    cases x with
    | error which => exact absurd he Cpu.raiseException_ne
    | ok u => exact hrest memory he

/-- A load ends. -/
theorem follows_load (h : m.Tracks c) {i : Reg} (hi : i.val < 32) {v w : BitVec 32}
    (hv : i ≠ Reg.zero → w = v)
    (he : c.advance (c.registers Reg.nextPC + 4) (.ofNat 32 i) w = .ok (c', none)) :
    Follows c' (.ok (some (m.retire m.regs none (some (i, v))))) := by
  rw [show c = ⟨c.registers, c.memory⟩ from rfl, Cpu.advance_eq h.load_lt] at he
  cases he
  exact ⟨_, rfl, h.retire_load hi hv⟩

/-- A store ends. -/
theorem follows_done (h : m.Tracks c)
    (he : c.advance (c.registers Reg.nextPC + 4) 0 0 = .ok (c', none)) :
    Follows c' (.ok (some (m.retire m.regs none none))) := by
  rw [show c = ⟨c.registers, c.memory⟩ from rfl, Cpu.advance_eq h.load_lt] at he
  cases he
  exact ⟨_, rfl, h.retire_done h.regs (fun _ _ => rfl) (by rw [h.next]; rfl)⟩

theorem compute (h : m.Tracks c) {instr : Instruction} (hd : instr.Decoded) {r : Registers}
    {pcAfter : BitVec 32} (ho : operate instr c.registers = .ok (r, .ok pcAfter))
    (he : Cpu.advance ⟨r, c.memory⟩ pcAfter 0 0 = .ok (c', none)) :
    Follows c' (m.compute true instr) := by
  unfold Mips.compute
  have finish : ∀ {regs : Registers} {branch : Option (BitVec 32)},
      (∀ i : Reg, i.val < 34 → i ≠ Reg.zero → regs i = r i) →
      (∀ i : Reg, 34 ≤ i.val → r i = c.registers i) → branch.getD (m.next + 4) = pcAfter →
      Follows c' (.ok (some (m.retire regs branch none))) := fun hregs hsame hbranch => by
    rw [Cpu.advance_eq (by rw [hsame _ (by decide)]; exact h.load_lt)] at he
    cases he
    exact ⟨_, rfl, h.retire_done hregs hsame hbranch⟩
  cases hc : m.control true instr with
  | some p =>
    obtain ⟨l, target⟩ := p
    obtain ⟨r', ho', hregs, hsame⟩ := h.operate_control hd hc
    rw [ho] at ho'
    cases ho'
    exact finish hregs hsame rfl
  | none =>
    have twin := operate_twin (fun i hi => h.read hi) hd (control_none hc)
    rw [ho] at twin
    generalize operate instr m.read = x at twin ⊢
    cases twin with
    | set hregs hsame =>
      exact finish (fun i hi _ => hregs i hi) hsame (by rw [h.next]; rfl)

theorem execute (h : m.Tracks c) {instr : Instruction} (hd : instr.Decoded)
    (he : c.execute cfg env instr = .ok (c', none)) :
    Follows c' (m.perform true cfg env instr) := by
  have hrs := h.read (i := instr.rs) (Nat.lt_trans hd.rs (by decide))
  have hrt := h.read (i := instr.rt) (Nat.lt_trans hd.rt (by decide))
  unfold Cpu.execute at he
  split at he
  case h_1 hop =>
    rw [Mips.perform, hrs, hop]
    exact h.readMem he fun memory v he =>
      (h.setMemory memory).follows_load hd.rt (fun _ => masks_byte.signExtend v) he
  case h_2 hop =>
    rw [Mips.perform, hrs, hop]
    exact h.readMem he fun memory v he =>
      (h.setMemory memory).follows_load hd.rt (fun _ => masks_byte.zeroExtend v) he
  case h_3 hop =>
    rw [Mips.perform, hrs, hop]
    exact h.aligned he fun memory v he =>
      (h.setMemory memory).follows_load hd.rt (fun _ => masks_half.signExtend v) he
  case h_4 hop =>
    rw [Mips.perform, hrs, hop]
    exact h.aligned he fun memory v he =>
      (h.setMemory memory).follows_load hd.rt (fun _ => masks_half.zeroExtend v) he
  case h_5 hop =>
    rw [Mips.perform, hrs, hop]
    exact h.aligned he fun memory v he =>
      (h.setMemory memory).follows_load hd.rt (fun _ => rfl) he
  case h_6 hop =>
    rw [Mips.perform, hrs, hop]
    exact h.readMem he fun memory v he => (h.setMemory memory).follows_load hd.rt
      (fun hz => by rw [(h.setMemory memory).merged hd.rt hz]) he
  case h_7 hop =>
    rw [Mips.perform, hrs, hop]
    exact h.readMem he fun memory v he => (h.setMemory memory).follows_load hd.rt
      (fun hz => by rw [(h.setMemory memory).merged hd.rt hz]) he
  case h_8 hop | h_9 hop | h_10 hop =>
    rw [Mips.perform, hrs, hop, hrt]
    exact h.writeMem he fun memory he => (h.setMemory memory).follows_done he
  case h_11 hop =>
    rw [Mips.perform, hrs, hop]
    refine h.readMem he fun memory v he => ?_
    rw [(h.setMemory memory).read (Nat.lt_trans hd.rt (by decide))]
    exact (h.setMemory memory).writeMem he fun memory' he =>
      ((h.setMemory memory).setMemory memory').follows_done he
  case h_12 hop =>
    rw [Mips.perform, hrs, hop]
    refine h.readMem he fun memory v he => ?_
    rw [(h.setMemory memory).read (Nat.lt_trans hd.rt (by decide))]
    exact (h.setMemory memory).writeMem he fun memory' he =>
      ((h.setMemory memory).setMemory memory').follows_done he
  case h_13 =>
    obtain ⟨⟨r, x⟩, ho, he⟩ := bind_eq_ok.mp he
    cases x with
    | error which => exact absurd he Cpu.raiseException_ne
    | ok pcAfter =>
      have hf := h.compute hd ho he
      rw [Mips.perform, hrs]
      split
      case h_13 => exact hf
      all_goals exact absurd ‹instr.opCode = _› (by assumption)

theorem step (h : m.Tracks c) (he : c.oneInstruction cfg env = .ok (c', none)) :
    Follows c' (m.step true cfg env) := by
  unfold Mips.step
  rw [h.pc]
  exact h.readMem he fun memory raw he =>
    (h.setMemory memory).execute (Instruction.decoded_decode raw) he

theorem wf (h : m.Tracks c) : c.registers.Wf := ⟨h.zero, h.load_lt⟩

end Mips.Tracks

end

/-! ## Runs -/

/-- As many instructions as there are environments, none of which ends in an
exception. -/
def Cpu.run (cfg : Config) (c : Cpu) : List Env → Option Cpu
  | [] => some c
  | env :: envs =>
    match c.oneInstruction cfg env with
    | .ok (c', none) => c'.run cfg envs
    | _ => none

/-- The reference machine in the state of the simulator. -/
def Mips.ofCpu (c : Cpu) : Mips where
  regs := c.registers
  pc := c.registers Reg.pc
  branch :=
    if c.registers Reg.nextPC = c.registers Reg.pc + 4 then none
    else some (c.registers Reg.nextPC)
  load :=
    if c.registers Reg.load = 0 then none
    else some (c.registers.pending, c.registers Reg.loadValue)
  memory := c.memory

/-- The two machines show a program the same registers and execute the same
instructions next. -/
def Mips.Shows (m : Mips) (c : Cpu) : Prop :=
  (∀ i : Reg, i.val < 34 → c.registers i = m.read i) ∧ c.registers Reg.pc = m.pc ∧
    c.registers Reg.nextPC = m.next

theorem Mips.tracks_ofCpu {c : Cpu} (hw : c.registers.Wf) : (ofCpu c).Tracks c where
  zero := hw.zero
  regs _ _ _ := rfl
  pc := rfl
  next := by
    unfold next ofCpu
    dsimp only
    split_ifs with h
    · exact h.symm
    · rfl
  load := by
    unfold ofCpu
    dsimp only
    split_ifs with h
    · exact h
    · refine ⟨c.registers.pending_lt, ?_, fun _ => rfl⟩
      show _ = BitVec.ofNat 32 ((c.registers Reg.load).toNat % 32)
      rw [Nat.mod_eq_of_lt hw.load, BitVec.ofNat_toNat, BitVec.setWidth_eq]
  memory := rfl

theorem Mips.Tracks.shows {m : Mips} {c : Cpu} (h : m.Tracks c) : m.Shows c :=
  ⟨fun _ hi => (h.read hi).symm, h.pc.symm, h.next.symm⟩

theorem Mips.Tracks.run {cfg : Config} (envs : List Env) {m : Mips} {c c' : Cpu} (h : m.Tracks c)
    (hr : c.run cfg envs = some c') : ∃ m', m.run true cfg envs = some m' ∧ m'.Tracks c' := by
  induction envs generalizing m c with
  | nil =>
    cases hr
    exact ⟨m, rfl, h⟩
  | cons env envs ih =>
    unfold Cpu.run at hr
    split at hr
    · rename_i c₁ he
      obtain ⟨m₁, hm, h₁⟩ := h.step he
      obtain ⟨m', hrun, h'⟩ := ih h₁ hr
      refine ⟨m', ?_, h'⟩
      unfold Mips.run
      rw [hm]
      exact hrun
    · cases hr

/-- As long as no instruction ends in an exception, the simulator is the
reference machine that links before it reads, and `R0` and `LoadReg` stay as
they should be. -/
theorem run_shows {cfg : Config} (envs : List Env) (c c' : Cpu) (hw : c.registers.Wf)
    (hr : c.run cfg envs = some c') :
    (∃ m', (Mips.ofCpu c).run true cfg envs = some m' ∧ m'.Shows c') ∧ c'.registers.Wf := by
  obtain ⟨m', hm, h⟩ := (Mips.tracks_ofCpu hw).run envs hr
  exact ⟨⟨m', hm, h.shows⟩, h.wf⟩

/-- `JALR $0, $0` at address 0. -/
def jalrStart : Cpu where
  registers := Registers.write (fun _ => 0) Reg.nextPC 4
  memory :=
    { mmBitmap := .new numPhysPages
      mainMemory := fun x => if x = 0 then 9 else 0
      pt := []
      tlb := []
      threadArray := [some ⟨some ⟨⟨[], 0, 1⟩,
        [{ TranslationEntry.reset with valid := true, ppn := 0 }], []⟩, none, false⟩]
      currentThread := 0 }

theorem exists_some {α : Type} {x : Option α} {q : α → Bool} (h : x.any q = true) :
    ∃ a, x = some a ∧ q a = true := by
  cases x with
  | none => cases h
  | some a => exact ⟨a, rfl, h⟩

theorem run_jalrStart : ∃ c', jalrStart.run ⟨false, false, false, false⟩ [.blank] = some c' ∧
    decide (c'.registers Reg.nextPC = 8) = true :=
  exists_some (by decide +kernel)

/-- `lw $2, 32($0)`, `addu $3, $2, $0`, `beq $0, $0, 2`, `addu $4, $2, $0`,
`addiu $4, $0, 9` and `addiu $5, $4, 1`; at 32 there is a 7. -/
def branchStart : Cpu :=
  { jalrStart with
    memory := { jalrStart.memory with
      mainMemory := fun x => (word.encodeAll [0x8c020020, 0x00401821, 0x10000002, 0x00402021,
        0x24040009, 0x24850001, 0, 0, 7]).getD x 0 } }

/-- The instruction behind the load reads the old value, and the one behind the branch is
executed before its target. -/
theorem run_shows_branch : ∃ c' m',
    branchStart.run ⟨false, false, false, false⟩ (List.replicate 5 .blank) = some c' ∧
    (c'.registers (3 : Fin 40) = 0 ∧ c'.registers (4 : Fin 40) = 7 ∧
      c'.registers (5 : Fin 40) = 8 ∧ c'.registers Reg.pc = 24) ∧
    (Mips.ofCpu branchStart).run true ⟨false, false, false, false⟩ (List.replicate 5 .blank) = some m' ∧
    m'.Shows c' := by
  obtain ⟨c', hr, hregs⟩ := exists_some
    (x := branchStart.run ⟨false, false, false, false⟩ (List.replicate 5 .blank))
    (q := fun c' => c'.registers (3 : Fin 40) = 0 ∧ c'.registers (4 : Fin 40) = 7 ∧
      c'.registers (5 : Fin 40) = 8 ∧ c'.registers Reg.pc = 24) (by decide +kernel)
  obtain ⟨⟨m', hm, h⟩, -⟩ := run_shows _ branchStart c' ⟨by decide +kernel, by decide +kernel⟩ hr
  exact ⟨c', m', hr, of_decide_eq_true hregs, hm, h⟩

/-- `JALR $0, $0` jumps to the address that it links, not to zero. -/
theorem not_run_shows : ¬ ∀ (cfg : Config) (envs : List Env) (c c' : Cpu), c.registers.Wf →
    c.run cfg envs = some c' →
    ∃ m', (Mips.ofCpu c).run false cfg envs = some m' ∧ m'.Shows c' := by
  intro hall
  obtain ⟨c', hr, h8⟩ := run_jalrStart
  obtain ⟨m', hm, -, -, hnext⟩ := hall _ _ _ _ ⟨by decide +kernel, by decide +kernel⟩ hr
  obtain ⟨m₁, hm₁, h0⟩ := exists_some (q := fun m : Mips => decide (m.next = 0))
    (x := (Mips.ofCpu jalrStart).run false ⟨false, false, false, false⟩ [.blank])
    (by decide +kernel)
  rw [hm] at hm₁
  cases hm₁
  rw [of_decide_eq_true h8, of_decide_eq_true h0] at hnext
  exact absurd hnext (by decide)

end Nachos

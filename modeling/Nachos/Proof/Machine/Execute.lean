import Mathlib.Data.List.GetD
import Nachos.Proof.Machine.DelayedLoad

/-!
# The end of an instruction

The registers after an instruction (`Registers.advanced`), or those that
`RaiseException` leaves (`Registers.raised`), register by register, and what
`execute` does with the result of `operate` (`execute_ok`, `execute_raise`).
`decode_yields` says where in the tables of `Decode` an op code comes from, and
`extra` is encoded accordingly.
-/

namespace Nachos

namespace Registers

/-- The registers behind `DelayedLoad`. -/
def loaded (r : Registers) (n v : BitVec 32) : Registers := fun i =>
  if i = Reg.zero then 0
  else if i = Reg.load then n
  else if i = Reg.loadValue then v
  else if i = r.pending then r Reg.loadValue
  else r i

/-- The registers at the end of `OneInstruction`, from those behind the
switch. -/
def advanced (r : Registers) (pcAfter n v : BitVec 32) : Registers := fun i =>
  if i = Reg.nextPC then pcAfter
  else if i = Reg.pc then r Reg.nextPC
  else if i = Reg.prevPC then r Reg.pc
  else r.loaded n v i

/-- The registers that `RaiseException` leaves. -/
def raised (r : Registers) (badVAddr : BitVec 32) : Registers := fun i =>
  if i = Reg.badVAddr then badVAddr else r.loaded 0 0 i

theorem pending_ne (r : Registers) {i : Reg} (h : 32 ≤ i.val) : r.pending ≠ i := by
  rintro rfl
  have := r.pending_lt
  omega

theorem delayedLoad_eq {r : Registers} (h : (r Reg.load).toNat < 32) (n v : BitVec 32) :
    r.delayedLoad n v = .ok (r.loaded n v) := by
  obtain ⟨r', e, h₁, h₂, h₃, h₄, h₅⟩ := delayedLoad_spec h n v
  rw [e]
  congr 1
  funext i
  unfold loaded
  split_ifs with a b c d
  · rw [a, h₃]
  · rw [b, h₁]
  · rw [c, h₂]
  · rw [d, h₄ (d ▸ a)]
  · exact h₅ i b c a d

/-- A register beyond the general ones. -/
theorem loaded_special (r : Registers) (n v : BitVec 32) {i : Reg} (h : 32 ≤ i.val)
    (hl : i ≠ Reg.load) (hv : i ≠ Reg.loadValue) : r.loaded n v i = r i := by
  have hz : i ≠ Reg.zero := by
    rintro rfl
    exact absurd h (by decide)
  rw [loaded, if_neg hz, if_neg hl, if_neg hv, if_neg (r.pending_ne h).symm]

/-- A general register that no load is pending for. -/
theorem loaded_general (r : Registers) (n v : BitVec 32) {i : Reg} (h : i.val < 32)
    (hz : i ≠ Reg.zero) (hp : i ≠ r.pending) : r.loaded n v i = r i := by
  obtain ⟨hl, hv, -⟩ := Reg.plain_of_lt h
  rw [loaded, if_neg hz, if_neg hl, if_neg hv, if_neg hp]

/-- `RaiseException` applies the pending load. -/
theorem raised_eq_applied (r : Registers) (badVAddr : BitVec 32) {i : Reg} (hz : i ≠ Reg.zero)
    (hb : i ≠ Reg.badVAddr) : r.raised badVAddr i = r.applied i := by
  rw [raised, if_neg hb, loaded, if_neg hz, applied]
  split_ifs with hl hv hp <;> simp_all

theorem advanced_general (r : Registers) (pcAfter n v : BitVec 32) {i : Reg} (h : i.val < 34) :
    r.advanced pcAfter n v i = r.loaded n v i := by
  have hne : ∀ j : Reg, 34 ≤ j.val → i ≠ j := by
    rintro j hj rfl
    omega
  rw [advanced, if_neg (hne _ (by decide)), if_neg (hne _ (by decide)), if_neg (hne _ (by decide))]

end Registers

theorem Cpu.advance_eq {r : Registers} (h : (r Reg.load).toNat < 32) (m : Vm)
    (pcAfter n v : BitVec 32) :
    Cpu.advance ⟨r, m⟩ pcAfter n v = .ok (⟨r.advanced pcAfter n v, m⟩, none) := by
  unfold Cpu.advance
  rw [Registers.delayedLoad_eq h]
  show Except.ok _ = Except.ok _
  congr 3
  funext i
  have h₁ := r.loaded_special n v (i := Reg.pc) (by decide) (by decide) (by decide)
  have h₂ := r.loaded_special n v (i := Reg.nextPC) (by decide) (by decide) (by decide)
  simp only [Registers.advanced, Registers.write_apply, h₁, h₂]
  rfl

theorem Cpu.raiseException_eq {r : Registers} (h : (r Reg.load).toNat < 32) (m : Vm) (which : Trap)
    (badVAddr : BitVec 32) :
    Cpu.raiseException ⟨r, m⟩ which badVAddr = .ok (⟨r.raised badVAddr, m⟩, some which) := by
  have hl : (r.write Reg.badVAddr badVAddr) Reg.load = r Reg.load := r.write_ne _ (by decide)
  have hv : (r.write Reg.badVAddr badVAddr) Reg.loadValue = r Reg.loadValue :=
    r.write_ne _ (by decide)
  have hp : (r.write Reg.badVAddr badVAddr).pending = r.pending := by
    unfold Registers.pending
    rw [Fin.mk.injEq, hl]
  unfold Cpu.raiseException
  rw [Registers.delayedLoad_eq (by rw [hl]; exact h)]
  show Except.ok _ = Except.ok _
  congr 3
  funext i
  rw [Registers.raised]
  by_cases hb : i = Reg.badVAddr
  · subst hb
    rw [if_pos rfl, Registers.loaded_special _ _ _ (by decide) (by decide) (by decide),
      Registers.write_self]
  · rw [if_neg hb, Registers.loaded, Registers.loaded, hv, hp, Registers.write_ne _ _ hb]

section
variable {cfg : Config} {env : Env} {c : Cpu} {instr : Instruction} {r' : Registers}

/-- What follows the switch. -/
def Cpu.finish (c : Cpu) : Except Trap (BitVec 32) → Except Abort Ended
  | .error which => c.raiseException which 0
  | .ok pcAfter => c.advance pcAfter 0 0

/-- The switch, for the cases that `operate` has. -/
theorem Cpu.execute_operate {x : Except Trap (BitVec 32)}
    (h : operate instr c.registers = .ok (r', x)) :
    c.execute cfg env instr = Cpu.finish ⟨r', c.memory⟩ x := by
  unfold execute
  split
  case h_13 =>
    simp only [h]
    cases x with
    | error which => rfl
    | ok pcAfter => rfl
  all_goals
    rename_i hop
    simp only [operate, hop] at h
    cases h

/-- A case that sets registers and goes on. -/
theorem Cpu.execute_ok {pcAfter : BitVec 32} (h : operate instr c.registers = .ok (r', .ok pcAfter))
    (hl : (r' Reg.load).toNat < 32) :
    c.execute cfg env instr = .ok (⟨r'.advanced pcAfter 0 0, c.memory⟩, none) := by
  rw [execute_operate h]
  exact advance_eq hl c.memory pcAfter 0 0

/-- A case that raises an exception. -/
theorem Cpu.execute_raise {which : Trap} (h : operate instr c.registers = .ok (r', .error which))
    (hl : (r' Reg.load).toNat < 32) :
    c.execute cfg env instr = .ok (⟨r'.raised 0, c.memory⟩, some which) := by
  rw [execute_operate h]
  exact raiseException_eq hl c.memory which 0

end

deriving instance DecidableEq for Format

/-- The op codes that an entry of `opTable` decodes to. -/
def OpInfo.yields : OpInfo → List OpCode
  | .op opCode => [opCode]
  | .special => specialTable
  | .bcond => [.bltz, .bgez, .bltzal, .bgezal, .unimp]

/-- `extra`, by the format of the instruction. -/
def Format.extra (value : BitVec 32) : Format → BitVec 32
  | .i => (value.setWidth 16).signExtend 32
  | .r => value >>> 6 &&& 0x1f
  | .j => value &&& 0x3ffffff

namespace Instruction

theorem opTable_index (value : BitVec 32) : (value >>> 26).toNat < opTable.length := by
  show (value >>> 26).toNat < 64
  rw [BitVec.toNat_ushiftRight, Nat.shiftRight_eq_div_pow]
  have := value.isLt
  omega

theorem specialTable_index (value : BitVec 32) :
    (value &&& 0x3f).toNat < specialTable.length := by
  show (value &&& 0x3f).toNat < 64
  rw [BitVec.toNat_and]
  exact Nat.and_lt_two_pow (n := 6) _ (by decide)

theorem decode_yields (value : BitVec 32) : ∃ e ∈ opTable,
    (decode value).opCode ∈ e.1.yields ∧ (decode value).extra = e.2.extra value := by
  obtain ⟨e, he⟩ : ∃ e, opTable.getD (value >>> 26).toNat (.op .res, .i) = e := ⟨_, rfl⟩
  have hmem : e ∈ opTable := by
    rw [← he, List.getD_eq_getElem _ _ (opTable_index value)]
    exact List.getElem_mem _
  obtain ⟨info, format⟩ := e
  refine ⟨_, hmem, ?_, ?_⟩
  · unfold decode
    rw [he]
    cases info with
    | op opCode => exact List.mem_singleton.mpr rfl
    | special =>
      show specialTable.getD (value &&& 0x3f).toNat .res ∈ specialTable
      rw [List.getD_eq_getElem _ _ (specialTable_index value)]
      exact List.getElem_mem _
    | bcond =>
      simp only [OpInfo.yields]
      split_ifs <;> simp
  · unfold decode
    rw [he]
    cases format <;> rfl

/-- The shifts by a constant take it from the `shamt` field. -/
theorem decode_shamt {value : BitVec 32} (h : (decode value).opCode ∈ [.sll, .srl, .sra]) :
    (decode value).extra = value >>> 6 &&& 0x1f := by
  obtain ⟨e, he, hy, hx⟩ := decode_yields value
  have key : ∀ e ∈ opTable, ∀ c ∈ [OpCode.sll, .srl, .sra], c ∈ e.1.yields → e.2 = .r := by
    decide
  rw [hx, key e he _ h hy]
  rfl

/-- The immediate operand of an addition is extended with its sign. -/
theorem decode_immediate {value : BitVec 32} (h : (decode value).opCode ∈ [.addi, .addiu]) :
    (decode value).extra = (value.setWidth 16).signExtend 32 := by
  obtain ⟨e, he, hy, hx⟩ := decode_yields value
  have key : ∀ e ∈ opTable, ∀ c ∈ [OpCode.addi, .addiu], c ∈ e.1.yields → e.2 = .i := by
    decide
  rw [hx, key e he _ h hy]
  rfl

/-- No word is decoded to `RFE`, which the simulator does not have. -/
theorem decode_ne_rfe (value : BitVec 32) : (decode value).opCode ≠ .rfe := by
  obtain ⟨e, he, hy, -⟩ := decode_yields value
  have key : ∀ e ∈ opTable, OpCode.rfe ∉ e.1.yields := by decide
  exact fun h => key e he (h ▸ hy)

end Instruction

end Nachos

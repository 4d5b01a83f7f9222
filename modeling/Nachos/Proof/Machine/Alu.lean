import Mathlib.Algebra.Group.Int.Defs
import Nachos.Impl.Userprog.Process
import Nachos.Proof.Machine.Execute
import Nachos.Proof.Userprog.Core

/-!
# Shifts, additions and divisions

The instructions against exact arithmetic on their operands. `SRL` and `SRLV`
shift an `int`, so what they shift in are copies of the sign
(`shift_exact_iff`). The overflow checks of `ADD`, `ADDI` and `SUB` are exact,
and the other additions are modulo `2 ^ 32` (`sum_exact`). `DIV` does not
exclude the one quotient that is not an `int`, so it can stop the simulator;
nothing else in the switch can (`switch_safe_iff`).
-/

namespace Nachos

variable {cfg : Config} {env : Env}

/-! ## Shifts -/

/-- The shift instructions. -/
def OpCode.shifts : List OpCode := [.sll, .sllv, .srl, .srlv, .sra, .srav]

/-- What a shift by `s` is, as the name of the instruction says. -/
def OpCode.shift (opCode : OpCode) (x : BitVec 32) (s : Nat) : BitVec 32 :=
  match opCode with
  | .sll | .sllv => .ofNat 32 (x.toNat * 2 ^ s)
  | .srl | .srlv => .ofNat 32 (x.toNat / 2 ^ s)
  | .sra | .srav => .ofInt 32 (x.toInt / 2 ^ s)
  | _ => x

/-- The amount of a shift: the `shamt` field, or the low five bits of `rs`. -/
def shiftAmount (value : BitVec 32) (r : Registers) : Nat :=
  match (Instruction.decode value).opCode with
  | .sll | .srl | .sra => (value >>> 6).toNat % 32
  | _ => (r (Instruction.decode value).rs).toNat % 32

/-- What the code computes: right shifts are arithmetic. -/
def OpCode.shifted (opCode : OpCode) (x : BitVec 32) (s : Nat) : BitVec 32 :=
  match opCode with
  | .sll | .sllv => x <<< s
  | _ => x.sshiftRight s

theorem toNat_low_five (x : BitVec 32) : (x &&& 0x1f).toNat = x.toNat % 32 := by
  rw [BitVec.toNat_and]
  exact Nat.and_two_pow_sub_one_eq_mod x.toNat 5

theorem operate_shift {value : BitVec 32} (h : (Instruction.decode value).opCode ∈ OpCode.shifts)
    (r : Registers) : operate (.decode value) r =
      .ok (r.write (Instruction.decode value).rd ((Instruction.decode value).opCode.shifted
        (r (Instruction.decode value).rt) (shiftAmount value r)), .ok (r Reg.nextPC + 4)) := by
  have hx := fun h => congrArg BitVec.toNat (@Instruction.decode_shamt value h)
  simp only [toNat_low_five] at hx
  simp only [OpCode.shifts, List.mem_cons, List.not_mem_nil, or_false] at h
  rcases h with h | h | h | h | h | h
  all_goals
    simp only [h, List.mem_cons, List.not_mem_nil, or_false, or_true, reduceCtorEq,
      false_imp_iff, true_imp_iff] at hx
    simp only [operate, shiftAmount, OpCode.shifted, h, hx, toNat_low_five]

theorem shiftAmount_lt (value : BitVec 32) (r : Registers) : shiftAmount value r < 32 := by
  unfold shiftAmount
  split <;> exact Nat.mod_lt _ (by decide)

theorem ushiftRight_eq_ofNat (x : BitVec 32) (s : Nat) :
    x >>> s = .ofNat 32 (x.toNat / 2 ^ s) := by
  refine BitVec.eq_of_toNat_eq ?_
  have := Nat.div_le_self x.toNat (2 ^ s)
  rw [BitVec.toNat_ushiftRight, Nat.shiftRight_eq_div_pow, BitVec.toNat_ofNat,
    Nat.mod_eq_of_lt (Nat.lt_of_le_of_lt this x.isLt)]

/-- An arithmetic shift is a logical one only of a number without a sign. -/
theorem sshiftRight_eq_ushiftRight (x : BitVec 32) (s : Nat) :
    x.sshiftRight s = x >>> s ↔ ¬ (x.msb = true ∧ s ≠ 0) := by
  constructor
  · rintro h ⟨hm, hs⟩
    have hmsb : (x >>> s).msb = true := by
      rw [← h, BitVec.msb_sshiftRight]
      exact hm
    have hlt := BitVec.toNat_ushiftRight x s
    rw [Nat.shiftRight_eq_div_pow] at hlt
    have hle : x.toNat / 2 ^ s ≤ x.toNat / 2 ^ 1 :=
      Nat.div_le_div_left (Nat.pow_le_pow_right (by decide) (by omega)) (by decide)
    have := BitVec.msb_eq_true_iff_two_mul_ge.mp hmsb
    have := x.isLt
    omega
  · intro h
    by_cases hm : x.msb = true
    · have hs : s = 0 := by
        by_contra hs
        exact h ⟨hm, hs⟩
      rw [hs, BitVec.sshiftRight_zero, BitVec.ushiftRight_zero]
    · exact BitVec.sshiftRight_eq_of_msb_false (Bool.eq_false_iff.mpr hm)

theorem shifted_eq_shift_iff {opCode : OpCode} (h : opCode ∈ OpCode.shifts) (x : BitVec 32)
    (s : Nat) : opCode.shifted x s = opCode.shift x s ↔
      ¬ ((opCode = .srl ∨ opCode = .srlv) ∧ x.msb = true ∧ s ≠ 0) := by
  have left : x <<< s = .ofNat 32 (x.toNat * 2 ^ s) := by
    refine BitVec.eq_of_toNat_eq ?_
    rw [BitVec.toNat_shiftLeft, Nat.shiftLeft_eq, BitVec.toNat_ofNat]
  have right : x.sshiftRight s = .ofNat 32 (x.toNat / 2 ^ s) ↔ ¬ (x.msb = true ∧ s ≠ 0) := by
    rw [← ushiftRight_eq_ofNat]
    exact sshiftRight_eq_ushiftRight x s
  have arithmetic : x.sshiftRight s = .ofInt 32 (x.toInt / 2 ^ s) := by
    have hs := BitVec.toInt_sshiftRight (x := x) (n := s)
    rw [Int.shiftRight_eq_div_pow] at hs
    rw [← BitVec.ofInt_toInt (x := x.sshiftRight s), hs]
    norm_cast
  simp only [OpCode.shifts, List.mem_cons, List.not_mem_nil, or_false] at h
  rcases h with rfl | rfl | rfl | rfl | rfl | rfl
  · simp [OpCode.shifted, OpCode.shift, left]
  · simp [OpCode.shifted, OpCode.shift, left]
  · simp [OpCode.shifted, OpCode.shift, right]
  · simp [OpCode.shifted, OpCode.shift, right]
  · simp [OpCode.shifted, OpCode.shift, arithmetic]
  · simp [OpCode.shifted, OpCode.shift, arithmetic]

/-- Executing the shift `value` leaves the shifted `rt` in `rd`. -/
def ShiftExact (cfg : Config) (env : Env) (c : Cpu) (value : BitVec 32) : Prop :=
  ∃ c', c.execute cfg env (.decode value) = .ok (c', none) ∧
    c'.registers (Instruction.decode value).rd = (Instruction.decode value).opCode.shift
      (c.registers (Instruction.decode value).rt) (shiftAmount value c.registers)

/-- A register set by an operation keeps its value to the end of the
instruction, unless it is `R0` or a load is pending for it. -/
theorem Cpu.execute_set {c : Cpu} {instr : Instruction} {i : Reg} {v pcAfter : BitVec 32}
    (h : operate instr c.registers = .ok (c.registers.write i v, .ok pcAfter))
    (hl : (c.registers Reg.load).toNat < 32) (hi : i.val < 32) :
    ∃ c', c.execute cfg env instr = .ok (c', none) ∧
      (i ≠ Reg.zero → i ≠ c.registers.pending → c'.registers i = v) := by
  have hload : (c.registers.write i v) Reg.load = c.registers Reg.load :=
    c.registers.write_ne v (Reg.plain_of_lt hi).1.symm
  have hp : (c.registers.write i v).pending = c.registers.pending := by
    unfold Registers.pending
    rw [Fin.mk.injEq, hload]
  refine ⟨_, execute_ok h (by rw [hload]; exact hl), fun hz hne => ?_⟩
  show (c.registers.write i v).advanced pcAfter 0 0 i = v
  rw [Registers.advanced_general _ _ _ _ (by omega),
    Registers.loaded_general _ _ _ hi hz (by rw [hp]; exact hne), Registers.write_self]

section
variable {c : Cpu} {value : BitVec 32} (hop : (Instruction.decode value).opCode ∈ OpCode.shifts)
  (hload : (c.registers Reg.load).toNat < 32) (hrd : (Instruction.decode value).rd ≠ Reg.zero)
  (hpending : (Instruction.decode value).rd ≠ c.registers.pending)
include hop hload

theorem execute_shift : ∃ c', c.execute cfg env (.decode value) = .ok (c', none) ∧
    ((Instruction.decode value).rd ≠ Reg.zero →
      (Instruction.decode value).rd ≠ c.registers.pending →
      c'.registers (Instruction.decode value).rd = (Instruction.decode value).opCode.shifted
        (c.registers (Instruction.decode value).rt) (shiftAmount value c.registers)) :=
  Cpu.execute_set (operate_shift hop c.registers) hload (Instruction.decoded_decode value).rd

include hrd hpending in
theorem shiftExact_iff_shifted : ShiftExact cfg env c value ↔
    (Instruction.decode value).opCode.shifted (c.registers (Instruction.decode value).rt)
        (shiftAmount value c.registers) =
      (Instruction.decode value).opCode.shift (c.registers (Instruction.decode value).rt)
        (shiftAmount value c.registers) := by
  obtain ⟨c', he, hset⟩ := @execute_shift cfg env c value hop hload
  rw [← hset hrd hpending]
  constructor
  · rintro ⟨c₁, he₁, h⟩
    rw [he] at he₁
    cases he₁
    exact h
  · exact fun h => ⟨c', he, h⟩

end

/-- `SRL` does what `SRLV` does. -/
theorem execute_srlv {c : Cpu} {value value' : BitVec 32}
    (h : (Instruction.decode value).opCode = .srl)
    (h' : (Instruction.decode value').opCode = .srlv)
    (hrt : (Instruction.decode value').rt = (Instruction.decode value).rt)
    (hrd : (Instruction.decode value').rd = (Instruction.decode value).rd)
    (hs : (c.registers (Instruction.decode value').rs).toNat = shiftAmount value c.registers) :
    c.execute cfg env (.decode value') = c.execute cfg env (.decode value) := by
  have ho := @operate_shift value (by rw [h]; decide) c.registers
  have ho' := @operate_shift value' (by rw [h']; decide) c.registers
  have hamount : shiftAmount value' c.registers = shiftAmount value c.registers := by
    rw [← Nat.mod_eq_of_lt (shiftAmount_lt value c.registers), ← hs]
    simp only [shiftAmount, h']
  have hsame : OpCode.shifted .srlv = OpCode.shifted .srl := rfl
  rw [h] at ho
  rw [hamount, hrt, hrd, h', hsame] at ho'
  rw [Cpu.execute_operate ho', Cpu.execute_operate ho]

/-- Every shift is exact but a logical right shift of a number with the sign
bit set, and that by a constant does what that by a register does. -/
theorem shift_exact_iff (c : Cpu) (value : BitVec 32)
    (hop : (Instruction.decode value).opCode ∈ OpCode.shifts)
    (hload : (c.registers Reg.load).toNat < 32)
    (hrd : (Instruction.decode value).rd ≠ Reg.zero)
    (hpending : (Instruction.decode value).rd ≠ c.registers.pending) :
    (ShiftExact cfg env c value ↔
      ¬ (((Instruction.decode value).opCode = .srl ∨ (Instruction.decode value).opCode = .srlv) ∧
        (c.registers (Instruction.decode value).rt).msb = true ∧
        shiftAmount value c.registers ≠ 0)) ∧
      ∀ value', (Instruction.decode value).opCode = .srl →
        (Instruction.decode value').opCode = .srlv →
        (Instruction.decode value').rt = (Instruction.decode value).rt →
        (Instruction.decode value').rd = (Instruction.decode value).rd →
        (c.registers (Instruction.decode value').rs).toNat = shiftAmount value c.registers →
        ∃ c', c.execute cfg env (.decode value) = .ok (c', none) ∧
          c.execute cfg env (.decode value') = .ok (c', none) := by
  constructor
  · rw [shiftExact_iff_shifted hop hload hrd hpending, shifted_eq_shift_iff hop]
  · intro value' h h' hrt hrd' hs
    obtain ⟨c', he, -⟩ := @execute_shift cfg env c value hop hload
    exact ⟨c', he, (execute_srlv h h' hrt hrd' hs).trans he⟩

/-- A machine whose `R1` is the most negative number. -/
def signCpu : Cpu where
  registers := Registers.write (fun _ => 0) ⟨1, by decide⟩ 0x80000000
  memory := Vm.start ⟨false, false, false, false⟩

/-- `SLL $2, $1, 4`. -/
theorem shift_exact_sll :
    ShiftExact ⟨false, false, false, false⟩ .blank signCpu 0x00011100 :=
  (shift_exact_iff signCpu 0x00011100 (by decide) (by decide +kernel) (by decide)
    (by decide +kernel)).1.mpr (by decide)

/-- `SRL $2, $1, 1` leaves the sign in the number. -/
theorem not_shift_exact : ¬ ∀ (cfg : Config) (env : Env) (c : Cpu) (value : BitVec 32),
    (Instruction.decode value).opCode ∈ OpCode.shifts → (c.registers Reg.load).toNat < 32 →
    (Instruction.decode value).rd ≠ Reg.zero →
    (Instruction.decode value).rd ≠ c.registers.pending → ShiftExact cfg env c value := by
  intro hall
  have h := hall ⟨false, false, false, false⟩ .blank signCpu 0x00011042 (by decide)
    (by decide +kernel) (by decide) (by decide +kernel)
  rw [shiftExact_iff_shifted (by decide) (by decide +kernel) (by decide) (by decide +kernel)] at h
  exact absurd h (by decide +kernel)

/-! ## Additions -/

/-- A register can hold the number. -/
def IsWord (z : Int) : Prop := -2 ^ 31 ≤ z ∧ z < 2 ^ 31

instance (z : Int) : Decidable (IsWord z) := inferInstanceAs (Decidable (_ ∧ _))

/-- The instructions that add or subtract. -/
def OpCode.sums : List OpCode := [.add, .addi, .sub, .addu, .addiu, .subu]

/-- Those that trap. -/
def OpCode.traps : List OpCode := [.add, .addi, .sub]

/-- The exact result of an addition or subtraction. -/
def exactSum (value : BitVec 32) (r : Registers) : Int :=
  let instr := Instruction.decode value
  match instr.opCode with
  | .add | .addu => (r instr.rs).toInt + (r instr.rt).toInt
  | .addi | .addiu => (r instr.rs).toInt + (value.setWidth 16).toInt
  | _ => (r instr.rs).toInt - (r instr.rt).toInt

/-- The register that is set. -/
def Instruction.destination (instr : Instruction) : Reg :=
  match instr.opCode with
  | .addi | .addiu => instr.rt
  | _ => instr.rd

theorem add_traps_iff (a b : BitVec 32) :
    (!(a ^^^ b).msb && (a ^^^ (a + b)).msb) = true ↔ ¬ IsWord (a.toInt + b.toInt) := by
  have h : (!(a ^^^ b).msb && (a ^^^ (a + b)).msb) = a.saddOverflow b := by
    rw [BitVec.saddOverflow_eq, BitVec.msb_xor, BitVec.msb_xor]
    cases a.msb <;> cases b.msb <;> cases (a + b).msb <;> rfl
  rw [h, BitVec.saddOverflow, Bool.or_eq_true, decide_eq_true_eq, decide_eq_true_eq, IsWord]
  omega

theorem sub_traps_iff (a b : BitVec 32) :
    ((a ^^^ b).msb && (a ^^^ (a - b)).msb) = true ↔ ¬ IsWord (a.toInt - b.toInt) := by
  have h : ((a ^^^ b).msb && (a ^^^ (a - b)).msb) = a.ssubOverflow b := by
    rw [BitVec.ssubOverflow_eq, BitVec.msb_xor, BitVec.msb_xor]
    cases a.msb <;> cases b.msb <;> cases (a - b).msb <;> rfl
  rw [h, BitVec.ssubOverflow, Bool.or_eq_true, decide_eq_true_eq, decide_eq_true_eq, IsWord]
  omega

theorem operate_sum {value : BitVec 32} (h : (Instruction.decode value).opCode ∈ OpCode.sums)
    (r : Registers) : operate (.decode value) r =
      if (Instruction.decode value).opCode ∈ OpCode.traps ∧ ¬ IsWord (exactSum value r) then
        .ok (r, .error .overflow)
      else .ok (r.write (Instruction.decode value).destination (.ofInt 32 (exactSum value r)),
        .ok (r Reg.nextPC + 4)) := by
  have sum : ∀ a b : BitVec 32, BitVec.ofInt 32 (a.toInt + b.toInt) = a + b := fun a b => by
    rw [BitVec.ofInt_add, BitVec.ofInt_toInt, BitVec.ofInt_toInt]
  have diff : ∀ a b : BitVec 32, BitVec.ofInt 32 (a.toInt - b.toInt) = a - b := fun a b => by
    rw [Int.sub_eq_add_neg, BitVec.ofInt_add, BitVec.ofInt_neg, BitVec.ofInt_toInt,
      BitVec.ofInt_toInt, BitVec.sub_eq_add_neg]
  have immediate : (Instruction.decode value).opCode ∈ [.addi, .addiu] →
      (value.setWidth 16).toInt = (Instruction.decode value).extra.toInt := fun h => by
    rw [Instruction.decode_immediate h]
    exact (BitVec.toInt_signExtend_of_le (by decide)).symm
  simp only [OpCode.sums, List.mem_cons, List.not_mem_nil, or_false] at h
  rcases h with h | h | h | h | h | h
  · simp only [operate, exactSum, Instruction.destination, OpCode.traps, h, sum]
    exact if_congr (by rw [add_traps_iff]; simp) rfl rfl
  · have hi := immediate (by rw [h]; decide)
    simp only [operate, exactSum, Instruction.destination, OpCode.traps, h, hi, sum]
    refine if_congr ?_ rfl rfl
    -- The check looks at the sign of the immediate operand.
    rw [BitVec.xor_comm, BitVec.add_comm, add_traps_iff, Int.add_comm]
    simp
  · simp only [operate, exactSum, Instruction.destination, OpCode.traps, h, diff]
    exact if_congr (by rw [sub_traps_iff]; simp) rfl rfl
  · simp only [operate, exactSum, Instruction.destination, OpCode.traps, h, sum]
    rw [if_neg (by simp)]
  · have hi := immediate (by rw [h]; decide)
    simp only [operate, exactSum, Instruction.destination, OpCode.traps, h, hi, sum]
    rw [if_neg (by simp)]
  · simp only [operate, exactSum, Instruction.destination, OpCode.traps, h, diff]
    rw [if_neg (by simp)]

theorem toInt_ofInt_of_isWord {z : Int} (h : IsWord z) : (BitVec.ofInt 32 z).toInt = z := by
  rw [BitVec.toInt_ofInt]
  exact Int.bmod_eq_of_le (by simpa using h.1) (by simpa using h.2)

/-- A trapping addition or subtraction raises the exception exactly when its
result is not an `int`, and then only applies the pending load; otherwise the
result is exact. The others do not trap and keep the result modulo `2 ^ 32`. -/
theorem sum_exact (c : Cpu) (value : BitVec 32)
    (hop : (Instruction.decode value).opCode ∈ OpCode.sums)
    (hload : (c.registers Reg.load).toNat < 32) :
    let trapping := (Instruction.decode value).opCode ∈ OpCode.traps
    let destination := (Instruction.decode value).destination
    let exact := exactSum value c.registers
    (trapping → ¬ IsWord exact → ∃ c', c.execute cfg env (.decode value) = .ok (c', some .overflow) ∧
      c'.memory = c.memory ∧ c'.registers Reg.zero = 0 ∧
      ∀ i, i ≠ Reg.zero → i ≠ Reg.badVAddr → c'.registers i = c.registers.applied i) ∧
    (trapping → IsWord exact → ∃ c', c.execute cfg env (.decode value) = .ok (c', none) ∧
      (destination ≠ Reg.zero → destination ≠ c.registers.pending →
        (c'.registers destination).toInt = exact)) ∧
    (¬ trapping → ∃ c', c.execute cfg env (.decode value) = .ok (c', none) ∧
      (destination ≠ Reg.zero → destination ≠ c.registers.pending →
        ((c'.registers destination).toNat : Int) = exact % 2 ^ 32)) := by
  intro trapping destination exact
  have ho := operate_sum hop c.registers
  have hd : destination.val < 32 := by
    have := Instruction.decoded_decode value
    unfold destination Instruction.destination
    split <;> [exact this.rt; exact this.rt; exact this.rd]
  have set : ¬ (trapping ∧ ¬ IsWord exact) →
      ∃ c', c.execute cfg env (.decode value) = .ok (c', none) ∧
        (destination ≠ Reg.zero → destination ≠ c.registers.pending →
          c'.registers destination = .ofInt 32 exact) := fun h => by
    rw [if_neg h] at ho
    exact Cpu.execute_set ho hload hd
  refine ⟨fun ht hint => ?_, fun ht hint => ?_, fun ht => ?_⟩
  · rw [if_pos ⟨ht, hint⟩] at ho
    refine ⟨_, Cpu.execute_raise ho hload, rfl, ?_, fun i hz hb => ?_⟩
    · rfl
    · exact c.registers.raised_eq_applied 0 hz hb
  · obtain ⟨c', he, hset⟩ := set fun h => h.2 hint
    refine ⟨c', he, fun hz hp => ?_⟩
    rw [hset hz hp, toInt_ofInt_of_isWord hint]
  · obtain ⟨c', he, hset⟩ := set fun h => ht h.1
    refine ⟨c', he, fun hz hp => ?_⟩
    rw [hset hz hp, BitVec.toNat_ofInt, Int.toNat_of_nonneg (Int.emod_nonneg _ (by decide))]
    rfl

/-- `ADDI $2, $1, -1` of the most negative number. -/
theorem sum_exact_addi :
    let value := 0x2022ffff
    ∃ c', signCpu.execute ⟨false, false, false, false⟩ .blank (.decode value) =
        .ok (c', some .overflow) ∧
      c'.memory = signCpu.memory ∧ c'.registers Reg.zero = 0 ∧
      ∀ i, i ≠ Reg.zero → i ≠ Reg.badVAddr → c'.registers i = signCpu.registers.applied i :=
  (sum_exact signCpu 0x2022ffff (by decide) (by decide +kernel)).1 (by decide)
    (by decide +kernel)

/-! ## The switch -/

/-- The instructions that access memory. -/
def OpCode.accesses : List OpCode :=
  [.lb, .lbu, .lh, .lhu, .lw, .lwl, .lwr, .sb, .sh, .sw, .swl, .swr]

/-- The operands of `DIV` whose quotient is not an `int`. -/
def DivideTraps (instr : Instruction) (r : Registers) : Prop :=
  instr.opCode = .div ∧ r instr.rs = 0x80000000 ∧ r instr.rt = -1

instance (instr : Instruction) (r : Registers) : Decidable (DivideTraps instr r) :=
  inferInstanceAs (Decidable (_ ∧ _ ∧ _))

theorem operate_defined {instr : Instruction} {r : Registers} (hrfe : instr.opCode ≠ .rfe)
    (hacc : instr.opCode ∉ OpCode.accesses) :
    (∃ p, operate instr r = .ok p) ↔ ¬ DivideTraps instr r := by
  obtain ⟨op, rs, rt, rd, extra⟩ := instr
  cases op
  case rfe => exact absurd rfl hrfe
  case lb | lbu | lh | lhu | lw | lwl | lwr | sb | sh | sw | swl | swr =>
    exact absurd (by simp [OpCode.accesses]) hacc
  case div =>
    simp only [operate, DivideTraps, true_and]
    by_cases hz : r rt = 0
    · rw [if_pos hz, hz]
      exact iff_of_true ⟨_, rfl⟩ fun h => absurd h.2 (by decide)
    · rw [if_neg hz, defined]
      split
      · rename_i h
        exact iff_of_true ⟨_, rfl⟩ h
      · rename_i h
        refine iff_of_false ?_ h
        rintro ⟨p, hp⟩
        cases hp
  case add | addi | sub | divu =>
    refine iff_of_true ?_ fun h => OpCode.noConfusion h.1
    simp only [operate]
    split <;> exact ⟨_, rfl⟩
  all_goals exact iff_of_true ⟨_, rfl⟩ fun h => OpCode.noConfusion h.1

theorem sdiv_add_srem (a b : BitVec 32) : a.sdiv b * b + a.srem b = a := by
  have hq : a.sdiv b = .ofInt 32 (a.toInt.tdiv b.toInt) :=
    BitVec.eq_of_toInt_eq (by rw [BitVec.toInt_sdiv, BitVec.toInt_ofInt])
  have hr : a.srem b = .ofInt 32 (a.toInt.tmod b.toInt) := by
    rw [← BitVec.toInt_srem, BitVec.ofInt_toInt]
  calc a.sdiv b * b + a.srem b
      = .ofInt 32 (a.toInt.tdiv b.toInt) * .ofInt 32 b.toInt +
          .ofInt 32 (a.toInt.tmod b.toInt) := by rw [hq, hr, BitVec.ofInt_toInt]
    _ = .ofInt 32 (a.toInt.tdiv b.toInt * b.toInt + a.toInt.tmod b.toInt) := by
      rw [BitVec.ofInt_add, BitVec.ofInt_mul]
    _ = a := by rw [Int.tdiv_mul_add_tmod, BitVec.ofInt_toInt]

theorem udiv_add_umod (a b : BitVec 32) : a / b * b + a % b = a := by
  refine BitVec.eq_of_toNat_eq ?_
  have h := Nat.div_add_mod' a.toNat b.toNat
  rw [BitVec.toNat_add, BitVec.toNat_mul, BitVec.toNat_udiv, BitVec.toNat_umod, Nat.mod_add_mod, h,
    Nat.mod_eq_of_lt a.isLt]

/-- The switch handles the instruction `value`, and it divides as the operands
say: the register fields and the op code are in range, nothing stops the
simulator, and the quotient and the remainder fit together. -/
structure SwitchSafe (cfg : Config) (env : Env) (c : Cpu) (value : BitVec 32) : Prop where
  decoded : (Instruction.decode value).Decoded
  opTable : (value >>> 26).toNat < opTable.length
  specialTable : (value &&& 0x3f).toNat < specialTable.length
  handled : (Instruction.decode value).opCode ∈ OpCode.accesses ∨
    ∃ p, operate (.decode value) c.registers = .ok p
  division : (Instruction.decode value).opCode ∈ [.div, .divu] →
    c.registers (Instruction.decode value).rt ≠ 0 → (c.registers Reg.load).toNat < 32 →
    ∃ c', c.execute cfg env (.decode value) = .ok (c', none) ∧
      c'.registers Reg.lo * c.registers (Instruction.decode value).rt + c'.registers Reg.hi =
        c.registers (Instruction.decode value).rs

/-- What a division leaves in `HiReg` and `LoReg`. -/
theorem Cpu.execute_setHiLo {c : Cpu} {instr : Instruction} {hi lo pcAfter : BitVec 32}
    (h : operate instr c.registers =
      .ok ((c.registers.write Reg.hi hi).write Reg.lo lo, .ok pcAfter))
    (hl : (c.registers Reg.load).toNat < 32) :
    ∃ c', c.execute cfg env instr = .ok (c', none) ∧ c'.registers Reg.hi = hi ∧
      c'.registers Reg.lo = lo := by
  have hload : ((c.registers.write Reg.hi hi).write Reg.lo lo) Reg.load = c.registers Reg.load := by
    rw [Registers.write_ne _ _ (by decide), Registers.write_ne _ _ (by decide)]
  refine ⟨_, execute_ok h (by rw [hload]; exact hl), ?_, ?_⟩
  · show Registers.advanced _ pcAfter 0 0 Reg.hi = hi
    rw [Registers.advanced_general _ _ _ _ (by decide),
      Registers.loaded_special _ _ _ (by decide) (by decide) (by decide),
      Registers.write_ne _ _ (by decide), Registers.write_self]
  · show Registers.advanced _ pcAfter 0 0 Reg.lo = lo
    rw [Registers.advanced_general _ _ _ _ (by decide),
      Registers.loaded_special _ _ _ (by decide) (by decide) (by decide), Registers.write_self]

theorem execute_division {c : Cpu} {instr : Instruction} (hop : instr.opCode ∈ [.div, .divu])
    (hz : c.registers instr.rt ≠ 0) (hl : (c.registers Reg.load).toNat < 32)
    (ht : ¬ DivideTraps instr c.registers) :
    ∃ c', c.execute cfg env instr = .ok (c', none) ∧
      c'.registers Reg.lo * c.registers instr.rt + c'.registers Reg.hi = c.registers instr.rs := by
  simp only [List.mem_cons, List.not_mem_nil, or_false] at hop
  rcases hop with hop | hop
  · have ho : operate instr c.registers =
        .ok ((c.registers.write Reg.hi ((c.registers instr.rs).srem (c.registers instr.rt))).write
          Reg.lo ((c.registers instr.rs).sdiv (c.registers instr.rt)),
          .ok (c.registers Reg.nextPC + 4)) := by
      simp only [operate, hop]
      rw [if_neg hz, defined, if_pos fun h => ht ⟨hop, h⟩]
      rfl
    obtain ⟨c', he, hhi, hlo⟩ := @Cpu.execute_setHiLo cfg env _ _ _ _ _ ho hl
    exact ⟨c', he, by rw [hhi, hlo, sdiv_add_srem]⟩
  · have ho : operate instr c.registers =
        .ok ((c.registers.write Reg.hi (c.registers instr.rs % c.registers instr.rt)).write
          Reg.lo (c.registers instr.rs / c.registers instr.rt),
          .ok (c.registers Reg.nextPC + 4)) := by
      simp only [operate, hop]
      rw [if_neg hz]
    obtain ⟨c', he, hhi, hlo⟩ := @Cpu.execute_setHiLo cfg env _ _ _ _ _ ho hl
    exact ⟨c', he, by rw [hhi, hlo, udiv_add_umod]⟩

/-- The switch is safe but for `DIV` of the most negative number by -1, which
stops the simulator. -/
theorem switch_safe_iff (c : Cpu) (value : BitVec 32) :
    SwitchSafe cfg env c value ↔ ¬ DivideTraps (.decode value) c.registers := by
  constructor
  · intro h ht
    have hacc : (Instruction.decode value).opCode ∉ OpCode.accesses := by
      rw [ht.1]
      decide
    exact (operate_defined (Instruction.decode_ne_rfe value) hacc).mp (h.handled.resolve_left hacc)
      ht
  · intro ht
    refine ⟨Instruction.decoded_decode value, Instruction.opTable_index value,
      Instruction.specialTable_index value, ?_, fun hop hz hl => execute_division hop hz hl ht⟩
    by_cases hacc : (Instruction.decode value).opCode ∈ OpCode.accesses
    · exact .inl hacc
    · exact .inr ((operate_defined (Instruction.decode_ne_rfe value) hacc).mpr ht)

/-- `DIV $1, $2` with -1 in `R2`. -/
theorem not_switch_safe : ¬ ∀ (cfg : Config) (env : Env) (c : Cpu) (value : BitVec 32),
    SwitchSafe cfg env c value := by
  intro hall
  have h := (hall ⟨false, false, false, false⟩ .blank
    ⟨signCpu.registers.write ⟨2, by decide⟩ (-1), signCpu.memory⟩ 0x0022001a).handled
  rcases h with h | ⟨p, h⟩
  · exact absurd h (by decide)
  · exact (operate_defined (Instruction.decode_ne_rfe _) (by decide)).mp ⟨p, h⟩
      (by decide +kernel)

end Nachos

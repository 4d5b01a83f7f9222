import Nachos.Impl.Machine.Mipssim

/-!
# The delayed load

`RaiseException` applies a pending load early. `Ahead` relates the registers
with a load pending and those with the load applied; an instruction that keeps
to the load-delay rule (`Instruction.Respects`) does not tell them apart
(`oneInstruction_agree`), but for `LWL` and `LWR` of `R0`, which merge into a
load of `R0` that then has no effect.
-/

namespace Nachos

/-- A register that a delayed load does not change, other than its target. -/
def Reg.Plain (i : Reg) : Prop := i ≠ Reg.load ∧ i ≠ Reg.loadValue ∧ i ≠ Reg.badVAddr

instance (i : Reg) : Decidable i.Plain := inferInstanceAs (Decidable (_ ∧ _))

theorem Reg.plain_of_lt {i : Reg} (h : i.val < 32) : i.Plain := by
  refine ⟨?_, ?_, ?_⟩ <;> rintro rfl <;> exact absurd h (by decide)

theorem Instruction.reg_lt (value : BitVec 32) (shift : Nat) : (reg value shift).val < 32 := by
  show (value.extractLsb' shift 5).toNat < 2 ^ 5
  exact BitVec.isLt _

namespace Registers

/-- `R0` is zero, and a load is pending for a general register. -/
structure Wf (r : Registers) : Prop where
  zero : r Reg.zero = 0
  load : (r Reg.load).toNat < 32

/-- The register of the pending load. -/
def pending (r : Registers) : Reg :=
  ⟨(r Reg.load).toNat % 32, Nat.lt_trans (Nat.mod_lt _ (by decide)) (by decide)⟩

/-- The pending load is applied and cleared. -/
def applied (r : Registers) : Registers := fun i =>
  if i = Reg.load ∨ i = Reg.loadValue then 0
  else if i = r.pending ∧ i ≠ Reg.zero then r Reg.loadValue
  else r i

theorem write_apply (r : Registers) (i j : Reg) (v : BitVec 32) :
    r.write i v j = if j = i then v else r j := by
  simp [write, Function.update_apply]

theorem write_self (r : Registers) (i : Reg) (v : BitVec 32) : r.write i v i = v := by
  simp [write_apply]

theorem write_ne (r : Registers) {i j : Reg} (v : BitVec 32) (h : j ≠ i) : r.write i v j = r j := by
  simp [write_apply, h]

theorem pending_lt (r : Registers) : r.pending.val < 32 := Nat.mod_lt _ (by decide)

/-- The registers after a delayed load. -/
theorem delayedLoad_spec {r : Registers} (h : (r Reg.load).toNat < 32) (n v : BitVec 32) :
    ∃ r', r.delayedLoad n v = .ok r' ∧ r' Reg.load = n ∧ r' Reg.loadValue = v ∧ r' Reg.zero = 0 ∧
      (r.pending ≠ Reg.zero → r' r.pending = r Reg.loadValue) ∧
      ∀ i, i ≠ Reg.load → i ≠ Reg.loadValue → i ≠ Reg.zero → i ≠ r.pending → r' i = r i := by
  have h40 : (r Reg.load).toNat < numTotalRegs := Nat.lt_trans h (by decide)
  have hp : (⟨(r Reg.load).toNat, h40⟩ : Reg) = r.pending := by
    refine Fin.ext ?_
    show (r Reg.load).toNat = (r Reg.load).toNat % 32
    rw [Nat.mod_eq_of_lt h]
  have hplain := Reg.plain_of_lt r.pending_lt
  rw [delayedLoad, dif_pos h40, hp]
  refine ⟨_, rfl, ?_, ?_, ?_, ?_, ?_⟩
  · rw [write_ne _ _ (by decide), write_ne _ _ (by decide), write_self]
  · rw [write_ne _ _ (by decide), write_self]
  · rw [write_self]
  · intro hz
    rw [write_ne _ _ hz, write_ne _ _ hplain.2.1, write_ne _ _ hplain.1, write_self]
  · intro i h₁ h₂ h₃ h₄
    rw [write_ne _ _ h₃, write_ne _ _ h₂, write_ne _ _ h₁, write_ne _ _ h₄]

end Registers

theorem Cpu.advance_spec {c : Cpu} {n v : BitVec 32} {r' : Registers}
    (h : c.registers.delayedLoad n v = .ok r') (pcAfter : BitVec 32) :
    ∃ r'', c.advance pcAfter n v = .ok (⟨r'', c.memory⟩, none) ∧ r'' Reg.prevPC = r' Reg.pc ∧
      r'' Reg.pc = r' Reg.nextPC ∧ r'' Reg.nextPC = pcAfter ∧
      ∀ i, i ≠ Reg.prevPC → i ≠ Reg.pc → i ≠ Reg.nextPC → r'' i = r' i := by
  unfold advance
  rw [h]
  refine ⟨_, rfl, ?_, ?_, ?_, fun i h₁ h₂ h₃ => ?_⟩
  · rw [Registers.write_ne _ _ (by decide), Registers.write_ne _ _ (by decide), Registers.write_self]
  · rw [Registers.write_ne _ _ (by decide), Registers.write_self, Registers.write_ne _ _ (by decide)]
  · rw [Registers.write_self]
  · rw [Registers.write_ne _ _ h₃, Registers.write_ne _ _ h₂, Registers.write_ne _ _ h₁]

namespace Instruction

/-- The general registers whose value an instruction uses. `LWL` and `LWR` also
merge into `rt`. -/
def reads (instr : Instruction) : List Reg :=
  match instr.opCode with
  | .add | .addu | .and | .beq | .bne | .div | .divu | .mult | .multu | .nor | .or | .sllv | .slt
  | .sltu | .srav | .srlv | .sub | .subu | .xor | .sb | .sh | .sw | .swl | .swr =>
    [instr.rs, instr.rt]
  | .addi | .addiu | .andi | .bgez | .bgezal | .bgtz | .blez | .bltz | .bltzal | .jalr | .jr | .lb
  | .lbu | .lh | .lhu | .lw | .lwl | .lwr | .mthi | .mtlo | .ori | .slti | .sltiu | .xori =>
    [instr.rs]
  | .sll | .sra | .srl => [instr.rt]
  | _ => []

/-- The general registers that an instruction sets, now or by a delayed load. -/
def writes (instr : Instruction) : List Reg :=
  match instr.opCode with
  | .add | .addu | .and | .jalr | .mfhi | .mflo | .nor | .or | .sll | .sllv | .slt | .sltu | .sra
  | .srav | .srl | .srlv | .sub | .subu | .xor => [instr.rd]
  | .addi | .addiu | .andi | .lui | .ori | .slti | .sltiu | .xori | .lb | .lbu | .lh | .lhu
  | .lw => [instr.rt]
  | .bgezal | .bltzal | .jal => [Reg.retAddr]
  | _ => []

/-- The load-delay rule, with a load of `l` pending. Loads of `R0` have no
effect. -/
def Respects (instr : Instruction) (l : Reg) : Prop :=
  l = Reg.zero ∨ l ∉ instr.reads ∧ l ∉ instr.writes

end Instruction

/-- In `r` a load of `l` is pending, and in `r₁` it was applied and cleared. -/
structure Ahead (l : Reg) (r r₁ : Registers) : Prop where
  general : l.val < 32
  load : (r Reg.load).toNat = l.val
  cleared : r₁ Reg.load = 0 ∧ r₁ Reg.loadValue = 0
  applied : l ≠ Reg.zero → r₁ l = r Reg.loadValue
  same : ∀ i, i.Plain → i ≠ l ∨ l = Reg.zero → r₁ i = r i

namespace Ahead

variable {l : Reg} {r r₁ : Registers}

/-- A write of a register other than `l`. -/
theorem write (h : Ahead l r r₁) {i : Reg} (hi : i.Plain) (hl : i ≠ l ∨ l = Reg.zero)
    (v : BitVec 32) : Ahead l (r.write i v) (r₁.write i v) := by
  obtain ⟨h₁, h₂, h₃⟩ := hi
  refine ⟨h.general, ?_, ⟨?_, ?_⟩, fun hz => ?_, fun j hj hjl => ?_⟩
  · rw [Registers.write_ne _ _ h₁.symm]
    exact h.load
  · rw [Registers.write_ne _ _ h₁.symm]
    exact h.cleared.1
  · rw [Registers.write_ne _ _ h₂.symm]
    exact h.cleared.2
  · have hli : l ≠ i := fun e => hl.elim (fun hl => hl e.symm) hz
    rw [Registers.write_ne _ _ hli, Registers.write_ne _ _ h₂.symm]
    exact h.applied hz
  · rw [Registers.write_apply, Registers.write_apply, h.same j hj hjl]

theorem ne_special (h : Ahead l r r₁) {i : Reg} (hi : 32 ≤ i.val) : i ≠ l := by
  rintro rfl
  have := h.general
  omega

theorem nextPC (h : Ahead l r r₁) : r₁ Reg.nextPC = r Reg.nextPC :=
  h.same _ (by decide) (.inl (h.ne_special (by decide)))

theorem pending_eq (h : Ahead l r r₁) : r.pending = l := by
  refine Fin.ext ?_
  show (r Reg.load).toNat % 32 = l.val
  rw [h.load, Nat.mod_eq_of_lt h.general]

theorem pending_zero (h : Ahead l r r₁) : r₁.pending = Reg.zero := by
  unfold Registers.pending
  rw [Fin.mk.injEq, h.cleared.1]
  rfl

/-- A delayed load removes the difference. -/
theorem delayedLoad (h : Ahead l r r₁) (n v v₁ : BitVec 32) : ∃ r' r₁',
    r.delayedLoad n v = .ok r' ∧ r₁.delayedLoad n v₁ = .ok r₁' ∧
    r' Reg.loadValue = v ∧ r₁' Reg.loadValue = v₁ ∧
    ∀ i, i ≠ Reg.badVAddr → i ≠ Reg.loadValue → r₁' i = r' i := by
  obtain ⟨r', e, hl, hv, hz, hp, hr⟩ :=
    Registers.delayedLoad_spec (r := r) (by rw [h.load]; exact h.general) n v
  obtain ⟨r₁', e₁, hl₁, hv₁, hz₁, -, hr₁⟩ :=
    Registers.delayedLoad_spec (r := r₁) (by rw [h.cleared.1]; decide) n v₁
  rw [h.pending_eq] at hp hr
  rw [h.pending_zero] at hr₁
  refine ⟨r', r₁', e, e₁, hv, hv₁, fun i hb hlv => ?_⟩
  by_cases h₁ : i = Reg.load
  · rw [h₁, hl, hl₁]
  · by_cases h₂ : i = Reg.zero
    · rw [h₂, hz, hz₁]
    · rw [hr₁ i h₁ hlv h₂ h₂]
      by_cases h₃ : i = l
      · subst h₃
        rw [hp h₂, h.applied h₂]
      · rw [hr i h₁ hlv h₂ h₃, h.same i ⟨h₁, hlv, hb⟩ (.inl h₃)]

end Ahead

/-- A register that the load-delay rule lets an instruction use. -/
theorem Instruction.Respects.usable {instr : Instruction} {l : Reg} (h : instr.Respects l) {i : Reg}
    (hi : i ∈ instr.reads ∨ i ∈ instr.writes) : i ≠ l ∨ l = Reg.zero := by
  by_cases e : i = l
  · exact .inr (h.resolve_right fun hn => hi.elim (fun hi => hn.1 (e ▸ hi)) fun hi => hn.2 (e ▸ hi))
  · exact .inl e

/-- The two results of an operation. -/
inductive AheadResult (l : Reg) :
    Except Abort (Registers × Except Trap (BitVec 32)) →
    Except Abort (Registers × Except Trap (BitVec 32)) → Prop
  | abort (e : Abort) : AheadResult l (.error e) (.error e)
  | ok {r r₁ : Registers} (h : Ahead l r r₁) (x : Except Trap (BitVec 32)) :
    AheadResult l (.ok (r, x)) (.ok (r₁, x))

/-- The register fields are numbers of general registers. -/
structure Instruction.Decoded (instr : Instruction) : Prop where
  rs : instr.rs.val < 32
  rt : instr.rt.val < 32
  rd : instr.rd.val < 32

theorem Instruction.decoded_decode (value : BitVec 32) : (decode value).Decoded :=
  ⟨reg_lt value 21, reg_lt value 16, reg_lt value 11⟩

/-- An operation that keeps to the load-delay rule does not see whether the load
was applied. -/
theorem operate_ahead {l : Reg} {r r₁ : Registers} (h : Ahead l r r₁) {instr : Instruction}
    (hd : instr.Decoded) (hr : instr.Respects l) :
    AheadResult l (operate instr r) (operate instr r₁) := by
  obtain ⟨op, rs, rt, rd, extra⟩ := instr
  have hrs : rs.Plain := Reg.plain_of_lt hd.rs
  have hrt : rt.Plain := Reg.plain_of_lt hd.rt
  have hrd : rd.Plain := Reg.plain_of_lt hd.rd
  have hspecial : ∀ i : Reg, 32 ≤ i.val → i ≠ l ∨ l = Reg.zero := fun i hi => .inl (h.ne_special hi)
  have hnext := h.nextPC
  have hhi : r₁ Reg.hi = r Reg.hi := h.same _ (by decide) (hspecial _ (by decide))
  have hlo : r₁ Reg.lo = r Reg.lo := h.same _ (by decide) (hspecial _ (by decide))
  have hhilo : ∀ x y, Ahead l ((r.write Reg.hi x).write Reg.lo y)
      ((r₁.write Reg.hi x).write Reg.lo y) := fun x y =>
    (h.write (by decide) (hspecial _ (by decide)) x).write (by decide) (hspecial _ (by decide)) y
  have hread : ∀ i ∈ (Instruction.mk op rs rt rd extra).reads, i ≠ l ∨ l = Reg.zero :=
    fun i hi => hr.usable (.inl hi)
  have hwrite : ∀ i ∈ (Instruction.mk op rs rt rd extra).writes, i ≠ l ∨ l = Reg.zero :=
    fun i hi => hr.usable (.inr hi)
  have hsame : ∀ i ∈ (Instruction.mk op rs rt rd extra).reads, i.Plain → r₁ i = r i :=
    fun i hi hp => h.same i hp (hread i hi)
  cases op <;>
    simp only [Instruction.reads, Instruction.writes, List.mem_cons, List.not_mem_nil, or_false,
      false_imp_iff, implies_true, forall_eq_or_imp, forall_eq, hrs, hrt, true_imp_iff]
      at hread hwrite hsame <;>
    simp only [operate, hnext, hhi, hlo, hsame]
  case add | sub =>
    split
    · exact .ok h _
    · exact .ok (h.write hrd hwrite _) _
  case addi =>
    split
    · exact .ok h _
    · exact .ok (h.write hrt hwrite _) _
  case addu | and | nor | or | sll | sllv | slt | sltu | sra | srav | srl | srlv | subu | xor | mfhi
    | mflo => exact .ok (h.write hrd hwrite _) _
  case addiu | andi | lui | ori | slti | sltiu | xori => exact .ok (h.write hrt hwrite _) _
  case beq | bne | bgez | bgtz | blez | bltz | j | jr | syscall | res | unimp => exact .ok h _
  case jal => exact .ok (h.write (by decide) hwrite _) _
  case bgezal | bltzal =>
    -- The condition is read behind the write of the link register.
    have hw := h.write (i := Reg.retAddr) (by decide) hwrite (r Reg.nextPC + 4)
    rw [hw.same rs hrs hread]
    exact .ok hw _
  case jalr =>
    have hw := h.write hrd hwrite (r Reg.nextPC + 4)
    rw [hw.same rs hrs hread]
    exact .ok hw _
  case mthi | mtlo => exact .ok (h.write (by decide) (hspecial _ (by decide)) _) _
  case mult | multu => exact .ok (hhilo _ _) _
  case divu =>
    split
    · exact .ok (hhilo _ _) _
    · exact .ok (hhilo _ _) _
  case div =>
    split
    · exact .ok (hhilo _ _) _
    · unfold defined
      split
      · exact .ok (hhilo _ _) _
      · exact .abort _
  all_goals exact .abort _

/-- The instruction merges into a pending load of `R0`. -/
def Instruction.MergesZero (instr : Instruction) (l : Reg) : Prop :=
  (instr.opCode = .lwl ∨ instr.opCode = .lwr) ∧ instr.rt = Reg.zero ∧ l = Reg.zero

instance (instr : Instruction) (l : Reg) : Decidable (instr.MergesZero l) :=
  inferInstanceAs (Decidable (_ ∧ _))

/-- Two ends of an instruction that differ in registers outside `S` only. -/
inductive Agree (S : Reg → Prop) : Except Abort Ended → Except Abort Ended → Prop
  | abort (e : Abort) : Agree S (.error e) (.error e)
  | ended {r r₁ : Registers} (h : ∀ i, S i → r₁ i = r i) (m : Vm) (which : Option Trap) :
    Agree S (.ok (⟨r, m⟩, which)) (.ok (⟨r₁, m⟩, which))

namespace Ahead

variable {cfg : Config} {env : Env} {l : Reg} {r r₁ : Registers} {S : Reg → Prop}

/-- `BadVAddrReg` does not matter. -/
theorem badVAddr (h : Ahead l r r₁) (a : BitVec 32) :
    Ahead l (r.write Reg.badVAddr a) (r₁.write Reg.badVAddr a) := by
  have hl := Reg.plain_of_lt h.general
  have hw : ∀ (r : Registers) i, i ≠ Reg.badVAddr → r.write Reg.badVAddr a i = r i :=
    fun r i hi => r.write_ne a hi
  refine ⟨h.general, ?_, ⟨?_, ?_⟩, fun hz => ?_, fun i hi hil => ?_⟩
  · rw [hw r _ (by decide)]
    exact h.load
  · rw [hw r₁ _ (by decide)]
    exact h.cleared.1
  · rw [hw r₁ _ (by decide)]
    exact h.cleared.2
  · rw [hw r₁ _ hl.2.2, hw r _ (by decide)]
    exact h.applied hz
  · rw [hw r₁ _ hi.2.2, hw r _ hi.2.2]
    exact h.same i hi hil

theorem raiseException (h : Ahead l r r₁) (hS : ∀ i, S i → i ≠ Reg.badVAddr) (m : Vm)
    (which : Trap) (a : BitVec 32) :
    Agree S (Cpu.raiseException ⟨r, m⟩ which a) (Cpu.raiseException ⟨r₁, m⟩ which a) := by
  obtain ⟨r', r₁', e, e₁, hv, hv₁, hr⟩ := (h.badVAddr a).delayedLoad 0 0 0
  unfold Cpu.raiseException
  rw [e, e₁]
  refine .ended (fun i hi => ?_) m _
  by_cases hl : i = Reg.loadValue
  · rw [hl, hv, hv₁]
  · exact hr i (hS i hi) hl

theorem advance (h : Ahead l r r₁) (hS : ∀ i, S i → i ≠ Reg.badVAddr) (m : Vm)
    (pcAfter n : BitVec 32) {v v₁ : BitVec 32} (hv : S Reg.loadValue → v₁ = v) :
    Agree S (Cpu.advance ⟨r, m⟩ pcAfter n v) (Cpu.advance ⟨r₁, m⟩ pcAfter n v₁) := by
  obtain ⟨r', r₁', e, e₁, hlv, hlv₁, hr⟩ := h.delayedLoad n v v₁
  obtain ⟨r'', e', h₁, h₂, h₃, h₄⟩ := Cpu.advance_spec (c := ⟨r, m⟩) e pcAfter
  obtain ⟨r₁'', e₁', k₁, k₂, k₃, k₄⟩ := Cpu.advance_spec (c := ⟨r₁, m⟩) e₁ pcAfter
  rw [e', e₁']
  refine .ended (fun i hi => ?_) m _
  by_cases hp : i = Reg.prevPC
  · rw [hp, h₁, k₁, hr _ (by decide) (by decide)]
  · by_cases hq : i = Reg.pc
    · rw [hq, h₂, k₂, hr _ (by decide) (by decide)]
    · by_cases hn : i = Reg.nextPC
      · rw [hn, h₃, k₃]
      · rw [h₄ i hp hq hn, k₄ i hp hq hn]
        by_cases hl : i = Reg.loadValue
        · subst hl
          rw [hlv, hlv₁, hv hi]
        · exact hr i (hS i hi) hl

theorem readMem (h : Ahead l r r₁) (hS : ∀ i, S i → i ≠ Reg.badVAddr) (m : Vm) (addr : BitVec 32)
    (size : Nat) {rest rest₁ : Cpu → BitVec 32 → Except Abort Ended}
    (hr : ∀ m' v, m.load cfg env addr.toInt size = .ok (m', .ok v) →
      Agree S (rest ⟨r, m'⟩ v) (rest₁ ⟨r₁, m'⟩ v)) :
    Agree S (Cpu.readMem cfg env ⟨r, m⟩ addr size rest)
      (Cpu.readMem cfg env ⟨r₁, m⟩ addr size rest₁) := by
  unfold Cpu.readMem
  cases hl : m.load cfg env addr.toInt size with
  | error e => exact .abort e
  | ok p =>
    obtain ⟨m', x⟩ := p
    cases x with
    | error which => exact h.raiseException hS m' _ addr
    | ok v => exact hr m' v hl

theorem writeMem (h : Ahead l r r₁) (hS : ∀ i, S i → i ≠ Reg.badVAddr) (m : Vm) (addr : BitVec 32)
    (size : Nat) (v : BitVec 32) {rest rest₁ : Cpu → Except Abort Ended}
    (hr : ∀ m', Agree S (rest ⟨r, m'⟩) (rest₁ ⟨r₁, m'⟩)) :
    Agree S (Cpu.writeMem cfg env ⟨r, m⟩ addr size v rest)
      (Cpu.writeMem cfg env ⟨r₁, m⟩ addr size v rest₁) := by
  unfold Cpu.writeMem
  cases hs : m.save cfg env addr.toInt size v with
  | error e => exact .abort e
  | ok p =>
    obtain ⟨m', x⟩ := p
    cases x with
    | error which => exact h.raiseException hS m' _ addr
    | ok u => exact hr m'

/-- The merge of `LWL` and `LWR` gives the same before and after. -/
theorem forwarded (h : Ahead l r r₁) (hz : r Reg.zero = 0) {i : Reg} (hi : i.val < 32)
    (hne : ¬ (i = Reg.zero ∧ l = Reg.zero)) : forwarded r₁ i = forwarded r i := by
  have hload : (r Reg.load).toInt = l.val := by
    rw [BitVec.toInt_eq_toNat_of_lt (by have := h.load; have := h.general; omega), h.load]
  have hload₁ : (r₁ Reg.load).toInt = 0 := by
    rw [h.cleared.1]
    rfl
  unfold Nachos.forwarded
  rw [hload, hload₁, h.cleared.2]
  by_cases h₀ : i = Reg.zero
  · -- No load of `R0` is pending in `r`, and in `r₁` its value is 0.
    subst h₀
    have hl : ¬ ((l.val : Int) = (Reg.zero : Reg).val) := fun e =>
      hne ⟨rfl, Fin.ext (by exact_mod_cast e)⟩
    rw [if_pos (show (0 : Int) = (Reg.zero : Reg).val from rfl), if_neg hl, hz]
  · have h₁ : ¬ ((0 : Int) = i.val) := fun e =>
      h₀ (Fin.ext (by show i.val = 0; omega))
    rw [if_neg h₁]
    by_cases h₂ : l = i
    · rw [if_pos (by rw [h₂]), ← h₂]
      exact h.applied (h₂ ▸ h₀)
    · rw [if_neg fun e => h₂ (Fin.ext (by omega))]
      exact h.same i (Reg.plain_of_lt hi) (.inl (Ne.symm h₂))

end Ahead

/-- An instruction that keeps to the load-delay rule does not see whether the
load was applied. -/
theorem execute_agree {cfg : Config} {env : Env} {l : Reg} {r r₁ : Registers} {S : Reg → Prop}
    (h : Ahead l r r₁) (hz : r Reg.zero = 0) {instr : Instruction} (hd : instr.Decoded)
    (hr : instr.Respects l) (hS : ∀ i, S i → i ≠ Reg.badVAddr)
    (hm : S Reg.loadValue → ¬ instr.MergesZero l) (m : Vm) :
    Agree S (Cpu.execute cfg env ⟨r, m⟩ instr) (Cpu.execute cfg env ⟨r₁, m⟩ instr) := by
  have hnext := h.nextPC
  have hload : ∀ (m : Vm) (pcAfter v : BitVec 32),
      Agree S (Cpu.advance ⟨r, m⟩ pcAfter (.ofNat 32 instr.rt) v)
        (Cpu.advance ⟨r₁, m⟩ pcAfter (.ofNat 32 instr.rt) v) :=
    fun m pcAfter v => h.advance hS m pcAfter _ fun _ => rfl
  have hdone : ∀ (m : Vm) (pcAfter : BitVec 32),
      Agree S (Cpu.advance ⟨r, m⟩ pcAfter 0 0) (Cpu.advance ⟨r₁, m⟩ pcAfter 0 0) :=
    fun m pcAfter => h.advance hS m pcAfter 0 fun _ => rfl
  have hrs : instr.rs ∈ instr.reads → r₁ instr.rs = r instr.rs := fun hi =>
    h.same _ (Reg.plain_of_lt hd.rs) (hr.usable (.inl hi))
  have hrt : instr.rt ∈ instr.reads → r₁ instr.rt = r instr.rt := fun hi =>
    h.same _ (Reg.plain_of_lt hd.rt) (hr.usable (.inl hi))
  unfold Cpu.execute
  simp only [hnext]
  split
  case h_1 hop | h_2 hop =>
    rw [hrs (by simp [Instruction.reads, hop])]
    exact h.readMem hS m _ _ fun m v _ => hload m _ _
  case h_3 hop | h_4 hop | h_5 hop =>
    rw [hrs (by simp [Instruction.reads, hop])]
    split
    · exact h.raiseException hS m _ _
    · exact h.readMem hS m _ _ fun m v _ => hload m _ _
  case h_6 hop =>
    rw [hrs (by simp [Instruction.reads, hop])]
    refine h.readMem hS m _ _ fun m v _ => h.advance hS m _ _ fun hs => ?_
    rw [h.forwarded hz hd.rt fun e => hm hs ⟨.inl hop, e⟩]
  case h_7 hop =>
    rw [hrs (by simp [Instruction.reads, hop])]
    refine h.readMem hS m _ _ fun m v _ => h.advance hS m _ _ fun hs => ?_
    rw [h.forwarded hz hd.rt fun e => hm hs ⟨.inr hop, e⟩]
  case h_8 hop | h_9 hop | h_10 hop =>
    rw [hrs (by simp [Instruction.reads, hop]), hrt (by simp [Instruction.reads, hop])]
    exact h.writeMem hS m _ _ _ fun m => hdone m _
  case h_11 hop | h_12 hop =>
    rw [hrs (by simp [Instruction.reads, hop])]
    refine h.readMem hS m _ _ fun m v _ => ?_
    simp only [hrt (by simp [Instruction.reads, hop])]
    exact h.writeMem hS m _ _ _ fun m => hdone m _
  case h_13 =>
    have ho := operate_ahead h hd hr
    generalize operate instr r = x at ho ⊢
    generalize operate instr r₁ = x₁ at ho ⊢
    cases ho with
    | abort e => exact .abort e
    | @ok r' r₁' h' x =>
      cases x with
      | error which => exact h'.raiseException hS m which 0
      | ok pcAfter => exact h'.advance hS m pcAfter 0 fun _ => rfl

theorem oneInstruction_agree {cfg : Config} {env : Env} {l : Reg} {r r₁ : Registers}
    {S : Reg → Prop} (h : Ahead l r r₁) (hz : r Reg.zero = 0) (hS : ∀ i, S i → i ≠ Reg.badVAddr)
    (m : Vm) (hr : ∀ m' raw, m.load cfg env (r Reg.pc).toInt 4 = .ok (m', .ok raw) →
      (Instruction.decode raw).Respects l ∧
        (S Reg.loadValue → ¬ (Instruction.decode raw).MergesZero l)) :
    Agree S (Cpu.oneInstruction cfg env ⟨r, m⟩) (Cpu.oneInstruction cfg env ⟨r₁, m⟩) := by
  have hpc : r₁ Reg.pc = r Reg.pc := h.same _ (by decide) (.inl (h.ne_special (by decide)))
  unfold Cpu.oneInstruction
  simp only [hpc]
  refine h.readMem hS m _ _ fun m' raw hl => ?_
  obtain ⟨h₁, h₂⟩ := hr m' raw hl
  exact execute_agree h hz (Instruction.decoded_decode raw) h₁ hS h₂ m'

end Nachos

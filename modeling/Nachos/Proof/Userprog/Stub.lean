import Nachos.Proof.Userprog.Alone

/-!
# The system call `Add`

A user program calls `Add` through the stub of `test/start.s`. From any registers, and
whatever exceptions and interrupts come between its instructions, the stub returns
to its caller with the sum of the two arguments in register 2, and all other general
registers and memory as they were (`run_addStub`). A load that is pending at the call
arrives, as it does in a delay slot; one for register 2 would hide the number of the
call.
-/

namespace Nachos

/-- `Add` of `test/start.s`, as it is in `test/add.noff`: `addiu $2,$0,SC_Add`,
`syscall`, `jr $31`, and `nop`. -/
def addStub : List (BitVec 32) := [0x2402002a, 0x0000000c, 0x03e00008, 0]

/-- The general registers, once the pending load is there. -/
def Registers.settled (r : Registers) (k : Fin 32) : BitVec 32 := r.loaded 0 0 (Reg.general k)

namespace Solo

variable {a pc next v : BitVec 32} {r r' : Registers} {g : Fin 32 → BitVec 32} {memory : Int → Byte}

theorem general_ne (k : Fin 32) {i : Reg} (h : 32 ≤ i.val) : Reg.general k ≠ i := by
  rintro rfl
  exact absurd k.isLt (Nat.not_lt.mpr h)

theorem general_inj {j k : Fin 32} : Reg.general j = Reg.general k ↔ j = k :=
  ⟨fun h => Fin.ext (Fin.mk.inj h), fun h => h ▸ rfl⟩

/-- Between two instructions. -/
structure At (g : Fin 32 → BitVec 32) (pc next : BitVec 32) (r : Registers) : Prop where
  wf : r.Wf
  pc : r Reg.pc = pc
  next : r Reg.nextPC = next
  general : ∀ k, r.settled k = g k

/-- No load is pending. -/
theorem settled_of_load (hw : r.Wf) (hl : r Reg.load = 0) (k : Fin 32) :
    r.settled k = r (Reg.general k) := by
  have hp : r.pending = Reg.zero := by
    unfold Registers.pending
    rw [Fin.mk.injEq, hl]
    rfl
  by_cases hk : Reg.general k = Reg.zero
  · unfold Registers.settled Registers.loaded
    rw [if_pos hk, hk, hw.zero]
  · exact r.loaded_general 0 0 k.isLt hk (by rw [hp]; exact hk)

/-- The registers behind an instruction that sets `i`, if no load is pending for it. -/
theorem settled_write (i : Fin 32) (hi : i ≠ 0) (hp : r.pending ≠ Reg.general i) (k : Fin 32) :
    (r.write (Reg.general i) v).settled k = if k = i then v else r.settled k := by
  have hload : (r.write (Reg.general i) v) Reg.load = r Reg.load :=
    r.write_ne _ (general_ne i (by decide)).symm
  have hvalue : (r.write (Reg.general i) v) Reg.loadValue = r Reg.loadValue :=
    r.write_ne _ (general_ne i (by decide)).symm
  have hpending : (r.write (Reg.general i) v).pending = r.pending := by
    unfold Registers.pending
    rw [Fin.mk.injEq, hload]
  have hzero : ∀ j : Fin 32, Reg.general j = Reg.zero ↔ j = 0 := fun j => general_inj (k := 0)
  unfold Registers.settled Registers.loaded
  rw [hpending, hvalue]
  simp only [hzero, general_ne k (i := Reg.load) (by decide),
    general_ne k (i := Reg.loadValue) (by decide), if_false, Registers.write_apply, general_inj]
  by_cases hk : k = i
  · subst hk
    rw [if_neg hi, if_neg (Ne.symm hp), if_pos rfl, if_pos rfl]
  · rw [if_neg hk, if_neg hk]

/-- The end of an instruction. -/
theorem advance_eq (h : (r Reg.load).toNat < 32) (memory : Int → Byte) (pcAfter n v : BitVec 32) :
    Solo.advance ⟨r, memory⟩ pcAfter n v = .ok (⟨r.advanced pcAfter n v, memory⟩, none) := by
  unfold Solo.advance
  rw [Registers.delayedLoad_eq h]
  show Except.ok _ = Except.ok _
  congr 3
  funext i
  have h₁ := r.loaded_special n v (i := Reg.pc) (by decide) (by decide) (by decide)
  have h₂ := r.loaded_special n v (i := Reg.nextPC) (by decide) (by decide) (by decide)
  simp only [Registers.advanced, Registers.write_apply, h₁, h₂]
  rfl

/-! ## One event -/

/-- `DelayedLoad(0, 0)`, of an exception or an interrupt. -/
theorem At.settle (h : At g pc next r) (b : Option (BitVec 32)) :
    ∃ r', (b.elim r (r.write Reg.badVAddr)).delayedLoad 0 0 = .ok r' ∧ At g pc next r' ∧
      r' Reg.load = 0 := by
  obtain ⟨r₁, hr₁⟩ : ∃ r₁, r₁ = b.elim r (r.write Reg.badVAddr) := ⟨_, rfl⟩
  have hsame : ∀ i, i ≠ Reg.badVAddr → r₁ i = r i := fun i hi => by
    rw [hr₁]
    cases b with
    | none => rfl
    | some a => exact r.write_ne _ hi
  have hl : (r₁ Reg.load).toNat < 32 := by
    rw [hsame _ (by decide)]
    exact h.wf.load
  have hpending : r₁.pending = r.pending := by
    unfold Registers.pending
    rw [Fin.mk.injEq, hsame _ (by decide)]
  have hload : r₁.loaded 0 0 Reg.load = 0 := by
    rw [Registers.loaded, if_neg (by decide), if_pos rfl]
  have hwf : (r₁.loaded 0 0).Wf := ⟨if_pos rfl, by rw [hload]; decide⟩
  refine ⟨r₁.loaded 0 0, ?_, ⟨hwf, ?_, ?_, fun k => ?_⟩, hload⟩
  · rw [← hr₁, Registers.delayedLoad_eq hl]
  · rw [r₁.loaded_special 0 0 (by decide) (by decide) (by decide), hsame _ (by decide), h.pc]
  · rw [r₁.loaded_special 0 0 (by decide) (by decide) (by decide), hsame _ (by decide), h.next]
  · rw [settled_of_load hwf hload, ← h.general k]
    unfold Registers.settled Registers.loaded
    rw [hpending, hsame _ (by decide), hsame _ (general_ne k (by decide))]

variable (memory) in
/-- A pending load arrives. -/
theorem At.flush (h : At g pc next r) (b : Option (BitVec 32)) :
    ∃ r', Solo.next ⟨r, memory⟩ (.flush b) = .ok ⟨r', memory⟩ ∧ At g pc next r' ∧ r' Reg.load = 0 := by
  obtain ⟨r', hr', h', hl⟩ := h.settle b
  refine ⟨r', ?_, h', hl⟩
  show (b.elim r (r.write Reg.badVAddr)).delayedLoad 0 0 >>= _ = _
  rw [hr']
  rfl

theorem fetch (hpc : r Reg.pc = pc) (ha : Aligned pc 4) {raw : BitVec 32}
    (hraw : Solo.read ⟨r, memory⟩ pc 4 = raw) :
    Solo.oneInstruction ⟨r, memory⟩ = Solo.execute ⟨r, memory⟩ (.decode raw) := by
  subst hpc
  unfold Solo.oneInstruction Solo.readMem
  rw [if_pos ha, hraw]

/-- An instruction that sets no memory, and goes on. -/
theorem At.instruction (h : At g pc next r) (ha : Aligned pc 4) {raw : BitVec 32}
    (hraw : Solo.read ⟨r, memory⟩ pc 4 = raw) (hdata : (Instruction.decode raw).data r = none)
    {pcAfter : BitVec 32} (hop : operate (.decode raw) r = .ok (r', .ok pcAfter)) (hl : r' Reg.load = r Reg.load)
    (hn : r' Reg.nextPC = r Reg.nextPC) {g' : Fin 32 → BitVec 32} (hg : ∀ k, r'.settled k = g' k) :
    ∃ r'', Solo.next ⟨r, memory⟩ .instruction = .ok ⟨r'', memory⟩ ∧ At g' next pcAfter r'' ∧
      r'' Reg.load = 0 := by
  have hl' : (r' Reg.load).toNat < 32 := by
    rw [hl]
    exact h.wf.load
  have hone : Solo.oneInstruction ⟨r, memory⟩ = .ok (⟨r'.advanced pcAfter 0 0, memory⟩, none) := by
    rw [fetch h.pc ha hraw, execute_of_data hdata, hop]
    exact advance_eq hl' memory pcAfter 0 0
  have hload : r'.advanced pcAfter 0 0 Reg.load = 0 := by
    rw [Registers.advanced, if_neg (by decide), if_neg (by decide), if_neg (by decide),
      Registers.loaded, if_neg (by decide), if_pos rfl]
  have hwf : (r'.advanced pcAfter 0 0).Wf := by
    refine ⟨?_, by rw [hload]; decide⟩
    rw [r'.advanced_general _ _ _ (by decide)]
    exact if_pos rfl
  refine ⟨_, ?_, ⟨hwf, ?_, rfl, fun k => ?_⟩, hload⟩
  · unfold Solo.next
    rw [hone]
    rfl
  · show r' Reg.nextPC = _
    rw [hn, h.next]
  · rw [settled_of_load hwf hload, r'.advanced_general _ _ _ (Nat.lt_trans k.isLt (by decide)), ← hg k]
    rfl

/-- What `SC_Add` does to the registers. -/
theorem At.sysAdd (h : At g pc next r) (hl : r Reg.load = 0) :
    At (Function.update g 2 (g 4 + g 5)) (pc + 4) (pc + 4 + 4) r.sysAdd ∧ r.sysAdd Reg.load = 0 := by
  have hg : ∀ k, r (Reg.general k) = g k := fun k => by rw [← settled_of_load h.wf hl, h.general]
  have hother : ∀ i, i ≠ Reg.prevPC → i ≠ Reg.pc → i ≠ Reg.nextPC →
      r.sysAdd i = r.write (Reg.general 2) (g 4 + g 5) i := fun i h₁ h₂ h₃ => by
    unfold Registers.sysAdd
    rw [Registers.write_ne _ _ h₃, Registers.write_ne _ _ h₂, Registers.write_ne _ _ h₁, hg, hg]
  have hload : r.sysAdd Reg.load = 0 := by
    rw [hother _ (by decide) (by decide) (by decide), Registers.write_ne _ _ (by decide), hl]
  have hwf : r.sysAdd.Wf := by
    refine ⟨?_, by rw [hload]; decide⟩
    rw [hother _ (by decide) (by decide) (by decide), Registers.write_ne _ _ (by decide), h.wf.zero]
  have hpc : r.sysAdd Reg.pc = r Reg.pc + 4 := by
    unfold Registers.sysAdd
    rw [Registers.write_ne _ _ (by decide), Registers.write_self, Registers.write_ne _ _ (by decide),
      Registers.write_ne _ _ (by decide)]
  have hnext : r.sysAdd Reg.nextPC = r Reg.pc + 4 + 4 := by
    unfold Registers.sysAdd
    rw [Registers.write_self, Registers.write_self, Registers.write_ne _ _ (by decide),
      Registers.write_ne _ _ (by decide)]
  refine ⟨⟨hwf, by rw [hpc, h.pc], by rw [hnext, h.pc], fun k => ?_⟩, hload⟩
  rw [settled_of_load hwf hload, hother _ (general_ne k (by decide)) (general_ne k (by decide))
    (general_ne k (by decide)), Registers.write_apply, Function.update_apply, hg]
  simp only [general_inj]

/-- The instruction `syscall`, when register 2 has `SC_Add`. -/
theorem At.syscall (h : At g pc next r) (ha : Aligned pc 4)
    (hraw : Solo.read ⟨r, memory⟩ pc 4 = 0x0000000c) (hg : g 2 = scAdd) :
    ∃ r', Solo.next ⟨r, memory⟩ .instruction = .ok ⟨r', memory⟩ ∧
      At (Function.update g 2 (g 4 + g 5)) (pc + 4) (pc + 4 + 4) r' ∧ r' Reg.load = 0 := by
  obtain ⟨r', hr', h', hl⟩ := h.settle (some 0)
  have hdata : (Instruction.decode 0x0000000c).data r = none := rfl
  have hop : operate (.decode 0x0000000c) r = .ok (r, .error .syscall) := rfl
  have hone : Solo.oneInstruction ⟨r, memory⟩ = .ok (⟨r', memory⟩, some .syscall) := by
    rw [fetch h.pc ha hraw, execute_of_data hdata, hop]
    show (r.write Reg.badVAddr 0).delayedLoad 0 0 >>= _ = _
    rw [show (r.write Reg.badVAddr 0).delayedLoad 0 0 = .ok r' from hr']
    rfl
  have htype : r'.syscallType = scAdd := by
    show r' (Reg.general 2) = scAdd
    rw [← settled_of_load h'.wf hl, h'.general, hg]
  obtain ⟨hadd, hload⟩ := h'.sysAdd hl
  refine ⟨_, ?_, hadd, hload⟩
  unfold Solo.next
  rw [hone]
  show assert (r'.syscallType = scAdd) >>= _ = _
  rw [assert_of htype]
  rfl

/-! ## The stub -/

/-- The words at `a` and behind it. -/
def Code (memory : Int → Byte) (a : BitVec 32) : List (BitVec 32) → Prop
  | [] => True
  | w :: ws => (∀ r, Solo.read ⟨r, memory⟩ a 4 = w) ∧ Code memory (a + 4) ws

theorem aligned_add (h : Aligned a 4) : Aligned (a + 4) 4 := by
  unfold Aligned at h ⊢
  have hlt := a.isLt
  have h4 : (a + 4).toNat = (a.toNat + 4) % 2 ^ 32 := BitVec.toNat_add a 4
  rw [BitVec.toInt_eq_toNat_cond] at h ⊢
  rw [h4]
  omega

/-- Behind the first `n` instructions; `g` are the registers of the call. -/
inductive Stage (g : Fin 32 → BitVec 32) (a : BitVec 32) : Nat → Registers → Prop
  | called {r : Registers} : At g a (a + 4) r → r Reg.load ≠ 2 → Stage g a 0 r
  | numbered {r : Registers} :
    At (Function.update g 2 scAdd) (a + 4) (a + 4 + 4) r → r Reg.load = 0 → Stage g a 1 r
  | added {r : Registers} :
    At (Function.update g 2 (g 4 + g 5)) (a + 4 + 4) (a + 4 + 4 + 4) r → r Reg.load = 0 → Stage g a 2 r
  | returning {r : Registers} :
    At (Function.update g 2 (g 4 + g 5)) (a + 4 + 4 + 4) (g 31) r → r Reg.load = 0 → Stage g a 3 r
  | returned {r : Registers} :
    At (Function.update g 2 (g 4 + g 5)) (g 31) (g 31 + 4) r → r Reg.load = 0 → Stage g a 4 r

variable (memory) in
theorem Stage.flush {n : Nat} (h : Stage g a n r) (b : Option (BitVec 32)) :
    ∃ r', Solo.next ⟨r, memory⟩ (.flush b) = .ok ⟨r', memory⟩ ∧ Stage g a n r' := by
  cases h with
  | called h hl =>
    obtain ⟨r', hr', h', hl'⟩ := h.flush memory b
    exact ⟨r', hr', .called h' (by rw [hl']; decide)⟩
  | numbered h hl =>
    obtain ⟨r', hr', h', hl'⟩ := h.flush memory b
    exact ⟨r', hr', .numbered h' hl'⟩
  | added h hl =>
    obtain ⟨r', hr', h', hl'⟩ := h.flush memory b
    exact ⟨r', hr', .added h' hl'⟩
  | returning h hl =>
    obtain ⟨r', hr', h', hl'⟩ := h.flush memory b
    exact ⟨r', hr', .returning h' hl'⟩
  | returned h hl =>
    obtain ⟨r', hr', h', hl'⟩ := h.flush memory b
    exact ⟨r', hr', .returned h' hl'⟩

theorem Stage.instruction {n : Nat} (ha : Aligned a 4) (hc : Code memory a addStub) (hn : n < 4)
    (h : Stage g a n r) :
    ∃ r', Solo.next ⟨r, memory⟩ .instruction = .ok ⟨r', memory⟩ ∧ Stage g a (n + 1) r' := by
  obtain ⟨h₀, h₁, h₂, h₃, -⟩ := hc
  have ha₁ := aligned_add ha
  have ha₂ := aligned_add ha₁
  have ha₃ := aligned_add ha₂
  cases h with
  | called h hl =>
    -- `addiu $2,$0,SC_Add`
    have hp : r.pending ≠ Reg.general 2 := fun e => hl (by
      have hval : (r Reg.load).toNat % 32 = 2 := congrArg Fin.val e
      rw [Nat.mod_eq_of_lt h.wf.load] at hval
      exact BitVec.eq_of_toNat_eq hval)
    have hzero : r (Instruction.decode 0x2402002a).rs = 0 := h.wf.zero
    have hop : operate (.decode 0x2402002a) r =
        .ok (r.write (Reg.general 2) scAdd, .ok (r Reg.nextPC + 4)) := by
      show Except.ok (r.write _ (r (Instruction.decode 0x2402002a).rs + _), _) = _
      rw [hzero]
      rfl
    have hg : ∀ k, (r.write (Reg.general 2) scAdd).settled k = Function.update g 2 scAdd k := by
      intro k
      rw [settled_write 2 (by decide) hp, h.general, Function.update_apply]
    obtain ⟨r', hr', h', hl'⟩ := h.instruction ha (h₀ r) rfl (h.next ▸ hop)
      (r.write_ne _ (by decide)) (r.write_ne _ (by decide)) hg
    exact ⟨r', hr', .numbered h' hl'⟩
  | numbered h hl =>
    -- `syscall`
    obtain ⟨r', hr', h', hl'⟩ := h.syscall ha₁ (h₁ r) (Function.update_self ..)
    rw [Function.update_idem, Function.update_of_ne (by decide),
      Function.update_of_ne (by decide)] at h'
    exact ⟨r', hr', .added h' hl'⟩
  | added h hl =>
    -- `jr $31`
    have h31 : r (Reg.general 31) = g 31 := by
      rw [← settled_of_load h.wf hl, h.general, Function.update_of_ne (by decide)]
    have hop : operate (.decode 0x03e00008) r = .ok (r, .ok (r (Reg.general 31))) := rfl
    obtain ⟨r', hr', h', hl'⟩ := h.instruction ha₂ (h₂ r) rfl (h31 ▸ hop) rfl rfl h.general
    exact ⟨r', hr', .returning h' hl'⟩
  | returning h hl =>
    -- `nop`, which is `sll $0,$0,0`
    have hsame : r.write Reg.zero (r Reg.zero <<< 0) = r := by
      rw [BitVec.shiftLeft_zero]
      exact Function.update_eq_self _ _
    have hop : operate (.decode 0) r = .ok (r, .ok (r Reg.nextPC + 4)) := by
      show Except.ok (r.write Reg.zero (r Reg.zero <<< 0), _) = _
      rw [hsame]
    obtain ⟨r', hr', h', hl'⟩ := h.instruction ha₃ (h₃ r) rfl (h.next ▸ hop) rfl rfl h.general
    exact ⟨r', hr', .returned h' hl'⟩
  | returned h hl => exact absurd hn (Nat.lt_irrefl 4)

theorem Stage.run {es : List Event} {n k : Nat} (ha : Aligned a 4) (hc : Code memory a addStub)
    (h : Stage g a n r) (hk : n + es.count .instruction = k) (hk' : k ≤ 4) :
    ∃ r', es.foldlM Solo.next ⟨r, memory⟩ = .ok ⟨r', memory⟩ ∧ Stage g a k r' := by
  induction es generalizing n r with
  | nil =>
    obtain rfl : n = k := hk
    exact ⟨r, rfl, h⟩
  | cons e es ih =>
    cases e with
    | instruction =>
      rw [List.count_cons_self] at hk
      obtain ⟨r₁, h₁, hs⟩ := h.instruction ha hc (by omega)
      obtain ⟨r', hr', h'⟩ := ih hs (by omega)
      refine ⟨r', ?_, h'⟩
      rw [List.foldlM_cons, h₁]
      exact hr'
    | flush b =>
      rw [List.count_cons_of_ne (by simp)] at hk
      obtain ⟨r₁, h₁, hs⟩ := h.flush memory b
      obtain ⟨r', hr', h'⟩ := ih hs hk
      refine ⟨r', ?_, h'⟩
      rw [List.foldlM_cons, h₁]
      exact hr'

end Solo

end Nachos

import Nachos.Framework.ByteWord
import Nachos.Proof.Machine.Execute
import Nachos.Proof.Userprog.ByteArray

/-!
# Unaligned words

`LWL rt, a + 3` and `LWR rt, a` read the aligned words of `a + 3` and of `a`, and
each merges those of the bytes from `a` to `a + 3` that are in its word
(`Covers`) into `rt`; `SWL` and `SWR` store them. Each byte is in one of the two
words (`covers_or`), so a pair of them moves all four, in either order: the
second load finds the first one's result as the pending load, or in the register
if an exception has come between (`forwarded_resumed`).
-/

namespace Nachos

open ByteWord

/-! ## Merging -/

theorem mergeLeft_eq {t : Nat} (ht : t < 4) (old value : BitVec 32) :
    mergeLeft (.ofNat 32 t) old value = lowBytes (3 - t) old value := by
  obtain rfl | rfl | rfl | rfl : t = 0 ∨ t = 1 ∨ t = 2 ∨ t = 3 := by omega
  · rfl
  · rfl
  · rfl
  · show value = old &&& 0 ||| value <<< 0
    simp

theorem mergeRight_eq {t : Nat} (ht : t < 4) (old value : BitVec 32) :
    mergeRight (.ofNat 32 t) old value = highBytes t old value := by
  obtain rfl | rfl | rfl | rfl : t = 0 ∨ t = 1 ∨ t = 2 ∨ t = 3 := by omega
  · show value = old &&& 0 ||| value >>> 0
    simp
  · rfl
  · rfl
  · rfl

theorem storeLeft_eq {t : Nat} (ht : t < 4) (rt value : BitVec 32) :
    storeLeft (.ofNat 32 t) rt value = highBytes (3 - t) value rt := by
  obtain rfl | rfl | rfl | rfl : t = 0 ∨ t = 1 ∨ t = 2 ∨ t = 3 := by omega
  · rfl
  · rfl
  · rfl
  · show rt = value &&& 0 ||| rt >>> 0
    simp

theorem storeRight_eq {t : Nat} (ht : t < 4) (rt value : BitVec 32) :
    storeRight (.ofNat 32 t) rt value = lowBytes t value rt := by
  obtain rfl | rfl | rfl | rfl : t = 0 ∨ t = 1 ∨ t = 2 ∨ t = 3 := by omega
  · show rt = value &&& 0 ||| rt <<< 0
    simp
  · rfl
  · rfl
  · rfl

/-! ## Aligned words in memory -/

namespace Vm

/-- The page of an address can be accessed, and no counter is full. -/
structure Accessible (cfg : Config) (s : Vm) (sp : AddrSpace) (addr : Int) (writing : Bool)
    (frame : Int) : Prop where
  running : s.Running cfg sp
  legal : ∃ e, s.Legal cfg sp addr 1 writing frame e
  room : s.LruRoom cfg sp (addr / pageSize) frame

/-- The word at `p`. -/
def wordAt (m : Nat → Byte) (p : Nat) : BitVec 32 :=
  ByteWord.word (m (p + 3)) (m (p + 2)) (m (p + 1)) (m p)

theorem byte_wordAt (m : Nat → Byte) (p : Nat) {i : Nat} (hi : i < 4) :
    byte (wordAt m p) i = m (p + i) := by
  obtain ⟨h₀, h₁, h₂, h₃⟩ := byte_word (m (p + 3)) (m (p + 2)) (m (p + 1)) (m p)
  obtain rfl | rfl | rfl | rfl : i = 0 ∨ i = 1 ∨ i = 2 ∨ i = 3 := by omega
  · exact h₀
  · exact h₁
  · exact h₂
  · exact h₃

/-- The bytes of a word that is stored. -/
theorem byteOf_toInt (v : BitVec 32) {i : Nat} (hi : i < 4) : byteOf v.toInt i = byte v i := by
  obtain ⟨bs, hbs⟩ : ∃ bs, bs = [byte v 0, byte v 1, byte v 2, byte v 3] := ⟨_, rfl⟩
  have hv : value bs = v.toInt := by
    rw [hbs]
    show (ByteWord.word (byte v 3) (byte v 2) (byte v 1) (byte v 0)).toInt = v.toInt
    congr 1
    obtain ⟨h₀, h₁, h₂, h₃⟩ := byte_word (byte v 3) (byte v 2) (byte v 1) (byte v 0)
    refine ext_bytes fun j hj => ?_
    obtain rfl | rfl | rfl | rfl : j = 0 ∨ j = 1 ∨ j = 2 ∨ j = 3 := by omega
    · exact h₀
    · exact h₁
    · exact h₂
    · exact h₃
  have hb := @bytes_value bs (.inr (.inr (by rw [hbs]; rfl)))
  rw [hv, bytes_eq] at hb
  have := congrArg (·[i]?) hb
  rw [hbs] at this
  obtain rfl | rfl | rfl | rfl : i = 0 ∨ i = 1 ∨ i = 2 ∨ i = 3 := by omega
  all_goals exact Option.some.inj this

section
variable {cfg : Config} {env : Env} {s : Vm} {sp : AddrSpace} {addr : Int} {writing : Bool}
  {frame : Int}

/-- The aligned word of an address. -/
theorem Legal.word {e : TranslationEntry} (h : s.Legal cfg sp addr 1 writing frame e) :
    s.Legal cfg sp (addr - addr % 4) 4 writing frame e ∧
      (addr - addr % 4) / pageSize = addr / pageSize ∧ Fits (addr - addr % 4) frame ∧
      (physical frame (addr - addr % 4) : Int) + 4 ≤ memorySize := by
  obtain ⟨hr₀, hr₁⟩ := h.range
  have hf := h.frame
  have hpage : (addr - addr % 4) / pageSize = addr / pageSize := by
    unfold pageSize
    omega
  refine ⟨⟨.inr (.inr rfl), ?_, ?_, ?_, h.writable, hf⟩, hpage, ?_, ?_⟩
  · show (addr - addr % 4) % 4 = 0
    omega
  · unfold pageSize at *
    omega
  · rw [hpage]
    exact h.mapped
  · unfold Fits memorySize numPhysPages pageSize at *
    omega
  · unfold physical memorySize numPhysPages pageSize at *
    omega

theorem load_ok {s' : Vm} {size : Nat} {pa : Int} {data : List Byte}
    (hs : size = 1 ∨ size = 2 ∨ size = 4)
    (ht : s.translate cfg env addr size false = .ok (s', .ok pa))
    (hd : s'.fetch pa size = .ok data) :
    s.load cfg env addr size = .ok (s', .ok (.ofInt 32 (value data))) := by
  unfold Vm.load
  rw [ht]
  simp only [ok_bind, assert_of hs, hd]
  rfl

theorem save_ok {s' s'' : Vm} {size : Nat} {pa : Int} {v : BitVec 32}
    (hs : size = 1 ∨ size = 2 ∨ size = 4)
    (ht : s.translate cfg env addr size true = .ok (s', .ok pa))
    (hst : s'.store pa (bytes size v.toInt) = .ok s'') :
    s.save cfg env addr size v = .ok (s'', .ok ()) := by
  unfold Vm.save
  rw [ht]
  simp only [ok_bind, assert_of hs, hst]
  rfl

/-- The aligned word is read. -/
theorem Accessible.load (env : Env) (h : s.Accessible cfg sp addr false frame) : ∃ s' sp',
    s.load cfg env (addr - addr % 4) 4 =
      .ok (s', .ok (wordAt s.mainMemory (physical frame (addr - addr % 4)))) ∧
    s'.mainMemory = s.mainMemory ∧ s'.core = s.core ∧ sp'.core = sp.core ∧ s'.Running cfg sp' ∧
    s'.LruRoom cfg sp' (addr / pageSize) frame := by
  obtain ⟨e, hl⟩ := h.legal
  obtain ⟨hw, hpage, hfits, hin⟩ := hl.word
  have hroom := h.room
  rw [← hpage] at hroom ⊢
  obtain ⟨sp', hc, hcsp, hrun, hroom'⟩ := hw.touched h.running
  have hm := @mainMemory_touched cfg s sp frame ((addr - addr % 4) / pageSize)
  refine ⟨_, sp', ?_, hm, hc, hcsp, hrun, hroom' hroom⟩
  have hp : frame * pageSize + (addr - addr % 4) % pageSize =
      (physical frame (addr - addr % 4) : Int) := by
    have := hw.frame
    unfold physical
    unfold pageSize
    omega
  have hfetch : (s.touched cfg sp ((addr - addr % 4) / pageSize) frame).fetch
      (physical frame (addr - addr % 4)) 4 = .ok ((List.range 4).map fun i =>
        s.mainMemory (physical frame (addr - addr % 4) + i)) :=
    fetch_eq_ok.mpr ⟨Int.natCast_nonneg _, by omega, by rw [hm, Int.toNat_natCast]⟩
  have ht := hw.translate_ok env h.running hroom hfits
  rw [hp] at ht
  rw [load_ok (.inr (.inr rfl)) ht hfetch]
  have hword : value ((List.range 4).map fun i =>
      s.mainMemory (physical frame (addr - addr % 4) + i)) =
        (wordAt s.mainMemory (physical frame (addr - addr % 4))).toInt := rfl
  rw [hword, BitVec.ofInt_toInt]

/-- The aligned word is written. -/
theorem Accessible.save (env : Env) (h : s.Accessible cfg sp addr true frame) (v : BitVec 32) : ∃ s',
    s.save cfg env (addr - addr % 4) 4 v = .ok (s', .ok ()) ∧
    (∀ i < 4, s'.mainMemory (physical frame (addr - addr % 4) + i) = byte v i) ∧
    ∀ x, (∀ i < 4, x ≠ physical frame (addr - addr % 4) + i) → s'.mainMemory x = s.mainMemory x := by
  obtain ⟨e, hl⟩ := h.legal
  obtain ⟨hw, hpage, hfits, hin⟩ := hl.word
  have hroom := h.room
  rw [← hpage] at hroom
  have hm := @mainMemory_touched cfg s sp frame ((addr - addr % 4) / pageSize)
  have hp : frame * pageSize + (addr - addr % 4) % pageSize =
      (physical frame (addr - addr % 4) : Int) := by
    have := hw.frame
    unfold physical
    unfold pageSize
    omega
  have hlen : (bytes 4 v.toInt).length = 4 := rfl
  obtain ⟨s', hstore, hm'⟩ : ∃ s', (s.touched cfg sp ((addr - addr % 4) / pageSize) frame).store
      (physical frame (addr - addr % 4)) (bytes 4 v.toInt) = .ok s' ∧ s'.mainMemory =
        blit s.mainMemory (physical frame (addr - addr % 4)) (bytes 4 v.toInt) :=
    ⟨_, store_eq_ok.mpr ⟨Int.natCast_nonneg _, by omega, rfl⟩, by rw [hm, Int.toNat_natCast]⟩
  rw [Access.blit_bytes] at hm'
  have ht := hw.translate_ok env h.running hroom hfits
  rw [hp] at ht
  refine ⟨s', save_ok (.inr (.inr rfl)) ht hstore, fun i hi => ?_, fun x hx => ?_⟩
  · rw [hm']
    simp only
    rw [if_pos (by omega), Nat.add_sub_cancel_left, byteOf_toInt v hi]
  · rw [hm']
    refine if_neg fun hin => hx (x - physical frame (addr - addr % 4)) ?_ ?_ <;> omega

/-- A store behind a read of the same word. -/
theorem Accessible.of_core (h : s.Accessible cfg sp addr writing frame) {s' : Vm} {sp' : AddrSpace}
    (hc : s'.core = s.core) (hcsp : sp'.core = sp.core) (hrun : s'.Running cfg sp')
    (hroom : s'.LruRoom cfg sp' (addr / pageSize) frame) :
    s'.Accessible cfg sp' addr writing frame := by
  obtain ⟨e, hl⟩ := h.legal
  exact ⟨hrun, hl.of_core hc hcsp, hroom⟩

end

/-- Places in one aligned word. -/
theorem physical_add {frame base : Int} (hf : 0 ≤ frame) (hb : base % 4 = 0) {j : Nat} (hj : j < 4) :
    physical frame base + j = physical frame (base + j) := by
  unfold physical
  unfold pageSize
  omega

end Vm

/-! ## One of the two instructions -/

/-- The instruction `opCode rt, addr`. -/
structure Instruction.Does (instr : Instruction) (r : Registers) (opCode : OpCode) (rt : Reg)
    (addr : BitVec 32) : Prop where
  opCode : instr.opCode = opCode
  rt : instr.rt = rt
  addr : r instr.rs + instr.extra = addr

def loadOp (left : Bool) : OpCode := if left then .lwl else .lwr

def storeOp (left : Bool) : OpCode := if left then .swl else .swr

/-- The address that the left or the right instruction names. -/
def target (left : Bool) (a : BitVec 32) : BitVec 32 := if left then a + 3 else a

/-- Byte `a + i` is in the aligned word of the address. -/
def Covers (left : Bool) (a : Int) (i : Nat) : Prop :=
  if left then 3 ≤ (i : Int) + (a + 3) % 4 else (i : Int) + a % 4 ≤ 3

instance (left : Bool) (a : Int) (i : Nat) : Decidable (Covers left a i) :=
  inferInstanceAs (Decidable (ite _ _ _))

theorem covers_or (left : Bool) (a : Int) (i : Nat) : Covers left a i ∨ Covers (!left) a i := by
  cases left <;> simp only [Covers, Bool.not_true, Bool.not_false, Bool.false_eq_true, if_true,
    if_false] <;> omega

/-- An address that is not negative. -/
theorem toInt_of_nonneg {x : BitVec 32} (hx : 0 ≤ x.toInt) :
    x.toInt = x.toNat ∧ 2 * x.toNat < 2 ^ 32 := by
  have hlt := x.isLt
  have hhalf : 2 * x.toNat < 2 ^ 32 := by
    rw [BitVec.toInt_eq_toNat_cond] at hx
    split at hx <;> omega
  exact ⟨BitVec.toInt_eq_toNat_of_lt hhalf, hhalf⟩

/-- `tmp & 0x3`, and the aligned address. -/
theorem aligned_address {x : BitVec 32} (hx : 0 ≤ x.toInt) : ∃ t : Nat, t < 4 ∧
    x &&& 3 = .ofNat 32 t ∧ x.toInt % 4 = t ∧
    (x - .ofNat 32 t).toInt = x.toInt - x.toInt % 4 := by
  have hand : (x &&& 3).toNat = x.toNat % 4 := by
    rw [BitVec.toNat_and]
    exact Nat.and_two_pow_sub_one_eq_mod x.toNat 2
  obtain ⟨hint, hhalf⟩ := toInt_of_nonneg hx
  have hlow : x &&& 3 = .ofNat 32 (x.toNat % 4) := by
    refine BitVec.eq_of_toNat_eq ?_
    rw [hand, BitVec.toNat_ofNat]
    omega
  refine ⟨x.toNat % 4, by omega, hlow, by omega, ?_⟩
  · have hsub : (x - .ofNat 32 (x.toNat % 4)).toNat = x.toNat - x.toNat % 4 := by
      rw [← hlow, BitVec.toNat_sub, hand]
      omega
    rw [BitVec.toInt_eq_toNat_cond, hsub, hint]
    split <;> omega

section
variable {cfg : Config} {env : Env} {r : Registers} {m : Vm} {sp : AddrSpace} {instr : Instruction}
  {rt : Reg} {a : BitVec 32} {left : Bool} {frame : Int}

/-- What the target address is as a number. -/
theorem target_aligned (ha : 0 ≤ a.toInt) (ha' : (a + 3).toInt = a.toInt + 3) :
    ∃ t : Nat, t < 4 ∧ target left a &&& 3 = .ofNat 32 t ∧
      (target left a).toInt % 4 = t ∧
      (target left a - .ofNat 32 t).toInt = (target left a).toInt - (target left a).toInt % 4 ∧
      (target left a).toInt = a.toInt + (if left then 3 else 0) := by
  have hx : (target left a).toInt = a.toInt + (if left then 3 else 0) := by
    cases left with
    | false => exact (Int.add_zero _).symm
    | true => exact ha'
  obtain ⟨t, ht, h₁, h₂, h₃⟩ := aligned_address (x := target left a)
    (by rw [hx]; cases left <;> simp <;> omega)
  exact ⟨t, ht, h₁, h₂, h₃, hx⟩

/-- `LWL` or `LWR` merges the bytes of its word. -/
theorem execute_load (env : Env) (hi : instr.Does r (loadOp left) rt (target left a))
    (hl : (r Reg.load).toNat < 32) (ha : 0 ≤ a.toInt) (ha' : (a + 3).toInt = a.toInt + 3)
    (hacc : m.Accessible cfg sp (target left a).toInt false frame) : ∃ v m',
    Cpu.execute cfg env ⟨r, m⟩ instr =
      .ok (⟨r.advanced (r Reg.nextPC + 4) (.ofNat 32 rt) v, m'⟩, none) ∧
    m'.mainMemory = m.mainMemory ∧
    ∀ i < 4, byte v i = if Covers left a.toInt i then
      m.mainMemory (Vm.physical frame (a.toInt + i)) else byte (forwarded r rt) i := by
  obtain ⟨t, ht, hand, hmod, hsub, hx⟩ := @target_aligned a left ha ha'
  obtain ⟨m', sp', hload, hm, -⟩ := hacc.load env
  obtain ⟨e, hlegal⟩ := hacc.legal
  have hword : ∀ j < 4, byte (Vm.wordAt m.mainMemory (Vm.physical frame ((target left a).toInt -
      (target left a).toInt % 4))) j =
        m.mainMemory (Vm.physical frame ((target left a).toInt - t + j)) := fun j hj => by
    rw [Vm.byte_wordAt _ _ hj, Vm.physical_add hlegal.frame.1 (by omega) hj, hmod]
  generalize Vm.wordAt m.mainMemory (Vm.physical frame ((target left a).toInt -
    (target left a).toInt % 4)) = w at hload hword
  obtain ⟨op, rs, rt', rd, extra⟩ := instr
  obtain ⟨rfl, rfl, haddr⟩ := hi
  simp only at haddr
  cases left with
  | true =>
    refine ⟨mergeLeft (.ofNat 32 t) (forwarded r rt') w, m', ?_, hm, fun i hi => ?_⟩
    · unfold Cpu.execute
      simp only [loadOp, if_true, haddr, Cpu.readMem, hsub, hload, ok_bind, hand]
      exact Cpu.advance_eq hl m' _ _ _
    · rw [mergeLeft_eq ht, byte_lowBytes _ _ _ hi]
      simp only [Covers, if_true] at hx ⊢
      by_cases hc : 3 ≤ (i : Int) + (a.toInt + 3) % 4
      · rw [if_pos hc, if_neg (by omega), hword _ (by omega)]
        congr 2
        omega
      · rw [if_neg hc, if_pos (by omega)]
  | false =>
    refine ⟨mergeRight (.ofNat 32 t) (forwarded r rt') w, m', ?_, hm, fun i hi => ?_⟩
    · unfold Cpu.execute
      simp only [loadOp, Bool.false_eq_true, if_false, haddr, Cpu.readMem, hsub, hload, ok_bind, hand]
      exact Cpu.advance_eq hl m' _ _ _
    · rw [mergeRight_eq ht, byte_highBytes _ _ hi]
      simp only [Covers, Bool.false_eq_true, if_false] at hx ⊢
      by_cases hc : (i : Int) + a.toInt % 4 ≤ 3
      · rw [if_pos hc, if_pos (by omega), hword _ (by omega)]
        congr 2
        omega
      · rw [if_neg hc, if_neg (by omega)]

/-- `SWL` or `SWR` stores the bytes of its word. -/
theorem execute_store (env : Env) (hi : instr.Does r (storeOp left) rt (target left a))
    (hl : (r Reg.load).toNat < 32) (ha : 0 ≤ a.toInt) (ha' : (a + 3).toInt = a.toInt + 3)
    (hacc : m.Accessible cfg sp (target left a).toInt true frame) : ∃ m',
    Cpu.execute cfg env ⟨r, m⟩ instr = .ok (⟨r.advanced (r Reg.nextPC + 4) 0 0, m'⟩, none) ∧
    (∀ i < 4, Covers left a.toInt i →
      m'.mainMemory (Vm.physical frame (a.toInt + i)) = byte (r rt) i) ∧
    ∀ x, (∀ i < 4, Covers left a.toInt i → x ≠ Vm.physical frame (a.toInt + i)) →
      m'.mainMemory x = m.mainMemory x := by
  obtain ⟨t, ht, hand, hmod, hsub, hx⟩ := @target_aligned a left ha ha'
  obtain ⟨e, hlegal⟩ := hacc.legal
  have hread : m.Accessible cfg sp (target left a).toInt false frame :=
    ⟨hacc.running, ⟨e, { hlegal with writable := fun h => absurd h Bool.false_ne_true }⟩, hacc.room⟩
  obtain ⟨m₁, sp₁, hload, hm₁, hc, hcsp, hrun, hroom⟩ := hread.load env
  obtain ⟨p, hp⟩ : ∃ p, p = Vm.physical frame ((target left a).toInt - (target left a).toInt % 4) :=
    ⟨_, rfl⟩
  have hplace : ∀ j : Nat, j < 4 → p + j = Vm.physical frame ((target left a).toInt - t + j) :=
      fun j hj => by
    rw [hp, Vm.physical_add hlegal.frame.1 (by omega) hj, hmod]
  have hsave := (hacc.of_core hc hcsp hrun hroom).save env
  rw [← hp] at hload hsave
  have hword : ∀ j < 4, byte (Vm.wordAt m.mainMemory p) j = m.mainMemory (p + j) := fun j hj =>
    Vm.byte_wordAt _ _ hj
  generalize Vm.wordAt m.mainMemory p = w at hload hword
  obtain ⟨op, rs, rt', rd, extra⟩ := instr
  obtain ⟨rfl, rfl, haddr⟩ := hi
  simp only at haddr
  cases left with
  | true =>
    obtain ⟨m', hs, hin, hout⟩ := hsave (storeLeft (.ofNat 32 t) (r rt') w)
    have hb : ∀ j < 4, byte (storeLeft (.ofNat 32 t) (r rt') w) j =
        if j + (3 - t) < 4 then byte (r rt') (j + (3 - t)) else byte w j := fun j hj => by
      rw [storeLeft_eq ht, byte_highBytes _ _ hj]
    simp only [Covers, if_true] at hx ⊢
    refine ⟨m', ?_, fun i hi hc => ?_, fun x hx' => ?_⟩
    · unfold Cpu.execute
      simp only [storeOp, if_true, haddr, Cpu.readMem, Cpu.writeMem, hsub, hload, ok_bind, hand, hs]
      exact Cpu.advance_eq hl m' _ _ _
    · have := hin (i + t - 3) (by omega)
      rw [hplace _ (by omega), hb _ (by omega), if_pos (by omega),
        show i + t - 3 + (3 - t) = i by omega] at this
      rwa [show a.toInt + (i : Int) = (target true a).toInt - t + ((i + t - 3 : Nat) : Int) by omega]
    · by_cases hr : ∃ j < 4, x = p + j
      · obtain ⟨j, hj, rfl⟩ := hr
        by_cases hc : j + (3 - t) < 4
        · refine absurd ?_ (hx' (j + (3 - t)) hc (by omega))
          rw [hplace j hj]
          congr 1
          omega
        · rw [hin j hj, hb j hj, if_neg hc, hword j hj]
      · rw [hout x fun j hj hxj => hr ⟨j, hj, hxj⟩, hm₁]
  | false =>
    obtain ⟨m', hs, hin, hout⟩ := hsave (storeRight (.ofNat 32 t) (r rt') w)
    have hb : ∀ j < 4, byte (storeRight (.ofNat 32 t) (r rt') w) j =
        if j < t then byte w j else byte (r rt') (j - t) := fun j hj => by
      rw [storeRight_eq ht, byte_lowBytes _ _ _ hj]
    simp only [Covers, Bool.false_eq_true, if_false] at hx ⊢
    refine ⟨m', ?_, fun i hi hc => ?_, fun x hx' => ?_⟩
    · unfold Cpu.execute
      simp only [storeOp, Bool.false_eq_true, if_false, haddr, Cpu.readMem, Cpu.writeMem, hsub,
        hload, ok_bind, hand, hs]
      exact Cpu.advance_eq hl m' _ _ _
    · have := hin (i + t) (by omega)
      rw [hplace _ (by omega), hb _ (by omega), if_neg (by omega), Nat.add_sub_cancel] at this
      rwa [show a.toInt + (i : Int) = (target false a).toInt - t + ((i + t : Nat) : Int) by omega]
    · by_cases hr : ∃ j < 4, x = p + j
      · obtain ⟨j, hj, rfl⟩ := hr
        by_cases hc : j < t
        · rw [hin j hj, hb j hj, if_pos hc, hword j hj]
        · refine absurd ?_ (hx' (j - t) (by omega) (by omega))
          rw [hplace j hj]
          congr 1
          omega
      · rw [hout x fun j hj hxj => hr ⟨j, hj, hxj⟩, hm₁]

end

/-! ## The pair -/

/-- The fetch of `OneInstruction`: the instruction, and the memory behind the
fetch. -/
def Cpu.Fetches (cfg : Config) (env : Env) (c : Cpu) (m : Vm) (instr : Instruction) : Prop :=
  ∃ raw, c.memory.load cfg env (c.registers Reg.pc).toInt 4 = .ok (m, .ok raw) ∧
    instr = .decode raw

theorem Cpu.Fetches.oneInstruction {cfg : Config} {env : Env} {c : Cpu} {m : Vm}
    {instr : Instruction} (h : c.Fetches cfg env m instr) :
    c.oneInstruction cfg env = Cpu.execute cfg env ⟨c.registers, m⟩ instr := by
  obtain ⟨raw, hl, rfl⟩ := h
  unfold Cpu.oneInstruction Cpu.readMem
  rw [hl]
  rfl

theorem Cpu.Fetches.rt_lt {cfg : Config} {env : Env} {c : Cpu} {m : Vm} {instr : Instruction}
    (h : c.Fetches cfg env m instr) : instr.rt.val < 32 := by
  obtain ⟨raw, -, rfl⟩ := h
  exact (Instruction.decoded_decode raw).rt

/-- The registers that the next instruction finds: those that this one has left,
or, if an exception has come between, those that `RaiseException` makes of them. -/
def Cpu.Resumes (c c' : Cpu) : Prop :=
  c'.registers = c.registers ∨ ∃ badVAddr, c'.registers = c.registers.raised badVAddr

namespace Vm

/-- The pages of the bytes from `a` to `a + 3` can be accessed, in the frames `f`
and `g`. -/
structure Spans (cfg : Config) (s : Vm) (sp : AddrSpace) (a : BitVec 32) (writing : Bool)
    (f g : Int) : Prop where
  low : s.Accessible cfg sp a.toInt writing f
  high : s.Accessible cfg sp (a + 3).toInt writing g

/-- The place in main memory of byte `a + i`. -/
def byteAt (a : BitVec 32) (f g : Int) (i : Nat) : Nat :=
  physical (if (a.toInt + i) / pageSize = a.toInt / pageSize then f else g) (a.toInt + i)

namespace Spans

variable {cfg : Config} {s : Vm} {sp : AddrSpace} {a : BitVec 32} {writing left : Bool} {f g : Int}

theorem nonneg (h : s.Spans cfg sp a writing f g) : 0 ≤ a.toInt := by
  obtain ⟨e, hl⟩ := h.low.legal
  exact hl.range.1

/-- The addresses do not wrap around. -/
theorem add_three (h : s.Spans cfg sp a writing f g) : (a + 3).toInt = a.toInt + 3 := by
  obtain ⟨e, hl⟩ := h.high.legal
  have h₀ := h.nonneg
  have h₁ := hl.range.1
  have hadd : (a + 3).toNat = (a.toNat + 3) % 2 ^ 32 := BitVec.toNat_add a 3
  obtain ⟨e₀, hlt₀⟩ := toInt_of_nonneg h₀
  obtain ⟨e₁, hlt₁⟩ := toInt_of_nonneg h₁
  omega

theorem half (h : s.Spans cfg sp a writing f g) :
    s.Accessible cfg sp (target left a).toInt writing (if left then g else f) := by
  cases left with
  | true => exact h.high
  | false => exact h.low

/-- The bytes of one half, in its frame. -/
theorem byteAt_covers (h : s.Spans cfg sp a writing f g) {i : Nat} (hi : i < 4)
    (hc : Covers left a.toInt i) :
    byteAt a f g i = physical (if left then g else f) (a.toInt + i) := by
  obtain ⟨e, hl⟩ := h.low.legal
  obtain ⟨e', hl'⟩ := h.high.legal
  have hsame : a.toInt / pageSize = (a + 3).toInt / pageSize → f = g := fun hp => by
    have := hl.mapped.symm.trans ((congrArg (s.mapping cfg sp) hp).trans hl'.mapped)
    cases this
    rfl
  rw [h.add_three] at hsame
  unfold byteAt
  unfold pageSize at *
  cases left with
  | true =>
    simp only [Covers, if_true] at hc ⊢
    split
    · rw [hsame (by omega)]
    · rfl
  | false =>
    simp only [Covers, Bool.false_eq_true, if_false] at hc ⊢
    rw [if_pos (by omega)]

/-- Different bytes are at different places. -/
theorem byteAt_ne (h : s.Spans cfg sp a writing f g) {i j : Nat} (hi : i < 4) (hj : j < 4)
    (hne : i ≠ j) : byteAt a f g i ≠ byteAt a f g j := by
  obtain ⟨e, hl⟩ := h.low.legal
  obtain ⟨e', hl'⟩ := h.high.legal
  have hf := hl.frame.1
  have hg := hl'.frame.1
  unfold byteAt physical
  unfold pageSize at *
  split <;> split <;> omega

end Spans

end Vm

theorem toInt_ofNat_reg {rt : Reg} (h : rt.val < 32) : (BitVec.ofNat 32 rt).toInt = rt.val := by
  have hn : (BitVec.ofNat 32 rt).toNat = rt.val := by
    rw [BitVec.toNat_ofNat]
    omega
  rw [BitVec.toInt_eq_toNat_of_lt (by omega), hn]

/-- The register of a pending load. -/
theorem pending_ofNat {r : Registers} {rt : Reg} (h : rt.val < 32)
    (hl : r Reg.load = .ofNat 32 rt) : r.pending = rt := by
  refine Fin.ext ?_
  show (r Reg.load).toNat % 32 = rt.val
  rw [hl, BitVec.toNat_ofNat]
  omega

/-- The second instruction finds what the first one has loaded. -/
theorem forwarded_resumed {c c' : Cpu} (h : c.Resumes c') {rt : Reg} (hrt : rt.val < 32)
    (hz : rt ≠ Reg.zero) (hl : c.registers Reg.load = .ofNat 32 rt) :
    forwarded c'.registers rt = c.registers Reg.loadValue := by
  have hpos : rt.val ≠ 0 := fun h => hz (Fin.ext h)
  unfold forwarded
  rcases h with h | ⟨v, h⟩
  · rw [h, hl, toInt_ofNat_reg hrt, if_pos rfl]
  · have h₀ : c.registers.raised v Reg.load = 0 := rfl
    rw [h, h₀, if_neg (by simpa using Ne.symm (by exact_mod_cast hpos))]
    have hb : rt ≠ Reg.badVAddr := by
      rintro rfl
      exact absurd hrt (by decide)
    obtain ⟨hload, hvalue, -⟩ := Reg.plain_of_lt hrt
    rw [Registers.raised_eq_applied _ _ hz hb, Registers.applied, if_neg (by simp [hload, hvalue]),
      if_pos ⟨(pending_ofNat hrt hl).symm, hz⟩]

theorem load_lt_resumed {c c' : Cpu} (h : c.Resumes c') (hl : (c.registers Reg.load).toNat < 32) :
    (c'.registers Reg.load).toNat < 32 := by
  rcases h with h | ⟨v, h⟩
  · rw [h]
    exact hl
  · rw [h]
    show (0 : BitVec 32).toNat < 32
    decide

/-- `LWL rt, a + 3` and `LWR rt, a`, in either order, load the word at `a`, and
`SWL` and `SWR` store it, if `rt` is the same for both. -/
theorem unaligned_words (cfg : Config) (env : Env) (c : Cpu) (m : Vm) (sp : AddrSpace)
    (instr : Instruction) (a : BitVec 32) (rt : Reg) (left : Bool) (f g : Int)
    (hz : rt ≠ Reg.zero) (hw : c.registers.Wf) (hf : c.Fetches cfg env m instr) :
    (instr.Does c.registers (loadOp left) rt (target left a) → m.Spans cfg sp a false f g →
      ∃ c₁, c.oneInstruction cfg env = .ok (c₁, none) ∧
        ∀ (c' : Cpu) (env' : Env) (m' : Vm) (sp' : AddrSpace) (instr' : Instruction),
          c₁.Resumes c' → c'.Fetches cfg env' m' instr' → m'.mainMemory = m.mainMemory →
          instr'.Does c'.registers (loadOp !left) rt (target (!left) a) →
          m'.Spans cfg sp' a false f g →
          ∃ c₂, c'.oneInstruction cfg env' = .ok (c₂, none) ∧ c₂.registers.applied rt =
            m.mainMemory (Vm.byteAt a f g 3) ++ m.mainMemory (Vm.byteAt a f g 2) ++
              m.mainMemory (Vm.byteAt a f g 1) ++ m.mainMemory (Vm.byteAt a f g 0)) ∧
    (instr.Does c.registers (storeOp left) rt (target left a) → m.Spans cfg sp a true f g →
      ∃ c₁, c.oneInstruction cfg env = .ok (c₁, none) ∧
        ∀ (c' : Cpu) (env' : Env) (m' : Vm) (sp' : AddrSpace) (instr' : Instruction),
          c₁.Resumes c' → c'.Fetches cfg env' m' instr' →
          m'.mainMemory = c₁.memory.mainMemory →
          instr'.Does c'.registers (storeOp !left) rt (target (!left) a) →
          m'.Spans cfg sp' a true f g →
          ∃ c₂, c'.oneInstruction cfg env' = .ok (c₂, none) ∧
            (∀ x, (∀ i < 4, x ≠ Vm.byteAt a f g i) →
              c₂.memory.mainMemory x = m.mainMemory x) ∧
            (c'.registers rt = c.registers rt → ∀ i < 4,
              c₂.memory.mainMemory (Vm.byteAt a f g i) = byte (c.registers rt) i)) := by
  refine ⟨fun hi hs => ?_, fun hi hs => ?_⟩
  · have hrt : rt.val < 32 := hi.rt ▸ hf.rt_lt
    obtain ⟨v, m₁, he, hm₁, hv⟩ :=
      execute_load env hi hw.load hs.nonneg hs.add_three hs.half
    refine ⟨_, hf.oneInstruction.trans he, ?_⟩
    intro c' env' m' sp' instr' hres hf' hm' hi' hs'
    have hfw := forwarded_resumed hres hrt hz rfl
    have hl := load_lt_resumed hres (by
      show (BitVec.ofNat 32 rt).toNat < 32
      rw [BitVec.toNat_ofNat]
      omega)
    obtain ⟨v', m₂, he', -, hv'⟩ :=
      execute_load env' hi' hl hs'.nonneg hs'.add_three hs'.half
    refine ⟨_, hf'.oneInstruction.trans he', ?_⟩
    have happ : (c'.registers.advanced (c'.registers Reg.nextPC + 4) (.ofNat 32 rt) v').applied rt =
        v' := by
      obtain ⟨hload, hvalue, -⟩ := Reg.plain_of_lt hrt
      rw [Registers.applied, if_neg (by simp [hload, hvalue]),
        if_pos ⟨(pending_ofNat hrt rfl).symm, hz⟩]
      rfl
    rw [happ]
    have hbyte : ∀ i < 4, byte v' i = m.mainMemory (Vm.byteAt a f g i) := fun i hi₄ => by
      rw [hv' i hi₄]
      split
      · rename_i hc
        rw [hs'.byteAt_covers hi₄ hc, hm']
      · rename_i hc
        have hc := (covers_or left a.toInt i).resolve_right hc
        rw [hfw, hs.byteAt_covers hi₄ hc]
        exact (hv i hi₄).trans (if_pos hc)
    refine ext_bytes fun i hi₄ => (hbyte i hi₄).trans ?_
    obtain ⟨h₀, h₁, h₂, h₃⟩ := byte_word (m.mainMemory (Vm.byteAt a f g 3))
      (m.mainMemory (Vm.byteAt a f g 2)) (m.mainMemory (Vm.byteAt a f g 1))
      (m.mainMemory (Vm.byteAt a f g 0))
    obtain rfl | rfl | rfl | rfl : i = 0 ∨ i = 1 ∨ i = 2 ∨ i = 3 := by omega
    · exact h₀.symm
    · exact h₁.symm
    · exact h₂.symm
    · exact h₃.symm
  · obtain ⟨m₁, he, hin, hout⟩ :=
      execute_store env hi hw.load hs.nonneg hs.add_three hs.half
    refine ⟨_, hf.oneInstruction.trans he, ?_⟩
    intro c' env' m' sp' instr' hres hf' hm' hi' hs'
    have hl := load_lt_resumed hres (show (0 : BitVec 32).toNat < 32 by decide)
    obtain ⟨m₂, he', hin', hout'⟩ :=
      execute_store env' hi' hl hs'.nonneg hs'.add_three hs'.half
    refine ⟨_, hf'.oneInstruction.trans he', fun x hx => ?_, fun hsame i hi₄ => ?_⟩
    · rw [hout' x fun i hi₄ hc => hs'.byteAt_covers hi₄ hc ▸ hx i hi₄, hm']
      exact hout x fun i hi₄ hc => hs.byteAt_covers hi₄ hc ▸ hx i hi₄
    · by_cases hc' : Covers (!left) a.toInt i
      · rw [hs'.byteAt_covers hi₄ hc', hin' i hi₄ hc', hsame]
      · have hc := (covers_or left a.toInt i).resolve_right hc'
        rw [hout' _ fun j hj hcj => ?_, hm', hs.byteAt_covers hi₄ hc]
        · exact hin i hi₄ hc
        · rw [← hs'.byteAt_covers hj hcj]
          refine hs'.byteAt_ne hi₄ hj ?_
          rintro rfl
          exact hc' hcj

/-! ## Two pairs -/

/-- The machine with a page in the last frame that starts with `contents`. -/
def pairMemory (contents : List Byte) : Vm :=
  { Vm.lastFrame with mainMemory := fun x => contents.getD (x - 127 * pageSize) 0 }

theorem accessible_pairMemory (contents : List Byte) {a : Int} (h : 0 ≤ a ∧ a < 128)
    (writing : Bool) : (pairMemory contents).Accessible ⟨false, false, false, false⟩
      Vm.lastFrameSpace a writing 127 := by
  have hr := Vm.running_lastFrame
  have hl := Vm.legal_lastFrame h
  exact ⟨⟨hr.space, hr.linear, hr.inverted, hr.tlb⟩, ⟨_, hl.sized, hl.aligned, hl.range, hl.mapped,
    fun _ => rfl, hl.frame⟩, fun h => absurd h (by decide)⟩

/-- The fetch of an instruction from that page. -/
theorem fetches_pairMemory (contents : List Byte) {r : Registers} {p : Int}
    (hp : (r Reg.pc).toInt = p) (h : 0 ≤ p ∧ p < 128) (hal : p % 4 = 0) : ∃ m sp,
      Cpu.Fetches ⟨false, false, false, false⟩ .blank ⟨r, pairMemory contents⟩ m
        (.decode (Vm.wordAt (pairMemory contents).mainMemory (Vm.physical 127 p))) ∧
      m.mainMemory = (pairMemory contents).mainMemory ∧
      ∀ writing, m.Spans ⟨false, false, false, false⟩ sp 33 writing 127 127 := by
  obtain ⟨m, sp, hload, hm, hc, hcsp, hrun, -⟩ :=
    (accessible_pairMemory contents h false).load .blank
  rw [hal, Int.sub_zero] at hload
  refine ⟨m, sp, ⟨_, by rw [hp]; exact hload, rfl⟩, hm, fun writing => ⟨?_, ?_⟩⟩
  · exact (accessible_pairMemory contents (by decide) writing).of_core hc hcsp hrun
      fun h => absurd h (by decide)
  · exact (accessible_pairMemory contents (by decide) writing).of_core hc hcsp hrun
      fun h => absurd h (by decide)

/-- `R2`. -/
def pairReg : Reg := ⟨2, by decide⟩

/-- `LWL $2, 36($0)` and `LWR $2, 33($0)`, and four bytes at 33. -/
def loadPair : List Byte :=
  [0x24, 0, 2, 0x88, 0x21, 0, 2, 0x98] ++ List.replicate 25 0 ++ [1, 2, 3, 4]

/-- `SWL $2, 36($0)` and `SWR $2, 33($0)`. -/
def storePair : List Byte := [0x24, 0, 2, 0xa8, 0x21, 0, 2, 0xb8]

/-- The registers at the start, with a load of `R2` pending. -/
def pairRegisters : Registers :=
  ((Registers.write (fun _ => 0) Reg.nextPC 4).write Reg.load 2).write Reg.loadValue 0x01010101

theorem first_of_pair {contents : List Byte} {c₁ : Cpu}
    (h : (Cpu.oneInstruction ⟨false, false, false, false⟩ .blank
      ⟨pairRegisters, pairMemory contents⟩).toOption.any (fun x =>
        decide (x.1.registers Reg.pc = 4 ∧ x.1.registers Reg.zero = 0)) = true)
    (he : Cpu.oneInstruction ⟨false, false, false, false⟩ .blank
      ⟨pairRegisters, pairMemory contents⟩ = .ok (c₁, none)) :
    c₁.registers Reg.pc = 4 ∧ c₁.registers Reg.zero = 0 := by
  rw [he] at h
  exact of_decide_eq_true h

theorem unaligned_words_loadPair : ∃ c₁ c' c₂,
    Cpu.oneInstruction ⟨false, false, false, false⟩ .blank ⟨pairRegisters, pairMemory loadPair⟩ =
      .ok (c₁, none) ∧
    c₁.Resumes c' ∧ c'.oneInstruction ⟨false, false, false, false⟩ .blank = .ok (c₂, none) ∧
    c₂.registers.applied pairReg = 0x04030201 := by
  obtain ⟨m, sp, hf, hm, hs⟩ := fetches_pairMemory loadPair
    (r := pairRegisters) (p := 0) (by decide +kernel) (by decide) rfl
  obtain ⟨c₁, he, hnext⟩ := (unaligned_words _ _ _ m sp _ 33 pairReg true 127 127 (by decide)
    ⟨by decide +kernel, by decide +kernel⟩ hf).1
    ⟨by decide +kernel, by decide +kernel, by decide +kernel⟩ (hs false)
  obtain ⟨hpc, hzero⟩ := first_of_pair (by decide +kernel) he
  obtain ⟨m', sp', hf', hm', hs'⟩ := fetches_pairMemory loadPair
    (r := c₁.registers) (p := 4) (by rw [hpc]; decide) (by decide) rfl
  have hrs : (Instruction.decode (Vm.wordAt (pairMemory loadPair).mainMemory
      (Vm.physical 127 4))).rs = Reg.zero := by decide +kernel
  obtain ⟨c₂, he', hv⟩ := hnext ⟨c₁.registers, pairMemory loadPair⟩ .blank m' sp' _ (.inl rfl) hf'
    (hm'.trans hm.symm) ⟨by decide +kernel, by decide +kernel,
      by rw [hrs, hzero]; decide +kernel⟩ (hs' false)
  refine ⟨c₁, ⟨c₁.registers, pairMemory loadPair⟩, c₂, he, .inl rfl, he', ?_⟩
  rw [hv, hm]
  decide +kernel

/-- With a load of `rt` pending before `SWL`, `SWR` finds another value in it, so
neither the old nor the new one is stored. -/
theorem not_unaligned_words : ¬ ∀ (cfg : Config) (env : Env) (c : Cpu) (m : Vm) (sp : AddrSpace)
    (instr : Instruction) (a : BitVec 32) (rt : Reg) (left : Bool) (f g : Int),
    rt ≠ Reg.zero → c.registers.Wf → c.Fetches cfg env m instr →
    instr.Does c.registers (storeOp left) rt (target left a) → m.Spans cfg sp a true f g →
      ∃ c₁, c.oneInstruction cfg env = .ok (c₁, none) ∧
        ∀ (c' : Cpu) (env' : Env) (m' : Vm) (sp' : AddrSpace) (instr' : Instruction),
          c₁.Resumes c' → c'.Fetches cfg env' m' instr' →
          m'.mainMemory = c₁.memory.mainMemory →
          instr'.Does c'.registers (storeOp !left) rt (target (!left) a) →
          m'.Spans cfg sp' a true f g →
          ∃ c₂, c'.oneInstruction cfg env' = .ok (c₂, none) ∧
            ((∀ i < 4, c₂.memory.mainMemory (Vm.byteAt a f g i) = byte (c.registers rt) i) ∨
              ∀ i < 4, c₂.memory.mainMemory (Vm.byteAt a f g i) = byte (c'.registers rt) i) := by
  intro hall
  obtain ⟨m, sp, hf, hm, hs⟩ := fetches_pairMemory storePair
    (r := pairRegisters) (p := 0) (by decide +kernel) (by decide) rfl
  have hd : (Instruction.decode (Vm.wordAt (pairMemory storePair).mainMemory
      (Vm.physical 127 0))).Does pairRegisters (storeOp true) pairReg (target true 33) :=
    ⟨by decide +kernel, by decide +kernel, by decide +kernel⟩
  obtain ⟨c₁, he, hnext⟩ := hall _ _ _ m sp _ 33 pairReg true 127 127 (by decide)
    ⟨by decide +kernel, by decide +kernel⟩ hf hd (hs true)
  -- `SWL` stores the zero that is in `R2`, where there was a zero.
  obtain ⟨m₁, he₁, hin, hout⟩ := execute_store .blank hd (by decide +kernel) (by decide) rfl
    (hs true).high
  rw [hf.oneInstruction.trans he₁] at he
  cases he
  have hm₁ : m₁.mainMemory = (pairMemory storePair).mainMemory := by
    funext x
    by_cases hx : x = Vm.physical 127 36
    · rw [hx]
      exact (hin 3 (by decide) (by decide)).trans (by decide +kernel)
    · rw [hout x fun i hi hc => ?_, hm]
      have hi₃ : i = 3 := by
        simp only [Covers, if_true] at hc
        have : (33 : BitVec 32).toInt = 33 := rfl
        omega
      rw [hi₃]
      exact hx
  obtain ⟨m', sp', hf', hm', hs'⟩ := fetches_pairMemory storePair
    (r := pairRegisters.advanced (pairRegisters Reg.nextPC + 4) 0 0) (p := 4) (by decide +kernel)
    (by decide) rfl
  have hd' : (Instruction.decode (Vm.wordAt (pairMemory storePair).mainMemory
      (Vm.physical 127 4))).Does (pairRegisters.advanced (pairRegisters Reg.nextPC + 4) 0 0)
        (storeOp false) pairReg (target false 33) :=
    ⟨by decide +kernel, by decide +kernel, by decide +kernel⟩
  obtain ⟨c₂, he', hbytes⟩ := hnext ⟨_, pairMemory storePair⟩ .blank m' sp' _ (.inl rfl) hf'
    (hm'.trans hm₁.symm) hd' (hs' true)
  obtain ⟨m₂, he₂, hin', hout'⟩ := execute_store .blank hd' (by decide +kernel) (by decide) rfl
    (hs' true).low
  rw [hf'.oneInstruction.trans he₂] at he'
  cases he'
  rcases hbytes with h | h
  · have h₀ := (hin' 0 (by decide) (by decide)).symm.trans (h 0 (by decide))
    exact absurd h₀ (by decide +kernel)
  · have h₃ := (hout' _ fun i hi hc => ?_).symm.trans (h 3 (by decide))
    · rw [hm'] at h₃
      exact absurd h₃ (by decide +kernel)
    · have hne : i ≠ 3 := by
        rintro rfl
        exact absurd hc (by decide)
      exact (hs' true).byteAt_covers hi hc ▸ (hs' true).byteAt_ne (by decide) hi hne.symm

end Nachos

import Nachos.Proof.Machine.Refill
import Nachos.Proof.Userprog.Memory
import Nachos.Spec.Solo

/-!
# An instruction in the memory of its thread

`OneInstruction` on paged memory does what it does in a memory of the thread's own
(`oneInstruction_follows`). This memory is what the shadow has of the thread, over
any contents that it may have had before (`overlay`): the bytes that an
instruction gets at are all in the shadow, so that the contents do not matter. An
exception leaves both memories as they were, and finishes the pending load.
-/

namespace Nachos

open Framework

/-- What has no operand in memory is an operation on the registers. -/
theorem Solo.execute_of_data {instr : Instruction} {r : Registers} (h : instr.data r = none)
    (m₀ : Int → Byte) : Solo.execute ⟨r, m₀⟩ instr = (do
      let (r, x) ← operate instr r
      let m : Solo := ⟨r, m₀⟩
      match x with
      | .error which => m.raise which 0
      | .ok pcAfter => m.advance pcAfter 0 0) := by
  unfold Solo.execute
  dsimp only
  split
  case h_13 => rfl
  all_goals
    rename_i e
    simp only [Instruction.data, e] at h
    cases h

namespace Vm

/-- A memory of which `b` is known, over `m₀`. -/
def overlay (b : Int → Option Byte) (m₀ : Int → Byte) : Int → Byte := fun a => (b a).getD (m₀ a)

theorem overlay_store (g : Shadow) (t : Nat) (m₀ : Int → Byte) (addr : Int) (bs : List Byte) :
    overlay (g.store t addr bs t) m₀ = Solo.stored (overlay (g t) m₀) addr bs := by
  funext a
  simp only [overlay, Shadow.store, Solo.stored, true_and]
  split
  · cases bs[(a - addr).toNat]? with
    | none => rfl
    | some b => rfl
  · rfl

/-- A read of bytes that are all known. -/
theorem read_overlay {g : Shadow} {t : Nat} {addr : BitVec 32} {size : Nat} {bs : List Byte}
    (hl : bs.length = size) (hbs : ∀ i < size, g t (addr.toInt + i) = bs[i]?) (r : Registers)
    (m₀ : Int → Byte) :
    Solo.read ⟨r, overlay (g t) m₀⟩ addr size = BitVec.ofInt 32 (value bs) := by
  unfold Solo.read
  congr 2
  apply List.ext_getElem (by simp [hl])
  intro i hi hi'
  have hb := hbs i (by simpa using hi)
  simp only [List.getElem_map, List.getElem_range, overlay, hb, List.getElem?_eq_getElem hi',
    Option.getD_some]

namespace PageTables

variable {cfg : Config} {C : Env → Vm → Int → Prop} {P : PageTables cfg C} {env : Env} {s s' : Vm}
  {g : Shadow} {addr : Int} {size : Nat}

/-- A page in a frame is known. -/
theorem Seen.known (h : P.Seen ⟨s, g⟩) {f off : Nat} {t : Nat} {v : Int}
    (hf : P.holds s f (t, v)) (ho : off < pageSize) :
    g t (v * pageSize + off) = some (s.mainMemory (f * pageSize + off)) := by
  exact h.paging.resident f (t, v) hf ⟨off, ho⟩

/-- A load or a store that raises an exception has done nothing else. -/
theorem Seen.load_error (h : P.Seen ⟨s, g⟩) (hu : s.inUser = true) {e : ExceptionType}
    (hx : s.load cfg env addr size = .ok (s', .error e)) :
    s' = s ∧ s.translate cfg env addr size false = .ok (s, .error e) := by
  obtain ⟨⟨s₁, y⟩, ht, hx⟩ := bind_eq_ok.mp hx
  cases y with
  | error e' =>
    cases hx
    rcases translate_cases (fun _ => P.stable h.inv hu _) ht with ⟨_, -, rfl, -⟩ | ⟨_, _, _, _, he, -⟩
    · exact ⟨rfl, ht⟩
    · cases he
  | ok pa =>
    obtain ⟨_, -, hx⟩ := bind_eq_ok.mp hx
    obtain ⟨data, -, hx⟩ := bind_eq_ok.mp hx
    cases hx

theorem Seen.save_error (h : P.Seen ⟨s, g⟩) (hu : s.inUser = true) {v : BitVec 32} {e : ExceptionType}
    (hx : s.save cfg env addr size v = .ok (s', .error e)) :
    s' = s ∧ s.translate cfg env addr size true = .ok (s, .error e) := by
  obtain ⟨⟨s₁, y⟩, ht, hx⟩ := bind_eq_ok.mp hx
  cases y with
  | error e' =>
    cases hx
    rcases translate_cases (fun _ => P.stable h.inv hu _) ht with ⟨_, -, rfl, -⟩ | ⟨_, _, _, _, he, -⟩
    · exact ⟨rfl, ht⟩
    · cases he
  | ok pa =>
    obtain ⟨_, -, hx⟩ := bind_eq_ok.mp hx
    obtain ⟨s₂, -, hx⟩ := bind_eq_ok.mp hx
    cases hx

section
variable (hT : cfg.useTLB = false)

include hT

/-- A load gets bytes that are known. -/
theorem Seen.load (h : P.Seen ⟨s, g⟩) (hu : s.inUser = true) (hpos : 0 ≤ addr) {v : BitVec 32}
    (hx : s.load cfg env addr size = .ok (s', .ok v)) :
    s'.core = s.core ∧ ¬ ((size = 4 ∧ addr % 4 ≠ 0) ∨ (size = 2 ∧ addr % 2 ≠ 0)) ∧
      ∃ bs : List Byte, bs.length = size ∧ (∀ i < size, g s.currentThread (addr + i) = bs[i]?) ∧
        v = BitVec.ofInt 32 (value bs) := by
  obtain ⟨⟨s₁, y⟩, ht, hx⟩ := bind_eq_ok.mp hx
  cases y with
  | error e => cases hx
  | ok pa =>
    obtain ⟨_, hs, hx⟩ := bind_eq_ok.mp hx
    obtain ⟨data, hd, hx⟩ := bind_eq_ok.mp hx
    cases hx
    obtain ⟨hcore, f, off, rfl, haddr, hoff, hf⟩ := h.hit hT hu hpos (assert_eq_ok.mp hs) ht
    obtain ⟨-, -, rfl⟩ := fetch_eq_ok.mp hd
    have hal : ¬ ((size = 4 ∧ addr % 4 ≠ 0) ∨ (size = 2 ∧ addr % 2 ≠ 0)) := by
      rcases translate_cases (fun _ => P.stable h.inv hu _) ht with
        ⟨_, he, -⟩ | ⟨_, _, _, _, -, -, -, -, hal⟩
      · cases he
      · exact hal
    refine ⟨hcore, hal, _, by simp, fun i hi => ?_, rfl⟩
    have hai : addr + (i : Int) = addr.tdiv pageSize * pageSize + ((off + i : Nat) : Int) := by omega
    rw [hai, h.known hf (by omega)]
    simp only [List.getElem?_map, List.getElem?_range hi, Option.map_some, Int.toNat_natCast,
      (Vm.of_core hcore).2.1, Nat.add_assoc]

/-- A store is one to bytes that are known. -/
theorem Seen.save (h : P.Seen ⟨s, g⟩) (hu : s.inUser = true) (hpos : 0 ≤ addr) {v : BitVec 32}
    (hx : s.save cfg env addr size v = .ok (s', .ok ())) :
    { s' with mainMemory := s.mainMemory }.core = s.core ∧
      ¬ ((size = 4 ∧ addr % 4 ≠ 0) ∨ (size = 2 ∧ addr % 2 ≠ 0)) ∧
      P.Seen ⟨s', g.store s.currentThread addr (bytes size v.toInt)⟩ ∧
      ∀ i < size, g s.currentThread (addr + i) ≠ none := by
  obtain ⟨⟨s₁, y⟩, ht, hx⟩ := bind_eq_ok.mp hx
  cases y with
  | error e => cases hx
  | ok pa =>
    obtain ⟨_, hs, hx⟩ := bind_eq_ok.mp hx
    obtain ⟨s₂, h₂, hx⟩ := bind_eq_ok.mp hx
    cases hx
    obtain ⟨-, -, rfl⟩ := store_eq_ok.mp h₂
    obtain ⟨hcore, f, off, rfl, haddr, hoff, hf⟩ := h.hit hT hu hpos (assert_eq_ok.mp hs) ht
    have hal : ¬ ((size = 4 ∧ addr % 4 ≠ 0) ∨ (size = 2 ∧ addr % 2 ≠ 0)) := by
      rcases translate_cases (fun _ => P.stable h.inv hu _) ht with
        ⟨_, he, -⟩ | ⟨_, _, _, _, -, -, -, -, hal⟩
      · cases he
      · exact hal
    have hcur : s₁.currentThread = s.currentThread := (Vm.of_core hcore).2.2.2.2
    have hu₁ : s₁.inUser = true := by rw [inUser_of_core hcore]; exact hu
    have hf₁ : P.holds s₁ f (s₁.currentThread, addr.tdiv pageSize) := by
      rw [(P.core h.inv hcore).2, hcur]
      exact hf
    have hstore := (h.of_core hcore).store hu₁
      (show off + (bytes size v.toInt).length ≤ pageSize by simpa [bytes] using hoff) hf₁
    rw [← haddr, hcur] at hstore
    refine ⟨?_, hal, by simpa only [Int.toNat_natCast] using hstore, fun i hi => ?_⟩
    · have hm : s.mainMemory = s₁.mainMemory := (Vm.of_core hcore).2.1.symm
      simp only [hm]
      exact hcore
    · have hai : addr + (i : Int) = addr.tdiv pageSize * pageSize + ((off + i : Nat) : Int) := by
        omega
      rw [hai, h.known hf (by omega)]
      exact Option.some_ne_none _

/-- Without a TLB page faults are the only exceptions that are handled. -/
theorem Seen.handled (h : P.Seen ⟨s, g⟩) (hu : s.inUser = true) {w : Bool} {e : ExceptionType}
    (ht : s.translate cfg env addr size w = .ok (s, .error e))
    (hx : s.exceptionHandler cfg env e addr = .ok s') : e = .pageFault := by
  cases e with
  | pageFault => rfl
  | readOnly | busError | addressError => cases hx
  | tlbMiss =>
    have hst : s.Stable cfg env (addr.tdiv pageSize) := P.stable h.inv hu _
    rcases translate_cases (fun _ => hst) ht with ⟨_, he, -, hl⟩ | ⟨_, _, _, _, he, -⟩ <;>
      [skip; cases he]
    cases he
    rcases hl with hl | he | he | he <;> [skip; cases he; cases he; cases he]
    obtain ⟨q, hq, hr⟩ := (lookup_stable (fun _ => hst) hl).2 hT
    cases q with
    | ok p => cases hr
    | error e =>
      cases hr
      rcases pageTableTranslation_error hq with he | he <;> cases he

/-- A page fault loads what the executable has of the page. -/
theorem Seen.faulted (hW : Writes P) (h : P.Seen ⟨s, g⟩) (hu : s.inUser = true)
    {w : Bool} (hC : C env s addr) (ht : s.translate cfg env addr size w = .ok (s, .error .pageFault))
    (hx : s.exceptionHandler cfg env .pageFault addr = .ok s') :
    ∃ (p : Program) (page : Nat → Byte), s.program s.currentThread = some p ∧
      P.Seen ⟨s', g.load s.currentThread (addr.tdiv pageSize) page⟩ ∧
      s'.currentThread = s.currentThread ∧
      (∀ t, s'.program t = s.program t ∧ s'.runnable t = s.runnable t) ∧
      ∀ o b, o < pageSize →
        p.executable[(p.inFileAddr + addr.tdiv pageSize * pageSize).toNat + o]? = some b →
        page o = b := by
  have hseen := h.fault hT hW hu hC ht hx
  rcases exception_cases (P.stable h.inv hu _) ht hx with ⟨hn, hx⟩ | ⟨hT', -⟩ <;>
    [skip; simp [hT] at hT']
  obtain ⟨hinv, p, f, hl⟩ := P.fault h.inv hu hC hn hx
  obtain ⟨en, hfound⟩ := P.walk hinv (inUser_of_loads hl hinv hu) hl.self env
  have hload : g.loaded cfg env s' (addr.tdiv pageSize) =
      g.load s.currentThread (addr.tdiv pageSize) fun o => s'.mainMemory (f * pageSize + o) := by
    simp [Shadow.loaded, hfound, hl.current]
  refine ⟨p, _, hl.program, hload ▸ hseen, hl.current,
    fun t => ⟨(hl.thread t).1, (hl.thread t).2.1⟩, fun o b ho hb => ?_⟩
  have hlen : 0 + ((p.executable.drop (p.inFileAddr + addr.tdiv pageSize * pageSize).toNat).take
      pageSize).length ≤ pageSize := by simp
  have hframe := blit_frame s.mainMemory (f := f) hlen f ⟨o, ho⟩
  rw [Nat.add_zero, ← hl.memory] at hframe
  simp only [hframe, Nat.zero_le, and_true, if_true, Nat.sub_zero, List.getElem?_take,
    List.getElem?_drop, ho, hb, Option.getD_some]

end

/-! ## Instructions -/

/-- `s` and `g` are `s₀` and `g₀` after accesses of the running thread that found
their pages. -/
structure Tracks (P : PageTables cfg C) (s₀ : Vm) (g₀ : Shadow) (s : Vm) (g : Shadow) : Prop where
  seen : P.Seen ⟨s, g⟩
  core : { s with mainMemory := s₀.mainMemory }.core = s₀.core
  others : ∀ t, t ≠ s₀.currentThread → g t = g₀ t
  known : ∀ a, g s₀.currentThread a = none ↔ g₀ s₀.currentThread a = none

variable {s₀ : Vm} {g₀ : Shadow}

theorem Seen.tracks (h : P.Seen ⟨s₀, g₀⟩) : P.Tracks s₀ g₀ s₀ g₀ :=
  ⟨h, rfl, fun _ _ => rfl, fun _ => Iff.rfl⟩

namespace Tracks

theorem current (h : P.Tracks s₀ g₀ s g) : s.currentThread = s₀.currentThread :=
  (Vm.of_core h.core).2.2.2.2

theorem inUser (h : P.Tracks s₀ g₀ s g) : s.inUser = s₀.inUser := by
  show ({ s with mainMemory := s₀.mainMemory } : Vm).inUser = _
  exact inUser_of_core h.core

theorem runnable (h : P.Tracks s₀ g₀ s g) (t : Nat) : s.runnable t = s₀.runnable t := by
  show ({ s with mainMemory := s₀.mainMemory } : Vm).runnable t = _
  exact runnable_of_core h.core t

theorem program (h : P.Tracks s₀ g₀ s g) (t : Nat) : s.program t = s₀.program t := by
  show ({ s with mainMemory := s₀.mainMemory } : Vm).program t = _
  exact program_of_core h.core t

/-- Flags have changed. -/
theorem of_core (h : P.Tracks s₀ g₀ s g) (hc : s'.core = s.core) : P.Tracks s₀ g₀ s' g where
  seen := h.seen.of_core hc
  core := by
    rw [← h.core]
    exact congrArg (fun x : Vm => { x with mainMemory := s₀.mainMemory }) hc
  others := h.others
  known := h.known

/-- The thread has stored. -/
theorem save (hT : cfg.useTLB = false) (h : P.Tracks s₀ g₀ s g) (hu : s₀.inUser = true)
    (hpos : 0 ≤ addr) {v : BitVec 32} (hx : s.save cfg env addr size v = .ok (s', .ok ())) :
    ¬ ((size = 4 ∧ addr % 4 ≠ 0) ∨ (size = 2 ∧ addr % 2 ≠ 0)) ∧
      P.Tracks s₀ g₀ s' (g.store s₀.currentThread addr (bytes size v.toInt)) := by
  obtain ⟨hc, hal, hseen, hk⟩ := h.seen.save hT (h.inUser.trans hu) hpos hx
  rw [h.current] at hseen hk
  refine ⟨hal, hseen, ?_, fun t ht => ?_, fun a => ?_⟩
  · rw [← h.core]
    exact congrArg (fun x : Vm => { x with mainMemory := s₀.mainMemory }) hc
  · rw [← h.others t ht]
    funext a
    simp [Shadow.store, ht]
  · rw [← h.known a]
    simp only [Shadow.store, true_and]
    split
    · rename_i ha
      cases hb : (bytes size v.toInt)[(a - addr).toNat]? with
      | none => rfl
      | some b =>
        obtain ⟨hi, -⟩ := List.getElem?_eq_some_iff.mp hb
        have hne := hk (a - addr).toNat (by simpa [bytes] using hi)
        rw [show addr + ((a - addr).toNat : Int) = a by omega] at hne
        simp [hne]
    · rfl

end Tracks

/-- What an instruction that started with the registers `r` does on paged memory
(`x`), and in the memory of its thread over any contents (`y`). -/
structure Follows (P : PageTables cfg C) (env : Env) (s₀ : Vm) (g₀ : Shadow) (r : Registers)
    (x : Except Abort Ended) (y : (Int → Byte) → Except Abort Solo.Ended) : Prop where
  done : ∀ c', x = .ok (c', none) → ∃ g, P.Tracks s₀ g₀ c'.memory g ∧
    ∀ m₀, y m₀ = .ok (⟨c'.registers, overlay (g s₀.currentThread) m₀⟩, none)
  trap : ∀ c' which, x = .ok (c', some which) → P.Tracks s₀ g₀ c'.memory g₀ ∧
    (∃ a, (r.write Reg.badVAddr a).delayedLoad 0 0 = .ok c'.registers ∧
      ∀ e, which = .memory e → e = .addressError ∨ ∃ size w,
        c'.memory.translate cfg env a.toInt size w = .ok (c'.memory, .error e)) ∧
    ((∀ e, which ≠ .memory e) →
      ∀ m₀, y m₀ = .ok (⟨c'.registers, overlay (g₀ s₀.currentThread) m₀⟩, some which))

namespace Follows

variable {r : Registers} {y : (Int → Byte) → Except Abort Solo.Ended}

theorem error (e : Abort) : Follows P env s₀ g₀ r (.error e) y :=
  ⟨fun _ h => (by cases h), fun _ _ h => (by cases h)⟩

theorem raiseException (h : P.Tracks s₀ g₀ s g₀) (which : Trap) (a : BitVec 32)
    (hf : ∀ e, which = .memory e → e = .addressError ∨ ∃ size w,
      s.translate cfg env a.toInt size w = .ok (s, .error e))
    (hy : (∀ e, which ≠ .memory e) →
      ∀ m₀, y m₀ = Solo.raise ⟨r, overlay (g₀ s₀.currentThread) m₀⟩ which a) :
    Follows P env s₀ g₀ r (Cpu.raiseException ⟨r, s⟩ which a) y := by
  unfold Cpu.raiseException
  cases hd : (r.write Reg.badVAddr a).delayedLoad 0 0 with
  | error e => exact error e
  | ok r' =>
    refine ⟨fun c' hx => (by cases hx), fun c' w hx => ?_⟩
    cases hx
    refine ⟨h, ⟨a, hd, hf⟩, fun hw m₀ => ?_⟩
    rw [hy hw, Solo.raise, hd]
    rfl

theorem advance (h : P.Tracks s₀ g₀ s g) (r' : Registers) (pcAfter l v : BitVec 32) :
    Follows P env s₀ g₀ r (Cpu.advance ⟨r', s⟩ pcAfter l v)
      fun m₀ => Solo.advance ⟨r', overlay (g s₀.currentThread) m₀⟩ pcAfter l v := by
  unfold Cpu.advance Solo.advance
  cases hd : r'.delayedLoad l v with
  | error e => exact error e
  | ok r'' =>
    refine ⟨fun c' hx => ?_, fun c' w hx => (by cases hx)⟩
    cases hx
    refine ⟨g, h, fun m₀ => ?_⟩
    dsimp only
    rw [hd]
    rfl

theorem readMem (hT : cfg.useTLB = false) (h : P.Tracks s₀ g₀ s g₀) (hu : s₀.inUser = true)
    {addr : BitVec 32} (hpos : 0 ≤ addr.toInt) (size : Nat)
    {rest : Cpu → BitVec 32 → Except Abort Ended}
    {rest' : (Int → Byte) → BitVec 32 → Except Abort Solo.Ended}
    (hr : ∀ s' v, s.load cfg env addr.toInt size = .ok (s', .ok v) → P.Tracks s₀ g₀ s' g₀ →
      Follows P env s₀ g₀ r (rest ⟨r, s'⟩ v) fun m₀ => rest' m₀ v) :
    Follows P env s₀ g₀ r (Cpu.readMem cfg env ⟨r, s⟩ addr size rest)
      fun m₀ => Solo.readMem ⟨r, overlay (g₀ s₀.currentThread) m₀⟩ addr size (rest' m₀) := by
  have hu' : s.inUser = true := h.inUser.trans hu
  unfold Cpu.readMem
  cases hl : s.load cfg env addr.toInt size with
  | error e => exact error e
  | ok p =>
    obtain ⟨s', x⟩ := p
    cases x with
    | error e =>
      obtain ⟨rfl, ht⟩ := h.seen.load_error hu' hl
      refine raiseException h _ addr (fun e' he => ?_) fun hne => absurd rfl (hne e)
      cases he
      exact .inr ⟨size, false, ht⟩
    | ok v =>
      obtain ⟨hc, hal, bs, hlen, hbs, hv⟩ := h.seen.load hT hu' hpos hl
      rw [h.current] at hbs
      have hread : ∀ m₀, Solo.readMem ⟨r, overlay (g₀ s₀.currentThread) m₀⟩ addr size (rest' m₀) =
          rest' m₀ v := fun m₀ => by
        rw [Solo.readMem, if_pos (show Aligned addr size from hal), read_overlay hlen hbs, hv]
      simp only [hread]
      exact hr s' v hl (h.of_core hc)

theorem writeMem (hT : cfg.useTLB = false) (h : P.Tracks s₀ g₀ s g₀) (hu : s₀.inUser = true)
    {addr : BitVec 32} (hpos : 0 ≤ addr.toInt) (size : Nat) (v : BitVec 32)
    {rest : Cpu → Except Abort Ended} {rest' : Solo → Except Abort Solo.Ended}
    (hr : ∀ s g, P.Tracks s₀ g₀ s g →
      Follows P env s₀ g₀ r (rest ⟨r, s⟩) fun m₀ => rest' ⟨r, overlay (g s₀.currentThread) m₀⟩) :
    Follows P env s₀ g₀ r (Cpu.writeMem cfg env ⟨r, s⟩ addr size v rest)
      fun m₀ => Solo.writeMem ⟨r, overlay (g₀ s₀.currentThread) m₀⟩ addr size v rest' := by
  have hu' : s.inUser = true := h.inUser.trans hu
  unfold Cpu.writeMem
  cases hs : s.save cfg env addr.toInt size v with
  | error e => exact error e
  | ok p =>
    obtain ⟨s', x⟩ := p
    cases x with
    | error e =>
      obtain ⟨rfl, ht⟩ := h.seen.save_error hu' hs
      refine raiseException h _ addr (fun e' he => ?_) fun hne => absurd rfl (hne e)
      cases he
      exact .inr ⟨size, true, ht⟩
    | ok u =>
      obtain ⟨hal, htracks⟩ := h.save hT hu hpos hs
      have hwrite : ∀ m₀, Solo.writeMem ⟨r, overlay (g₀ s₀.currentThread) m₀⟩ addr size v rest' =
          rest' ⟨r, overlay (g₀.store s₀.currentThread addr.toInt (bytes size v.toInt)
            s₀.currentThread) m₀⟩ := fun m₀ => by
        rw [Solo.writeMem, if_pos (show Aligned addr size from hal), overlay_store]
      simp only [hwrite]
      exact hr s' _ htracks

end Follows

/-- The switch, if the address of the operand is not negative. -/
theorem execute_follows (hT : cfg.useTLB = false) {r : Registers} (h : P.Tracks s₀ g₀ s g₀)
    (hu : s₀.inUser = true) {instr : Instruction} (hd : instr.Decoded)
    (hpos : ∀ a size, instr.data r = some (a, size) → 0 ≤ a.toInt) :
    Follows P env s₀ g₀ r (Cpu.execute cfg env ⟨r, s⟩ instr)
      fun m₀ => Solo.execute ⟨r, overlay (g₀ s₀.currentThread) m₀⟩ instr := by
  have hload : ∀ {s : Vm} {g : Shadow}, P.Tracks s₀ g₀ s g → ∀ pcAfter l v,
      Follows P env s₀ g₀ r (Cpu.advance ⟨r, s⟩ pcAfter l v)
        fun m₀ => Solo.advance ⟨r, overlay (g s₀.currentThread) m₀⟩ pcAfter l v :=
    fun h pcAfter l v => .advance h r pcAfter l v
  unfold Cpu.execute
  simp only
  split
  case h_1 | h_2 | h_6 | h_7 =>
    rename_i e
    have hpos := hpos _ _ (by simp only [Instruction.data, e]; exact rfl)
    simp only [Solo.execute, e]
    exact .readMem hT h hu hpos _ fun s v _ h => hload h _ _ _
  case h_3 | h_4 | h_5 =>
    rename_i e
    have hpos := hpos _ _ (by simp only [Instruction.data, e]; exact rfl)
    simp only [Solo.execute, e]
    split
    · exact .raiseException h _ _ (fun e he => .inl (by cases he; rfl)) fun hne => absurd rfl (hne _)
    · exact .readMem hT h hu hpos _ fun s v _ h => hload h _ _ _
  case h_8 | h_9 | h_10 =>
    rename_i e
    have hpos := hpos _ _ (by simp only [Instruction.data, e]; exact rfl)
    simp only [Solo.execute, e]
    exact .writeMem hT h hu hpos _ _ fun s g h => hload h _ _ _
  case h_11 | h_12 =>
    rename_i e
    have hpos := hpos _ _ (by simp only [Instruction.data, e]; exact rfl)
    simp only [Solo.execute, e]
    exact .readMem hT h hu hpos _ fun s v _ h =>
      .writeMem hT h hu hpos _ _ fun s g h => hload h _ _ _
  case h_13 =>
    have hdata : instr.data r = none := by
      unfold Instruction.data
      split <;> first | rfl | contradiction
    simp only [Solo.execute_of_data hdata]
    cases ho : operate instr r with
    | error e => exact .error e
    | ok p =>
      obtain ⟨r', x⟩ := p
      cases x with
      | ok pcAfter => exact .advance h r' pcAfter 0 0
      | error which =>
        have hr : r' = r := by
          have hop := operate_operated hd r
          rw [ho] at hop
          cases hop
          rfl
        subst hr
        refine .raiseException h which 0 (fun e he => ?_) fun _ m₀ => rfl
        cases operate_completed ho _ (congrArg some he)
        exact .inl rfl

variable (env) in
/-- An instruction, if the addresses that it accesses are not negative. -/
theorem oneInstruction_follows (hT : cfg.useTLB = false) {c : Cpu} (h : P.Seen ⟨c.memory, g₀⟩)
    (hu : c.memory.inUser = true) (hpc : 0 ≤ (c.registers Reg.pc).toInt)
    (hpos : ∀ m raw a size, c.memory.load cfg env (c.registers Reg.pc).toInt 4 = .ok (m, .ok raw) →
      (Instruction.decode raw).data c.registers = some (a, size) → 0 ≤ a.toInt) :
    Follows P env c.memory g₀ c.registers (c.oneInstruction cfg env) fun m₀ =>
      Solo.oneInstruction ⟨c.registers, overlay (g₀ c.memory.currentThread) m₀⟩ := by
  unfold Cpu.oneInstruction Solo.oneInstruction
  refine .readMem hT h.tracks hu hpc 4 fun m raw hl ht => ?_
  exact execute_follows hT ht hu (Instruction.decoded_decode raw) fun a size => hpos m raw a size hl

end PageTables

end Vm

end Nachos

import Nachos.Framework.System
import Nachos.Impl.Threads.Switch

/-!
# `SWITCH` over all runs

Any number of threads, each with its thread control block and its stack, call `SWITCH`
and `StackAllocate`, and run any code between that leaves the blocks and the stacks of
the others alone. When `SWITCH` brings a thread back, all registers and its whole stack
are as at its call, and it goes on behind this call; `SWITCH` has only written the
return address once more, over the caller's first argument (`reachable_resumes`).

A thread that was never on the processor starts in `ThreadRoot`, which calls
`ThreadBegin`, the forked procedure with its argument, and `ThreadFinish`, each when
the one before has returned (`reachable_starts`).
-/

namespace Nachos

open Framework X86

open Memory (Within)

/-! ## The two halves of `SWITCH` -/

/-- The old thread's registers are saved. -/
def saveCode (save : BitVec 32) : List Instr := (switchCode save).take 13

/-- The new thread's are restored. -/
def restoreCode (save : BitVec 32) : List Instr := (switchCode save).drop 13

theorem run_append (text : Nat → BitVec 32) (cs ds : List Instr) (i : Nat) (s : State) :
    s.run text i (cs ++ ds) = (s.run text i cs).run text (i + cs.length) ds := by
  induction cs generalizing i s with
  | nil => rfl
  | cons c cs ih =>
    show State.run text (i + 1) (s.step (text (i + 1)) c) (cs ++ ds) = _
    rw [ih, List.length_cons, show i + 1 + cs.length = i + (cs.length + 1) by omega]
    rfl

/-- The block of a thread has what `SWITCH` keeps of it. -/
structure Saved (tcb : BitVec 32) (c : State) (m : Memory) : Prop where
  eax : m.read (tcb + BitVec.ofNat 32 offEAX) = c.eax
  ebx : m.read (tcb + BitVec.ofNat 32 offEBX) = c.ebx
  ecx : m.read (tcb + BitVec.ofNat 32 offECX) = c.ecx
  edx : m.read (tcb + BitVec.ofNat 32 offEDX) = c.edx
  esi : m.read (tcb + BitVec.ofNat 32 offESI) = c.esi
  edi : m.read (tcb + BitVec.ofNat 32 offEDI) = c.edi
  ebp : m.read (tcb + BitVec.ofNat 32 offEBP) = c.ebp
  esp : m.read (tcb + BitVec.ofNat 32 offESP) = c.esp
  pc : m.read (tcb + BitVec.ofNat 32 offPC) = c.memory.read c.esp

/-- The bytes of `stackTop` and of the words of `machineState` that `SWITCH` uses. -/
def blockSize : Nat := 36

/-- The block depends on its own bytes. -/
theorem Saved.congr {tcb : BitVec 32} {c : State} {m m' : Memory} (h : Saved tcb c m)
    (hm : ∀ x, Within tcb blockSize x → m' x = m x) : Saved tcb c m' := by
  have hread : ∀ i, i + 4 ≤ blockSize →
      m'.read (tcb + BitVec.ofNat 32 i) = m.read (tcb + BitVec.ofNat 32 i) := fun i hi =>
    Memory.read_congr fun x hx => hm x (hx.add hi (by decide))
  refine ⟨?_, ?_, ?_, ?_, ?_, ?_, ?_, ?_, ?_⟩
  · exact (hread _ (by decide)).trans h.eax
  · exact (hread _ (by decide)).trans h.ebx
  · exact (hread _ (by decide)).trans h.ecx
  · exact (hread _ (by decide)).trans h.edx
  · exact (hread _ (by decide)).trans h.esi
  · exact (hread _ (by decide)).trans h.edi
  · exact (hread _ (by decide)).trans h.ebp
  · exact (hread _ (by decide)).trans h.esp
  · exact (hread _ (by decide)).trans h.pc

/-- The registers in the block, in the order of the stores. -/
def blockRegisters (s : State) : List (Nat × BitVec 32) :=
  [(offEBX, s.ebx), (offECX, s.ecx), (offEDX, s.edx), (offESI, s.esi), (offEDI, s.edi),
    (offEBP, s.ebp), (offESP, s.esp)]

/-- All that `SWITCH` stores there. -/
def blockFields (s : State) : List (Nat × BitVec 32) :=
  blockRegisters s ++ [(offEAX, s.eax), (offPC, s.memory.read s.esp)]

theorem blockFields_in (s : State) : ∀ i ∈ (blockFields s).map Prod.fst, i + 4 ≤ blockSize := by
  show ∀ i ∈ [offEBX, offECX, offEDX, offESI, offEDI, offEBP, offESP, offEAX, offPC], i + 4 ≤ blockSize
  decide

theorem blockRegisters_in (s : State) :
    ∀ i ∈ (blockRegisters s).map Prod.fst, i + 4 ≤ blockSize := fun i hi => by
  refine blockFields_in s i ?_
  rw [blockFields, List.map_append]
  exact List.mem_append_left _ hi

theorem blockFields_apart (s : State) : ((blockFields s).map Prod.fst).Pairwise Memory.Apart := by
  show [offEBX, offECX, offEDX, offESI, offEDI, offEBP, offESP, offEAX, offPC].Pairwise Memory.Apart
  decide

theorem saved_fill (m : Memory) (tcb : BitVec 32) (s : State) :
    Saved tcb s (m.fill tcb (blockFields s)) := by
  have hread : ∀ p ∈ blockFields s,
      (m.fill tcb (blockFields s)).read (tcb + BitVec.ofNat 32 p.1) = p.2 := fun p hp =>
    Memory.read_fill (by decide) (blockFields_in s) (blockFields_apart s) hp
  refine ⟨?_, ?_, ?_, ?_, ?_, ?_, ?_, ?_, ?_⟩
  · exact hread (offEAX, _) (by simp [blockFields])
  · exact hread (offEBX, _) (by simp [blockFields, blockRegisters])
  · exact hread (offECX, _) (by simp [blockFields, blockRegisters])
  · exact hread (offEDX, _) (by simp [blockFields, blockRegisters])
  · exact hread (offESI, _) (by simp [blockFields, blockRegisters])
  · exact hread (offEDI, _) (by simp [blockFields, blockRegisters])
  · exact hread (offEBP, _) (by simp [blockFields, blockRegisters])
  · exact hread (offESP, _) (by simp [blockFields, blockRegisters])
  · exact hread (offPC, s.memory.read s.esp) (by simp [blockFields])

theorem ofNat_zero_add (a : BitVec 32) : a + BitVec.ofNat 32 0 = a := BitVec.add_zero a

section
variable {save tcb : BitVec 32} {s : State}

/-- The first half: the block is filled, and nothing but `_eax_save` has changed
elsewhere. -/
theorem run_save (text : Nat → BitVec 32) (hsave : ∀ x, Within save 4 x → ¬ Within tcb blockSize x)
    (hframe : ∀ x, Within s.esp 12 x → ¬ Within tcb blockSize x ∧ ¬ Within save 4 x)
    (ht : s.memory.read (s.esp + BitVec.ofNat 32 4) = tcb) :
    ∃ m, s.run text 0 (saveCode save) = { s with
        eax := tcb, ebx := s.memory.read s.esp, eip := text 13, memory := m } ∧
      Saved tcb s m ∧ ∀ x, ¬ Within tcb blockSize x → ¬ Within save 4 x → m x = s.memory x := by
  obtain ⟨m₁, hm₁⟩ : ∃ m₁, m₁ = s.memory.write save s.eax := ⟨_, rfl⟩
  obtain ⟨m₂, hm₂⟩ : ∃ m₂, m₂ = m₁.fill tcb (blockRegisters s) := ⟨_, rfl⟩
  obtain ⟨m₃, hm₃⟩ : ∃ m₃, m₃ = m₂.write (tcb + BitVec.ofNat 32 offEAX) s.eax := ⟨_, rfl⟩
  have hout₁ : ∀ x, ¬ Within save 4 x → m₁ x = s.memory x := fun x hx => by
    rw [hm₁]
    exact Memory.write_of_not_within hx
  have hout₂ : ∀ x, ¬ Within tcb blockSize x → m₂ x = m₁ x := fun x hx => by
    rw [hm₂]
    exact Memory.fill_of_not_within (by decide) (blockRegisters_in s) hx
  have hout₃ : ∀ x, ¬ Within tcb blockSize x → m₃ x = m₂ x := fun x hx => by
    rw [hm₃]
    exact Memory.write_of_not_within fun h => hx (h.add (by decide) (by decide))
  have ht₁ : m₁.read (s.esp + BitVec.ofNat 32 4) = tcb := by
    rw [← ht]
    exact Memory.read_congr fun x hx => hout₁ x (hframe x (hx.add (by decide) (by decide))).2
  have heax : m₂.read save = s.eax := by
    rw [Memory.read_congr fun x hx => hout₂ x (hsave x hx), hm₁]
    exact Memory.read_write_self ..
  have hret : m₃.read (s.esp + BitVec.ofNat 32 0) = s.memory.read s.esp := by
    rw [ofNat_zero_add]
    refine Memory.read_congr fun x hx => ?_
    obtain ⟨h₁, h₂⟩ := hframe x (Nat.lt_trans hx (by decide))
    rw [hout₃ x h₁, hout₂ x h₁, hout₁ x h₂]
  refine ⟨m₁.fill tcb (blockFields s), ?_, saved_fill m₁ tcb s, fun x h₁ h₂ => ?_⟩
  · have hfill : m₁.fill tcb (blockFields s) =
        m₃.write (tcb + BitVec.ofNat 32 offPC) (s.memory.read s.esp) := by
      rw [hm₃, hm₂]
      rfl
    rw [hfill]
    have hregs : s.run text 0 ((saveCode save).take 9) = { s with
        eax := m₁.read (s.esp + BitVec.ofNat 32 4)
        eip := text 9
        memory := m₁.fill (m₁.read (s.esp + BitVec.ofNat 32 4)) (blockRegisters s) } := by
      rw [hm₁]
      rfl
    rw [ht₁, ← hm₂] at hregs
    have hrest : State.run text 9 { s with eax := tcb, eip := text 9, memory := m₂ }
        ((saveCode save).drop 9) = { s with
          eax := tcb
          ebx := (m₂.write (tcb + BitVec.ofNat 32 offEAX) (m₂.read save)).read
            (s.esp + BitVec.ofNat 32 0)
          eip := text 13
          memory := (m₂.write (tcb + BitVec.ofNat 32 offEAX) (m₂.read save)).write
            (tcb + BitVec.ofNat 32 offPC)
            ((m₂.write (tcb + BitVec.ofNat 32 offEAX) (m₂.read save)).read
              (s.esp + BitVec.ofNat 32 0)) } := rfl
    rw [← List.take_append_drop 9 (saveCode save), run_append, hregs]
    refine Eq.trans hrest ?_
    rw [heax, ← hm₃, hret]
  · rw [Memory.fill_of_not_within (by decide) (blockFields_in s) h₁]
    exact hout₁ x h₂

/-- The second half: the registers are those in the block; it has written `_eax_save`,
and the return address over the first argument. -/
theorem run_restore (text : Nat → BitVec 32) {c : State}
    (hsave : ∀ x, Within save 4 x → ¬ Within tcb blockSize x)
    (hframe : ∀ x, Within c.esp 8 x → ¬ Within save 4 x)
    (ht : s.memory.read (s.esp + BitVec.ofNat 32 8) = tcb) (hs : Saved tcb c s.memory)
    (hret : s.memory.read c.esp = c.memory.read c.esp) :
    s.run text 13 (restoreCode save) = { c with
      esp := c.esp + 4
      eip := c.memory.read c.esp
      memory := (s.memory.write save c.eax).write (c.esp + 4) (c.memory.read c.esp) } := by
  obtain ⟨m₁, hm₁⟩ : ∃ m₁, m₁ = s.memory.write save c.eax := ⟨_, rfl⟩
  obtain ⟨m₂, hm₂⟩ : ∃ m₂, m₂ = m₁.write (c.esp + 4) (c.memory.read c.esp) := ⟨_, rfl⟩
  have hs₁ : Saved tcb c m₁ := hs.congr fun x hx => by
    rw [hm₁]
    exact Memory.write_of_not_within fun h => hsave x h hx
  have hframe' : ∀ x, Within (c.esp + 4) 4 x → Within c.esp 8 x := fun x hx =>
    Memory.Within.add (i := 4) (by decide) (by decide) hx
  have heax : m₂.read save = c.eax := by
    rw [hm₂, Memory.read_write_apart fun x hx h => hframe x (hframe' x h) hx, hm₁]
    exact Memory.read_write_self ..
  have hpop : m₂.read c.esp = c.memory.read c.esp := by
    have happart : ∀ x, Within c.esp 4 x → ¬ Within (c.esp + 4) 4 x := fun x hx h =>
      Memory.apart_offset (b := c.esp) (i := 4) (j := 0) (by decide) (by decide) (by decide)
        (by rw [ofNat_zero_add]; exact hx) h
    rw [hm₂, Memory.read_write_apart happart, hm₁, Memory.read_write_apart fun x hx h =>
      hframe x (Nat.lt_trans hx (by decide)) h]
    exact hret
  have hregs : s.run text 13 ((restoreCode save).take 11) = { s with
      eax := (s.memory.write save (s.memory.read (tcb + BitVec.ofNat 32 offEAX))).read
        (tcb + BitVec.ofNat 32 offPC)
      ebx := (s.memory.write save (s.memory.read (tcb + BitVec.ofNat 32 offEAX))).read
        (tcb + BitVec.ofNat 32 offEBX)
      ecx := (s.memory.write save (s.memory.read (tcb + BitVec.ofNat 32 offEAX))).read
        (tcb + BitVec.ofNat 32 offECX)
      edx := (s.memory.write save (s.memory.read (tcb + BitVec.ofNat 32 offEAX))).read
        (tcb + BitVec.ofNat 32 offEDX)
      esi := (s.memory.write save (s.memory.read (tcb + BitVec.ofNat 32 offEAX))).read
        (tcb + BitVec.ofNat 32 offESI)
      edi := (s.memory.write save (s.memory.read (tcb + BitVec.ofNat 32 offEAX))).read
        (tcb + BitVec.ofNat 32 offEDI)
      ebp := (s.memory.write save (s.memory.read (tcb + BitVec.ofNat 32 offEAX))).read
        (tcb + BitVec.ofNat 32 offEBP)
      esp := (s.memory.write save (s.memory.read (tcb + BitVec.ofNat 32 offEAX))).read
        (tcb + BitVec.ofNat 32 offESP)
      eip := text 24
      memory := s.memory.write save (s.memory.read (tcb + BitVec.ofNat 32 offEAX)) } := by
    rw [← ht]
    rfl
  rw [hs.eax, ← hm₁, hs₁.ebx, hs₁.ecx, hs₁.edx, hs₁.esi, hs₁.edi, hs₁.ebp, hs₁.esp, hs₁.pc] at hregs
  rw [← List.take_append_drop 11 (restoreCode save), run_append, hregs, ← hm₁, ← hm₂]
  have hrest : ∀ (eip : BitVec 32), State.run text 24
      { c with eax := c.memory.read c.esp, eip := eip, memory := m₁ } ((restoreCode save).drop 11) =
      { c with
        eax := (m₁.write (c.esp + BitVec.ofNat 32 4) (c.memory.read c.esp)).read save
        esp := c.esp + 4
        eip := (m₁.write (c.esp + BitVec.ofNat 32 4) (c.memory.read c.esp)).read c.esp
        memory := m₁.write (c.esp + BitVec.ofNat 32 4) (c.memory.read c.esp) } := fun _ => rfl
  refine (hrest (text 24)).trans ?_
  rw [show m₁.write (c.esp + BitVec.ofNat 32 4) (c.memory.read c.esp) = m₂ from hm₂.symm, heax, hpop]

end

/-! ## Threads -/

namespace Switch

/-- Where the blocks, the stacks and `_eax_save` are. They do not overlap. -/
structure Layout (T : Type) where
  tcb : T → BitVec 32
  stack : T → BitVec 32
  size : T → Nat
  save : BitVec 32
  size_le : ∀ t, size t ≤ 2 ^ 32
  block : ∀ t x, Within (tcb t) blockSize x → ¬ Within (stack t) (size t) x
  apart : ∀ t u, t ≠ u → ∀ x, Within (tcb t) blockSize x ∨ Within (stack t) (size t) x →
    ¬ (Within (tcb u) blockSize x ∨ Within (stack u) (size u) x)
  saved : ∀ t x, Within save 4 x → ¬ (Within (tcb t) blockSize x ∨ Within (stack t) (size t) x)

variable {T : Type}

/-- The memory of a thread that no other one's code changes. -/
def Layout.Own (L : Layout T) (t : T) (x : BitVec 32) : Prop :=
  Within (L.tcb t) blockSize x ∨ Within (L.stack t) (L.size t) x

/-- The processor and who runs. `kept` are the states in which the threads called
`SWITCH` last, and `forked` the procedures of those that have not run, and their
arguments. -/
structure State (T : Type) where
  cpu : X86.State
  current : T
  kept : T → Option X86.State
  forked : T → Option (BitVec 32 × BitVec 32)

/-- The running thread's own code, `StackAllocate` and `SWITCH` in it, and the end of
another thread. -/
inductive Op (T : Type)
  | compute (cpu : X86.State)
  | stackAllocate (t : T) (func arg : BitVec 32)
  | switch (nextThread : T)
  | delete (t : T)

/-- The state in which a new thread seems to have called `SWITCH`. -/
def fresh (m : Memory) (tcb : BitVec 32) : X86.State where
  eax := m.read (tcb + BitVec.ofNat 32 offEAX)
  ebx := m.read (tcb + BitVec.ofNat 32 offEBX)
  ecx := m.read (tcb + BitVec.ofNat 32 offECX)
  edx := m.read (tcb + BitVec.ofNat 32 offEDX)
  esi := m.read (tcb + BitVec.ofNat 32 offESI)
  edi := m.read (tcb + BitVec.ofNat 32 offEDI)
  ebp := m.read (tcb + BitVec.ofNat 32 offEBP)
  esp := m.read (tcb + BitVec.ofNat 32 offESP)
  eip := 0
  memory := m

/-- The running thread is about to execute `SWITCH(currentThread, nextThread)`. -/
structure Calls (L : Layout T) (x : State T) (nextThread : T) : Prop where
  frame : ∀ a, Within x.cpu.esp 12 a → Within (L.stack x.current) (L.size x.current) a
  old : x.cpu.memory.read (x.cpu.esp + 4) = L.tcb x.current
  new : x.cpu.memory.read (x.cpu.esp + 8) = L.tcb nextThread

variable [DecidableEq T]

/-- The steps. A thread's code changes no memory of those that are to come back, and
`SWITCH` is called for a thread that can. -/
def step (L : Layout T) (sym : Symbols) (text : Nat → BitVec 32) (x : State T) :
    Op T → State T → Prop
  | .compute cpu, x' =>
    (∀ t ≠ x.current, x.kept t ≠ none → ∀ a, L.Own t a → cpu.memory a = x.cpu.memory a) ∧
      x' = { x with cpu := cpu }
  | .stackAllocate t func arg, x' =>
    t ≠ x.current ∧ L.size t = 4 * stackSize ∧
      x' = { x with
        cpu := { x.cpu with
          memory := Nachos.stackAllocate sym x.cpu.memory (L.tcb t) (L.stack t) func arg }
        kept := Function.update x.kept t (some (fresh
          (Nachos.stackAllocate sym x.cpu.memory (L.tcb t) (L.stack t) func arg) (L.tcb t)))
        forked := Function.update x.forked t (some (func, arg)) }
  | .switch u, x' =>
    Calls L x u ∧ (u = x.current ∨ x.kept u ≠ none) ∧
      x' = { x with
        cpu := x.cpu.run text 0 (switchCode L.save)
        current := u
        kept := Function.update x.kept x.current (some x.cpu)
        forked := Function.update x.forked u none }
  | .delete t, x' =>
    t ≠ x.current ∧ x' = { x with
      kept := Function.update x.kept t none
      forked := Function.update x.forked t none }

/-- The main thread runs, and no other one exists. -/
def system (L : Layout T) (sym : Symbols) (text : Nat → BitVec 32) (main : T) :
    System (State T) (Op T) where
  init x := x.current = main ∧ x.kept = (fun _ => none) ∧ x.forked = fun _ => none
  step := step L sym text

variable {L : Layout T} {sym : Symbols} {text : Nat → BitVec 32} {x x' : State T}

/-- `t` can come back to `c`. -/
structure Kept (L : Layout T) (t : T) (c : X86.State) (m : Memory) : Prop where
  block : Saved (L.tcb t) c m
  stack : ∀ a, Within (L.stack t) (L.size t) a → m a = c.memory a
  frame : ∀ a, Within c.esp 8 a → Within (L.stack t) (L.size t) a

omit [DecidableEq T] in
theorem Kept.congr {t : T} {c : X86.State} {m m' : Memory} (h : Kept L t c m)
    (hm : ∀ a, L.Own t a → m' a = m a) : Kept L t c m' where
  block := h.block.congr fun a ha => hm a (.inl ha)
  stack a ha := (hm a (.inr ha)).trans (h.stack a ha)
  frame := h.frame

/-- The invariant. -/
structure Inv (L : Layout T) (sym : Symbols) (x : State T) : Prop where
  kept : ∀ t ≠ x.current, ∀ c, x.kept t = some c → Kept L t c x.cpu.memory
  forked : ∀ t func arg, x.forked t = some (func, arg) → t ≠ x.current ∧ ∃ c, x.kept t = some c ∧
    c.ecx = sym.threadBegin ∧ c.edx = arg ∧ c.esi = func ∧ c.edi = sym.threadFinish ∧
    c.memory.read c.esp = sym.threadRoot

variable (text) in
/-- `SWITCH` saves the running thread, and keeps the others. -/
theorem run_switch (h : Inv L sym x) {u : T} (hc : Calls L x u)
    (hu : u = x.current ∨ x.kept u ≠ none) :
    ∃ c m, (if u = x.current then some x.cpu else x.kept u) = some c ∧
      x.cpu.run text 0 (switchCode L.save) = { c with
        esp := c.esp + 4
        eip := c.memory.read c.esp
        memory := m } ∧
      (∀ a, Within (L.stack u) (L.size u) a →
        m a = (c.memory.write (c.esp + 4) (c.memory.read c.esp)) a) ∧
      (x.current ≠ u → Kept L x.current x.cpu m) ∧
      ∀ t, t ≠ x.current → t ≠ u → ∀ a, L.Own t a → m a = x.cpu.memory a := by
  have hframe : ∀ a, Within x.cpu.esp 12 a →
      ¬ Within (L.tcb x.current) blockSize a ∧ ¬ Within L.save 4 a := fun a ha =>
    ⟨fun hb => L.block _ a hb (hc.frame a ha), fun hs => L.saved _ a hs (.inr (hc.frame a ha))⟩
  obtain ⟨m₁, hrun₁, hsaved, hout⟩ := run_save text (fun a ha hb => L.saved _ a ha (.inl hb)) hframe
    hc.old
  -- The others' blocks and stacks, and the stack of the thread that calls.
  have hother : ∀ t, t ≠ x.current → ∀ a, L.Own t a → m₁ a = x.cpu.memory a := fun t ht a ha =>
    hout a (fun hb => L.apart t _ ht a ha (.inl hb)) fun hs => L.saved t a hs ha
  have hcaller : ∀ a, Within (L.stack x.current) (L.size x.current) a → m₁ a = x.cpu.memory a :=
    fun a ha => hout a (fun hb => L.block _ a hb ha) fun hs => L.saved _ a hs (.inr ha)
  obtain ⟨c, hcu, hk⟩ : ∃ c, (if u = x.current then some x.cpu else x.kept u) = some c ∧
      Kept L u c m₁ := by
    by_cases e : u = x.current
    · subst e
      exact ⟨x.cpu, if_pos rfl, hsaved, hcaller, fun a ha => hc.frame a (Nat.lt_trans ha (by decide))⟩
    · obtain ⟨c, hkc⟩ := Option.ne_none_iff_exists'.mp (hu.resolve_left e)
      exact ⟨c, (if_neg e).trans hkc, (h.kept u e c hkc).congr (hother u e)⟩
  have hnew : m₁.read (x.cpu.esp + BitVec.ofNat 32 8) = L.tcb u := by
    rw [← hc.new]
    exact Memory.read_congr fun a ha => hcaller a (hc.frame a (ha.add (by decide) (by decide)))
  have hret : m₁.read c.esp = c.memory.read c.esp :=
    Memory.read_congr fun a ha => hk.stack a (hk.frame a (Nat.lt_trans ha (by decide)))
  have hrun₂ := run_restore text (s := { x.cpu with
      eax := L.tcb x.current, ebx := x.cpu.memory.read x.cpu.esp, eip := text 13, memory := m₁ })
    (fun a ha hb => L.saved u a ha (.inl hb)) (fun a ha hs => L.saved u a hs (.inr (hk.frame a ha)))
    hnew hk.block hret
  have harg : ∀ a, Within (c.esp + 4) 4 a → Within (L.stack u) (L.size u) a := fun a ha =>
    hk.frame a (Memory.Within.add (i := 4) (by decide) (by decide) ha)
  have hm : ∀ t, t ≠ u → ∀ a, L.Own t a →
      ((m₁.write L.save c.eax).write (c.esp + 4) (c.memory.read c.esp)) a = m₁ a := fun t ht a ha => by
    rw [Memory.write_of_not_within fun hw => L.apart t u ht a ha (.inr (harg a hw)),
      Memory.write_of_not_within fun hw => L.saved t a hw ha]
  refine ⟨c, _, hcu, ?_, fun a ha => Memory.write_congr ?_, fun hne => ⟨?_, fun a ha => ?_, ?_⟩,
    fun t ht htu a ha => (hm t htu a ha).trans (hother t ht a ha)⟩
  · rw [← List.take_append_drop 13 (switchCode L.save), run_append]
    exact (congrArg (X86.State.run text 13 · (restoreCode L.save)) hrun₁).trans hrun₂
  · rw [Memory.write_of_not_within fun hw => L.saved u a hw (.inr ha)]
    exact hk.stack a ha
  · exact hsaved.congr fun a ha => hm _ hne a (.inl ha)
  · exact (hm _ hne a (.inr ha)).trans (hcaller a ha)
  · exact fun a ha => hc.frame a (Nat.lt_trans ha (by decide))

/-! ## New threads -/

/-- The fields of the block that `StackAllocate` sets behind `stackTop`. -/
def newFields (sym : Symbols) (func arg : BitVec 32) : List (Nat × BitVec 32) :=
  [(offPC, sym.threadRoot), (offECX, sym.threadBegin), (offESI, func), (offEDX, arg),
    (offEDI, sym.threadFinish)]

theorem newFields_in (sym : Symbols) (func arg : BitVec 32) :
    ∀ i ∈ (newFields sym func arg).map Prod.fst, i + 4 ≤ blockSize := by
  show ∀ i ∈ [offPC, offECX, offESI, offEDX, offEDI], i + 4 ≤ blockSize
  decide

theorem newFields_apart (sym : Symbols) (func arg : BitVec 32) :
    ((newFields sym func arg).map Prod.fst).Pairwise Memory.Apart := by
  show [offPC, offECX, offESI, offEDX, offEDI].Pairwise Memory.Apart
  decide

variable (sym) in
omit [DecidableEq T] in
/-- The block and the stack of a new thread. -/
theorem stackAllocate_spec {t : T} (hs : L.size t = 4 * stackSize) (m : Memory)
    (func arg : BitVec 32) : ∃ m', stackAllocate sym m (L.tcb t) (L.stack t) func arg = m' ∧
      (∀ a, ¬ L.Own t a → m' a = m a) ∧ m'.read (stackTop (L.stack t)) = sym.threadRoot ∧
      m'.read (L.tcb t + BitVec.ofNat 32 offESP) = stackTop (L.stack t) ∧
      ∀ p ∈ newFields sym func arg, m'.read (L.tcb t + BitVec.ofNat 32 p.1) = p.2 := by
  obtain ⟨m₁, hm₁⟩ : ∃ m₁, m₁ = m.write (stackTop (L.stack t)) sym.threadRoot := ⟨_, rfl⟩
  obtain ⟨m₂, hm₂⟩ : ∃ m₂, m₂ = m₁.write (L.tcb t + BitVec.ofNat 32 offESP) (stackTop (L.stack t)) :=
    ⟨_, rfl⟩
  obtain ⟨m₃, hm₃⟩ : ∃ m₃, m₃ = m₂.write (L.stack t + BitVec.ofNat 32 0) stackFencepost := ⟨_, rfl⟩
  have htop : ∀ a, Within (stackTop (L.stack t)) 4 a → Within (L.stack t) (L.size t) a := fun a ha =>
    ha.add (by rw [hs]; decide) (L.size_le t)
  have hfence : ∀ a, Within (L.stack t + BitVec.ofNat 32 0) 4 a → Within (L.stack t) (L.size t) a :=
    fun a ha => ha.add (by rw [hs]; decide) (L.size_le t)
  have hesp : ∀ a, Within (L.tcb t + BitVec.ofNat 32 offESP) 4 a → Within (L.tcb t) blockSize a :=
    fun a ha => ha.add (by decide) (by decide)
  have hout₃ : ∀ a, ¬ L.Own t a → m₃ a = m a := fun a ha => by
    rw [hm₃, Memory.write_of_not_within fun h => ha (.inr (hfence a h)), hm₂,
      Memory.write_of_not_within fun h => ha (.inl (hesp a h)), hm₁,
      Memory.write_of_not_within fun h => ha (.inr (htop a h))]
  refine ⟨m₃.fill (L.tcb t) (newFields sym func arg), ?_, fun a ha => ?_, ?_, ?_, fun p hp => ?_⟩
  · rw [hm₃, hm₂, hm₁]
    rfl
  · rw [Memory.fill_of_not_within (by decide) (newFields_in sym func arg) fun h => ha (.inl h)]
    exact hout₃ a ha
  · rw [Memory.read_congr fun a ha => Memory.fill_of_not_within (by decide)
      (newFields_in sym func arg) fun h => L.block t a h (htop a ha)]
    have happart : m₃.read (stackTop (L.stack t)) = m₂.read (stackTop (L.stack t)) := by
      rw [hm₃]
      exact Memory.read_write_offset (by decide) (by decide) (by decide)
    rw [happart, hm₂, Memory.read_write_apart fun a ha h => L.block t a (hesp a h) (htop a ha), hm₁]
    exact Memory.read_write_self ..
  · rw [Memory.read_fill_apart (by decide) (newFields_in sym func arg) (by decide) (by
      show ∀ i ∈ [offPC, offECX, offESI, offEDX, offEDI], Memory.Apart i offESP
      decide)]
    rw [hm₃, Memory.read_write_apart fun a ha h => L.block t a (hesp a ha) (hfence a h), hm₂]
    exact Memory.read_write_self ..
  · exact Memory.read_fill (by decide) (newFields_in sym func arg) (newFields_apart sym func arg) hp

/-- A step. -/
theorem Inv.step (h : Inv L sym x) {op : Op T} (hs : step L sym text x op x') : Inv L sym x' := by
  cases op with
  | compute cpu =>
    obtain ⟨hm, rfl⟩ := hs
    refine ⟨fun t ht c hc => (h.kept t ht c hc).congr ?_, h.forked⟩
    exact hm t ht (by rw [hc]; exact Option.some_ne_none c)
  | stackAllocate t func arg =>
    obtain ⟨ht, hsize, rfl⟩ := hs
    obtain ⟨m', hm', hout, hroot, hesp, hfields⟩ :=
      stackAllocate_spec sym hsize x.cpu.memory func arg
    rw [hm']
    have hfresh : (fresh m' (L.tcb t)).esp = stackTop (L.stack t) := hesp
    have hret : (fresh m' (L.tcb t)).memory.read (fresh m' (L.tcb t)).esp = sym.threadRoot := by
      rw [hfresh]
      exact hroot
    refine ⟨fun u hu c hc => ?_, fun u func' arg' hf => ?_⟩
    · dsimp only at hc
      by_cases e : u = t
      · subst e
        rw [Function.update_self, Option.some.injEq] at hc
        subst hc
        refine ⟨⟨rfl, rfl, rfl, rfl, rfl, rfl, rfl, rfl, ?_⟩, fun a _ => rfl, fun a ha => ?_⟩
        · rw [hret]
          exact hfields (offPC, sym.threadRoot) List.mem_cons_self
        · rw [hfresh] at ha
          exact ha.add (by rw [hsize]; decide) (L.size_le u)
      · rw [Function.update_of_ne e] at hc
        exact (h.kept u hu c hc).congr fun a ha => hout a (L.apart u t e a ha)
    · dsimp only at hf ⊢
      by_cases e : u = t
      · subst e
        rw [Function.update_self, Option.some.injEq, Prod.mk.injEq] at hf
        obtain ⟨rfl, rfl⟩ := hf
        refine ⟨ht, _, Function.update_self .., ?_, ?_, ?_, ?_, hret⟩
        · exact hfields (offECX, sym.threadBegin) (by simp [newFields])
        · exact hfields (offEDX, arg) (by simp [newFields])
        · exact hfields (offESI, func) (by simp [newFields])
        · exact hfields (offEDI, sym.threadFinish) (by simp [newFields])
      · rw [Function.update_of_ne e] at hf ⊢
        exact h.forked u func' arg' hf
  | switch u =>
    obtain ⟨hc, hu, rfl⟩ := hs
    obtain ⟨c, m, hcu, hrun, -, hcur, hother⟩ := run_switch text h hc hu
    refine ⟨fun t ht c' hc' => ?_, fun t func arg hf => ?_⟩
    · dsimp only at ht hc' ⊢
      rw [hrun]
      by_cases e : t = x.current
      · subst e
        rw [Function.update_self, Option.some.injEq] at hc'
        subst hc'
        exact hcur ht
      · rw [Function.update_of_ne e] at hc'
        exact (h.kept t e c' hc').congr (hother t e ht)
    · dsimp only at hf ⊢
      have hne : t ≠ u := by
        rintro rfl
        rw [Function.update_self] at hf
        cases hf
      rw [Function.update_of_ne hne] at hf
      obtain ⟨htc, hk⟩ := h.forked t func arg hf
      rw [Function.update_of_ne htc]
      exact ⟨hne, hk⟩
  | delete t =>
    obtain ⟨ht, rfl⟩ := hs
    refine ⟨fun u hu c hc => ?_, fun u func arg hf => ?_⟩
    · dsimp only at hc
      have hne : u ≠ t := by
        rintro rfl
        rw [Function.update_self] at hc
        cases hc
      rw [Function.update_of_ne hne] at hc
      exact h.kept u hu c hc
    · dsimp only at hf ⊢
      have hne : u ≠ t := by
        rintro rfl
        rw [Function.update_self] at hf
        cases hf
      rw [Function.update_of_ne hne] at hf ⊢
      exact h.forked u func arg hf

theorem reachable_inv {main : T} (h : (system L sym text main).Reachable x) : Inv L sym x := by
  refine h.invariant (I := Inv L sym) ?_ fun _ _ _ hi hs => hi.step hs
  rintro x ⟨-, hk, hf⟩
  refine ⟨fun t _ c hc => ?_, fun t func arg hft => ?_⟩
  · rw [hk] at hc
    cases hc
  · rw [hf] at hft
    cases hft

/-- In every run, when `SWITCH` brings a thread back, its registers and its stack are as
when it called `SWITCH` last, but that the return address has left the stack, where it
stands over the first argument too; the thread goes on at this address. -/
theorem reachable_resumes {main : T} (h : (system L sym text main).Reachable x) {u : T}
    (hs : step L sym text x (.switch u) x') :
    ∃ c, (if u = x.current then some x.cpu else x.kept u) = some c ∧
      (∀ r, r ≠ .esp → x'.cpu.get r = c.get r) ∧ x'.cpu.esp = c.esp + 4 ∧
      x'.cpu.eip = c.memory.read c.esp ∧
      ∀ a, Within (L.stack u) (L.size u) a →
        x'.cpu.memory a = (c.memory.write (c.esp + 4) (c.memory.read c.esp)) a := by
  obtain ⟨hc, hu, rfl⟩ := hs
  obtain ⟨c, m, hcu, hrun, hstack, -⟩ := run_switch text (reachable_inv h) hc hu
  refine ⟨c, hcu, fun r hr => ?_, ?_, ?_, fun a ha => ?_⟩
  all_goals
    dsimp only
    rw [hrun]
  · cases r with
    | esp => exact absurd rfl hr
    | eax | ebx | ecx | edx | esi | edi | ebp => rfl
  · exact hstack a ha

/-- Two threads. -/
def twoThreads : Layout Bool where
  tcb t := if t then 0x2000 else 0x1000
  stack t := if t then 0x20000 else 0x10000
  size _ := 4 * stackSize
  save := 0x3000
  size_le _ := by decide
  block t x h h' := by
    cases t <;>
      simp only [Within, blockSize, stackSize, if_true, Bool.false_eq_true, if_false] at h h' <;>
      bv_omega
  apart t u hne x h h' := by
    cases t <;> cases u <;> simp only [Within, blockSize, stackSize, if_true, Bool.false_eq_true,
      if_false, ne_eq, not_true_eq_false] at hne h h' <;> bv_omega
  saved t x h h' := by
    cases t <;>
      simp only [Within, blockSize, stackSize, if_true, Bool.false_eq_true, if_false] at h h' <;>
      bv_omega

/-- The addresses of the routines. -/
def twoSymbols : Symbols := ⟨0x100, 0x200, 0x300⟩

/-- `main` calls `SWITCH` for the other thread. -/
def mainCalls : X86.State :=
  ⟨1, 2, 3, 4, 5, 6, 7, 0x10100, 0,
    Memory.write (Memory.write (fun _ => 0) 0x10104 0x1000) 0x10108 0x2000⟩

/-- There the other thread is forked. -/
def twoForked : State Bool where
  cpu := { mainCalls with
    memory := stackAllocate twoSymbols mainCalls.memory 0x2000 0x20000 0x4000 9 }
  current := false
  kept := Function.update (fun _ => none) true (some (fresh
    (stackAllocate twoSymbols mainCalls.memory 0x2000 0x20000 0x4000 9) 0x2000))
  forked := Function.update (fun _ => none) true (some (0x4000, 9))

theorem reachable_twoForked : (system twoThreads twoSymbols (fun _ => 0) false).Reachable twoForked :=
  .step (.init (s := ⟨mainCalls, false, fun _ => none, fun _ => none⟩) ⟨rfl, rfl, rfl⟩)
    (a := .stackAllocate true 0x4000 9) ⟨by decide, rfl, rfl⟩

/-- `main` calls `SWITCH`. -/
theorem calls_twoForked : Calls twoThreads twoForked true :=
  ⟨fun a ha => by
    show Within 0x10000 (4 * stackSize) a
    change Within 0x10100 12 a at ha
    simp only [Within, stackSize] at ha ⊢
    bv_omega, by decide +kernel, by decide +kernel⟩

/-- The other thread runs, and calls `SWITCH` for `main`. -/
def twoBack : State Bool where
  cpu := { twoForked.cpu.run (fun _ => 0) 0 (switchCode twoThreads.save) with
    esp := 0x20100
    memory := Memory.write (Memory.write
      (twoForked.cpu.run (fun _ => 0) 0 (switchCode twoThreads.save)).memory 0x20104 0x2000)
      0x20108 0x1000 }
  current := true
  kept := Function.update twoForked.kept false (some twoForked.cpu)
  forked := Function.update twoForked.forked true none

theorem reachable_twoBack : (system twoThreads twoSymbols (fun _ => 0) false).Reachable twoBack := by
  refine .step (.step reachable_twoForked (a := .switch true)
    ⟨calls_twoForked, .inr (by simp [twoForked]), rfl⟩) (a := .compute twoBack.cpu) ⟨?_, rfl⟩
  intro t ht _ a ha
  obtain rfl : t = false := by
    cases t
    · rfl
    · exact absurd rfl ht
  have hown : Within 0x1000 blockSize a ∨ Within 0x10000 (4 * stackSize) a := ha
  have hout : ¬ Within 0x20104 4 a ∧ ¬ Within 0x20108 4 a := by
    simp only [Within, blockSize, stackSize] at hown ⊢
    bv_omega
  exact (Memory.write_of_not_within hout.2).trans (Memory.write_of_not_within hout.1)

theorem calls_twoBack : Calls twoThreads twoBack false where
  frame a ha := by
    show Within 0x20000 (4 * stackSize) a
    change Within 0x20100 12 a at ha
    simp only [Within, stackSize] at ha ⊢
    bv_omega
  old := by
    refine (Memory.read_write_apart fun x hx hx' => ?_).trans (Memory.read_write_self ..)
    change Within 0x20104 4 x at hx
    simp only [Within] at hx hx'
    bv_omega
  new := Memory.read_write_self ..

/-- `main` comes back with its registers. -/
theorem reachable_resumes_main : ∃ x x' c,
    (system twoThreads twoSymbols (fun _ => 0) false).Reachable x ∧
    step twoThreads twoSymbols (fun _ => 0) x (.switch false) x' ∧
    ((x.current = true ∧ x.kept false = some c ∧ c.ebx = 2) ∧
      (∀ r, r ≠ .esp → x'.cpu.get r = c.get r) ∧ x'.cpu.esp = c.esp + 4 ∧
      x'.cpu.eip = c.memory.read c.esp ∧
      ∀ a, Within (twoThreads.stack false) (twoThreads.size false) a →
        x'.cpu.memory a = (c.memory.write (c.esp + 4) (c.memory.read c.esp)) a) := by
  have hs : step twoThreads twoSymbols (fun _ => 0) twoBack (.switch false) _ :=
    ⟨calls_twoBack, .inr (by simp [twoBack]), rfl⟩
  obtain ⟨c, hc, hrest⟩ := reachable_resumes reachable_twoBack hs
  obtain rfl : twoForked.cpu = c := Option.some.inj hc
  exact ⟨twoBack, _, _, reachable_twoBack, hs, ⟨rfl, rfl, rfl⟩, hrest⟩

/-! ## `ThreadRoot` -/

section
variable {text' : Nat → BitVec 32} {params : BitVec 32 → Nat} {i : Nat} {s s' : X86.State}
  {cs : List Instr} {es : List X86.State}

theorem exec_step {c : Instr} (hc : ∀ r, c ≠ .call r) (h : s.Exec text' params i (c :: cs) es s') :
    (s.step (text' (i + 1)) c).Exec text' params (i + 1) cs es s' := by
  cases h with
  | step _ h => exact h
  | inside => exact absurd rfl (hc _)
  | returned => exact absurd rfl (hc _)

theorem exec_call {r : Gpr} (h : s.Exec text' params i (.call r :: cs) es s') :
    (es = [s'] ∧ s' = s.step (text' (i + 1)) (.call r)) ∨
      ∃ s₁ es', es = s.step (text' (i + 1)) (.call r) :: es' ∧
        X86.State.Returns (params (s.get r)) 8 (s.step (text' (i + 1)) (.call r)) s₁ ∧
        s₁.Exec text' params (i + 1) cs es' s' := by
  cases h with
  | step hc => exact absurd rfl (hc r)
  | inside entry he => exact .inl ⟨rfl, he⟩
  | returned entry he hr h =>
    subst he
    exact .inr ⟨_, _, rfl, hr, h⟩

theorem push_apart (a : BitVec 32) {x : BitVec 32} (h : Within a 4 x) : ¬ Within (a - 4) 4 x := by
  have ha : a = a - 4 + BitVec.ofNat 32 4 := (BitVec.sub_add_cancel a 4).symm
  intro h'
  rw [ha] at h
  refine Memory.apart_offset (b := a - 4) (i := 0) (j := 4) (by decide) (by decide) (by decide) h ?_
  rw [ofNat_zero_add]
  exact h'

/-- A call leaves what is on the stack. -/
theorem call_spec (s : X86.State) (next : BitVec 32) (r : Gpr) :
    (s.step next (.call r)).eip = s.get r ∧
      (s.step next (.call r)).memory.read s.esp = s.memory.read s.esp ∧
      (s.step next (.call r)).esp + 4 = s.esp :=
  ⟨rfl, Memory.read_write_apart fun _ hx => push_apart s.esp hx, BitVec.sub_add_cancel s.esp 4⟩

/-- The calls of `ThreadRoot` are the three of its registers, and the second routine
finds the argument on the stack. Before the third one it is in the routine that it has
called last. -/
structure Rooted (s : X86.State) (es : List X86.State) (s' : X86.State) : Prop where
  first : es ≠ []
  calls : es.map X86.State.eip <+: [s.ecx, s.esi, s.edi]
  inside : es.length < 3 → es.getLast? = some s'
  argument : ∀ e, es[1]? = some e → e.memory.read (e.esp + 4) = s.edx

theorem exec_threadRoot (hp : params s.ecx = 0)
    (h : s.Exec text' params 0 threadRootCode es s') : Rooted s es s' := by
  have h := exec_step (by intro r h; cases h) (exec_step (by intro r h; cases h)
    (exec_step (by intro r h; cases h) h))
  -- The frame of `ThreadRoot` has the argument on top.
  obtain ⟨s₂, hs₂⟩ : ∃ s₂, s₂ = (s.step (text' 1) (.pushl .ebp)).step (text' 2)
    (.movl (.reg .esp) (.reg .ebp)) := ⟨_, rfl⟩
  obtain ⟨s₃, hs₃⟩ : ∃ s₃, s₃ = s₂.step (text' 3) (.pushl initialArg) := ⟨_, rfl⟩
  obtain ⟨hecx, hedx, hesi, hedi⟩ :
      s₂.ecx = s.ecx ∧ s₂.edx = s.edx ∧ s₂.esi = s.esi ∧ s₂.edi = s.edi := by
    rw [hs₂]
    exact ⟨rfl, rfl, rfl, rfl⟩
  have harg : s₃.memory.read s₃.esp = s.edx := by
    have hm : s₃.memory = s₂.memory.write (s₂.esp - 4) s₂.edx := by rw [hs₃]; rfl
    have hesp : s₃.esp = s₂.esp - 4 := by rw [hs₃]; rfl
    rw [hm, hesp, Memory.read_write_self, hedx]
  obtain ⟨hecx', hesi', hedi'⟩ : s₃.ecx = s₂.ecx ∧ s₃.esi = s₂.esi ∧ s₃.edi = s₂.edi := by
    rw [hs₃]
    exact ⟨rfl, rfl, rfl⟩
  rw [← hs₂, ← hs₃] at h
  obtain ⟨e₁, he₁⟩ : ∃ e₁, e₁ = s₃.step (text' 4) (.call startupPC) := ⟨_, rfl⟩
  have hcall₁ : e₁.eip = s.ecx ∧ e₁.esi = s.esi ∧ e₁.edi = s.edi ∧ e₁.esp + 4 = s₃.esp ∧
      e₁.memory.read s₃.esp = s.edx := by
    obtain ⟨hi, hm, hes⟩ := call_spec s₃ (text' 4) startupPC
    rw [he₁]
    refine ⟨hi.trans (hecx'.trans hecx), hesi'.trans hesi, hedi'.trans hedi, hes, ?_⟩
    rw [hm]
    exact harg
  obtain ⟨hi₁, hsi₁, hdi₁, hes₁, hm₁⟩ := hcall₁
  rcases exec_call h with ⟨rfl, hs'⟩ | ⟨r₁, es₁, rfl, hr₁, h⟩
  · rw [← he₁] at hs'
    subst hs'
    exact ⟨List.cons_ne_nil _ _, ⟨_, congrArg (· :: _) hi₁⟩, fun _ => rfl, fun e he => by cases he⟩
  rw [← he₁] at hr₁ ⊢
  have hr₁m : r₁.memory.read r₁.esp = s.edx := by
    rw [hr₁.esp, hes₁, ← hm₁]
    refine Memory.read_congr fun a ha => hr₁.frame a ?_
    rw [show s₃.get startupPC = s.ecx from hecx'.trans hecx, hp, ofNat_zero_add, hes₁]
    exact Nat.lt_trans ha (by decide)
  obtain ⟨e₂, he₂⟩ : ∃ e₂, e₂ = r₁.step (text' 5) (.call initialPC) := ⟨_, rfl⟩
  obtain ⟨hi₂, hm₂, hes₂⟩ : e₂.eip = s.esi ∧ e₂.memory.read r₁.esp = s.edx ∧ e₂.esp + 4 = r₁.esp := by
    obtain ⟨hi, hm, hes⟩ := call_spec r₁ (text' 5) initialPC
    rw [he₂]
    exact ⟨hi.trans (hr₁.esi.trans hsi₁), hm.trans hr₁m, hes⟩
  have hdi₂ : e₂.edi = s.edi := by
    rw [he₂]
    exact hr₁.edi.trans hdi₁
  have hsecond : ∀ (es : List X86.State) e, (e₁ :: e₂ :: es)[1]? = some e →
      e.memory.read (e.esp + 4) = s.edx := fun es e he => by
    obtain rfl : e₂ = e := Option.some.inj he
    rw [hes₂, hm₂]
  rcases exec_call h with ⟨rfl, hs'⟩ | ⟨r₂, es₂, rfl, hr₂, h⟩
  · rw [← he₂] at hs'
    subst hs'
    exact ⟨List.cons_ne_nil _ _, ⟨[s.edi], by simp [hi₁, hi₂]⟩, fun _ => rfl, hsecond _⟩
  rw [← he₂] at hr₂ ⊢
  have hi₃ : (r₂.step (text' 6) (.call whenDonePC)).eip = s.edi := hr₂.edi.trans hdi₂
  rcases exec_call h with ⟨rfl, hs'⟩ | ⟨r₃, es₃, rfl, -, h⟩
  · rw [hs']
    exact ⟨List.cons_ne_nil _ _, ⟨[], by simp [hi₁, hi₂, hi₃]⟩, fun _ => rfl, hsecond _⟩
  -- There is no call behind the third one.
  obtain rfl : es₃ = [] := by
    have h := exec_step (by intro r h; cases h) (exec_step (by intro r h; cases h)
      (exec_step (by intro r h; cases h) h))
    cases h
    rfl
  exact ⟨List.cons_ne_nil _ _, ⟨[], by simp [hi₁, hi₂, hi₃]⟩, fun hlt => absurd hlt (by simp),
    hsecond _⟩

/-- The first call is reached, and behind a routine that returns the next one. -/
theorem threadRoot_goes (text' : Nat → BitVec 32) (params : BitVec 32 → Nat) (s : X86.State) :
    ∃ e₁, s.Exec text' params 0 threadRootCode [e₁] e₁ ∧
      ∀ r₁, X86.State.Returns (params e₁.eip) 8 e₁ r₁ →
        ∃ e₂, s.Exec text' params 0 threadRootCode [e₁, e₂] e₂ ∧
          ∀ r₂, X86.State.Returns (params e₂.eip) 8 e₂ r₂ →
            ∃ e₃, s.Exec text' params 0 threadRootCode [e₁, e₂, e₃] e₃ := by
  have hroot : ∀ {es s'}, X86.State.Exec text' params 3 (((s.step (text' 1) (.pushl .ebp)).step
      (text' 2) (.movl (.reg .esp) (.reg .ebp))).step (text' 3) (.pushl initialArg))
      (threadRootCode.drop 3) es s' → s.Exec text' params 0 threadRootCode es s' := fun h =>
    .step (by intro r h; cases h) (.step (by intro r h; cases h) (.step (by intro r h; cases h) h))
  refine ⟨_, hroot (.inside _ rfl), fun r₁ hr₁ => ?_⟩
  refine ⟨_, hroot (.returned _ rfl hr₁ (.inside _ rfl)), fun r₂ hr₂ => ?_⟩
  exact ⟨_, hroot (.returned _ rfl hr₁ (.returned _ rfl hr₂ (.inside _ rfl)))⟩

end

/-- In every run a thread that `StackAllocate` has set up comes from `SWITCH` to
`ThreadRoot`, which calls `ThreadBegin`, the procedure with its argument, and
`ThreadFinish`, each when the one before has returned. -/
theorem reachable_starts {main : T} (h : (system L sym text main).Reachable x) {u : T}
    {func arg : BitVec 32} (hf : x.forked u = some (func, arg))
    (hs : step L sym text x (.switch u) x') :
    x'.cpu.eip = sym.threadRoot ∧ ∀ (text' : Nat → BitVec 32) (params : BitVec 32 → Nat),
      params sym.threadBegin = 0 →
      (∀ es s', x'.cpu.Exec text' params 0 threadRootCode es s' →
        (es ≠ [] ∧ es.map X86.State.eip <+: [sym.threadBegin, func, sym.threadFinish]) ∧
          (es.length < 3 → es.getLast? = some s') ∧
          ∀ e, es[1]? = some e → e.memory.read (e.esp + 4) = arg) ∧
      ∃ e₁, x'.cpu.Exec text' params 0 threadRootCode [e₁] e₁ ∧
        ∀ r₁, X86.State.Returns (params e₁.eip) 8 e₁ r₁ →
          ∃ e₂, x'.cpu.Exec text' params 0 threadRootCode [e₁, e₂] e₂ ∧
            ∀ r₂, X86.State.Returns (params e₂.eip) 8 e₂ r₂ →
              ∃ e₃, x'.cpu.Exec text' params 0 threadRootCode [e₁, e₂, e₃] e₃ := by
  have hinv := reachable_inv h
  obtain ⟨hne, c, hk, hecx, hedx, hesi, hedi, hroot⟩ := hinv.forked u func arg hf
  obtain ⟨hc, hu, rfl⟩ := hs
  obtain ⟨c', m, hcu, hrun, -⟩ := run_switch text hinv hc hu
  rw [if_neg hne, hk] at hcu
  obtain rfl := Option.some.inj hcu
  dsimp only
  rw [hrun]
  refine ⟨hroot, fun text' params hp => ⟨fun es s' he => ?_, threadRoot_goes text' params _⟩⟩
  obtain ⟨hfirst, hcalls, hinside, harg⟩ := exec_threadRoot (by rw [← hp, ← hecx]) he
  refine ⟨⟨hfirst, ?_⟩, hinside, fun e hes => (harg e hes).trans hedx⟩
  rw [← hecx, ← hesi, ← hedi]
  exact hcalls

/-- A routine that does nothing. -/
def returned (e : X86.State) : X86.State := { e with esp := e.esp + 4, eip := e.memory.read e.esp }

theorem returns_returned (params frame : Nat) (e : X86.State) :
    X86.State.Returns params frame e (returned e) :=
  ⟨rfl, rfl, rfl, rfl, rfl, rfl, fun _ _ => rfl⟩

/-- The first run of the other thread, to its third call. -/
theorem reachable_starts_two : ∃ x x' e₁ e₂ e₃,
    (system twoThreads twoSymbols (fun _ => 0) false).Reachable x ∧
    (x.forked true = some (0x4000, 9) ∧
      step twoThreads twoSymbols (fun _ => 0) x (.switch true) x') ∧
    x'.cpu.eip = 0x100 ∧ x'.cpu.Exec (fun _ => 0) (fun _ => 0) 0 threadRootCode [e₁, e₂, e₃] e₃ ∧
    e₁.eip = 0x200 ∧ e₂.eip = 0x4000 ∧ e₃.eip = 0x300 ∧ e₂.memory.read (e₂.esp + 4) = 9 := by
  have hs : step twoThreads twoSymbols (fun _ => 0) twoForked (.switch true) _ :=
    ⟨calls_twoForked, .inr (by simp [twoForked]), rfl⟩
  obtain ⟨heip, hall⟩ := reachable_starts reachable_twoForked rfl hs
  obtain ⟨hcalls, e₁, -, h₁⟩ := hall (fun _ => 0) (fun _ => 0) rfl
  obtain ⟨e₂, -, h₂⟩ := h₁ _ (returns_returned _ _ e₁)
  obtain ⟨e₃, h₃⟩ := h₂ _ (returns_returned _ _ e₂)
  obtain ⟨⟨-, hpre⟩, -, harg⟩ := hcalls _ _ h₃
  have hlist := hpre.eq_of_length rfl
  simp only [List.map_cons, List.map_nil, List.cons.injEq, and_true] at hlist
  exact ⟨twoForked, _, e₁, e₂, e₃, reachable_twoForked, ⟨rfl, hs⟩, heip, h₃, hlist.1, hlist.2.1,
    hlist.2.2, harg e₂ rfl⟩

end Switch

end Nachos

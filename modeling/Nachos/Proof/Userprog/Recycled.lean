import Nachos.Proof.Userprog.Dump
import Nachos.Proof.Userprog.Image

/-!
# What a page fault leaks

A frame goes from thread to thread, and `loadPageFrame` overwrites as much of
it as the executable has bytes for the page. `record` runs the machine and keeps
the pages that the threads obtain through page faults, each with the thread's
own stores before it. Two runs in which every such page lies within the
executable, or gets a frame that is 0 behind the end of the file, cannot be told
apart by these pages, whatever else happened in them (`reachable_noLeak`). A page
that ends behind the file keeps the last byte of the frame (`keeps_last_byte`).
-/

namespace Nachos

open Framework

namespace Program

/-- The executable has a byte for every byte of the page. -/
def HasPage (p : Program) (vpn : Int) : Prop :=
  p.inFileAddr + (vpn + 1) * pageSize ≤ p.executable.length

instance (p : Program) (vpn : Int) : Decidable (p.HasPage vpn) :=
  inferInstanceAs (Decidable (_ ≤ _))

/-- Where the page begins in the file or behind it, all of it is there. -/
theorem HasPage.fileByte {p : Program} {vpn : Int} (h : p.HasPage vpn)
    (hpos : 0 ≤ p.inFileAddr + vpn * pageSize) {i : Nat} (hi : i < pageSize) :
    ∃ b, Nachos.fileByte p.executable (p.inFileAddr + (vpn * pageSize + i)) = some b := by
  unfold HasPage at h
  have hlt : (p.inFileAddr + (vpn * pageSize + i)).toNat < p.executable.length := by
    rw [Int.add_mul] at h
    omega
  rw [Nachos.fileByte, if_pos (by omega), List.getElem?_eq_getElem hlt]
  exact ⟨_, rfl⟩

/-- The bytes that the executable has for a page. -/
def page (p : Program) (vpn : Int) : List Byte :=
  (List.range pageSize).map fun i : Nat =>
    (fileByte p.executable (p.inFileAddr + (vpn * pageSize + i))).getD 0

end Program

namespace Vm

section
variable {cfg : Config} {env : Env} {s s₁ s' : Vm} {p : Program} {vaddr ppn : Int}

/-- A frame that is 0 where the executable has nothing gets the page. -/
theorem frame_pageFaultHandler (hp : s.program s.currentThread = some p)
    (hf : s.pageFrame cfg = .ok (s₁, ppn)) (h : s.pageFaultHandler cfg env vaddr = .ok s')
    (hzero : ∀ i < pageSize,
      fileByte p.executable (p.inFileAddr + (vaddr.tdiv pageSize * pageSize + i)) = none →
        s.mainMemory (ppn.toNat * pageSize + i) = 0) :
    frame s'.mainMemory ppn.toNat = p.page (vaddr.tdiv pageSize) := by
  refine List.map_congr_left fun i hi => ?_
  have hi : i < pageSize := List.mem_range.mp hi
  rw [pageFaultHandler_frame hp hf h hi]
  cases hb : fileByte p.executable (p.inFileAddr + (vaddr.tdiv pageSize * pageSize + i)) with
  | some b => rfl
  | none => exact hzero i hi hb

/-- The last byte of a page that ends behind the file is the one that was there before. -/
theorem keeps_last_byte (hp : s.program s.currentThread = some p)
    (hf : s.pageFrame cfg = .ok (s₁, ppn)) (h : s.pageFaultHandler cfg env vaddr = .ok s')
    (hpage : ¬ p.HasPage (vaddr.tdiv pageSize)) :
    s'.mainMemory (ppn.toNat * pageSize + (pageSize - 1)) =
      s.mainMemory (ppn.toNat * pageSize + (pageSize - 1)) := by
  rw [pageFaultHandler_frame hp hf h (by decide)]
  unfold Program.HasPage at hpage
  rw [fileByte]
  split
  · rw [List.getElem?_eq_none (by unfold pageSize at *; omega)]
    rfl
  · rfl

end

/-- An access: its address, its size and whether it writes. -/
def Op.access : Op → Option (Int × Nat × Bool)
  | .read addr size => some (addr, size, false)
  | .write addr size _ => some (addr, size, true)
  | _ => none

/-- The access goes to the page fault handler. -/
def pageFaults (cfg : Config) (env : Env) (s : Vm) (addr : Int) (size : Nat) (writing : Bool) : Bool :=
  match s.translate cfg env addr size writing with
  | .ok (_, .error .pageFault) => true
  | .ok (s, .error .tlbMiss) => s.faults cfg env addr
  | _ => false

/-- A page that a thread obtained through a page fault. -/
structure Obtained where
  thread : Nat
  program : Program
  /-- The thread's own stores before. -/
  stores : List (Int × Nat × Int)
  vpn : Int
  /-- What was in the frame behind the handler. -/
  page : List Byte
  deriving DecidableEq

/-- The machine, the stores up to now, each with its thread, and the pages
obtained. -/
structure History where
  machine : Vm
  stores : List (Nat × Int × Nat × Int)
  obtained : List Obtained

namespace History

/-- The stores of a thread. -/
def own (x : History) (t : Nat) : List (Int × Nat × Int) :=
  (x.stores.filter fun e => e.1 = t).map Prod.snd

/-- The page that an operation obtains when it takes the machine to `s'`. -/
def obtains (cfg : Config) (x : History) (op : Op × Env) (s' : Vm) : Option Obtained :=
  let s := x.machine
  match op.1.access, s.program s.currentThread, s.pageFrame cfg with
  | some (addr, size, writing), some p, .ok (_, ppn) =>
    if s.enabled op.1 && s.pageFaults cfg op.2 addr size writing then
      some ⟨s.currentThread, p, x.own s.currentThread, addr.tdiv pageSize,
        frame s'.mainMemory ppn.toNat⟩
    else none
  | _, _, _ => none

/-- The store that an operation makes. -/
def stored (cfg : Config) (x : History) (op : Op × Env) : List (Nat × Int × Nat × Int) :=
  match op with
  | (.write addr size v, env) =>
    if x.machine.inUser && (x.machine.writeMem cfg env addr size v).toOption.any Prod.snd then
      [(x.machine.currentThread, addr, size, v)]
    else []
  | _ => []

end History

/-- One operation. -/
def record (cfg : Config) (x : History) (op : Op × Env) : Except Abort History := do
  let s ← x.machine.next cfg op
  return ⟨s, x.stores ++ x.stored cfg op, x.obtained ++ (x.obtains cfg op s).toList⟩

def recordStart (cfg : Config) : History := ⟨start cfg, [], []⟩

/-- Two histories agree on every page that a thread with the same executable and
the same stores obtained. -/
def NoLeak (x₁ x₂ : History) : Prop :=
  ∀ o₁ ∈ x₁.obtained, ∀ o₂ ∈ x₂.obtained, o₁.thread = o₂.thread → o₁.program = o₂.program →
    o₁.stores = o₂.stores → o₁.vpn = o₂.vpn → o₁.page = o₂.page

/-- A page fault is for a page within the executable, or the frame that it gets is 0
where the executable has nothing. -/
def FaultsClean (cfg : Config) (x : History) (op : Op × Env) : Prop :=
  ∀ p ∈ x.machine.program x.machine.currentThread, ∀ a ∈ op.1.access,
    x.machine.pageFaults cfg op.2 a.1 a.2.1 a.2.2 = true → p.HasPage (a.1.tdiv pageSize) ∨
      ∀ f ∈ (x.machine.pageFrame cfg).toOption, ∀ i < pageSize,
        fileByte p.executable (p.inFileAddr + (a.1.tdiv pageSize * pageSize + i)) = none →
          x.machine.mainMemory (f.2.toNat * pageSize + i) = 0

instance (cfg : Config) (x : History) (op : Op × Env) : Decidable (FaultsClean cfg x op) :=
  inferInstanceAs (Decidable (∀ p ∈ _, ∀ a ∈ _, _ → _ ∨ _))

section
variable {cfg : Config} {env : Env} {s s' : Vm} {addr : Int} {size : Nat} {writing : Bool}

/-- A page fault or a miss in the TLB leaves the machine as it was. -/
theorem translate_stays {e : ExceptionType}
    (h : s.translate cfg env addr size writing = .ok (s', .error e))
    (he : e = .pageFault ∨ e = .tlbMiss) : s' = s := by
  unfold translate at h
  split at h
  · cases h
    rfl
  · obtain ⟨⟨s₁, r⟩, hl, h⟩ := bind_eq_ok.mp h
    cases r with
    | error e' =>
      cases h
      unfold lookup at hl
      split at hl
      · split at hl <;> cases hl
        rfl
      · obtain ⟨⟨s₂, q⟩, hq, hl⟩ := bind_eq_ok.mp hl
        cases q with
        | ok p => cases hl
        | error e'' =>
          cases hl
          exact pageTableTranslation_stays hq
    | ok p =>
      simp only at h
      split at h
      · cases h
        rcases he with he | he <;> cases he
      · split at h
        · cases h
          rcases he with he | he <;> cases he
        · obtain ⟨s₂, -, h⟩ := bind_eq_ok.mp h
          obtain ⟨_, -, h⟩ := bind_eq_ok.mp h
          obtain ⟨s₃, -, h⟩ := bind_eq_ok.mp h
          cases h

/-- What an access that goes to the page fault handler does. -/
theorem exception_of_pageFaults (hp : s.pageFaults cfg env addr size writing = true) :
    ∃ e, s.translate cfg env addr size writing = .ok (s, .error e) ∧
      s.exceptionHandler cfg env e addr = s.pageFaultHandler cfg env addr := by
  unfold pageFaults at hp
  split at hp
  · rename_i s₁ ht
    obtain rfl := translate_stays ht (.inl rfl)
    exact ⟨_, ht, rfl⟩
  · rename_i s₁ ht
    obtain rfl := translate_stays ht (.inr rfl)
    refine ⟨_, ht, ?_⟩
    unfold faults at hp
    split at hp <;> [skip; cases hp]
    rename_i s₂ hw
    obtain rfl := pageTableTranslation_stays hw
    rw [exceptionHandler, hw]
    rfl
  · cases hp

end

/-- An operation that goes to the page fault handler does nothing else. -/
theorem next_of_pageFaults {cfg : Config} {s s' : Vm} {op : Op × Env} {a : Int × Nat × Bool}
    (ha : op.1.access = some a) (hen : s.enabled op.1 = true)
    (hp : s.pageFaults cfg op.2 a.1 a.2.1 a.2.2 = true) (h : s.next cfg op = .ok s') :
    s.pageFaultHandler cfg op.2 a.1 = .ok s' := by
  obtain ⟨op, env⟩ := op
  obtain ⟨e, ht, hx⟩ := exception_of_pageFaults hp
  rw [next, if_pos hen] at h
  cases op with
  | read addr size =>
    cases ha
    obtain ⟨⟨s₁, v⟩, hr, h⟩ := bind_eq_ok.mp h
    cases h
    simp only [readMem, ht, ok_bind] at hr
    obtain ⟨s₂, h₂, hr⟩ := bind_eq_ok.mp hr
    cases hr
    exact hx.symm.trans h₂
  | write addr size v =>
    cases ha
    obtain ⟨⟨s₁, b⟩, hr, h⟩ := bind_eq_ok.mp h
    cases h
    simp only [writeMem, ht, ok_bind] at hr
    obtain ⟨s₂, h₂, hr⟩ := bind_eq_ok.mp hr
    cases hr
    exact hx.symm.trans h₂
  | create | run | exit | suspend | restore => cases ha

theorem History.obtains_eq_some {cfg : Config} {x : History} {op : Op × Env} {s' : Vm}
    {o : Obtained} (h : x.obtains cfg op s' = some o) :
    ∃ a p s₁ ppn, op.1.access = some a ∧ x.machine.program x.machine.currentThread = some p ∧
      x.machine.pageFrame cfg = .ok (s₁, ppn) ∧ x.machine.enabled op.1 = true ∧
      x.machine.pageFaults cfg op.2 a.1 a.2.1 a.2.2 = true ∧
      o = ⟨x.machine.currentThread, p, x.own x.machine.currentThread, a.1.tdiv pageSize,
        frame s'.mainMemory ppn.toNat⟩ := by
  unfold obtains at h
  simp only at h
  split at h <;> [skip; cases h]
  rename_i addr size writing p s₁ ppn ha hp hf
  split at h <;> [skip; cases h]
  rename_i hc
  obtain ⟨hen, hfault⟩ := Bool.and_eq_true_iff.mp hc
  exact ⟨_, p, s₁, ppn, ha, hp, hf, hen, hfault, (Option.some.inj h).symm⟩

/-- What is obtained is the executable's, and 0 behind its end. -/
theorem obtains_page {cfg : Config} {x : History} {op : Op × Env} {s' : Vm} {o : Obtained}
    (hc : FaultsClean cfg x op) (h : x.machine.next cfg op = .ok s')
    (ho : x.obtains cfg op s' = some o) : o.page = o.program.page o.vpn := by
  obtain ⟨a, p, s₁, ppn, ha, hp, hf, hen, hfault, rfl⟩ := History.obtains_eq_some ho
  have hx := next_of_pageFaults ha hen hfault h
  refine frame_pageFaultHandler hp hf hx fun i hi hnone => ?_
  rcases hc p hp a ha hfault with hpage | hzero
  · obtain ⟨b, hb⟩ := hpage.fileByte (pageFaultHandler_memory hp hf hx).1 hi
    rw [hb] at hnone
    cases hnone
  · exact hzero (s₁, ppn) (by rw [hf]; rfl) i hi hnone

/-- In two runs whose page faults are for pages within the executables, or get frames
that are 0 where the executables have nothing, no thread obtains a page that tells them
apart. -/
theorem reachable_noLeak {cfg : Config} {x₁ x₂ : History}
    (h₁ : ((System.ofFun (recordStart cfg) (record cfg)).restrict (FaultsClean cfg)).Reachable x₁)
    (h₂ : ((System.ofFun (recordStart cfg) (record cfg)).restrict (FaultsClean cfg)).Reachable x₂) :
    NoLeak x₁ x₂ := by
  have hpage : ∀ x, ((System.ofFun (recordStart cfg) (record cfg)).restrict
      (FaultsClean cfg)).Reachable x → ∀ o ∈ x.obtained, o.page = o.program.page o.vpn := by
    intro x h
    refine h.invariant (I := fun x => ∀ o ∈ x.obtained, o.page = o.program.page o.vpn) ?_ ?_
    · rintro _ rfl o ho
      cases ho
    · rintro x op x' hx ⟨hc, hs⟩ o ho
      obtain ⟨s', hn, hs⟩ := bind_eq_ok.mp hs
      cases hs
      rcases List.mem_append.mp ho with ho | ho
      · exact hx o ho
      · exact obtains_page hc hn (Option.mem_toList.mp ho)
  intro o₁ ho₁ o₂ ho₂ _ hp _ hv
  rw [hpage x₁ h₁ o₁ ho₁, hpage x₂ h₂ o₂ ho₂, hp, hv]

/-- One thread stores a byte and exits, and the next one touches the same page,
in the same frame. -/
def handOver (p : Program) (addr v : Int) : List (Op × Env) :=
  [.create (some p), .create (some p), .run 1, .write addr 1 v, .write addr 1 v, .exit, .run 2,
    .read addr 1].map fun op => (op, Env.blank)

/-- The second thread of `handOver` obtained a page that starts with `b`. -/
def Received (p : Program) (vpn : Int) (b : Byte) (x : History) : Prop :=
  ∃ o ∈ x.obtained, o.thread = 2 ∧ o.program = p ∧ o.stores = [] ∧ o.vpn = vpn ∧
    o.page.head? = some b

instance (p : Program) (vpn : Int) (b : Byte) (x : History) : Decidable (Received p vpn b x) :=
  inferInstanceAs (Decidable (∃ o ∈ _, _))

/-- The first page of a program with two pages of file, in the other thread's frame, and
a stack page, in a frame that was never used: the other thread's byte does not show. -/
theorem reachable_noLeak_code : ∃ x₁ x₂ : History,
    ((Received ⟨List.replicate 256 5, 0, 9⟩ 0 5 x₁ ∧ Received ⟨List.replicate 256 5, 0, 9⟩ 2 0 x₁) ∧
      (Received ⟨List.replicate 256 5, 0, 9⟩ 0 5 x₂ ∧ Received ⟨List.replicate 256 5, 0, 9⟩ 2 0 x₂) ∧
      x₁.stores ≠ x₂.stores) ∧ NoLeak x₁ x₂ := by
  obtain ⟨x₁, hr₁, hp₁⟩ := System.exists_reachable_guarded (recordStart ⟨false, true, false, false⟩)
    (record ⟨false, true, false, false⟩) (FaultsClean ⟨false, true, false, false⟩)
    (handOver ⟨List.replicate 256 5, 0, 9⟩ 0 7 ++ [(.read 256 1, .blank)])
    (p := fun x => (Received ⟨List.replicate 256 5, 0, 9⟩ 0 5 x ∧
      Received ⟨List.replicate 256 5, 0, 9⟩ 2 0 x) ∧ x.stores = [(1, 0, 1, 7)]) (by decide +kernel)
  obtain ⟨x₂, hr₂, hp₂⟩ := System.exists_reachable_guarded (recordStart ⟨false, true, false, false⟩)
    (record ⟨false, true, false, false⟩) (FaultsClean ⟨false, true, false, false⟩)
    (handOver ⟨List.replicate 256 5, 0, 9⟩ 0 8 ++ [(.read 256 1, .blank)])
    (p := fun x => (Received ⟨List.replicate 256 5, 0, 9⟩ 0 5 x ∧
      Received ⟨List.replicate 256 5, 0, 9⟩ 2 0 x) ∧ x.stores = [(1, 0, 1, 8)]) (by decide +kernel)
  obtain ⟨h₁, hs₁⟩ := of_decide_eq_true hp₁
  obtain ⟨h₂, hs₂⟩ := of_decide_eq_true hp₂
  refine ⟨x₁, x₂, ⟨h₁, h₂, ?_⟩, reachable_noLeak hr₁ hr₂⟩
  rw [hs₁, hs₂]
  decide

/-- The stack page of a program ends behind its file: the thread that takes over
the frame finds the other one's byte. -/
theorem not_noLeak_recycled : ¬ ∀ (cfg : Config) (x₁ x₂ : History),
    (System.ofFun (recordStart cfg) (record cfg)).Reachable x₁ →
    (System.ofFun (recordStart cfg) (record cfg)).Reachable x₂ → NoLeak x₁ x₂ := by
  intro hall
  obtain ⟨x₁, hr₁, hp₁⟩ := System.exists_reachable (recordStart ⟨false, true, false, false⟩)
    (record ⟨false, true, false, false⟩) (handOver ⟨twoPagesFile, 52, 9⟩ 256 7)
    (p := fun x => Received ⟨twoPagesFile, 52, 9⟩ 2 7 x) (by decide +kernel)
  obtain ⟨x₂, hr₂, hp₂⟩ := System.exists_reachable (recordStart ⟨false, true, false, false⟩)
    (record ⟨false, true, false, false⟩) (handOver ⟨twoPagesFile, 52, 9⟩ 256 8)
    (p := fun x => Received ⟨twoPagesFile, 52, 9⟩ 2 8 x) (by decide +kernel)
  obtain ⟨o₁, ho₁, ht₁, hprog₁, hs₁, hv₁, hb₁⟩ := of_decide_eq_true hp₁
  obtain ⟨o₂, ho₂, ht₂, hprog₂, hs₂, hv₂, hb₂⟩ := of_decide_eq_true hp₂
  have := hall _ x₁ x₂ hr₁ hr₂ o₁ ho₁ o₂ ho₂ (ht₁.trans ht₂.symm) (hprog₁.trans hprog₂.symm)
    (hs₁.trans hs₂.symm) (hv₁.trans hv₂.symm)
  rw [this, hb₂] at hb₁
  exact absurd hb₁ (by decide)

end Vm

end Nachos

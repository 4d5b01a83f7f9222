import Nachos.Impl.Userprog.Process

/-!
# What user programs expect of memory

`Shadow` is the memory as the threads should see it: for a thread and a
virtual address the byte stored there last, or, if the thread never stored
there, the byte that the page had when it was loaded for the first time.
`trace` runs the machine and keeps the shadow up to date; `Faithful` says that
a read returns the bytes of the shadow.
-/

namespace Nachos.Vm

/-- A byte for each thread and virtual address that was loaded. -/
abbrev Shadow := Nat → Int → Option Byte

/-- A store of the thread `t`. -/
def Shadow.store (g : Shadow) (t : Nat) (addr : Int) (bs : List Byte) : Shadow := fun u a =>
  if u = t ∧ addr ≤ a then (bs[(a - addr).toNat]?).or (g u a) else g u a

/-- A page of `t` was loaded; this matters the first time only. -/
def Shadow.load (g : Shadow) (t : Nat) (vpn : Int) (page : Nat → Byte) : Shadow := fun u a =>
  if u = t ∧ a / pageSize = vpn then (g u a).or (some (page (a % pageSize).toNat)) else g u a

/-- The thread `t` is gone. -/
def Shadow.drop (g : Shadow) (t : Nat) : Shadow := fun u a => if u = t then none else g u a

/-- The machine and what its threads expect. -/
structure Traced where
  machine : Vm
  shadow : Shadow

section
variable (cfg : Config) (env : Env)

/-- After a page fault of the running thread the page is where
`pageTableTranslation` finds it. -/
def Shadow.loaded (g : Shadow) (s : Vm) (vpn : Int) : Shadow :=
  match s.pageTableTranslation cfg env vpn with
  | .ok (_, .ok (pageFrame, _)) =>
    g.load s.currentThread vpn fun o => s.mainMemory (pageFrame.toNat * pageSize + o)
  | _ => g

end

/-- The operations of runs without suspensions. -/
def trace (cfg : Config) (x : Traced) (op : Op × Env) : Except Abort Traced :=
  if x.machine.enabled op.1 then
    match op with
    | (.read addr size, env) => do
      let (s, v) ← x.machine.readMem cfg env addr size
      return ⟨s, if v.isSome then x.shadow else x.shadow.loaded cfg env s (addr.tdiv pageSize)⟩
    | (.write addr size v, env) => do
      let (s, b) ← x.machine.writeMem cfg env addr size v
      return ⟨s, if b then x.shadow.store x.machine.currentThread addr (bytes size v)
        else x.shadow.loaded cfg env s (addr.tdiv pageSize)⟩
    | (.exit, _) => do
      let s ← x.machine.exit cfg
      return ⟨s, x.shadow.drop x.machine.currentThread⟩
    | (.create program, _) => do
      let s ← x.machine.create cfg program
      return ⟨s, x.shadow⟩
    | (.run t, _) => return ⟨x.machine.run cfg t, x.shadow⟩
    | (.suspend _, _) | (.restore _, _) => return x
  else return x

/-- At the start nothing was loaded. -/
def traceStart (cfg : Config) : Traced := ⟨start cfg, fun _ _ => none⟩

/-- A read that succeeds returns what the thread expects. -/
def Faithful (cfg : Config) (x : Traced) : Op × Env → Prop
  | (.read addr size, env) => x.machine.inUser = true → ∀ s v,
    x.machine.readMem cfg env addr size = .ok (s, some v) → ∃ bs : List Byte, bs.length = size ∧
      (∀ i < size, x.shadow x.machine.currentThread (addr + i) = bs[i]?) ∧ v = value bs
  | _ => True

end Nachos.Vm

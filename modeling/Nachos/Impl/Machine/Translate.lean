import Nachos.Impl.Lib.Sysdep

/-!
# Translation tables

`machine/translate.h` and the functions of `machine/machine.cc` that replace
and age the entries of a page table or a TLB. A table is the list of its
entries. A loop that runs past the end of a table reads what lies behind it,
the parameter `stray`; a store there is undefined.
-/

namespace Nachos

/-- `PageSize`. -/
def pageSize : Nat := 128

/-- `NumPhysPages`. -/
def numPhysPages : Nat := 128

/-- `MemorySize`. -/
def memorySize : Nat := numPhysPages * pageSize

/-- `TLBSize`. -/
def tlbSize : Nat := 3

/-- `INT_MAX`. -/
def intMax : Int := 2 ^ 31 - 1

/-- `class TranslationEntry`. -/
structure TranslationEntry where
  vpn : Int
  tID : Int
  ppn : Int
  valid : Bool
  readOnly : Bool
  use : Bool
  dirty : Bool
  fifoFlag : Int
  lruFlag : Int
  deriving DecidableEq

/-- `TranslationEntry::reset`. -/
def TranslationEntry.reset : TranslationEntry := ⟨-1, -1, -1, false, false, false, false, -1, -1⟩

/-- The compile options: `USE_TLB`, `USE_RPT`, `FIFO_REPLACE`, `LRU_REPLACE`. -/
structure Config where
  useTLB : Bool
  useRPT : Bool
  fifoReplace : Bool
  lruReplace : Bool

abbrev Table := List TranslationEntry

namespace Table

/-- `t[i]` of a table that has an entry for `i`. -/
def nth (t : Table) (i : Nat) : TranslationEntry := t.getD i .reset

/-- `t[i]`. -/
def entry (stray : Int → TranslationEntry) (t : Table) (i : Int) : TranslationEntry :=
  if 0 ≤ i then t.getD i.toNat (stray i) else stray i

/-- A store to `t[i]`. -/
def upd (t : Table) (i : Int) (f : TranslationEntry → TranslationEntry) : Except Abort Table := do
  defined (0 ≤ i ∧ i.toNat < t.length)
  return t.modify i.toNat f

/-- What a loop over `t[0]` to `t[len - 1]` reads. -/
def view (stray : Int → TranslationEntry) (t : Table) (len : Nat) : Table :=
  t.take len ++ (List.range' t.length (len - t.length)).map fun i : Nat => stray i

/-- The loop of `Machine::findOneToReplace`, at index `i`. -/
def findOneLoop (cfg : Config) (targetv : Int) (targeti i : Nat) : Table → Nat
  | [] => targeti
  | e :: es =>
    let p := if cfg.fifoReplace && targetv > e.fifoFlag then (e.fifoFlag, i) else (targetv, targeti)
    let p := if cfg.lruReplace && p.1 > e.lruFlag then (e.lruFlag, i) else p
    findOneLoop cfg p.1 p.2 (i + 1) es

/-- `Machine::findOneToReplace` over the entries its loop reads. -/
def findOneToReplace (cfg : Config) (es : Table) : Nat := findOneLoop cfg intMax 0 0 es

/-- The loop of `updateFIFOFlag` and `updateLRUFlag`, at index `i`. -/
def maxFlag (flag : TranslationEntry → Int) (pos : Int) (num : Int) (i : Nat) : Table → Int
  | [] => num
  | e :: es =>
    let num := if e.valid && (i : Int) ≠ pos then (if num ≥ flag e then num else flag e) else num
    maxFlag flag pos num (i + 1) es

/-- `Machine::updateFIFOFlag`. -/
def updateFIFOFlag (stray : Int → TranslationEntry) (t : Table) (pos : Int) (len : Nat) :
    Except Abort Table := do
  let num ← i32 (maxFlag (·.fifoFlag) pos (-1) 0 (t.view stray len) + 1)
  t.upd pos fun e => { e with fifoFlag := num }

/-- `Machine::updateLRUFlag`. -/
def updateLRUFlag (stray : Int → TranslationEntry) (t : Table) (pos : Int) (len : Nat) :
    Except Abort Table := do
  let num ← i32 (maxFlag (·.lruFlag) pos (-1) 0 (t.view stray len) + 1)
  t.upd pos fun e => { e with lruFlag := num }

/-- `Machine::updateTLB`: a free slot, or one to replace. -/
def updateTLB (cfg : Config) (stray : Int → TranslationEntry) (tlb : Table)
    (entry : TranslationEntry) : Except Abort Table := do
  let i := (tlb.findIdx? fun e => !e.valid).getD (findOneToReplace cfg tlb)
  let tlb ← tlb.upd i fun _ => entry
  if cfg.fifoReplace then updateFIFOFlag stray tlb i tlbSize else return tlb

end Table

end Nachos

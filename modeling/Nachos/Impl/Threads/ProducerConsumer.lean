import Nachos.Impl.Threads.Sync

/-!
# Producers and consumers

`Produce`, `Consume` and the start of `MyProducerConsumer1` in
`threads/kernel.cc`. The printing is left out; the indices and values stored and
read are logged instead.
-/

namespace Nachos

/-- `MAX_PRODUCE_ARRAY_NUM`. -/
def maxProduceArrayNum : Nat := 50

/-- `PRODUCE_TIMES`. -/
def produceTimes : Nat := 50

/-- `CONSUME_TIMES`. -/
def consumeTimes : Nat := 25

/-- The semaphores. -/
inductive ProduceSem
  | isFull
  | isEmpty
  deriving DecidableEq

/-- What is done with `produceArrayLock` held: `produceArray[high++] = i`, and
`++low` with the read of `produceArray[low]`. -/
inductive ProduceAct
  | produce (i : Int)
  | consume
  deriving DecidableEq

/-- A read of a consumer, and `high` at the time. -/
structure ProduceRead where
  index : Int
  value : Int
  high : Int
  deriving DecidableEq

/-- The globals, and the indices and values stored and read so far. -/
structure ProduceData where
  produceArray : List Int
  high : Int
  low : Int
  stores : List (Int × Int)
  reads : List ProduceRead
  deriving DecidableEq

/-- An index in `produceArray`. -/
def produceIndex (i : Int) : Except Abort Nat := do
  defined (0 ≤ i ∧ i < maxProduceArrayNum)
  return i.toNat

namespace ProduceData

/-- The start of `MyProducerConsumer1`. -/
def start : ProduceData := ⟨List.replicate maxProduceArrayNum (-1), 0, -1, [], []⟩

def produce (d : ProduceData) (i : Int) : Except Abort ProduceData := do
  let n ← produceIndex d.high
  return { d with
    produceArray := d.produceArray.set n i
    high := d.high + 1
    stores := d.stores ++ [(d.high, i)] }

def consume (d : ProduceData) : Except Abort ProduceData := do
  let n ← produceIndex (d.low + 1)
  return { d with
    low := d.low + 1
    reads := d.reads ++ [⟨d.low + 1, d.produceArray.getD n 0, d.high⟩] }

def act {T : Type} (_ : T) (d : ProduceData) : ProduceAct → Except Abort ProduceData
  | .produce i => d.produce i
  | .consume => d.consume

end ProduceData

/-- What a thread runs, with its number of iterations. -/
inductive ProduceRole
  | producer (times : Nat)
  | consumer (times : Nat)

abbrev ProduceStmt := SyncStmt Unit ProduceSem ProduceAct

/-- One iteration of `Produce`. -/
def produceOnce (i : Nat) : List ProduceStmt :=
  [.p .isEmpty] ++ Sync.acquire () ++ [.act (.produce i)] ++ Sync.release () ++ [.v .isFull]

/-- One iteration of `Consume`. -/
def consumeOnce (_ : Nat) : List ProduceStmt :=
  [.p .isFull] ++ Sync.acquire () ++ [.act .consume] ++ Sync.release () ++ [.v .isEmpty]

/-- `Produce` and `Consume`. -/
def ProduceRole.code : ProduceRole → List ProduceStmt
  | .producer n => ((List.range n).map produceOnce).flatten
  | .consumer n => ((List.range n).map consumeOnce).flatten

/-- The first values of the semaphores. -/
def produceSemInit : ProduceSem → Int
  | .isFull => 0
  | .isEmpty => maxProduceArrayNum

namespace ProducerConsumer

variable {T : Type} [DecidableEq T]

abbrev Config (T : Type) :=
  Framework.Threads.Config (Sync T Unit ProduceSem ProduceData) (List ProduceStmt) T

def start (role : T → ProduceRole) : Config T :=
  Sync.start produceSemInit .start fun t => (role t).code

/-- One step of a thread. There are no interrupts with handlers of their own. -/
def next (c : Config T) (t : T) : Except Abort (Config T) :=
  Sync.next (I := Empty) ProduceData.act (fun i _ => i.elim) c (.inl t)

end ProducerConsumer

end Nachos

import Nachos.Impl.Machine.Network
import Nachos.Impl.Threads.Sync
import Nachos.Impl.Threads.SynchList

/-!
# The post office

`network/post.cc`: mail to the boxes of one machine, `host`, from threads on any
machine. `PostOfficeOutput::Send` is code over the sending machine's `sendLock` and
`messageSent` (`SyncStmt`). `PostalDelivery` waits for `messageAvailable`, takes a
packet from the network and puts the mail in a box; a box is a `SynchList` (`Stmt`),
and `PostOfficeInput::Receive` takes the first mail of one. The printing is left out.

A `Mail *` is an `id`, new for each `new Mail`. The rest of `Get` and of `Receive`
reads only the mail that was removed, so it is run together with the removal.
-/

namespace Nachos

open Framework.Threads

/-- `class MailHeader`. -/
structure MailHeader where
  to_ : BitVec 32
  from_ : BitVec 32
  length : BitVec 32
  deriving DecidableEq

/-- `MaxMailSize`. -/
def maxMailSize : Nat := maxPacketSize - headerSize

def MailHeader.encode (h : MailHeader) : List Byte := word.encodeAll [h.to_, h.from_, h.length]

def MailHeader.decode (bs : List Byte) : MailHeader :=
  match word.decodeAll 3 bs with
  | [a, b, c] => ⟨a, b, c⟩
  | _ => ⟨0, 0, 0⟩

/-- The headers and the payload of a mail. -/
structure Message where
  pktHdr : PacketHeader
  mailHdr : MailHeader
  data : List Byte
  deriving DecidableEq

/-- `class Mail`. -/
structure Mail where
  id : Nat
  message : Message
  deriving DecidableEq

/-- `Mail::Mail`. -/
def Mail.new (id : Nat) (pktH : PacketHeader) (mailH : MailHeader) (msgData : List Byte) :
    Except Abort Mail := do
  assert (mailH.length.toNat ≤ maxMailSize)
  return ⟨id, pktH, mailH, msgData.take mailH.length.toNat⟩

/-- A call of `Send` on the machine `from_`. -/
structure Send where
  from_ : BitVec 32
  pktHdr : PacketHeader
  mailHdr : MailHeader
  data : List Byte
  deriving DecidableEq

namespace Send

/-- The header that `Send` gives to the network. -/
def header (x : Send) : PacketHeader :=
  { x.pktHdr with from_ := x.from_, length := x.mailHdr.length + BitVec.ofNat 32 headerSize }

/-- The `ASSERT`s of `Send`. The payload must be there. -/
def check (x : Send) : Except Abort Unit := do
  assert (x.mailHdr.length.toNat ≤ maxMailSize)
  assert (0 ≤ x.mailHdr.to_.toInt)
  defined (x.mailHdr.length.toNat ≤ x.data.length)

/-- The buffer with the mail header and the data. -/
def buffer (x : Send) : List Byte := x.mailHdr.encode ++ x.data.take x.mailHdr.length.toNat

end Send

/-- What sending threads do besides their locks and semaphores. -/
inductive SendAct
  | check (x : Send)
  | send (x : Send)

/-- The network device of `host`, the buffer of `PostalDelivery`, and for each machine
whether its device is busy and how many of its interrupts are scheduled. `sent` are
the mails that were put on the socket of `host`. -/
structure Network where
  input : NetworkInput
  buffer : List Byte
  sendBusy : BitVec 32 → Bool
  scheduled : BitVec 32 → Nat
  sent : List Send

/-- The statements. The semaphore `none` is `messageAvailable`, and `some m` is
`messageSent` of the machine `m`. -/
inductive PostStmt (T : Type)
  | sync (s : SyncStmt (BitVec 32) (Option (BitVec 32)) SendAct)
  | box (i : Nat) (s : Stmt T (SynchListStmt Mail))
  | deliver
  | loop
  | receive (i : Int)

/-- The post office. `got` are the mails that calls of `Receive` returned, with their
boxes. -/
structure PostOffice (T : Type) where
  sync : Sync T (BitVec 32) (Option (BitVec 32)) Network
  boxes : Nat → Monitor T (List Mail)
  mails : Nat
  got : List (Nat × Message)

/-- The calls of threads other than the postal worker. -/
inductive PostCall
  | send (x : Send)
  | receive (i : Int)

/-- What chance decides in a step: whether a packet is lost, and what the memory of a
new buffer holds. -/
structure Chance where
  lost : Bool
  fresh : Nat → Byte

namespace PostOffice

variable {T : Type} [DecidableEq T]

/-- The parts of `Send` on the sending machine and its device. -/
def act (host : BitVec 32) (r : Chance) (_ : T) (n : Network) : SendAct → Except Abort Network
  | .check x => do
    x.check
    return n
  | .send x => do
    let w ← networkSend x.from_ (n.sendBusy x.from_) x.header x.buffer r.fresh
    let n := { n with
      scheduled := Function.update n.scheduled x.from_ (n.scheduled x.from_ + 1) }
    if r.lost = true ∨ x.pktHdr.to_ ≠ host then return n
    else
      return { n with
        input := { n.input with socket := n.input.socket ++ [w] }
        sent := n.sent ++ [x] }

/-- `PostOfficeOutput::Send`. -/
def send (x : Send) : List (SyncStmt (BitVec 32) (Option (BitVec 32)) SendAct) :=
  [.act (.check x)] ++ Sync.acquire x.from_ ++ [.act (.send x), .p (some x.from_)] ++
    Sync.release x.from_

/-- `MailBox::Put`, of a mail. -/
def put (i : Nat) (m : Mail) : List (PostStmt T) := (critical (SynchList.append m)).map (.box i)

/-- `MailBox::Get`. -/
def get (i : Nat) : List (PostStmt T) := (critical SynchList.removeFront).map (.box i)

/-- One turn of the loop of `PostalDelivery`, behind the `P`. -/
def deliver (numBoxes : Nat) (p : PostOffice T) : Except Abort (PostOffice T × List (PostStmt T)) := do
  let (input, pktHdr, buffer) := p.sync.data.input.receive p.sync.data.buffer
  let mailHdr := MailHeader.decode buffer
  assert (0 ≤ mailHdr.to_.toInt ∧ mailHdr.to_.toInt < numBoxes)
  assert (mailHdr.length.toNat ≤ maxMailSize)
  let mail ← Mail.new p.mails pktHdr mailHdr (buffer.drop headerSize)
  let p := { p with
    sync := { p.sync with data := { p.sync.data with input := input, buffer := buffer } }
    mails := p.mails + 1 }
  return (p, put mailHdr.to_.toNat mail)

/-- What `Receive` returns when it removes a mail from the box `i`. -/
def handOut (i : Nat) (list : List Mail) :
    Stmt T (SynchListStmt Mail) → Except Abort (List (Nat × Message))
  | .caller .removeFront =>
    match list with
    | [] => return []
    | m :: _ => do
      assert (m.message.mailHdr.length.toNat ≤ maxMailSize)
      return [(i, m.message)]
  | _ => return []

/-- The first statement of thread `t`. -/
def exec (host : BitVec 32) (numBoxes : Nat) (r : Chance) (t : T) (p : PostOffice T) :
    List (PostStmt T) → Except Abort (PostOffice T × List (PostStmt T) × Effect T)
  | [] => return (p, [], .go)
  | .sync s :: c => do
    let (m, l, e) ← Sync.exec (act host r) t p.sync [s]
    return ({ p with sync := m }, l.map .sync ++ c, e)
  | .box i s :: c => do
    let o ← handOut i (p.boxes i).data s
    let (m, l, e) ← (p.boxes i).exec SynchList.step t [s]
    return ({ p with boxes := Function.update p.boxes i m, got := p.got ++ o }, l.map (.box i) ++ c, e)
  | .deliver :: c => do
    let (p, l) ← p.deliver numBoxes
    return (p, l ++ c, .go)
  | .loop :: c => return (p, .sync (.p none) :: .deliver :: .loop :: c, .go)
  | .receive i :: c => do
    assert (0 ≤ i ∧ i < numBoxes)
    return (p, get i.toNat ++ c, .go)

abbrev Config (T : Type) := Framework.Threads.Config (PostOffice T) (List (PostStmt T)) T

/-- The threads and the interrupts. -/
inductive Label (T : Type)
  | run (t : T) (r : Chance)
  | recvInt
  | sendInt (m : BitVec 32)

/-- `V` of a semaphore in an interrupt handler. -/
def post (c : Config T) (k : Option (BitVec 32)) : Config T :=
  { c with
    shared := { c.shared with sync := c.shared.sync.setSem k (c.shared.sync.sem k).v.1 }
    asleep := match (c.shared.sync.sem k).v.2 with
      | none => c.asleep
      | some u => Function.update c.asleep u false }

def setNetwork (c : Config T) (n : Network) : Config T :=
  { c with shared := { c.shared with sync := { c.shared.sync with data := n } } }

/-- One step of the whole system. -/
def next (host : BitVec 32) (numBoxes : Nat) (c : Config T) : Label T → Except Abort (Config T)
  | .run t r => Framework.Threads.next (exec host numBoxes r) c t
  | .recvInt => do
    let n := c.shared.sync.data
    let (input, b) ← n.input.callBack host
    let c := setNetwork c { n with input := input }
    return if b then post c none else c
  | .sendInt m =>
    let n := c.shared.sync.data
    if n.scheduled m = 0 then return c
    else return post (setNetwork c { n with
      sendBusy := Function.update n.sendBusy m false
      scheduled := Function.update n.scheduled m (n.scheduled m - 1) }) (some m)

def code : PostCall → List (PostStmt T)
  | .send x => (PostOffice.send x).map .sync
  | .receive i => [.receive i]

/-- The thread `worker` runs `PostalDelivery`, and each other thread `t` makes the
calls `calls t`. `hdr`, `inbox` and `buffer` are what was in memory. -/
def start (worker : T) (calls : T → List PostCall) (hdr : PacketHeader) (inbox buffer : List Byte) :
    Config T where
  shared :=
    { sync := ⟨fun _ => .new, fun _ => .new 0,
        ⟨.new hdr inbox, buffer, fun _ => false, fun _ => 0, []⟩⟩
      boxes := fun _ => .new []
      mails := 0
      got := [] }
  loc t := if t = worker then [.loop] else (calls t).flatMap code
  asleep _ := false

end PostOffice

end Nachos

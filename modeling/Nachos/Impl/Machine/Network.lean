import Nachos.Impl.Machine.Disk

/-!
# The network

`machine/network.cc`: datagrams of `MaxWireSize` bytes, a header and data, through
UNIX sockets. Received packets go through a buffer for one, which is full while
`inHdr.length` is not 0. `NetworkAddress` is `int`; a header lies in memory as its
words.
-/

namespace Nachos

/-- `class PacketHeader`. -/
structure PacketHeader where
  to_ : BitVec 32
  from_ : BitVec 32
  length : BitVec 32
  deriving DecidableEq

/-- `sizeof(PacketHeader)`, and `sizeof(MailHeader)`. -/
def headerSize : Nat := 12

/-- `MaxWireSize`. -/
def maxWireSize : Nat := 64

/-- `MaxPacketSize`. -/
def maxPacketSize : Nat := maxWireSize - headerSize

def PacketHeader.encode (h : PacketHeader) : List Byte := word.encodeAll [h.to_, h.from_, h.length]

def PacketHeader.decode (bs : List Byte) : PacketHeader :=
  match word.decodeAll 3 bs with
  | [a, b, c] => ⟨a, b, c⟩
  | _ => ⟨0, 0, 0⟩

/-- `bcopy(src, dst, n)`. -/
def bcopyTo (src dst : List Byte) (n : Nat) : List Byte := src.take n ++ dst.drop n

/-- `class NetworkInput`, the datagrams at its socket, and those read from it. -/
structure NetworkInput where
  inHdr : PacketHeader
  inbox : List Byte
  socket : List (List Byte)
  read : List (List Byte)

namespace NetworkInput

/-- `NetworkInput::NetworkInput`, with the memory of the object before it. -/
def new (inHdr : PacketHeader) (inbox : List Byte) : NetworkInput :=
  ⟨{ inHdr with length := 0 }, inbox, [], []⟩

/-- `NetworkInput::CallBack` on the machine `hostName`, and whether it calls
`callWhenAvail`. -/
def callBack (hostName : BitVec 32) (n : NetworkInput) : Except Abort (NetworkInput × Bool) :=
  if n.inHdr.length ≠ 0 then return (n, false)
  else match n.socket with
    | [] => return (n, false)
    | buffer :: socket => do
      assert (buffer.length = maxWireSize)
      let inHdr := PacketHeader.decode buffer
      assert (inHdr.to_ = hostName ∧ inHdr.length.toNat ≤ maxPacketSize)
      let inbox := bcopyTo (buffer.drop headerSize) n.inbox inHdr.length.toNat
      return (⟨inHdr, inbox, socket, n.read ++ [buffer]⟩, true)

/-- `NetworkInput::Receive(data)`: the header, and the memory at `data` after it. -/
def receive (n : NetworkInput) (data : List Byte) : NetworkInput × PacketHeader × List Byte :=
  ({ n with inHdr := { n.inHdr with length := 0 } }, n.inHdr,
    if n.inHdr.length ≠ 0 then bcopyTo n.inbox data n.inHdr.length.toNat else data)

end NetworkInput

/-- `NetworkOutput::Send` on the machine `hostName`: the datagram, when it is not lost.
`fresh` is the memory of the new buffer. -/
def networkSend (hostName : BitVec 32) (sendBusy : Bool) (hdr : PacketHeader) (data : List Byte)
    (fresh : Nat → Byte) : Except Abort (List Byte) := do
  assert (sendBusy = false ∧ 0 < hdr.length.toNat ∧ hdr.length.toNat ≤ maxPacketSize ∧
    hdr.from_ = hostName)
  return hdr.encode ++ data.take hdr.length.toNat ++
    (List.range (maxPacketSize - hdr.length.toNat)).map fresh

end Nachos

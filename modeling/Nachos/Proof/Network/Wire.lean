import Nachos.Impl.Network.Post
import Nachos.Proof.Filesys.FileHeader

/-!
# Mail on the wire

`Send` puts two headers and the payload in one datagram; the network device and
the postal worker take it apart again. `parse_of_wire`: what is taken apart is what
was sent, whatever the rest of the datagram holds. `callBack_full` and
`receive_full` follow a datagram through the buffers of the device and of the
worker.
-/

namespace Nachos

open Framework

/-! ## Headers -/

theorem words_encodeAll (a b c : BitVec 32) (rest : List Byte) :
    word.decodeAll 3 (word.encodeAll [a, b, c] ++ rest) = [a, b, c] := by
  rw [Codec.decodeAll_append _ (by rw [Codec.length_encodeAll word_lawful fun _ _ => trivial]; rfl)]
  show word.decodeAll [a, b, c].length (word.encodeAll [a, b, c]) = [a, b, c]
  exact Codec.decodeAll_encodeAll word_lawful fun _ _ => trivial

theorem length_words (a b c : BitVec 32) : (word.encodeAll [a, b, c]).length = headerSize := rfl

theorem PacketHeader.decode_encode (h : PacketHeader) (rest : List Byte) :
    decode (h.encode ++ rest) = h := by
  rw [decode, encode, words_encodeAll]

theorem MailHeader.decode_encode (h : MailHeader) (rest : List Byte) : decode (h.encode ++ rest) = h := by
  rw [decode, encode, words_encodeAll]

/-! ## Datagrams -/

/-- A mail for a box that the machine `host` has, and whose payload is there and fits. -/
structure Send.Valid (host : BitVec 32) (numBoxes : Nat) (x : Send) : Prop where
  length : x.mailHdr.length.toNat ≤ maxMailSize
  data : x.mailHdr.length.toNat ≤ x.data.length
  box : x.pktHdr.to_ = host → 0 ≤ x.mailHdr.to_.toInt ∧ x.mailHdr.to_.toInt < numBoxes

/-- The mail as it was sent. -/
def Send.message (x : Send) : Message :=
  ⟨x.header, x.mailHdr, x.data.take x.mailHdr.length.toNat⟩

/-- A packet: its header, and the memory with its data. -/
def unpack (hdr : PacketHeader) (buffer : List Byte) : Message :=
  ⟨hdr, .decode buffer, (buffer.drop headerSize).take (MailHeader.decode buffer).length.toNat⟩

/-- What a datagram holds. -/
def parse (w : List Byte) : Message := unpack (.decode w) (w.drop headerSize)

/-- A datagram of the mail `x`. -/
def Wire (x : Send) (w : List Byte) : Prop :=
  w.length = maxWireSize ∧ ∃ rest, w = x.header.encode ++ (x.buffer ++ rest)

section
variable {host : BitVec 32} {numBoxes : Nat} {x : Send} {w : List Byte}

theorem Send.Valid.length_header (h : x.Valid host numBoxes) :
    x.header.length.toNat = headerSize + x.mailHdr.length.toNat := by
  have hl := h.length
  simp only [maxMailSize, maxPacketSize, maxWireSize, headerSize] at hl
  simp only [Send.header, headerSize, BitVec.toNat_add, BitVec.toNat_ofNat]
  omega

theorem Send.Valid.header_le (h : x.Valid host numBoxes) :
    0 < x.header.length.toNat ∧ x.header.length.toNat ≤ maxPacketSize := by
  have hl := h.length
  rw [h.length_header]
  simp only [maxMailSize, maxPacketSize, maxWireSize, headerSize] at hl ⊢
  omega

theorem Send.Valid.header_ne (h : x.Valid host numBoxes) : x.header.length ≠ 0 := by
  intro e
  have := h.header_le.1
  rw [e] at this
  exact absurd this (by decide)

theorem Send.Valid.length_buffer (h : x.Valid host numBoxes) :
    x.buffer.length = x.header.length.toNat := by
  rw [h.length_header, Send.buffer, List.length_append, List.length_take, MailHeader.encode,
    length_words, Nat.min_eq_left h.data]

theorem unpack_buffer (h : x.Valid host numBoxes) (rest : List Byte) :
    unpack x.header (x.buffer ++ rest) = x.message := by
  have hl : (x.data.take x.mailHdr.length.toNat).length = x.mailHdr.length.toNat := by
    rw [List.length_take, Nat.min_eq_left h.data]
  have hd : (x.buffer ++ rest).drop headerSize = x.data.take x.mailHdr.length.toNat ++ rest := by
    rw [Send.buffer, List.append_assoc]
    exact List.drop_left' (length_words ..)
  have hm : MailHeader.decode (x.buffer ++ rest) = x.mailHdr := by
    rw [Send.buffer, List.append_assoc, MailHeader.decode_encode]
  simp only [unpack, hm, hd, Send.message]
  congr 1
  exact List.take_left' hl

theorem Wire.decode (h : Wire x w) : PacketHeader.decode w = x.header := by
  obtain ⟨-, rest, rfl⟩ := h
  exact PacketHeader.decode_encode _ _

theorem Wire.drop (h : Wire x w) : ∃ rest, w.drop headerSize = x.buffer ++ rest := by
  obtain ⟨-, rest, rfl⟩ := h
  exact ⟨rest, List.drop_left' (length_words ..)⟩

/-- The round trip. -/
theorem parse_of_wire (hv : x.Valid host numBoxes) (h : Wire x w) : parse w = x.message := by
  obtain ⟨rest, hd⟩ := h.drop
  rw [parse, h.decode, hd, unpack_buffer hv]

theorem map_parse {l : List Send} {ws : List (List Byte)} (hv : ∀ x ∈ l, x.Valid host numBoxes)
    (h : List.Forall₂ Wire l ws) : ws.map parse = l.map Send.message := by
  induction h with
  | nil => rfl
  | cons hw _ ih =>
    rw [List.map_cons, List.map_cons, parse_of_wire (hv _ List.mem_cons_self) hw,
      ih fun x hx => hv x (List.mem_cons_of_mem _ hx)]

theorem wire_networkSend (h : x.Valid host numBoxes) {busy : Bool} {fresh : Nat → Byte}
    (hw : networkSend x.from_ busy x.header x.buffer fresh = .ok w) : Wire x w := by
  obtain ⟨-, -, hw⟩ := bind_eq_ok.mp hw
  cases hw
  have hl := h.length_buffer
  refine ⟨?_, (List.range (maxPacketSize - x.header.length.toNat)).map fresh, ?_⟩
  · have hle := h.header_le.2
    rw [List.length_append, List.length_append, PacketHeader.encode, length_words, List.length_take,
      List.length_map, List.length_range, hl]
    simp only [maxPacketSize, maxWireSize, headerSize] at hle ⊢
    omega
  · rw [List.take_of_length_le hl.le, List.append_assoc]

/-! ## The buffers -/

/-- The device holds the packet of `x`. -/
structure Holds (n : NetworkInput) (x : Send) : Prop where
  inHdr : n.inHdr = x.header
  inbox : ∃ rest, n.inbox = x.buffer ++ rest

theorem bcopyTo_prefix {l r : List Byte} (d : List Byte) {n : Nat} (h : l.length = n) :
    ∃ rest, bcopyTo (l ++ r) d n = l ++ rest :=
  ⟨d.drop n, by rw [bcopyTo, List.take_left' h]⟩

/-- The device reads a datagram into its free buffer. -/
theorem callBack_full {n : NetworkInput} {socket : List (List Byte)} (hn : n.inHdr.length = 0)
    (hs : n.socket = w :: socket) (hv : x.Valid host numBoxes) (hh : x.pktHdr.to_ = host)
    (hw : Wire x w) : ∃ n', n.callBack host = .ok (n', true) ∧ Holds n' x ∧ n'.socket = socket ∧
      n'.read = n.read ++ [w] := by
  have hd := hw.decode
  have hto : x.header.to_ = host := hh
  obtain ⟨rest, hr⟩ := hw.drop
  obtain ⟨rest', hb⟩ := bcopyTo_prefix (r := rest) n.inbox hv.length_buffer
  refine ⟨⟨x.header, bcopyTo (w.drop headerSize) n.inbox x.header.length.toNat, socket,
    n.read ++ [w]⟩, ?_, ⟨rfl, rest', by rw [hr, hb]⟩, rfl, rfl⟩
  rw [NetworkInput.callBack, if_neg (by simp [hn]), hs]
  simp only [hd, assert_of hw.1, assert_of (And.intro hto hv.header_le.2), ok_bind]
  rfl

/-- The worker takes it from there. -/
theorem receive_full {n : NetworkInput} (h : Holds n x) (hv : x.Valid host numBoxes) (d : List Byte) :
    ∃ rest, n.receive d = ({ n with inHdr := { n.inHdr with length := 0 } }, x.header,
      x.buffer ++ rest) := by
  obtain ⟨rest, hb⟩ := h.inbox
  obtain ⟨rest', hc⟩ := bcopyTo_prefix (r := rest) d hv.length_buffer
  refine ⟨rest', ?_⟩
  rw [NetworkInput.receive, h.inHdr, if_pos hv.header_ne, hb, hc]

end

end Nachos

import PCom.Foundations.Decimal
import PCom.Foundations.Words

/-! # The packets of the publish/subscribe protocol

The packed structs of `helper.h` and the conversion `udp_to_tcp`. A `TCP_Packet` comes
from `calloc` and each of its arrays is written once, so a field is a `CString`. What is
received lies in a zero-filled buffer: bytes past the received ones read as zero.
-/

namespace PCom.PubSub
open Foundations

def bufLen : ℕ := 1552

def maxLen : ℕ := 1501

structure TcpPacket where
  size : CString 10
  ip : CString 16
  port : UInt16
  type : CString 11
  topic : CString 51
  payload : CString maxLen
deriving DecidableEq

def sizeofTcpPacket : ℕ := 10 + 16 + 2 + 11 + 51 + maxLen

/-- The struct in memory; `port` is stored in the order of a little-endian host. -/
def TcpPacket.bytes (p : TcpPacket) : Bytes :=
  p.size.bytes ++ (p.ip.bytes ++ (UInt8.ofNat p.port.toNat :: UInt8.ofNat (p.port.toNat / 256) ::
    (p.type.bytes ++ (p.topic.bytes ++ p.payload.bytes))))

/-- The two `send` calls for one packet: the size field, then `atoi(size)` bytes of the struct. -/
def TcpPacket.frame (p : TcpPacket) : Bytes :=
  p.size.bytes ++ p.bytes.take (atoi p.size.bytes).toNat

/-- A datagram seen as a `UDP_Packet`; `topic` has 50 bytes. -/
structure UdpPacket where
  topic : Bytes
  type : UInt8
  payload : Bytes

structure SockAddr where
  sinAddr : UInt8 × UInt8 × UInt8 × UInt8
  sinPort : UInt8 × UInt8

def SockAddr.ntohs (addr : SockAddr) : UInt16 :=
  UInt16.ofNat (addr.sinPort.1.toNat * 256 + addr.sinPort.2.toNat)

def SockAddr.inetNtoa (addr : SockAddr) : Bytes :=
  decimal addr.sinAddr.1.toNat ++ ascii "." ++ decimal addr.sinAddr.2.1.toNat ++ ascii "." ++
    decimal addr.sinAddr.2.2.1.toNat ++ ascii "." ++ decimal addr.sinAddr.2.2.2.toNat

/-- A byte read through `char`, which is signed. -/
def schar (c : UInt8) : ℤ := c.toInt8.toInt

/-- `%.2f` of `n / 100`. -/
def twoDecimals (n : ℕ) : Bytes :=
  decimal (n / 100) ++ ascii "." ++ [digitChar (n / 10 % 10), digitChar (n % 10)]

/-- The type name and the payload text of a message. `printDouble neg n e` is the text that
`%lf` prints for the double `± n / pow(10, e)`. The result is `none` where `DIE` ends the
server. -/
def udpText (printDouble : Bool → ℕ → ℤ → Bytes) (udp : UdpPacket) : Option (Bytes × Bytes) :=
  let sign := udp.payload.getD 0 0
  if udp.type = 0 then
    if 1 < schar sign then none
    else some (ascii "INT", decimalInt ((if sign ≠ 0 then -1 else 1) * be32 udp.payload 1))
  else if udp.type = 1 then some (ascii "SHORT_REAL", twoDecimals (be16 udp.payload 0))
  else if udp.type = 2 then
    if 1 < schar sign then none
    else some (ascii "FLOAT",
      printDouble (sign ≠ 0) (be32 udp.payload 1) (schar (udp.payload.getD 5 0)))
  else if udp.type = 3 then some (ascii "STRING", cstr udp.payload)
  else none

/-- `udp_to_tcp`; `none` also where a text does not fit its field. -/
def udpToTcp (printDouble : Bool → ℕ → ℤ → Bytes) (udp : UdpPacket) (addr : SockAddr) :
    Option TcpPacket := do
  let (type, text) ← udpText printDouble udp
  let ip ← CString.strcpy 16 addr.inetNtoa
  let topic ← CString.strcpy 51 udp.topic
  let type ← CString.strcpy 11 type
  let payload ← CString.strcpy maxLen text
  let size ← CString.strcpy 10 (decimal (sizeofTcpPacket - maxLen + payload.chars.length))
  return ⟨size, ip, addr.ntohs, type, topic, payload⟩

/-- `TCP_Packet.size` holds the length of the struct up to the end of the payload text. -/
theorem udpToTcp_size {printDouble : Bool → ℕ → ℤ → Bytes} {udp : UdpPacket} {addr : SockAddr}
    {p : TcpPacket} (h : udpToTcp printDouble udp addr = some p) :
    p.size.chars = decimal (90 + p.payload.chars.length) := by
  simp only [udpToTcp, Option.bind_eq_bind, Option.bind_eq_some_iff, Option.pure_def,
    Option.some.injEq] at h
  obtain ⟨⟨type, text⟩, -, ip, -, topic, -, type, -, payload, -, size, hsize, rfl⟩ := h
  rw [CString.strcpy_eq_some.mp hsize, cstr_of_nul_free (decimal_nul_free _)]
  rfl

/-- The `Action` struct as the server's string functions read it from its receive buffer. -/
structure Action where
  type : Bytes
  topic : Bytes
  sf : UInt8
  topic_nul_free : 0 ∉ topic

instance : DecidableEq Action := fun a b =>
  decidable_of_iff (a.type = b.type ∧ a.topic = b.topic ∧ a.sf = b.sf) (by cases a; cases b; simp)

/-- `sizeof(Action)`: `char type[20]`, `char topic[51]` and `sf`. -/
def sizeofAction : ℕ := 20 + 51 + 1

def Action.ofBuffer (buffer : Bytes) : Action where
  type := cstr buffer
  topic := cstr (buffer.drop 20)
  sf := buffer.getD 71 0
  topic_nul_free := cstr_nul_free _

def unsubsc : Bytes := ascii "unsubscribe"

def subsc : Bytes := ascii "subscribe"

/-- A subscribe to the topic `t` that asks for storing. -/
def subscribeT : Action := ⟨subsc, ascii "t", 1, by decide⟩

def unsubscribeT : Action := ⟨unsubsc, ascii "t", 2, by decide⟩

def oneIp : CString 16 := ⟨ascii "1.1.1.1", by decide, by decide⟩

def stringType : CString 11 := ⟨ascii "STRING", by decide, by decide⟩

def packetT : TcpPacket :=
  ⟨⟨ascii "91", by decide, by decide⟩, oneIp, 1, stringType, ⟨ascii "t", by decide, by decide⟩,
    ⟨ascii "x", by decide, by decide⟩⟩

end PCom.PubSub

import PCom.Foundations.Words

/-! # Frames and their headers

The fields that the router reads at their places in a frame, the checksums, and the frames that
`skel.c` builds. An IPv4 header has no options: the code takes it to be 20 bytes long.
-/

namespace PCom.Router
open Foundations

def maxLen : ℕ := 1600

structure Packet where
  len : ℕ
  payload : Bytes
  interface : ℤ
deriving DecidableEq

def etherTypeIp : ℕ := 0x0800

def etherTypeArp : ℕ := 0x0806

def arpOpRequest : ℕ := 1

def arpOpReply : ℕ := 2

def icmpEcho : UInt8 := 8

def etherDhost (mem : Bytes) : Bytes := mem.take 6

def etherShost (mem : Bytes) : Bytes := (mem.drop 6).take 6

def etherType (mem : Bytes) : ℕ := be16 mem 12

def ipHeader (mem : Bytes) : Bytes := (mem.drop 14).take 20

def ipTtl (mem : Bytes) : ℕ := (mem.getD 22 0).toNat

def ipProtocol (mem : Bytes) : UInt8 := mem.getD 23 0

def ipSaddr (mem : Bytes) : BitVec 32 := le32 mem 26

def ipDaddr (mem : Bytes) : BitVec 32 := le32 mem 30

structure ArpHeader where
  op : ℕ
  sha : Bytes
  spa : BitVec 32
  tha : Bytes
  tpa : BitVec 32
deriving DecidableEq

/-- `parse_arp`, with the fields that the router reads. -/
def parseArp (mem : Bytes) : Option ArpHeader :=
  if etherType mem = etherTypeArp then
    some ⟨be16 mem 20, (mem.drop 22).take 6, le32 mem 28, (mem.drop 32).take 6, le32 mem 38⟩
  else none

/-- `parse_icmp`, with the type of the message. -/
def parseIcmp (mem : Bytes) : Option UInt8 :=
  if etherType mem = etherTypeIp then
    if ipProtocol mem = 1 then some (mem.getD 34 0) else none
  else none

/-- The sum of the 32-bit words; a partial word at the end is filled up with zeros. -/
def wordSum : Bytes → ℕ
  | a :: b :: c :: d :: data => be32 [a, b, c, d] 0 + wordSum data
  | data => be32 data 0

/-- The loop that adds the deferred carries, for `fuel` rounds. -/
def foldCarries : ℕ → ℕ → ℕ
  | 0, acc => acc
  | fuel + 1, acc => if acc / 65536 = 0 then acc else foldCarries fuel (acc % 65536 + acc / 65536)

/-- `ip_checksum` of the data at an address. The sum stays far below the 64 bits of the
accumulator. -/
def ipChecksum (address : ℕ) (data : Bytes) : ℕ :=
  let offset := address % 4
  let count := if offset = 0 then 0 else min (4 - offset) data.length
  let first := if offset = 0 then 0 else be32 (List.replicate offset 0 ++ data.take count) 0
  let acc := 0xffff + first + wordSum (data.drop count)
  let acc := foldCarries 3 (acc % 4294967296 + acc / 4294967296)
  let acc := if offset % 2 = 1 then acc / 256 % 256 + acc % 256 * 256 else acc
  0xffff - acc

theorem foldCarries_lt {acc : ℕ} (h : acc < 2 ^ 33) : foldCarries 3 acc < 2 ^ 16 := by
  simp only [foldCarries]
  split
  · omega
  split
  · omega
  split
  · omega
  · omega

def leSum : Bytes → ℕ
  | a :: b :: data => a.toNat + 256 * b.toNat + leSum data
  | _ => 0

/-- `icmp_checksum` of an even number of bytes. -/
def icmpChecksum (data : Bytes) : ℕ :=
  let cksum := leSum data
  let cksum := cksum / 65536 + cksum % 65536
  let cksum := cksum + cksum / 65536
  0xffff - cksum % 65536

def buildEthhdr (sha dha : Bytes) (type : ℕ) : Bytes := dha ++ sha ++ bytesBe16 type

/-- The frame of an ICMP message without data, with an IPv4 header of its own. -/
def icmpFrame (daddr saddr : BitVec 32) (sha dha : Bytes) (type code : UInt8) (id seq : ℕ) : Bytes :=
  let ip (check : ℕ) := [0x45, 0] ++ bytesBe16 28 ++ bytesBe16 1 ++ [0, 0, 64, 1] ++ bytesBe16 check ++
    bytesLe32 saddr ++ bytesLe32 daddr
  let icmp (checksum : ℕ) := [type, code] ++ bytesLe16 checksum ++ bytesLe16 id ++ bytesLe16 seq
  buildEthhdr sha dha etherTypeIp ++ ip (ipChecksum 0 (ip 0)) ++ icmp (icmpChecksum (icmp 0))

def sendIcmp (daddr saddr : BitVec 32) (sha dha : Bytes) (type code : UInt8) (id seq : ℕ) : Bytes :=
  icmpFrame daddr saddr sha dha type code id seq

def sendIcmpError (daddr saddr : BitVec 32) (sha dha : Bytes) (type code : UInt8) : Bytes :=
  icmpFrame daddr saddr sha dha type code 0 0

/-- The frame of `send_arp`; the hardware addresses are those of the Ethernet header. -/
def sendArp (daddr saddr : BitVec 32) (shost dhost : Bytes) (etherType arpOp : ℕ) : Bytes :=
  dhost ++ shost ++ bytesBe16 etherType ++
    (bytesBe16 1 ++ bytesBe16 2048 ++ [6, 4] ++ bytesBe16 arpOp ++ shost ++ bytesLe32 saddr ++
      dhost ++ bytesLe32 daddr)

end PCom.Router

/-
# `Parsecap.Frames` — captures of TCP segments

What a little-endian capture file holds: a global header, and for each Ethernet frame a
packet header with its length, twice, before it.  The frames have IPv4 datagrams in them
and these TCP segments.

    packet     timestamps · length · length · frame
    frame      MAC addresses · EtherType · IP header · IP options · segment · padding
    segment    TCP header · TCP options · payload

The lengths of a frame's parts are its `Layout`.
-/
import Mathlib.Data.List.GetD
import Nyctomek.Parsecap.Basic

namespace Nyctomek.Parsecap

open Prog

/-! ## Numbers as bytes -/

/-- Two bytes in network order. -/
def be16 (x : Nat) : Bytes := [UInt8.ofNat (x / 256), UInt8.ofNat x]

/-- Four bytes in network order. -/
def be32 (x : Nat) : Bytes := be16 (x / 65536) ++ be16 x

/-- Four bytes, the low one first. -/
def le32 (x : Nat) : Bytes :=
  [UInt8.ofNat x, UInt8.ofNat (x / 256), UInt8.ofNat (x / 65536), UInt8.ofNat (x / 16777216)]

theorem toNat_ofNat (x : Nat) : (UInt8.ofNat x).toNat = x % 256 := UInt8.toNat_ofNat'

theorem unsignedAt_le32 {x : Nat} (h : x < 4294967296) : unsignedAt (le32 x) 0 = x := by
  simp only [unsignedAt, shortAt, charAt, le32, List.getD_cons_zero, List.getD_cons_succ,
    toNat_ofNat]
  omega

theorem charAt_lt (buffer : Bytes) (i : Nat) : charAt buffer i < 256 := UInt8.toNat_lt _

/-- A number in network order. -/
theorem ntohs_shortAt (buffer : Bytes) (i : Nat) :
    ntohs (shortAt buffer i) = 256 * charAt buffer i + charAt buffer (i + 1) := by
  have h := charAt_lt buffer i
  rw [ntohs, shortAt, Nat.add_mul_mod_self_left, Nat.mod_eq_of_lt h,
    Nat.add_mul_div_left _ _ (by decide : 0 < 256), Nat.div_eq_of_lt h, Nat.zero_add]

theorem ntohl_unsignedAt (buffer : Bytes) (i : Nat) : ntohl (unsignedAt buffer i)
    = 65536 * ntohs (shortAt buffer i) + ntohs (shortAt buffer (i + 2)) := by
  have h : shortAt buffer i < 65536 := by
    have h₀ := charAt_lt buffer i
    have h₁ := charAt_lt buffer (i + 1)
    rw [shortAt]
    omega
  rw [ntohl, unsignedAt, Nat.add_mul_mod_self_left, Nat.mod_eq_of_lt h,
    Nat.add_mul_div_left _ _ (by decide : 0 < 65536), Nat.div_eq_of_lt h, Nat.zero_add]

theorem ntohs_be16 {x : Nat} (h : x < 65536) (rest : Bytes) :
    ntohs (shortAt (be16 x ++ rest) 0) = x := by
  rw [ntohs_shortAt]
  show 256 * (UInt8.ofNat (x / 256)).toNat + (UInt8.ofNat x).toNat = x
  rw [toNat_ofNat, toNat_ofNat]
  omega

theorem ntohl_be32 {x : Nat} (h : x < 4294967296) (rest : Bytes) :
    ntohl (unsignedAt (be32 x ++ rest) 0) = x := by
  have hhigh : x / 65536 < 65536 := by omega
  have hlow : ntohs (shortAt (be16 x ++ rest) 0) = x % 65536 := by
    rw [ntohs_shortAt]
    show 256 * (UInt8.ofNat (x / 256)).toNat + (UInt8.ofNat x).toNat = x % 65536
    rw [toNat_ofNat, toNat_ofNat]
    omega
  have hbytes : be32 x ++ rest = be16 (x / 65536) ++ (be16 x ++ rest) := List.append_assoc _ _ _
  rw [ntohl_unsignedAt, hbytes, ntohs_be16 hhigh]
  show 65536 * (x / 65536) + ntohs (shortAt (be16 x ++ rest) 0) = x
  rw [hlow]
  omega

/-- Behind the first bytes of a buffer. -/
theorem charAt_append {front : Bytes} {n : Nat} (h : front.length = n) (buffer : Bytes) (i : Nat) :
    charAt (front ++ buffer) (n + i) = charAt buffer i := by
  subst h
  rw [charAt, charAt, List.getD_append_right _ _ _ _ (Nat.le_add_right _ _),
    Nat.add_sub_cancel_left]

theorem shortAt_append {front : Bytes} {n : Nat} (h : front.length = n) (buffer : Bytes) (i : Nat) :
    shortAt (front ++ buffer) (n + i) = shortAt buffer i := by
  rw [shortAt, shortAt, charAt_append h, Nat.add_assoc, charAt_append h]

theorem unsignedAt_append {front : Bytes} {n : Nat} (h : front.length = n) (buffer : Bytes)
    (i : Nat) : unsignedAt (front ++ buffer) (n + i) = unsignedAt buffer i := by
  rw [unsignedAt, unsignedAt, shortAt_append h, Nat.add_assoc, shortAt_append h]

/-! ## Frames -/

/-- The lengths of a frame's parts; options come in words of four bytes. -/
structure Layout where
  ipOptionWords : Nat
  tcpOptionWords : Nat
  payloadLen : Nat
  paddingLen : Nat
  ip_le : ipOptionWords ≤ 10
  tcp_le : tcpOptionWords ≤ 10
  /-- The IP header has its total length in 16 bits. -/
  total_le : 40 + 4 * ipOptionWords + 4 * tcpOptionWords + payloadLen ≤ 65535
  /-- No length is above the greatest snapshot length. -/
  frame_le : 54 + 4 * ipOptionWords + 4 * tcpOptionWords + payloadLen + paddingLen ≤ 2147483647
  deriving DecidableEq, Repr

namespace Layout
variable (l : Layout)

def ipHeaderLen : Nat := 20 + 4 * l.ipOptionWords

def tcpHeaderLen : Nat := 20 + 4 * l.tcpOptionWords

def totalLen : Nat := l.ipHeaderLen + l.tcpHeaderLen + l.payloadLen

def frameLen : Nat := 14 + l.totalLen + l.paddingLen

theorem totalLen_lt : l.totalLen < 65536 := by
  have hle := l.total_le
  rw [totalLen, ipHeaderLen, tcpHeaderLen]
  omega

theorem frameLen_le : l.frameLen ≤ 2147483647 := by
  have hle := l.frame_le
  rw [frameLen, totalLen, ipHeaderLen, tcpHeaderLen]
  omega

end Layout

/-- A frame with a TCP segment, and the time at which it was captured. -/
structure Frame where
  layout : Layout
  timestamps : Bytes
  macAddresses : Bytes
  typeOfService : UInt8
  /-- Identification, flags, fragment offset and time to live. -/
  fragment : Bytes
  /-- The header's checksum and the addresses. -/
  ipAddresses : Bytes
  ipOptions : Bytes
  sourcePort : UInt16
  destinationPort : UInt16
  sequenceNumber : UInt32
  acknowledgment : Bytes
  reserved : Fin 16
  /-- Flags, window, checksum and urgent pointer. -/
  flags : Bytes
  tcpOptions : Bytes
  payload : Bytes
  padding : Bytes
  timestamps_length : timestamps.length = 8
  macAddresses_length : macAddresses.length = 12
  fragment_length : fragment.length = 5
  ipAddresses_length : ipAddresses.length = 10
  ipOptions_length : ipOptions.length = 4 * layout.ipOptionWords
  acknowledgment_length : acknowledgment.length = 4
  flags_length : flags.length = 7
  tcpOptions_length : tcpOptions.length = 4 * layout.tcpOptionWords
  payload_length : payload.length = layout.payloadLen
  padding_length : padding.length = layout.paddingLen

namespace Frame
variable (f : Frame)

/-- Version 4, and the header's length in words; the protocol is 6. -/
def ipHeader : Bytes :=
  [UInt8.ofNat (64 + (5 + f.layout.ipOptionWords)), f.typeOfService] ++ (be16 f.layout.totalLen ++
    (f.fragment ++ (6 :: f.ipAddresses)))

def tcpHeader : Bytes :=
  be16 f.sourcePort.toNat ++ (be16 f.destinationPort.toNat ++ (be32 f.sequenceNumber.toNat ++
    (f.acknowledgment ++
      (UInt8.ofNat (16 * (5 + f.layout.tcpOptionWords) + f.reserved.val) :: f.flags))))

/-- What stands behind the 20 bytes that every IP header has. -/
def behindIpHeader : Bytes :=
  f.ipOptions ++ (f.tcpHeader ++ (f.tcpOptions ++ (f.payload ++ f.padding)))

/-- The frame; `0x0800` stands for IPv4. -/
def bytes : Bytes := f.macAddresses ++ (be16 0x0800 ++ (f.ipHeader ++ f.behindIpHeader))

/-- The frame in the capture file. -/
def packet : Bytes :=
  f.timestamps ++ (le32 f.layout.frameLen ++ (le32 f.layout.frameLen ++ f.bytes))

/-- The payload, if it is one of the server's. -/
def serverPayload : Option TCPPayload :=
  if f.sourcePort = 80 ∧ f.payload ≠ [] then some (.of f.sequenceNumber f.payload) else none

theorem packet_append (rest : Bytes) : f.packet ++ rest = f.timestamps ++
    ((le32 f.layout.frameLen ++ le32 f.layout.frameLen) ++ (f.bytes ++ rest)) := by
  simp only [packet, List.append_assoc]

end Frame

/-- A capture of whole frames; the snapshot length is a bound for theirs. -/
structure Capture where
  corrections : Bytes
  snapshotLen : UInt32
  frames : List Frame
  corrections_length : corrections.length = 8
  snapshotLen_ge : ∀ f ∈ frames, f.layout.frameLen ≤ snapshotLen.toNat

namespace Capture
variable (c : Capture)

/-- Version 2.4, for Ethernet. -/
def globalHeader : Bytes :=
  [0xd4, 0xc3, 0xb2, 0xa1, 2, 0, 4, 0] ++
    (c.corrections ++ (le32 c.snapshotLen.toNat ++ [1, 0, 0, 0]))

def file : Bytes := c.globalHeader ++ c.frames.flatMap Frame.packet

/-- The server's payloads, in the order of the frames. -/
def serverPayloads : List TCPPayload := c.frames.filterMap Frame.serverPayload

theorem length_globalHeader : c.globalHeader.length = PCAP_LEN_GLOBAL_HEADER := by
  simp [globalHeader, c.corrections_length, le32]

end Capture

namespace Frame
variable (f : Frame)

theorem length_ipHeader : f.ipHeader.length = 20 := by
  simp [ipHeader, be16, f.fragment_length, f.ipAddresses_length]

theorem length_tcpHeader : f.tcpHeader.length = 20 := by
  simp [tcpHeader, be16, be32, f.acknowledgment_length, f.flags_length]

theorem length_behindIpHeader : f.behindIpHeader.length
    = 20 + 4 * f.layout.ipOptionWords + 4 * f.layout.tcpOptionWords + f.layout.payloadLen
      + f.layout.paddingLen := by
  simp only [behindIpHeader, List.length_append, f.ipOptions_length, f.length_tcpHeader,
    f.tcpOptions_length, f.payload_length, f.padding_length]
  omega

theorem length_bytes : f.bytes.length = f.layout.frameLen := by
  simp only [bytes, List.length_append, f.macAddresses_length, f.length_ipHeader,
    f.length_behindIpHeader, be16, List.length_cons, List.length_nil, Layout.frameLen,
    Layout.totalLen, Layout.ipHeaderLen, Layout.tcpHeaderLen]
  omega

/-! ### The fields of the headers -/

theorem headerLen_ipHeader : 4 * (charAt f.ipHeader 0 &&& 0x0F) = f.layout.ipHeaderLen := by
  have hle := f.layout.ip_le
  have hbyte : charAt f.ipHeader 0 = 64 + (5 + f.layout.ipOptionWords) := by
    show (UInt8.ofNat _).toNat = _
    rw [toNat_ofNat]
    omega
  rw [hbyte, Nat.and_two_pow_sub_one_eq_mod _ 4, Layout.ipHeaderLen]
  omega

theorem totalLen_ipHeader :
    ntohs (shortAt f.ipHeader IP_HEADER_OFFSET_TOTAL_LENGTH) = f.layout.totalLen := by
  have hfront : [UInt8.ofNat (64 + (5 + f.layout.ipOptionWords)), f.typeOfService].length = 2 := rfl
  rw [ipHeader]
  exact (congrArg ntohs (shortAt_append hfront _ 0)).trans (ntohs_be16 f.layout.totalLen_lt _)

theorem protocol_ipHeader : charAt f.ipHeader IP_HEADER_OFFSET_PROTOCOL = 6 := by
  have hfront : ([UInt8.ofNat (64 + (5 + f.layout.ipOptionWords)), f.typeOfService]
      ++ (be16 f.layout.totalLen ++ f.fragment)).length = 9 := by
    simp [be16, f.fragment_length]
  have hbytes : f.ipHeader = ([UInt8.ofNat (64 + (5 + f.layout.ipOptionWords)), f.typeOfService]
      ++ (be16 f.layout.totalLen ++ f.fragment)) ++ 6 :: f.ipAddresses := by
    simp [ipHeader]
  rw [hbytes]
  exact charAt_append hfront _ 0

theorem ofBuffer_tcpHeader : TCPHeader.ofBuffer f.tcpHeader
    = ⟨f.sourcePort.toNat, f.layout.tcpHeaderLen, f.sequenceNumber.toNat⟩ := by
  have hports : (be16 f.sourcePort.toNat ++ be16 f.destinationPort.toNat).length = 4 := rfl
  have hfront : (be16 f.sourcePort.toNat ++ (be16 f.destinationPort.toNat ++
      (be32 f.sequenceNumber.toNat ++ f.acknowledgment))).length = 12 := by
    simp [be16, be32, f.acknowledgment_length]
  have hsequence : ntohl (unsignedAt f.tcpHeader TCP_HEADER_OFFSET_SEQUENCE_NUM)
      = f.sequenceNumber.toNat := by
    rw [tcpHeader, ← List.append_assoc]
    exact (congrArg ntohl (unsignedAt_append hports _ 0)).trans
      (ntohl_be32 f.sequenceNumber.toNat_lt _)
  have hbyte : charAt f.tcpHeader TCP_HEADER_OFFSET_HEADER_LEN
      = 16 * (5 + f.layout.tcpOptionWords) + f.reserved.val := by
    have hle := f.layout.tcp_le
    have hbytes : f.tcpHeader = (be16 f.sourcePort.toNat ++ (be16 f.destinationPort.toNat ++
        (be32 f.sequenceNumber.toNat ++ f.acknowledgment))) ++
        UInt8.ofNat (16 * (5 + f.layout.tcpOptionWords) + f.reserved.val) :: f.flags := by
      simp [tcpHeader]
    rw [hbytes]
    refine (charAt_append hfront _ 0).trans ?_
    show (UInt8.ofNat _).toNat = _
    rw [toNat_ofNat]
    omega
  rw [TCPHeader.ofBuffer, hsequence, hbyte, Nat.shiftRight_eq_div_pow]
  congr 1
  · exact ntohs_be16 f.sourcePort.toNat_lt _
  · rw [Layout.tcpHeaderLen]
    omega

end Frame

end Nyctomek.Parsecap

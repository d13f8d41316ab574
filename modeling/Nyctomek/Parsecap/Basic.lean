/-
# `Parsecap.Basic` — `parsecap.c`

The program reads a capture file packet by packet, keeps the payloads that come from
port 80, sorts them by their sequence numbers and writes what is behind the HTTP
header to an image file.

    packetLoop      the file          ⟶  the payloads, in its order
    reassemble      the payloads      ⟶  the bytes of the image

The machine is a little-endian one, with an `int` of 32 bits and an `off_t` of 64.  A
conversion to a narrower type keeps the low bits: `toShort`, `toUnsigned`, `toInt`.
Packets and payloads are counted by natural numbers.
-/
import Mathlib.Algebra.Ring.Int.Defs
import Nyctomek.Prog.Bytes
import Nyctomek.Prog.Loop
import Nyctomek.Prog.Search
import Nyctomek.Prog.StdSort

namespace Nyctomek.Parsecap

open Prog

/-- How the program comes to an end too early. -/
inductive Fault where
  | seeking
  | captureTruncated
  | captureInvalid
  /-- Undefined: an `int` that overflows. -/
  | overflow
  /-- Undefined: arithmetic on the null pointer. -/
  | nullPointer
  deriving DecidableEq, Repr

/-- `TCPPayload_t`; behind the payload `data` has a NUL. -/
structure TCPPayload where
  data : Bytes
  payloadLen : UInt16
  sequenceNumber : UInt32
  deriving DecidableEq, Repr

/-- A payload that has been read whole. -/
def TCPPayload.of (sequenceNumber : UInt32) (payload : Bytes) : TCPPayload :=
  ⟨payload ++ [0], UInt16.ofNat payload.length, sequenceNumber⟩

def compareSequenceNumbers (lhs rhs : TCPPayload) : Int :=
  if lhs.sequenceNumber < rhs.sequenceNumber then -1
  else if lhs.sequenceNumber > rhs.sequenceNumber then 1
  else 0

/-! ## Numbers in a buffer -/

def toShort (x : Int) : Nat := (x % 65536).toNat

def toUnsigned (x : Int) : Nat := (x % 4294967296).toNat

def toInt (x : Int) : Int := (x + 2147483648) % 4294967296 - 2147483648

def INT_MAX : Int := 2147483647

/-- A byte of a buffer, which is 0 where nothing has been read. -/
def charAt (buffer : Bytes) (i : Nat) : Nat := (buffer.getD i 0).toNat

/-- `*(unsigned short*)(buffer + i)`. -/
def shortAt (buffer : Bytes) (i : Nat) : Nat := charAt buffer i + 256 * charAt buffer (i + 1)

/-- `*(unsigned int*)(buffer + i)`. -/
def unsignedAt (buffer : Bytes) (i : Nat) : Nat :=
  shortAt buffer i + 65536 * shortAt buffer (i + 2)

def ntohs (x : Nat) : Nat := 256 * (x % 256) + x / 256

def ntohl (x : Nat) : Nat := 65536 * ntohs (x % 65536) + ntohs (x / 65536)

/-! ## Reading packets -/

abbrev PCAP_LEN_TIMESTAMPS : Nat := 8
abbrev PCAP_LEN_DATA_FIELDS : Nat := 8
abbrev PCAP_LEN_GLOBAL_HEADER : Nat := 24
abbrev PCAP_LEN_DATA_CAPTURED_FIELD : Nat := 4
abbrev ETHER_MAC_ADDRESS_LEN : Nat := 6
abbrev ETHER_TYPE_LEN : Nat := 2
abbrev IP_HEADER_REQUIRED_FIELDS_LEN : Nat := 20
abbrev IP_HEADER_OFFSET_TOTAL_LENGTH : Nat := 2
abbrev IP_HEADER_OFFSET_PROTOCOL : Nat := 9
abbrev TCP_HEADER_REQUIRED_FIELDS_LEN : Nat := 20
abbrev TCP_HEADER_OFFSET_SEQUENCE_NUM : Nat := 4
abbrev TCP_HEADER_OFFSET_HEADER_LEN : Nat := 12

/-- Where the file is read, the variables of the loop, and the list from `head` on. -/
structure PacketState where
  pos : Nat
  numPackets : Nat
  offsetToNextPacket : Int
  etherType : Nat
  transportProtocol : Nat
  payloads : List TCPPayload
  deriving DecidableEq, Repr

/-- What leaves the loop in the middle of a turn. -/
inductive Exit where
  | eof
  | fault (fault : Fault)
  deriving DecidableEq, Repr

/-- `Seek(fd, offset, SEEK_CUR)`. -/
def Seek (offset : Int) (s : PacketState) : Except Exit PacketState :=
  if s.pos + offset < 0 then .error (.fault .seeking)
  else .ok { s with pos := (s.pos + offset).toNat }

section
variable (file : Bytes)

/-- `read`, and the check for the end of the file. -/
def read (len : Nat) (s : PacketState) : Except Exit (Bytes × PacketState) :=
  let bytes := (file.drop s.pos).take len
  if bytes = [] then .error .eof else .ok (bytes, { s with pos := s.pos + bytes.length })

/-- `read` inside the packet. -/
def readData (len : Nat) (s : PacketState) : Except Exit (Bytes × PacketState) := do
  let (bytes, s) ← read file len s
  .ok (bytes, { s with offsetToNextPacket := toInt (s.offsetToNextPacket - bytes.length) })

def packetHeader (s : PacketState) : Except Exit PacketState :=
  if INT_MAX < s.offsetToNextPacket + PCAP_LEN_TIMESTAMPS then .error (.fault .overflow) else do
    let s ← Seek (s.offsetToNextPacket + PCAP_LEN_TIMESTAMPS) s
    let (lenBuffer, s) ← read file PCAP_LEN_DATA_FIELDS s
    let lenDataCaptured := toInt (unsignedAt lenBuffer 0)
    let lenDataUntruncated := toInt (unsignedAt lenBuffer PCAP_LEN_DATA_CAPTURED_FIELD)
    if lenDataCaptured ≠ lenDataUntruncated then .error (.fault .captureTruncated)
    else .ok { s with offsetToNextPacket := lenDataCaptured }

def ethernetFrame (s : PacketState) : Except Exit PacketState := do
  let (_, s) ← readData file (ETHER_MAC_ADDRESS_LEN * 2) s
  let (etherTypeBuffer, s) ← readData file ETHER_TYPE_LEN s
  let etherTypeCurrPacket := ntohs (shortAt etherTypeBuffer 0)
  if s.numPackets = 0 then .ok { s with etherType := etherTypeCurrPacket }
  else if s.etherType ≠ etherTypeCurrPacket then .error (.fault .captureInvalid)
  else .ok s

/-- The IP header: `payloadLen`. -/
def ipHeader (s : PacketState) : Except Exit (Nat × PacketState) := do
  let (ipHeaderBuffer, s) ← readData file IP_HEADER_REQUIRED_FIELDS_LEN s
  let headerLen := 4 * (charAt ipHeaderBuffer 0 &&& 0x0F)
  let totalLen := ntohs (shortAt ipHeaderBuffer IP_HEADER_OFFSET_TOTAL_LENGTH)
  let payloadLen := toShort (totalLen - headerLen)
  let transportProtocolCurr := charAt ipHeaderBuffer IP_HEADER_OFFSET_PROTOCOL
  if s.numPackets = 0 then .ok (payloadLen, { s with transportProtocol := transportProtocolCurr })
  else if s.transportProtocol ≠ transportProtocolCurr then .error (.fault .captureInvalid)
  else .ok (payloadLen, s)

structure TCPHeader where
  sourcePort : Nat
  tcpHeaderLen : Nat
  sequenceNumber : Nat
  deriving DecidableEq, Repr

def TCPHeader.ofBuffer (tcpHeader : Bytes) : TCPHeader where
  sourcePort := ntohs (shortAt tcpHeader 0)
  tcpHeaderLen := 4 * (charAt tcpHeader TCP_HEADER_OFFSET_HEADER_LEN >>> 4)
  sequenceNumber := ntohl (unsignedAt tcpHeader TCP_HEADER_OFFSET_SEQUENCE_NUM)

def tcpHeader (s : PacketState) : Except Exit (TCPHeader × PacketState) := do
  let (tcpHeader, s) ← readData file TCP_HEADER_REQUIRED_FIELDS_LEN s
  .ok (.ofBuffer tcpHeader, s)

/-- The HTTP data: a payload from port 80 goes to the end of the list. -/
def httpData (payloadLen : Nat) (header : TCPHeader) (s : PacketState) : Except Exit PacketState :=
  let tcpPayloadLen := toShort (payloadLen - header.tcpHeaderLen)
  if tcpPayloadLen ≠ 0 ∧ header.sourcePort = 80 then do
    -- an unsigned number, also where the header is said to be shorter than 20 bytes
    let options := toUnsigned (header.tcpHeaderLen - TCP_HEADER_REQUIRED_FIELDS_LEN)
    let s ← Seek options s
    let (payloadData, s) ← readData file tcpPayloadLen
      { s with offsetToNextPacket := toInt (s.offsetToNextPacket - options) }
    let tcpPayload : TCPPayload :=
      { data := payloadData ++ List.replicate (tcpPayloadLen + 1 - payloadData.length) 0
        payloadLen := UInt16.ofNat tcpPayloadLen
        sequenceNumber := UInt32.ofNat header.sequenceNumber }
    .ok { s with payloads := s.payloads ++ [tcpPayload], numPackets := s.numPackets + 1 }
  else .ok { s with numPackets := s.numPackets + 1 }

/-- A turn that goes through to its end. -/
def packet (s : PacketState) : Except Exit PacketState := do
  let s ← packetHeader file s
  let s ← ethernetFrame file s
  let (payloadLen, s) ← ipHeader file s
  let (header, s) ← tcpHeader file s
  httpData file payloadLen header s

def packetTurn (s : PacketState) : Except Fault (Turn PacketState (List TCPPayload)) :=
  match packet file s with
  | .ok s' => .ok (.again s')
  | .error .eof => .ok (.stop s.payloads)
  | .error (.fault fault) => .error fault

/-- The loop over the packets: the list of payloads it builds. -/
def packetLoop (fuel : Nat) : Exec Fault (List TCPPayload) :=
  loop (packetTurn file) fuel ⟨PCAP_LEN_GLOBAL_HEADER, 0, 0, 0, 0, []⟩

end

/-! ## Reassembling the payload -/

/-- `"\\r\\n\\r\\n"`. -/
def httpHeaderDelimeter : Bytes := [13, 10, 13, 10]

def httpHeaderDelimeterLen : Nat := 4

/-- `strstr`, as an offset: the string ends at its first NUL. -/
def strstr (haystack needle : Bytes) : Option Nat := find needle (haystack.takeWhile (· != 0))

/-- The variables of the loop over the sorted payloads, and what has been written. -/
structure ImageState where
  i : Nat
  prevSequenceNumber : UInt32
  image : Bytes
  deriving DecidableEq, Repr

/-- `write(imageFD, imagePayload, imagePayloadLen)`. -/
def ImageState.write (s : ImageState) (payload : TCPPayload) (start : Nat) : ImageState :=
  ⟨s.i + 1, payload.sequenceNumber,
    s.image ++ (payload.data.drop start).take (payload.payloadLen.toNat - start)⟩

/-- One turn of the loop. -/
def imageTurn (s : ImageState) (payload : TCPPayload) : Except Fault ImageState :=
  if s.prevSequenceNumber = payload.sequenceNumber then .ok { s with i := s.i + 1 }
  else if s.i = 0 then
    match strstr payload.data httpHeaderDelimeter with
    | none => .error .nullPointer
    | some header => .ok (s.write payload (header + httpHeaderDelimeterLen))
  else .ok (s.write payload 0)

/-- What the program writes to the image file. -/
def reassemble (qsort : StdSort) (payloads : List TCPPayload) : Except Fault Bytes := do
  let sortedPayloads := qsort.sort (fun a b => compareSequenceNumbers a b < 0) payloads
  let s ← sortedPayloads.foldlM imageTurn ⟨0, 0, []⟩
  .ok s.image

end Nyctomek.Parsecap

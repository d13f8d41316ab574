/-
# `Parsecap.Records` — a turn of the packet loop over any record

`Parsecap.Turns` has what a turn does over the packets of a well-formed capture.  Here the
file is any file at all: a turn depends on the bytes from `q` on, where the two lengths of a
record stand, and on where the file ends.

    q         the captured and the original length
    q + 8     the frame, its type at q + 20
    q + 22    the IP header
    q + 42    the TCP header
    q + 62    the TCP options, and behind them the payload

`packet_record` says what a turn does, for every file and in every state.
-/
import Nyctomek.Parsecap.Turns

namespace Nyctomek.Parsecap

open Prog

/-! ## The fields of a record -/

/-- What a turn takes from the file. -/
structure Record where
  lenDataCaptured : Int
  lenDataUntruncated : Int
  etherType : Nat
  headerLen : Nat
  totalLen : Nat
  transportProtocol : Nat
  tcpHeader : TCPHeader
  deriving DecidableEq, Repr

/-- The fields of the record whose lengths stand at `q`, each of them 0 behind the end of the
file. -/
def recordAt (file : Bytes) (q : Nat) : Record where
  lenDataCaptured := toInt (unsignedAt file q)
  lenDataUntruncated := toInt (unsignedAt file (q + 4))
  etherType := ntohs (shortAt file (q + 20))
  headerLen := 4 * (charAt file (q + 22) &&& 0x0F)
  totalLen := ntohs (shortAt file (q + 24))
  transportProtocol := charAt file (q + 31)
  tcpHeader :=
    { sourcePort := ntohs (shortAt file (q + 42))
      tcpHeaderLen := 4 * (charAt file (q + 54) >>> 4)
      sequenceNumber := ntohl (unsignedAt file (q + 46)) }

namespace Record

variable (r : Record)

/-- The length of the payload, as it is computed. -/
def tcpPayloadLen : Nat := toShort (r.totalLen - r.headerLen - r.tcpHeader.tcpHeaderLen)

/-- The bytes that are skipped as TCP options. -/
def options : Nat := toUnsigned (r.tcpHeader.tcpHeaderLen - TCP_HEADER_REQUIRED_FIELDS_LEN)

/-- A payload is taken: from port 80, of a datagram that is not just its headers. -/
def Taken : Prop :=
  r.totalLen ≠ r.headerLen + r.tcpHeader.tcpHeaderLen ∧ r.tcpHeader.sourcePort = 80

instance : Decidable r.Taken := inferInstanceAs (Decidable (_ ∧ _))

/-- The bytes from the lengths of the record up to where its turn stops reading. -/
def span : Nat := 62 + if r.Taken then r.options + r.tcpPayloadLen else 0

end Record

/-! ### Bytes in a buffer and in the file -/

section
variable {file : Bytes} {q n i : Nat}

theorem charAt_take {buffer : Bytes} (hi : i < n) :
    charAt (buffer.take n) i = charAt buffer i := by
  rw [charAt, charAt, List.getD_eq_getElem?_getD, List.getD_eq_getElem?_getD,
    List.getElem?_take_of_lt hi]

theorem charAt_window (hi : i < n) :
    charAt ((file.drop q).take n) i = charAt file (q + i) := by
  rw [charAt_take hi, charAt, charAt, List.getD_eq_getElem?_getD, List.getD_eq_getElem?_getD,
    List.getElem?_drop]

theorem shortAt_window (hi : i + 1 < n) :
    shortAt ((file.drop q).take n) i = shortAt file (q + i) := by
  rw [shortAt, shortAt, charAt_window hi, charAt_window (Nat.lt_of_succ_lt hi), Nat.add_assoc]

theorem unsignedAt_window (hi : i + 3 < n) :
    unsignedAt ((file.drop q).take n) i = unsignedAt file (q + i) := by
  have hlow : i + 1 < n := by omega
  have hhigh : i + 2 + 1 < n := hi
  rw [unsignedAt, unsignedAt, shortAt_window hlow, shortAt_window hhigh, Nat.add_assoc q i 2]

/-- A record depends on the bytes up to its TCP options. -/
theorem recordAt_window (file : Bytes) (q : Nat) :
    recordAt ((file.drop q).take 62) 0 = recordAt file q := by
  rw [recordAt, unsignedAt_window (by decide), unsignedAt_window (by decide),
    shortAt_window (by decide), charAt_window (by decide), shortAt_window (by decide),
    charAt_window (by decide), shortAt_window (by decide), charAt_window (by decide),
    unsignedAt_window (by decide)]
  rfl

theorem ntohs_shortAt_lt (buffer : Bytes) (i : Nat) : ntohs (shortAt buffer i) < 65536 := by
  have hlow := charAt_lt buffer i
  have hhigh := charAt_lt buffer (i + 1)
  rw [ntohs, shortAt]
  omega

/-- Both header lengths count words of 4 bytes in half a byte. -/
theorem headerLen_le (file : Bytes) (q : Nat) : (recordAt file q).headerLen ≤ 60 :=
  Nat.mul_le_mul_left 4 Nat.and_le_right

theorem tcpHeaderLen_le (file : Bytes) (q : Nat) :
    (recordAt file q).tcpHeader.tcpHeaderLen ≤ 60 := by
  have hbyte := charAt_lt file (q + 54)
  show 4 * (charAt file (q + 54) >>> 4) ≤ 60
  rw [Nat.shiftRight_eq_div_pow]
  omega

theorem totalLen_lt (file : Bytes) (q : Nat) : (recordAt file q).totalLen < 65536 :=
  ntohs_shortAt_lt file (q + 24)

theorem toShort_lt (x : Int) : toShort x < 65536 := by
  rw [toShort]
  omega

theorem toShort_toShort_sub (x y : Int) : toShort (toShort x - y) = toShort (x - y) := by
  rw [toShort, toShort, toShort]
  omega

theorem toInt_toInt_sub (x y : Int) : toInt (toInt x - y) = toInt (x - y) := by
  rw [toInt, toInt, toInt]
  omega

/-- The two checks in front of the payload. -/
theorem taken_iff (file : Bytes) (q : Nat) : (recordAt file q).Taken ↔
    (recordAt file q).tcpPayloadLen ≠ 0 ∧ (recordAt file q).tcpHeader.sourcePort = 80 := by
  have hheader := headerLen_le file q
  have htcp := tcpHeaderLen_le file q
  have htotal := totalLen_lt file q
  refine and_congr_left fun _ => ?_
  rw [Record.tcpPayloadLen, toShort]
  omega

end

/-! ## Reading a record -/

section
variable {file : Bytes} {s : PacketState} {c : Int} {p len : Nat}

/-- At `p`, or at the end of the file; the next packet is looked for at `c`. -/
def PacketState.stand (file : Bytes) (s : PacketState) (c : Int) (p : Nat) : PacketState :=
  { s with
    pos := min p file.length
    offsetToNextPacket := toInt (c - (min p file.length : Nat)) }

/-- What is kept of a payload that starts at `start`. -/
def payloadAt (file : Bytes) (start tcpPayloadLen sequenceNumber : Nat) : TCPPayload :=
  let payloadData := (file.drop start).take tcpPayloadLen
  { data := payloadData ++ List.replicate (tcpPayloadLen + 1 - payloadData.length) 0
    payloadLen := UInt16.ofNat tcpPayloadLen
    sequenceNumber := UInt32.ofNat sequenceNumber }

theorem read_at (hlen : len ≠ 0) : read file len s =
    if file.length ≤ s.pos then .error .eof
    else .ok ((file.drop s.pos).take len, { s with pos := min (s.pos + len) file.length }) := by
  by_cases hend : file.length ≤ s.pos
  · rw [read_eof (List.drop_of_length_le hend), if_pos hend]
  · have hbytes : (file.drop s.pos).take len ≠ [] := by
      rw [Ne, List.take_eq_nil_iff, List.drop_eq_nil_iff, not_or]
      exact ⟨hlen, hend⟩
    have hbehind : s.pos + ((file.drop s.pos).take len).length
        = min (s.pos + len) file.length := by
      rw [List.length_take, List.length_drop]
      omega
    rw [read, if_neg hbytes, if_neg hend, hbehind]

theorem readData_stand (hlen : len ≠ 0) : readData file len (s.stand file c p) =
    if file.length ≤ p then .error .eof
    else .ok ((file.drop p).take len, s.stand file c (p + len)) := by
  rw [readData, read_at hlen]
  by_cases hend : file.length ≤ p
  · have hpos : (s.stand file c p).pos = file.length := Nat.min_eq_right hend
    rw [hpos, if_pos (Nat.le_refl _), if_pos hend]
    rfl
  · have hlt : p < file.length := Nat.lt_of_not_le hend
    have hpos : (s.stand file c p).pos = p := Nat.min_eq_left hlt.le
    have hoffset : toInt ((s.stand file c p).offsetToNextPacket
        - (((file.drop p).take len).length : Nat))
        = toInt (c - (min (p + len) file.length : Nat)) := by
      show toInt (toInt (c - (min p file.length : Nat)) - _) = _
      rw [toInt_toInt_sub, Nat.min_eq_left hlt.le, List.length_take, List.length_drop]
      congr 1
      omega
    rw [hpos, if_neg hend, if_neg hend, ok_bind]
    simp only [hoffset]
    rfl

/-- A seek over some bytes of the packet, and the read behind it. -/
theorem readData_skip (n : Nat) (hlen : len ≠ 0) : readData file len
      { s.stand file c p with
        pos := (s.stand file c p).pos + n
        offsetToNextPacket := toInt ((s.stand file c p).offsetToNextPacket - n) }
    = if file.length ≤ p + n then .error .eof
      else .ok ((file.drop (p + n)).take len, s.stand file c (p + n + len)) := by
  by_cases hend : file.length ≤ p + n
  · have hnil : file.drop (min p file.length + n) = [] := by
      rw [List.drop_eq_nil_iff]
      omega
    rw [if_pos hend, readData, read_eof hnil]
    rfl
  · have hmin : min p file.length = p := Nat.min_eq_left (by omega)
    have hmin' : min (p + n) file.length = p + n := Nat.min_eq_left (by omega)
    have hstart : { s.stand file c p with
          pos := (s.stand file c p).pos + n
          offsetToNextPacket := toInt ((s.stand file c p).offsetToNextPacket - n) }
        = s.stand file c (p + n) := by
      simp only [PacketState.stand, hmin, hmin', toInt_toInt_sub, Int.sub_sub, Int.natCast_add]
    rw [hstart, readData_stand hlen]

theorem ite_error_bind {ε α β : Type} {P : Prop} [Decidable P] (e : ε) (x : Except ε α)
    (g : α → Except ε β) :
    ((if P then .error e else x) >>= g) = if P then .error e else x >>= g := by
  by_cases h : P
  · rw [if_pos h, if_pos h]
    rfl
  · rw [if_neg h, if_neg h]

theorem ite_error_eq_ok {ε α : Type} {P : Prop} [Decidable P] {e : ε} {x : Except ε α} {a : α} :
    (if P then .error e else x) = .ok a ↔ ¬P ∧ x = .ok a := by
  by_cases h : P
  · rw [if_pos h]
    exact iff_of_false (by simp) (fun hnot => hnot.1 h)
  · rw [if_neg h]
    exact (and_iff_right h).symm

theorem ite_error_ne {ε α : Type} {P : Prop} [Decidable P] {e e' : ε} {x : Except ε α}
    (he : e ≠ e') (hx : x ≠ .error e') : (if P then .error e else x) ≠ .error e' := by
  by_cases h : P
  · rw [if_pos h]
    exact fun heq => he (Except.error.inj heq)
  · rwa [if_neg h]

/-- A field that has to be the same in all packets: the first one sets it. -/
theorem first_or_same {α : Type} {first : Prop} (same : Prop) [Decidable first] [Decidable same]
    {a b invalid : α} (h : same → b = a) : (if first then a else if ¬same then invalid else b)
      = if ¬(first ∨ same) then invalid else a := by
  by_cases hfirst : first
  · rw [if_pos hfirst, if_neg (not_not_intro (.inl hfirst))]
  · rw [if_neg hfirst]
    by_cases hsame : same
    · rw [if_neg (not_not_intro hsame), if_neg (not_not_intro (.inr hsame)), h hsame]
    · rw [if_pos hsame, if_pos (not_or_intro hfirst hsame)]

theorem ethernetFrame_stand : ethernetFrame file (s.stand file c p) =
    if file.length ≤ p + 12 then .error .eof
    else if ¬(s.numPackets = 0 ∨ s.etherType = ntohs (shortAt file (p + 12))) then
      .error (.fault .captureInvalid)
    else .ok ({ s with etherType := ntohs (shortAt file (p + 12)) }.stand file c (p + 14)) := by
  have htype : shortAt ((file.drop (p + 12)).take ETHER_TYPE_LEN) 0 = shortAt file (p + 12) :=
    shortAt_window Nat.one_lt_two
  have hmacs : readData file (ETHER_MAC_ADDRESS_LEN * 2) (s.stand file c p)
      = if file.length ≤ p then .error .eof
        else .ok ((file.drop p).take (ETHER_MAC_ADDRESS_LEN * 2), s.stand file c (p + 12)) :=
    readData_stand (by decide)
  have hread : readData file ETHER_TYPE_LEN (s.stand file c (p + 12))
      = if file.length ≤ p + 12 then .error .eof
        else .ok ((file.drop (p + 12)).take ETHER_TYPE_LEN, s.stand file c (p + 14)) :=
    readData_stand (by decide)
  rw [ethernetFrame, hmacs]
  by_cases hend : file.length ≤ p
  · rw [if_pos hend, if_pos (hend.trans (Nat.le_add_right _ _))]
    rfl
  · rw [if_neg hend, ok_bind]
    simp only [hread]
    by_cases hend' : file.length ≤ p + 12
    · rw [if_pos hend', if_pos hend']
      rfl
    · rw [if_neg hend', if_neg hend', ok_bind]
      simp only [htype]
      refine first_or_same (s.etherType = ntohs (shortAt file (p + 12))) ?_
      intro hsame
      rw [← hsame]
      rfl

theorem ipHeader_stand : ipHeader file (s.stand file c p) =
    if file.length ≤ p then .error .eof
    else if ¬(s.numPackets = 0 ∨ s.transportProtocol = charAt file (p + 9)) then
      .error (.fault .captureInvalid)
    else .ok (toShort (ntohs (shortAt file (p + 2)) - (4 * (charAt file p &&& 0x0F) : Nat)),
      { s with transportProtocol := charAt file (p + 9) }.stand file c (p + 20)) := by
  have hheader : charAt ((file.drop p).take IP_HEADER_REQUIRED_FIELDS_LEN) 0 = charAt file p :=
    charAt_window (Nat.succ_pos _)
  have htotal : shortAt ((file.drop p).take IP_HEADER_REQUIRED_FIELDS_LEN)
      IP_HEADER_OFFSET_TOTAL_LENGTH = shortAt file (p + 2) := shortAt_window (by decide)
  have hprotocol : charAt ((file.drop p).take IP_HEADER_REQUIRED_FIELDS_LEN)
      IP_HEADER_OFFSET_PROTOCOL = charAt file (p + 9) := charAt_window (by decide)
  rw [ipHeader, readData_stand (by decide)]
  by_cases hend : file.length ≤ p
  · rw [if_pos hend, if_pos hend]
    rfl
  · rw [if_neg hend, if_neg hend, ok_bind]
    simp only [hheader, htotal, hprotocol]
    refine first_or_same (s.transportProtocol = charAt file (p + 9)) ?_
    intro hsame
    rw [← hsame]
    rfl

theorem tcpHeader_stand : tcpHeader file (s.stand file c p) =
    if file.length ≤ p then .error .eof
    else .ok (⟨ntohs (shortAt file p), 4 * (charAt file (p + 12) >>> 4),
      ntohl (unsignedAt file (p + 4))⟩, s.stand file c (p + 20)) := by
  have hport : shortAt ((file.drop p).take TCP_HEADER_REQUIRED_FIELDS_LEN) 0 = shortAt file p :=
    shortAt_window (by decide)
  have hlen : charAt ((file.drop p).take TCP_HEADER_REQUIRED_FIELDS_LEN)
      TCP_HEADER_OFFSET_HEADER_LEN = charAt file (p + 12) := charAt_window (by decide)
  have hnumber : unsignedAt ((file.drop p).take TCP_HEADER_REQUIRED_FIELDS_LEN)
      TCP_HEADER_OFFSET_SEQUENCE_NUM = unsignedAt file (p + 4) := unsignedAt_window (by decide)
  rw [tcpHeader, readData_stand (by decide)]
  by_cases hend : file.length ≤ p
  · rw [if_pos hend, if_pos hend]
    rfl
  · rw [if_neg hend, if_neg hend, ok_bind]
    simp only [TCPHeader.ofBuffer, hport, hlen, hnumber]

end

/-! ## A turn -/

/-- Where the loop expects the next record, and where its lengths are read. -/
def PacketState.recordStart (s : PacketState) : Int := s.pos + s.offsetToNextPacket

def PacketState.lengths (s : PacketState) : Nat :=
  (s.pos + (s.offsetToNextPacket + PCAP_LEN_TIMESTAMPS)).toNat

/-- The record of the next turn. -/
def PacketState.record (file : Bytes) (s : PacketState) : Record := recordAt file s.lengths

/-- Where the payload of the record at `q` is read from. -/
def payloadStart (file : Bytes) (q : Nat) : Nat := q + 62 + (recordAt file q).options

/-- The payload that is kept of the record at `q`, if one is. -/
def payloadsAt (file : Bytes) (q : Nat) : List TCPPayload :=
  let r := recordAt file q
  if r.Taken then
    [payloadAt file (payloadStart file q) r.tcpPayloadLen r.tcpHeader.sequenceNumber]
  else []

/-- Behind the turn. -/
def PacketState.next (file : Bytes) (s : PacketState) : PacketState :=
  let r := s.record file
  { s with
    numPackets := s.numPackets + 1
    etherType := r.etherType
    transportProtocol := r.transportProtocol
    payloads := s.payloads ++ payloadsAt file s.lengths }.stand file
      (s.lengths + 8 + r.lenDataCaptured) (s.lengths + r.span)

section
variable (file : Bytes) (s : PacketState)

theorem packetHeader_record : packetHeader file s =
    if INT_MAX < s.offsetToNextPacket + PCAP_LEN_TIMESTAMPS then .error (.fault .overflow)
    else if s.pos + (s.offsetToNextPacket + PCAP_LEN_TIMESTAMPS) < 0 then .error (.fault .seeking)
    else if file.length ≤ s.lengths then .error .eof
    else if (s.record file).lenDataCaptured ≠ (s.record file).lenDataUntruncated then
      .error (.fault .captureTruncated)
    else .ok { s with
      pos := min (s.lengths + 8) file.length
      offsetToNextPacket := (s.record file).lenDataCaptured } := by
  have hcaptured : unsignedAt ((file.drop s.lengths).take PCAP_LEN_DATA_FIELDS) 0
      = unsignedAt file s.lengths := unsignedAt_window (by decide)
  have huntruncated : unsignedAt ((file.drop s.lengths).take PCAP_LEN_DATA_FIELDS)
      PCAP_LEN_DATA_CAPTURED_FIELD = unsignedAt file (s.lengths + 4) :=
    unsignedAt_window (by decide)
  have hread : read file PCAP_LEN_DATA_FIELDS { s with pos := s.lengths }
      = if file.length ≤ s.lengths then .error .eof
        else .ok ((file.drop s.lengths).take PCAP_LEN_DATA_FIELDS,
          { s with pos := min (s.lengths + 8) file.length }) := read_at (by decide)
  rw [packetHeader]
  by_cases hoverflow : INT_MAX < s.offsetToNextPacket + PCAP_LEN_TIMESTAMPS
  · rw [if_pos hoverflow, if_pos hoverflow]
  · rw [if_neg hoverflow, if_neg hoverflow]
    by_cases hseek : s.pos + (s.offsetToNextPacket + PCAP_LEN_TIMESTAMPS) < 0
    · rw [Seek, if_pos hseek, if_pos hseek]
      rfl
    · have hseeked : Seek (s.offsetToNextPacket + PCAP_LEN_TIMESTAMPS) s
          = .ok { s with pos := s.lengths } := if_neg hseek
      rw [if_neg hseek, hseeked, ok_bind, hread]
      by_cases hend : file.length ≤ s.lengths
      · rw [if_pos hend, if_pos hend]
        rfl
      · rw [if_neg hend, if_neg hend, ok_bind]
        simp only [hcaptured, huntruncated]
        rfl

/-- In front of the frame. -/
theorem stand_frame : ({ s with
      pos := min (s.lengths + 8) file.length
      offsetToNextPacket := (s.record file).lenDataCaptured } : PacketState)
    = s.stand file ((min (s.lengths + 8) file.length : Nat) + (s.record file).lenDataCaptured)
      (s.lengths + 8) := by
  have hint : toInt (s.record file).lenDataCaptured = (s.record file).lenDataCaptured := by
    show toInt (toInt _) = toInt _
    have hsub := toInt_toInt_sub (unsignedAt file s.lengths) 0
    rwa [Int.sub_zero, Int.sub_zero] at hsub
  rw [PacketState.stand, add_sub_cancel_left, hint]

theorem httpData_record (q : Nat) (c : Int) :
    httpData file (toShort ((recordAt file q).totalLen - (recordAt file q).headerLen))
        (recordAt file q).tcpHeader (s.stand file c (q + 62))
      = if (recordAt file q).Taken ∧ file.length ≤ payloadStart file q then .error .eof
        else .ok ({ s with
          numPackets := s.numPackets + 1
          payloads := s.payloads ++ payloadsAt file q }.stand file c
            (q + (recordAt file q).span)) := by
  have hlen : toShort ((toShort ((recordAt file q).totalLen - (recordAt file q).headerLen) : Nat)
      - (recordAt file q).tcpHeader.tcpHeaderLen) = (recordAt file q).tcpPayloadLen :=
    toShort_toShort_sub _ _
  have hoptions : toUnsigned ((recordAt file q).tcpHeader.tcpHeaderLen
      - TCP_HEADER_REQUIRED_FIELDS_LEN) = (recordAt file q).options := rfl
  rw [httpData]
  simp only [hlen, hoptions]
  by_cases htaken : (recordAt file q).Taken
  · have hchecks := (taken_iff file q).mp htaken
    rw [if_pos hchecks, Seek_eq, ok_bind, readData_skip _ hchecks.1]
    show (if file.length ≤ payloadStart file q then _ else _) >>= _ = _
    by_cases hend : file.length ≤ payloadStart file q
    · rw [if_pos hend, if_pos ⟨htaken, hend⟩]
      rfl
    · have hspan : q + (recordAt file q).span
          = payloadStart file q + (recordAt file q).tcpPayloadLen := by
        rw [Record.span, if_pos htaken, payloadStart]
        omega
      rw [if_neg hend, if_neg fun h => hend h.2, ok_bind, hspan, payloadsAt]
      simp only [if_pos htaken]
      rfl
  · rw [if_neg fun h => htaken ((taken_iff file q).mpr h), if_neg fun h => htaken h.1, payloadsAt,
      Record.span]
    simp only [if_neg htaken, List.append_nil]
    rfl

/-- **A turn**, whatever the file: what it comes to, and why. -/
theorem packet_record : packet file s =
    if INT_MAX < s.offsetToNextPacket + PCAP_LEN_TIMESTAMPS then .error (.fault .overflow)
    else if s.pos + (s.offsetToNextPacket + PCAP_LEN_TIMESTAMPS) < 0 then .error (.fault .seeking)
    else if file.length ≤ s.lengths then .error .eof
    else if (s.record file).lenDataCaptured ≠ (s.record file).lenDataUntruncated then
      .error (.fault .captureTruncated)
    else if file.length ≤ s.lengths + 20 then .error .eof
    else if ¬(s.numPackets = 0 ∨ s.etherType = (s.record file).etherType) then
      .error (.fault .captureInvalid)
    else if file.length ≤ s.lengths + 22 then .error .eof
    else if ¬(s.numPackets = 0 ∨ s.transportProtocol = (s.record file).transportProtocol) then
      .error (.fault .captureInvalid)
    else if file.length ≤ s.lengths + 42 then .error .eof
    else if (s.record file).Taken ∧ file.length ≤ payloadStart file s.lengths then .error .eof
    else .ok (s.next file) := by
  by_cases hwhole : s.lengths + 8 ≤ file.length
  · have hheader : (min (s.lengths + 8) file.length : Nat) + (s.record file).lenDataCaptured
        = s.lengths + 8 + (s.record file).lenDataCaptured := by
      rw [Nat.min_eq_left hwhole]
      rfl
    have hnext : (if (s.record file).Taken ∧ file.length ≤ payloadStart file s.lengths then
          Except.error Exit.eof else .ok (s.next file)) = _ :=
      (httpData_record file { s with
        etherType := (s.record file).etherType
        transportProtocol := (s.record file).transportProtocol } s.lengths
          (s.lengths + 8 + (s.record file).lenDataCaptured)).symm
    rw [packet, packetHeader_record, stand_frame, hheader]
    simp only [ite_error_bind, ok_bind, ethernetFrame_stand, ipHeader_stand, tcpHeader_stand]
    rw [hnext]
    rfl
  · have hshort : file.length < s.lengths + 8 := Nat.lt_of_not_le hwhole
    rw [packet, packetHeader_record, stand_frame]
    simp only [ite_error_bind, ok_bind, ethernetFrame_stand]
    rw [if_pos (show file.length ≤ s.lengths + 8 + 12 by omega),
      if_pos (show file.length ≤ s.lengths + 20 by omega)]

/-- The turn goes through to its end. -/
structure Completes : Prop where
  fits : s.offsetToNextPacket + PCAP_LEN_TIMESTAMPS ≤ INT_MAX
  inFile : 0 ≤ s.pos + (s.offsetToNextPacket + PCAP_LEN_TIMESTAMPS)
  untruncated : (s.record file).lenDataCaptured = (s.record file).lenDataUntruncated
  sameType : s.numPackets = 0 ∨ s.etherType = (s.record file).etherType
  sameProtocol : s.numPackets = 0 ∨ s.transportProtocol = (s.record file).transportProtocol
  headers : s.lengths + 42 < file.length
  payload : (s.record file).Taken → payloadStart file s.lengths < file.length

variable {file s} {s' : PacketState}

theorem packet_eq_ok_iff : packet file s = .ok s' ↔ Completes file s ∧ s' = s.next file := by
  rw [packet_record]
  simp only [ite_error_eq_ok, Except.ok.injEq, not_lt, not_le, ne_eq, not_not, not_and]
  constructor
  · rintro ⟨hfits, hpos, -, hlen, -, htype, -, hprotocol, hend, hpayload, hnext⟩
    exact ⟨⟨hfits, hpos, hlen, htype, hprotocol, hend, hpayload⟩, hnext.symm⟩
  · rintro ⟨⟨hfits, hpos, hlen, htype, hprotocol, hend, hpayload⟩, hnext⟩
    refine ⟨hfits, hpos, ?_, hlen, ?_, htype, ?_, hprotocol, hend, hpayload, hnext.symm⟩
    · exact (Nat.le_add_right _ _).trans_lt hend
    · exact lt_of_le_of_lt (Nat.add_le_add_left (by decide) _) hend
    · exact lt_of_le_of_lt (Nat.add_le_add_left (by decide) _) hend

theorem packetTurn_again_iff :
    packetTurn file s = .ok (.again s') ↔ Completes file s ∧ s' = s.next file := by
  rw [← packet_eq_ok_iff]
  refine ⟨fun h => ?_, packetTurn_again⟩
  rw [packetTurn] at h
  split at h
  · rename_i hpacket
    cases Turn.again.inj (Except.ok.inj h)
    exact hpacket
  · cases h
  · cases h

/-- Only the sum with the timestamps can overflow. -/
theorem packet_overflow_iff : packet file s = .error (.fault .overflow) ↔
    INT_MAX < s.offsetToNextPacket + PCAP_LEN_TIMESTAMPS := by
  rw [packet_record]
  by_cases h : INT_MAX < s.offsetToNextPacket + PCAP_LEN_TIMESTAMPS
  · rw [if_pos h]
    exact iff_of_true rfl h
  · rw [if_neg h]
    refine iff_of_false ?_ h
    repeat refine ite_error_ne (by decide) ?_
    exact fun heq => nomatch heq

/-! ## The list grows -/

theorem payloads_next : (s.next file).payloads = s.payloads ++ payloadsAt file s.lengths := rfl

theorem packetTurn_stop {payloads : List TCPPayload} (h : packetTurn file s = .ok (.stop payloads)) :
    payloads = s.payloads := by
  rw [packetTurn] at h
  split at h
  · cases h
  · exact (Turn.stop.inj (Except.ok.inj h)).symm
  · cases h

/-- **What the loop keeps of the list**: a turn adds the payload of its record, if it takes one,
and the last one nothing. -/
theorem payloads_invariant {I : List TCPPayload → Prop} {n : Nat} {payloads : List TCPPayload}
    (hI : ∀ list q, I list → I (list ++ payloadsAt file q)) (hs : I s.payloads)
    (h : loop (packetTurn file) n s = done (.ok payloads)) : I payloads := by
  refine loop_invariant (I := fun s : PacketState => I s.payloads) ?_ ?_ hs h
  · intro s s' hs hturn
    rw [(packetTurn_again_iff.mp hturn).2, payloads_next]
    exact hI _ _ hs
  · intro s payloads hs hturn
    rw [packetTurn_stop hturn]
    exact hs

theorem payloads_loop {n : Nat} {payloads : List TCPPayload}
    (h : loop (packetTurn file) n s = done (.ok payloads)) : s.payloads <+: payloads :=
  payloads_invariant (I := fun list => s.payloads <+: list)
    (fun _ _ hprefix => hprefix.trans (List.prefix_append _ _)) (List.prefix_refl _) h

end

end Nyctomek.Parsecap

/-
# `Parsecap.Turns` — a turn of the packet loop over a frame

What a turn does when the file goes on with a packet.  The TCP header is read right behind
the 20 bytes that every IP header has: these bytes are `Frame.seen`.

    packetTurn_plain    no IP options          the payload is taken, if it is the server's
    packetTurn_other    seen: another port     nothing is taken
    packetTurn_taken    seen: port 80          bytes are taken, from wherever
    packetTurn_bare     at the end of a file   nothing is left that could be taken
-/
import Nyctomek.Parsecap.Frames

namespace Nyctomek.Parsecap

open Prog

/-! ## Reading on -/

section
variable {file : Bytes} {s : PacketState} {data rest bytes : Bytes} {len : Nat}

/-- The file goes on with what is left of a packet and with the packets behind it. -/
structure Reading (file : Bytes) (s : PacketState) (data rest : Bytes) : Prop where
  drop : file.drop s.pos = data ++ rest
  offset : s.offsetToNextPacket = data.length
  fits : data.length ≤ 2147483647

/-- The next packet, behind its timestamps. -/
theorem Reading.next (h : Reading file s data rest) (hfits : data.length + 8 ≤ 2147483647) :
    s.offsetToNextPacket + PCAP_LEN_TIMESTAMPS = (data.length + 8 : Nat) ∧
      ¬INT_MAX < ((data.length + 8 : Nat) : Int) := by
  refine ⟨?_, ?_⟩
  · rw [h.offset]
    rfl
  · rw [INT_MAX]
    omega

/-- Behind the next `len` bytes of the packet. -/
def PacketState.behind (s : PacketState) (len : Nat) : PacketState :=
  { s with pos := s.pos + len, offsetToNextPacket := s.offsetToNextPacket - len }

theorem Reading.behind (h : Reading file s (bytes ++ data) rest) (hlen : bytes.length = len) :
    Reading file (s.behind len) data rest := by
  obtain ⟨hdrop, hoffset, hfits⟩ := h
  rw [List.length_append, hlen] at hoffset hfits
  refine ⟨?_, ?_, Nat.le_trans (Nat.le_add_left _ _) hfits⟩
  · show file.drop (s.pos + len) = data ++ rest
    rw [← List.drop_drop, hdrop, List.append_assoc, List.drop_left' hlen]
  · show s.offsetToNextPacket - len = data.length
    omega

theorem behind_behind (m n : Nat) : (s.behind m).behind n = s.behind (m + n) := by
  simp only [PacketState.behind, Nat.add_assoc, Int.sub_sub, Int.natCast_add]

theorem toInt_of_range {x : Int} (h : -2147483648 ≤ x) (h' : x ≤ 2147483647) : toInt x = x := by
  rw [toInt]
  omega

theorem read_eq (hdrop : file.drop s.pos = bytes ++ rest) (hlen : bytes.length = len)
    (hpos : len ≠ 0) : read file len s = .ok (bytes, { s with pos := s.pos + len }) := by
  have hbytes : bytes ≠ [] := by
    rintro rfl
    exact hpos hlen.symm
  rw [read, hdrop, List.take_left' hlen]
  simp only [if_neg hbytes, hlen]

theorem readData_eq (h : Reading file s (bytes ++ data) rest) (hlen : bytes.length = len)
    (hpos : len ≠ 0) : readData file len s = .ok (bytes, s.behind len) := by
  obtain ⟨hdrop, hoffset, hfits⟩ := h
  rw [List.append_assoc] at hdrop
  rw [List.length_append, hlen] at hoffset hfits
  have hrange : toInt (s.offsetToNextPacket - len) = s.offsetToNextPacket - len := by
    apply toInt_of_range
    · omega
    · omega
  rw [readData, read_eq hdrop hlen hpos, ok_bind]
  simp only [hlen, hrange]
  rfl

theorem Seek_eq (n : Nat) : Seek n s = .ok { s with pos := s.pos + n } := by
  have hpos : ¬((s.pos : Int) + n < 0) := by omega
  rw [Seek, if_neg hpos]
  rfl

end

/-! ## The headers -/

section
variable {file : Bytes} {s : PacketState} {data rest : Bytes} (f : Frame)

/-- The first packet, or one behind frames of IPv4 with TCP in it. -/
def Known (s : PacketState) : Prop :=
  s.numPackets = 0 ∨ s.etherType = 2048 ∧ s.transportProtocol = 6

/-- In front of a frame, when `left` bytes of the packet before it have not been read. -/
def PacketState.enter (s : PacketState) (left frameLen : Nat) : PacketState :=
  { s with pos := s.pos + (left + 8) + 8, offsetToNextPacket := frameLen }

theorem packetHeader_eq (h : Reading file s data (f.packet ++ rest))
    (hfits : data.length + 8 ≤ 2147483647) :
    packetHeader file s = .ok (s.enter data.length f.layout.frameLen) := by
  have hframe := f.layout.frameLen_le
  obtain ⟨hoffset, hmax⟩ := h.next hfits
  have hskip : (data ++ f.timestamps).length = data.length + 8 := by
    rw [List.length_append, f.timestamps_length]
  have hdrop : file.drop (s.pos + (data.length + 8))
      = (le32 f.layout.frameLen ++ le32 f.layout.frameLen) ++ (f.bytes ++ rest) := by
    rw [← List.drop_drop, h.drop, f.packet_append, ← List.append_assoc data, List.drop_left' hskip]
  have hlen : (le32 f.layout.frameLen ++ le32 f.layout.frameLen).length = 8 := rfl
  have hvalue : toInt (unsignedAt (le32 f.layout.frameLen) 0) = f.layout.frameLen := by
    rw [unsignedAt_le32 (by omega)]
    apply toInt_of_range
    · omega
    · omega
  have hcaptured : toInt (unsignedAt (le32 f.layout.frameLen ++ le32 f.layout.frameLen) 0)
      = f.layout.frameLen := hvalue
  have huntruncated : toInt (unsignedAt (le32 f.layout.frameLen ++ le32 f.layout.frameLen)
      PCAP_LEN_DATA_CAPTURED_FIELD) = f.layout.frameLen := hvalue
  rw [packetHeader, hoffset, if_neg hmax, Seek_eq, ok_bind,
    read_eq (s := { s with pos := s.pos + (data.length + 8) }) hdrop hlen (by decide), ok_bind]
  simp only [hcaptured, huntruncated, ne_eq, not_true_eq_false, if_false]
  rfl

theorem Reading.enter (h : Reading file s data (f.packet ++ rest)) :
    Reading file (s.enter data.length f.layout.frameLen) f.bytes rest := by
  have hframe := f.layout.frameLen_le
  have hskip : (data ++ (f.timestamps ++ (le32 f.layout.frameLen ++ le32 f.layout.frameLen))).length
      = data.length + 8 + 8 := by
    simp only [List.length_append, f.timestamps_length]
    rfl
  refine ⟨?_, ?_, ?_⟩
  · show file.drop (s.pos + (data.length + 8) + 8) = _
    rw [Nat.add_assoc, ← List.drop_drop, h.drop, f.packet_append, ← List.append_assoc f.timestamps,
      ← List.append_assoc data, List.drop_left' hskip]
  · rw [f.length_bytes]
    rfl
  · rw [f.length_bytes]
    exact hframe

theorem ethernetFrame_eq (h : Reading file s f.bytes rest)
    (hknown : s.numPackets = 0 ∨ s.etherType = 2048) :
    ethernetFrame file s = .ok { s.behind 14 with etherType := 2048 } := by
  have hlen : f.macAddresses.length = ETHER_MAC_ADDRESS_LEN * 2 := f.macAddresses_length
  have htypeLen : (be16 2048).length = ETHER_TYPE_LEN := rfl
  have htype : ntohs (shortAt (be16 2048) 0) = 2048 := rfl
  rw [ethernetFrame, readData_eq h hlen (by decide), ok_bind]
  simp only [readData_eq (h.behind hlen) htypeLen (by decide), ok_bind, behind_behind, htype]
  split
  · rfl
  · rename_i hfirst
    have hsame : (s.behind (ETHER_MAC_ADDRESS_LEN * 2 + ETHER_TYPE_LEN)).etherType = 2048 :=
      hknown.resolve_left hfirst
    rw [if_neg (not_not_intro hsame)]
    show Except.ok (s.behind 14) = _
    rw [← hsame]
    rfl

theorem ipHeader_eq (h : Reading file s (f.ipHeader ++ data) rest)
    (hknown : s.numPackets = 0 ∨ s.transportProtocol = 6) :
    ipHeader file s = .ok (f.layout.tcpHeaderLen + f.layout.payloadLen,
      { s.behind 20 with transportProtocol := 6 }) := by
  have hpayload : toShort ((f.layout.totalLen : Int) - f.layout.ipHeaderLen)
      = f.layout.tcpHeaderLen + f.layout.payloadLen := by
    have hlt := f.layout.totalLen_lt
    rw [Layout.totalLen] at hlt
    rw [toShort, Layout.totalLen]
    omega
  rw [ipHeader, readData_eq h f.length_ipHeader (by decide), ok_bind]
  simp only [f.headerLen_ipHeader, f.totalLen_ipHeader, f.protocol_ipHeader, hpayload]
  split
  · rfl
  · rename_i hfirst
    have hsame : (s.behind 20).transportProtocol = 6 := hknown.resolve_left hfirst
    rw [if_neg (not_not_intro hsame), ← hsame]

/-- The 20 bytes that are read as the TCP header. -/
theorem tcpHeader_eq {bytes : Bytes} (h : Reading file s (bytes ++ data) rest)
    (hlen : bytes.length = 20) : tcpHeader file s = .ok (.ofBuffer bytes, s.behind 20) := by
  rw [tcpHeader, readData_eq h hlen (by decide), ok_bind]

/-- Behind those bytes. -/
def PacketState.inside (s : PacketState) : PacketState :=
  { s.behind 54 with etherType := 2048, transportProtocol := 6 }

theorem inside_eq : PacketState.behind
    { PacketState.behind { s.behind 14 with etherType := 2048 } 20 with transportProtocol := 6 } 20
      = s.inside := by
  simp only [PacketState.inside, PacketState.behind, Nat.add_assoc, Int.sub_sub]
  rfl

/-- **The way to the HTTP data**, whichever 20 bytes stand behind the IP header. -/
theorem packet_eq {bytes more : Bytes} (h : Reading file s data (f.packet ++ rest))
    (hfits : data.length + 8 ≤ 2147483647) (hknown : Known s)
    (hbytes : f.behindIpHeader = bytes ++ more) (hlen : bytes.length = 20) :
    packet file s = httpData file (f.layout.tcpHeaderLen + f.layout.payloadLen) (.ofBuffer bytes)
        (s.enter data.length f.layout.frameLen).inside ∧
      Reading file (s.enter data.length f.layout.frameLen).inside more rest := by
  have henter := h.enter f
  have hheader := packetHeader_eq f h hfits
  have hknown' : Known (s.enter data.length f.layout.frameLen) := hknown
  generalize s.enter data.length f.layout.frameLen = s₁ at henter hheader hknown' ⊢
  have hframe := ethernetFrame_eq f henter (hknown'.imp id And.left)
  have hetherLen : (f.macAddresses ++ be16 2048).length = 14 := by
    rw [List.length_append, f.macAddresses_length]
    rfl
  rw [Frame.bytes, ← List.append_assoc] at henter
  obtain ⟨hdrop, hoffset, hmax⟩ := henter.behind hetherLen
  have hip : Reading file { s₁.behind 14 with etherType := 2048 }
      (f.ipHeader ++ f.behindIpHeader) rest := ⟨hdrop, hoffset, hmax⟩
  have hipHeader := ipHeader_eq f hip (hknown'.imp id And.right)
  obtain ⟨hdrop, hoffset, hmax⟩ := hip.behind f.length_ipHeader
  rw [hbytes] at hdrop hoffset hmax
  have htcp : Reading file
      { PacketState.behind { s₁.behind 14 with etherType := 2048 } 20 with transportProtocol := 6 }
      (bytes ++ more) rest := ⟨hdrop, hoffset, hmax⟩
  have hmore := htcp.behind hlen
  rw [inside_eq] at hmore
  refine ⟨?_, hmore⟩
  rw [packet, hheader, ok_bind, hframe, ok_bind, hipHeader, ok_bind]
  simp only [tcpHeader_eq htcp hlen, ok_bind, inside_eq]

end

/-! ## The HTTP data -/

section
variable {file : Bytes} {s : PacketState} {rest : Bytes}

/-- Nothing is taken from a segment without a payload, or from another port. -/
theorem httpData_other {payloadLen : Nat} {header : TCPHeader}
    (h : toShort (payloadLen - header.tcpHeaderLen) = 0 ∨ header.sourcePort ≠ 80) :
    httpData file payloadLen header s = .ok { s with numPackets := s.numPackets + 1 } := by
  rw [httpData]
  apply if_neg
  rintro ⟨hne, hport⟩
  rcases h with h | h
  · exact hne h
  · exact h hport

/-- The state behind a payload. -/
def PacketState.push (s : PacketState) (payload : TCPPayload) : PacketState :=
  { s with payloads := s.payloads ++ [payload], numPackets := s.numPackets + 1 }

theorem httpData_server {options payload padding : Bytes} {header : TCPHeader}
    (h : Reading file s (options ++ (payload ++ padding)) rest) (hport : header.sourcePort = 80)
    (hoptions : header.tcpHeaderLen = 20 + options.length) (hne : payload ≠ [])
    (hfit : payload.length < 65536) :
    httpData file (header.tcpHeaderLen + payload.length) header s
      = .ok (((s.behind options.length).behind payload.length).push
          (.of (UInt32.ofNat header.sequenceNumber) payload)) := by
  have hlen : toShort ((header.tcpHeaderLen + payload.length : Nat) - header.tcpHeaderLen)
      = payload.length := by
    rw [toShort]
    omega
  have hpos : payload.length ≠ 0 := fun hzero => hne (List.eq_nil_of_length_eq_zero hzero)
  have hskip : toUnsigned (header.tcpHeaderLen - TCP_HEADER_REQUIRED_FIELDS_LEN)
      = options.length := by
    have hfits := h.fits
    rw [List.length_append] at hfits
    rw [toUnsigned, hoptions, TCP_HEADER_REQUIRED_FIELDS_LEN]
    omega
  have hoffset : toInt (s.offsetToNextPacket - options.length)
      = s.offsetToNextPacket - options.length := by
    have hoffset := h.offset
    have hfits := h.fits
    rw [List.length_append] at hoffset hfits
    apply toInt_of_range
    · omega
    · omega
  have hbehind : Reading file (s.behind options.length) (payload ++ padding) rest := h.behind rfl
  have hread : readData file payload.length
      { s with
        pos := s.pos + options.length
        offsetToNextPacket := s.offsetToNextPacket - options.length }
      = .ok (payload, (s.behind options.length).behind payload.length) :=
    readData_eq hbehind rfl hpos
  have hnul : payload ++ List.replicate (payload.length + 1 - payload.length) 0
      = payload ++ [0] := by
    rw [Nat.add_sub_cancel_left]
    rfl
  rw [httpData]
  simp only [hlen, hskip]
  rw [if_pos ⟨hpos, hport⟩, Seek_eq, ok_bind]
  simp only [hoffset, hread, ok_bind, hnul]
  rfl

section
variable {payloadLen : Nat} {header : TCPHeader}

theorem read_eof {len : Nat} (h : file.drop s.pos = []) : read file len s = .error .eof := by
  rw [read, h, List.take_nil]
  rfl

/-- A payload that would stand behind the end of the file. -/
theorem httpData_eof (hlen : toShort (payloadLen - header.tcpHeaderLen) ≠ 0)
    (hport : header.sourcePort = 80) (hend : file.drop
      (s.pos + toUnsigned (header.tcpHeaderLen - TCP_HEADER_REQUIRED_FIELDS_LEN)) = []) :
    httpData file payloadLen header s = .error .eof := by
  rw [httpData]
  simp only
  rw [if_pos ⟨hlen, hport⟩, Seek_eq, ok_bind, readData, read_eof hend]
  rfl

/-- A payload of which at least one byte is in the file. -/
theorem httpData_taken (hlen : toShort (payloadLen - header.tcpHeaderLen) ≠ 0)
    (hport : header.sourcePort = 80) (hmore : file.drop
      (s.pos + toUnsigned (header.tcpHeaderLen - TCP_HEADER_REQUIRED_FIELDS_LEN)) ≠ []) :
    ∃ s' payload, httpData file payloadLen header s = .ok s' ∧
      s'.payloads = s.payloads ++ [payload] := by
  have hbytes : (file.drop
      (s.pos + toUnsigned (header.tcpHeaderLen - TCP_HEADER_REQUIRED_FIELDS_LEN))).take
        (toShort (payloadLen - header.tcpHeaderLen)) ≠ [] := by
    intro h
    rcases List.take_eq_nil_iff.mp h with h | h
    · exact hlen h
    · exact hmore h
  rw [httpData]
  simp only
  rw [if_pos ⟨hlen, hport⟩, Seek_eq, ok_bind, readData, read]
  simp only [if_neg hbytes, ok_bind]
  exact ⟨_, _, rfl, rfl⟩

end

end

/-! ## A turn -/

section
variable {file : Bytes} {s : PacketState} {rest : Bytes}

/-- Between two turns: the next packet is where `offsetToNextPacket` says. -/
def Between (file : Bytes) (s : PacketState) (rest : Bytes) : Prop :=
  Known s ∧ ∃ data, Reading file s data rest ∧ data.length + 8 ≤ 2147483647

theorem packetTurn_again {s' : PacketState} (h : packet file s = .ok s') :
    packetTurn file s = .ok (.again s') := by
  rw [packetTurn, h]

theorem packetTurn_eof (h : packet file s = .error .eof) :
    packetTurn file s = .ok (.stop s.payloads) := by
  rw [packetTurn, h]

/-- At the end of the file. -/
theorem packetTurn_end (h : Between file s []) : packetTurn file s = .ok (.stop s.payloads) := by
  obtain ⟨-, data, hreading, hfits⟩ := h
  obtain ⟨hoffset, hmax⟩ := hreading.next hfits
  have hdrop : file.drop (s.pos + (data.length + 8)) = [] := by
    rw [← List.drop_drop, hreading.drop, List.append_nil]
    exact List.drop_of_length_le (Nat.le_add_right _ _)
  apply packetTurn_eof
  rw [packet, packetHeader, hoffset, if_neg hmax, Seek_eq, ok_bind, read_eof hdrop]
  rfl

/-- The bytes that are taken for the TCP header. -/
def Frame.seen (f : Frame) : TCPHeader := .ofBuffer (f.behindIpHeader.take 20)

/-- The length of the payload that is looked for. -/
def Frame.seenLen (f : Frame) : Nat :=
  toShort ((f.layout.tcpHeaderLen + f.layout.payloadLen : Nat) - f.seen.tcpHeaderLen)

/-- The bytes that are skipped before it. -/
def Frame.skipped (f : Frame) : Nat :=
  toUnsigned (f.seen.tcpHeaderLen - TCP_HEADER_REQUIRED_FIELDS_LEN)

/-- In the data of a frame. -/
theorem packet_seen (f : Frame) (h : Between file s (f.packet ++ rest)) : ∃ s',
    packet file s = httpData file (f.layout.tcpHeaderLen + f.layout.payloadLen) f.seen s' ∧
      Reading file s' (f.behindIpHeader.drop 20) rest ∧
      (f.behindIpHeader.drop 20).length + 8 ≤ 2147483647 ∧
      (s'.etherType = 2048 ∧ s'.transportProtocol = 6) ∧ s'.payloads = s.payloads := by
  obtain ⟨hknown, data, hreading, hfits⟩ := h
  have hle := f.layout.frame_le
  have hlen : (f.behindIpHeader.take 20).length = 20 := by
    rw [List.length_take, f.length_behindIpHeader]
    omega
  obtain ⟨hpacket, hmore⟩ :=
    packet_eq f hreading hfits hknown (List.take_append_drop 20 _).symm hlen
  refine ⟨_, hpacket, hmore, ?_, ⟨rfl, rfl⟩, rfl⟩
  rw [List.length_drop, f.length_behindIpHeader]
  omega

/-- A frame from which nothing is taken. -/
theorem packetTurn_other (f : Frame) (h : Between file s (f.packet ++ rest))
    (hother : f.seenLen = 0 ∨ f.seen.sourcePort ≠ 80) :
    ∃ s', packetTurn file s = .ok (.again s') ∧ Between file s' rest ∧
      s'.payloads = s.payloads := by
  obtain ⟨s', hpacket, ⟨hdrop, hoffset, hmax⟩, hfits, hknown, hpayloads⟩ := packet_seen f h
  rw [httpData_other hother] at hpacket
  exact ⟨_, packetTurn_again hpacket, ⟨Or.inr hknown, _, ⟨hdrop, hoffset, hmax⟩, hfits⟩, hpayloads⟩

/-- A frame from which bytes are taken, its own or those behind it. -/
theorem packetTurn_taken (f : Frame) (h : Between file s (f.packet ++ rest))
    (hlen : f.seenLen ≠ 0) (hport : f.seen.sourcePort = 80)
    (hmore : f.skipped < (f.behindIpHeader.drop 20).length + rest.length) :
    ∃ s' payload, packetTurn file s = .ok (.again s') ∧ s'.payloads = s.payloads ++ [payload] := by
  obtain ⟨s', hpacket, hreading, -, -, hpayloads⟩ := packet_seen f h
  have hfile : file.drop (s'.pos + f.skipped) ≠ [] := by
    rw [← List.drop_drop, hreading.drop]
    intro hnil
    have hle := List.drop_eq_nil_iff.mp hnil
    rw [List.length_append] at hle
    exact absurd hmore (Nat.not_lt_of_le hle)
  obtain ⟨s'', payload, hrun, hpayloads'⟩ := httpData_taken hlen hport hfile
  rw [hrun] at hpacket
  exact ⟨s'', payload, packetTurn_again hpacket, by rw [hpayloads', hpayloads]⟩

/-- Without IP options the TCP header is the frame's own. -/
theorem seen_of_plain {f : Frame} (h : f.layout.ipOptionWords = 0) :
    f.behindIpHeader.drop 20 = f.tcpOptions ++ (f.payload ++ f.padding) ∧
      f.seen = ⟨f.sourcePort.toNat, f.layout.tcpHeaderLen, f.sequenceNumber.toNat⟩ := by
  have hoptions : f.ipOptions = [] := by
    apply List.eq_nil_of_length_eq_zero
    rw [f.ipOptions_length, h]
  rw [Frame.seen, Frame.behindIpHeader, hoptions, List.nil_append,
    List.drop_left' f.length_tcpHeader, List.take_left' f.length_tcpHeader]
  exact ⟨rfl, f.ofBuffer_tcpHeader⟩

/-- **A frame without IP options**: its payload is taken, if it is one of the server's. -/
theorem packetTurn_plain (f : Frame) (hplain : f.layout.ipOptionWords = 0)
    (h : Between file s (f.packet ++ rest)) : ∃ s', packetTurn file s = .ok (.again s') ∧
      Between file s' rest ∧ s'.payloads = s.payloads ++ f.serverPayload.toList := by
  obtain ⟨hdrop, hseen⟩ := seen_of_plain hplain
  have hfit : f.payload.length < 65536 := by
    have hle := f.layout.total_le
    rw [f.payload_length]
    omega
  by_cases hserver : f.sourcePort = 80 ∧ f.payload ≠ []
  · obtain ⟨s', hpacket, hmore, hfits, hknown, hpayloads⟩ := packet_seen f h
    rw [hdrop] at hmore hfits
    have hport : f.seen.sourcePort = 80 := by
      rw [hseen, hserver.1]
      rfl
    have hoptions : f.seen.tcpHeaderLen = 20 + f.tcpOptions.length := by
      rw [hseen, f.tcpOptions_length]
      rfl
    have hrun := httpData_server hmore hport hoptions hserver.2 hfit
    rw [hseen, f.payload_length] at hrun
    rw [hseen, hrun] at hpacket
    have hbehind := (hmore.behind rfl).behind f.payload_length
    obtain ⟨hdrop', hoffset, hmax⟩ := hbehind
    refine ⟨_, packetTurn_again hpacket,
      ⟨Or.inr hknown, f.padding, ⟨hdrop', hoffset, hmax⟩, ?_⟩, ?_⟩
    · simp only [List.length_append] at hfits
      omega
    · rw [Frame.serverPayload, if_pos hserver, UInt32.ofNat_toNat]
      show s'.payloads ++ _ = _
      rw [hpayloads]
      rfl
  · have hother : f.seenLen = 0 ∨ f.seen.sourcePort ≠ 80 := by
      rw [Frame.seenLen, hseen]
      rcases not_and_or.mp hserver with hport | hempty
      · exact Or.inr fun h => hport (UInt16.toNat_inj.mp h)
      · left
        have hzero : f.layout.payloadLen = 0 := by
          rw [← f.payload_length, not_not.mp hempty]
          rfl
        show toShort
          ((f.layout.tcpHeaderLen + f.layout.payloadLen : Nat) - f.layout.tcpHeaderLen) = 0
        rw [hzero, toShort]
        omega
    obtain ⟨s', hturn, hbetween, hpayloads⟩ := packetTurn_other f h hother
    refine ⟨s', hturn, hbetween, ?_⟩
    rw [hpayloads, Frame.serverPayload, if_neg hserver]
    simp

/-- 4 bytes of IP options, and nothing behind the TCP header. -/
def Layout.Bare (l : Layout) : Prop :=
  l.ipOptionWords = 1 ∧ l.tcpOptionWords = 0 ∧ l.payloadLen = 0 ∧ l.paddingLen = 0

instance (l : Layout) : Decidable l.Bare := inferInstanceAs (Decidable (_ ∧ _))

theorem tcpHeaderLen_seen (f : Frame) : ∃ words, f.seen.tcpHeaderLen = 4 * words := ⟨_, rfl⟩

/-- A last frame of that kind: the file ends before anything is taken. -/
theorem packetTurn_bare (f : Frame) (hbare : f.layout.Bare) (h : Between file s (f.packet ++ [])) :
    packetTurn file s = .ok (.stop s.payloads) ∨ ∃ s', packetTurn file s = .ok (.again s') ∧
      Between file s' [] ∧ s'.payloads = s.payloads := by
  by_cases hother : f.seenLen = 0 ∨ f.seen.sourcePort ≠ 80
  · exact Or.inr (packetTurn_other f h hother)
  · left
    obtain ⟨hlen, hport⟩ := not_or.mp hother
    obtain ⟨hip, htcp, hpayload, hpadding⟩ := hbare
    obtain ⟨words, hwords⟩ := tcpHeaderLen_seen f
    obtain ⟨s', hpacket, hmore, -⟩ := packet_seen f h
    have hleft : (f.behindIpHeader.drop 20).length = 4 := by
      rw [List.length_drop, f.length_behindIpHeader, hip, htcp, hpayload, hpadding]
    -- a header of 20 bytes would leave no payload, and any other ends behind the file
    have hskip : 4 ≤ f.skipped := by
      rw [Frame.seenLen, toShort, Layout.tcpHeaderLen, htcp, hpayload, hwords] at hlen
      rw [Frame.skipped, toUnsigned, TCP_HEADER_REQUIRED_FIELDS_LEN, hwords]
      omega
    have hend : file.drop (s'.pos + f.skipped) = [] := by
      rw [← List.drop_drop, hmore.drop, List.append_nil]
      exact List.drop_of_length_le (hleft.trans_le hskip)
    apply packetTurn_eof
    rw [hpacket, httpData_eof hlen (not_not.mp hport) hend]

end

end Nyctomek.Parsecap

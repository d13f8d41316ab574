/-
# `Parsecap.Alignment` — where a turn leaves the loop, and what it takes

Between two turns the loop keeps where it is and how far it is to the next record; both
change with every read.

    aligned_iff          the two add up to the start of the next record exactly if no payload
                         is taken behind a TCP header said to be shorter than 20 bytes
    payload_inside_iff   a payload lies in its record exactly if the IP datagram, its header
                         taken for one of 20 bytes, does, a total length below that of the
                         headers counting 65536 more
-/
import Nyctomek.Parsecap.Records

namespace Nyctomek.Parsecap

open Prog

/-- Behind the global header. -/
def PacketState.start : PacketState := ⟨PCAP_LEN_GLOBAL_HEADER, 0, 0, 0, 0, []⟩

/-- An iteration of the loop over the file that goes through to its end. -/
structure Iteration (file : Bytes) (s s' : PacketState) : Prop where
  reached : Turns (packetTurn file) .start s
  turn : packetTurn file s = .ok (.again s')

/-- The turn finds all the bytes it asks for. -/
def ReadsAll (file : Bytes) (s : PacketState) : Prop :=
  s.lengths + (s.record file).span ≤ file.length

section
variable {file : Bytes} {s s' : PacketState}

theorem Iteration.completes (h : Iteration file s s') : Completes file s :=
  (packetTurn_again_iff.mp h.turn).1

theorem Iteration.eq_next (h : Iteration file s s') : s' = s.next file :=
  (packetTurn_again_iff.mp h.turn).2

/-! ## The start of the next record -/

theorem Completes.lengths_eq (h : Completes file s) : (s.lengths : Int) = s.recordStart + 8 := by
  have hpos := h.inFile
  rw [PacketState.lengths, Int.toNat_of_nonneg hpos, PacketState.recordStart, Int.add_assoc]
  rfl

/-- Where the next turn looks for a record. -/
theorem recordStart_next : (s.next file).recordStart
    = (min (s.lengths + (s.record file).span) file.length : Nat) + toInt (s.lengths + 8
      + (s.record file).lenDataCaptured
      - (min (s.lengths + (s.record file).span) file.length : Nat)) := rfl

theorem toInt_eq_self_iff {x : Int} : toInt x = x ↔ -2147483648 ≤ x ∧ x ≤ 2147483647 := by
  rw [toInt]
  omega

theorem lenDataCaptured_le (file : Bytes) (q : Nat) :
    (recordAt file q).lenDataCaptured ≤ 2147483647 := by
  show toInt _ ≤ _
  rw [toInt]
  omega

theorem tcpPayloadLen_lt (r : Record) : r.tcpPayloadLen < 65536 := toShort_lt _

theorem options_of_le {r : Record} (h : 20 ≤ r.tcpHeader.tcpHeaderLen)
    (hle : r.tcpHeader.tcpHeaderLen ≤ 60) : r.options = r.tcpHeader.tcpHeaderLen - 20 := by
  rw [Record.options, toUnsigned, TCP_HEADER_REQUIRED_FIELDS_LEN]
  omega

theorem options_of_lt {r : Record} (h : r.tcpHeader.tcpHeaderLen < 20) :
    r.options = 4294967276 + r.tcpHeader.tcpHeaderLen := by
  rw [Record.options, toUnsigned, TCP_HEADER_REQUIRED_FIELDS_LEN]
  omega

/-- What one turn does to the sum. -/
theorem recordStart_next_iff (h : Completes file s) (hlen : 0 ≤ (s.record file).lenDataCaptured) :
    (s.next file).recordStart = s.recordStart + 16 + (s.record file).lenDataCaptured ↔
      ((s.record file).Taken → 20 ≤ (s.record file).tcpHeader.tcpHeaderLen) := by
  have hlengths := h.lengths_eq
  have hheaders := h.headers
  have hle := lenDataCaptured_le file s.lengths
  have hpayload := tcpPayloadLen_lt (s.record file)
  have hwords : (s.record file).tcpHeader.tcpHeaderLen ≤ 60 := tcpHeaderLen_le file s.lengths
  have hsum : (s.next file).recordStart = s.recordStart + 16 + (s.record file).lenDataCaptured ↔
      toInt (s.lengths + 8 + (s.record file).lenDataCaptured
        - (min (s.lengths + (s.record file).span) file.length : Nat))
      = s.lengths + 8 + (s.record file).lenDataCaptured
        - (min (s.lengths + (s.record file).span) file.length : Nat) := by
    rw [recordStart_next]
    omega
  rw [hsum, toInt_eq_self_iff]
  change (s.record file).lenDataCaptured ≤ _ at hle
  by_cases htaken : (s.record file).Taken
  · have hspan : (s.record file).span
        = 62 + ((s.record file).options + (s.record file).tcpPayloadLen) := by
      rw [Record.span, if_pos htaken]
    have hstart : s.lengths + 62 + (s.record file).options < file.length := h.payload htaken
    rw [imp_iff_right htaken, hspan]
    rcases Nat.lt_or_ge (s.record file).tcpHeader.tcpHeaderLen 20 with hshort | hlong
    · rw [options_of_lt hshort] at hstart ⊢
      omega
    · rw [options_of_le hlong hwords] at hstart ⊢
      omega
  · have hspan : (s.record file).span = 62 := by
      rw [Record.span, if_neg htaken]
    rw [hspan]
    refine iff_of_true ?_ (fun h => absurd h htaken)
    omega

end

/-- The sum after an iteration that reads all it asks for. -/
def Aligned (file : Bytes) : Prop :=
  ∀ s s', Iteration file s s' → ReadsAll file s → 0 ≤ (s.record file).lenDataCaptured →
    s'.recordStart = s.recordStart + 16 + (s.record file).lenDataCaptured

/-- **Alignment**: the loop stays at the starts of records exactly if it takes no payload behind
a TCP header of less than 20 bytes. -/
theorem aligned_iff (file : Bytes) : Aligned file ↔
    ∀ s s', Iteration file s s' → ReadsAll file s → 0 ≤ (s.record file).lenDataCaptured →
      (s.record file).Taken → 20 ≤ (s.record file).tcpHeader.tcpHeaderLen := by
  constructor
  · intro haligned s s' h hall hlen
    have hsum := haligned s s' h hall hlen
    rw [h.eq_next] at hsum
    exact (recordStart_next_iff h.completes hlen).mp hsum
  · intro hlong s s' h hall hlen
    rw [h.eq_next]
    exact (recordStart_next_iff h.completes hlen).mpr (hlong s s' h hall hlen)

/-! ### A header that is said to be short -/

theorem recordAt_append {a b : Bytes} {q : Nat} (h : q + 62 ≤ a.length) :
    recordAt (a ++ b) q = recordAt a q := by
  have hleft : 62 ≤ (a.drop q).length := by
    rw [List.length_drop]
    omega
  rw [← recordAt_window (a ++ b), ← recordAt_window a,
    List.drop_append_of_le_length (Nat.le_of_add_right_le h), List.take_append_of_le_length hleft]

/-- A file with a packet from port 80, up to the TCP options. -/
def portEighty (len totalLen tcpWords : UInt8) : Bytes :=
  List.replicate 32 0 ++ [len, 0, 0, 0, len, 0, 0, 0]
    ++ List.replicate 12 0 ++ [8, 0]
    ++ [0x45, 0, 0, totalLen, 0, 0, 0, 0, 64, 6] ++ List.replicate 10 0
    ++ [0, 80] ++ List.replicate 10 0 ++ [16 * tcpWords] ++ List.replicate 7 0

/-- The first turn over it. -/
theorem iteration_start {file : Bytes} (hlen : (recordAt file 32).lenDataCaptured
      = (recordAt file 32).lenDataUntruncated)
    (hheaders : 74 < file.length) (hpayload : payloadStart file 32 < file.length) :
    Iteration file .start (PacketState.start.next file) := by
  refine ⟨.refl _, packetTurn_again_iff.mpr ⟨?_, rfl⟩⟩
  exact ⟨by decide, by decide, hlen, .inl rfl, .inl rfl, hheaders, fun _ => hpayload⟩

/-- A TCP header of 16 bytes, and more than 4 GiB behind it. -/
theorem not_aligned_short : ¬ ∀ file, Aligned file := by
  have hnot : ∀ rest : Bytes, 4294967296 ≤ rest.length →
      ¬ Aligned (portEighty 51 37 4 ++ rest) := by
    intro rest hrest haligned
    have hrecord : recordAt (portEighty 51 37 4 ++ rest) 32
        = ⟨51, 51, 2048, 20, 37, 6, ⟨80, 16, 0⟩⟩ := (recordAt_append (by decide)).trans (by decide)
    have hlength : (portEighty 51 37 4 ++ rest).length = 94 + rest.length := List.length_append
    have hstart : payloadStart (portEighty 51 37 4 ++ rest) 32 = 94 + 4294967292 := by
      rw [payloadStart, hrecord]
      decide
    have hiteration : Iteration (portEighty 51 37 4 ++ rest) .start
        (PacketState.start.next (portEighty 51 37 4 ++ rest)) := by
      refine iteration_start ?_ ?_ ?_
      · rw [hrecord]
      · rw [hlength]
        omega
      · rw [hlength, hstart]
        omega
    have hall : ReadsAll (portEighty 51 37 4 ++ rest) .start := by
      show 32 + (recordAt _ 32).span ≤ _
      have hspan : (⟨51, 51, 2048, 20, 37, 6, ⟨80, 16, 0⟩⟩ : Record).span
          = 62 + (4294967292 + 1) := by decide
      rw [hrecord, hlength, hspan]
      omega
    have hfields : PacketState.start.record (portEighty 51 37 4 ++ rest)
        = ⟨51, 51, 2048, 20, 37, 6, ⟨80, 16, 0⟩⟩ := hrecord
    have hlen : 0 ≤ (PacketState.start.record (portEighty 51 37 4 ++ rest)).lenDataCaptured := by
      rw [hfields]
      decide
    have hsum := (recordStart_next_iff hiteration.completes hlen).mp
      (haligned _ _ hiteration hall hlen)
    rw [hfields] at hsum
    exact absurd (hsum (by decide)) (by decide)
  exact fun h => hnot (List.replicate 4294967296 0) (List.length_replicate.symm.le) (h _)

/-! ## The payload and its record -/

/-- Where the payload starts in the frame. -/
def Record.payloadOffset (r : Record) : Nat := 54 + r.options

/-- Every payload that is kept ends within the frame it came with. -/
def PayloadsInside (file : Bytes) : Prop :=
  ∀ s s' payload, Iteration file s s' → 0 ≤ (s.record file).lenDataCaptured →
    s'.payloads = s.payloads ++ [payload] →
    (payload.payloadLen.toNat : Int)
      ≤ (s.record file).lenDataCaptured - (s.record file).payloadOffset

/-- The datagram, with 20 bytes of IP header, fits in the frame; a total length below that of
the headers counts 65536 more. -/
def Record.Fits (r : Record) : Prop :=
  20 ≤ r.tcpHeader.tcpHeaderLen ∧
    (r.headerLen + r.tcpHeader.tcpHeaderLen ≤ r.totalLen ∧
        (r.totalLen + 34 : Int) ≤ r.lenDataCaptured + r.headerLen ∨
      r.totalLen < r.headerLen + r.tcpHeader.tcpHeaderLen ∧
        (r.totalLen + 65570 : Int) ≤ r.lenDataCaptured + r.headerLen)

section
variable {file : Bytes} {s s' : PacketState}

/-- What is kept in a turn. -/
theorem append_payload_iff {payload : TCPPayload} :
    (s.next file).payloads = s.payloads ++ [payload] ↔ (s.record file).Taken ∧
      payload = payloadAt file (payloadStart file s.lengths) (s.record file).tcpPayloadLen
        (s.record file).tcpHeader.sequenceNumber := by
  rw [payloads_next, List.append_cancel_left_eq, payloadsAt]
  by_cases htaken : (s.record file).Taken
  · refine Iff.trans ?_ (and_iff_right htaken).symm
    refine Iff.trans (Eq.congr_left (if_pos htaken)) ?_
    rw [List.singleton_inj]
    exact eq_comm
  · refine iff_of_false ?_ (fun h => htaken h.1)
    intro h
    cases (if_neg htaken).symm.trans h

theorem payloadLen_payloadAt {start n number : Nat} (h : n < 65536) :
    (payloadAt file start n number).payloadLen.toNat = n := UInt16.toNat_ofNat_of_lt h

/-- The arithmetic of `unsigned short`s, with the two header lengths of a record. -/
theorem tcpPayloadLen_le_iff {r : Record} (hheader : r.headerLen ≤ 60)
    (htcp : r.tcpHeader.tcpHeaderLen ≤ 60) (htotal : r.totalLen < 65536)
    (hlen : r.lenDataCaptured ≤ 2147483647) :
    (r.tcpPayloadLen : Int) ≤ r.lenDataCaptured - r.payloadOffset ↔ r.Fits := by
  rw [Record.payloadOffset, Record.Fits]
  rcases Nat.lt_or_ge r.tcpHeader.tcpHeaderLen 20 with hshort | hlong
  · rw [options_of_lt hshort]
    omega
  · rw [options_of_le hlong htcp, Record.tcpPayloadLen, toShort]
    omega

theorem recordAt_fits_iff (file : Bytes) (q : Nat) : ((recordAt file q).tcpPayloadLen : Int)
    ≤ (recordAt file q).lenDataCaptured - (recordAt file q).payloadOffset ↔
      (recordAt file q).Fits :=
  tcpPayloadLen_le_iff (headerLen_le file q) (tcpHeaderLen_le file q) (totalLen_lt file q)
    (lenDataCaptured_le file q)

end

/-- **Payloads**: none reaches behind its record exactly if every record that one is taken from
fits. -/
theorem payloadsInside_iff (file : Bytes) : PayloadsInside file ↔
    ∀ s s', Iteration file s s' → 0 ≤ (s.record file).lenDataCaptured → (s.record file).Taken →
      (s.record file).Fits := by
  constructor
  · intro hinside s s' h hlen htaken
    have hpayload := append_payload_iff.mpr ⟨htaken, rfl⟩
    rw [← h.eq_next] at hpayload
    have hle := hinside s s' _ h hlen hpayload
    rw [payloadLen_payloadAt (tcpPayloadLen_lt _)] at hle
    exact (recordAt_fits_iff file s.lengths).mp hle
  · intro hfits s s' payload h hlen hpayload
    rw [h.eq_next] at hpayload
    obtain ⟨htaken, rfl⟩ := append_payload_iff.mp hpayload
    rw [payloadLen_payloadAt (tcpPayloadLen_lt _)]
    exact (recordAt_fits_iff file s.lengths).mpr (hfits s s' h hlen htaken)

/-- Captured lengths of bytes below 128 are numbers. -/
theorem lenDataCaptured_nonneg {file : Bytes} (h : ∀ b ∈ file, b < 128) (q : Nat) :
    0 ≤ (recordAt file q).lenDataCaptured := by
  have hbyte : ∀ i, charAt file i < 128 := by
    intro i
    rw [charAt, List.getD_eq_getElem?_getD]
    cases hi : file[i]? with
    | none => exact Nat.zero_lt_succ _
    | some b => exact UInt8.lt_iff_toNat_lt.mp (h b (List.mem_of_getElem? hi))
  have hlow := hbyte q
  have hhigh := hbyte (q + 2 + 1)
  show 0 ≤ toInt (unsignedAt file q)
  rw [toInt, unsignedAt, shortAt, shortAt]
  have := charAt_lt file (q + 1)
  have := charAt_lt file (q + 2)
  omega

/-- Two packets of a total length of 0. -/
def zeroTotalLen : Bytes := portEighty 54 0 5 ++ (portEighty 54 0 5).drop 24

theorem not_payloadsInside_zero :
    ¬ ∀ file, (∀ q, 0 ≤ (recordAt file q).lenDataCaptured) → PayloadsInside file := by
  intro h
  have hrecord : recordAt zeroTotalLen 32 = ⟨54, 54, 2048, 20, 0, 6, ⟨80, 20, 0⟩⟩ := by decide
  have hiteration : Iteration zeroTotalLen .start (PacketState.start.next zeroTotalLen) := by
    have hlength : zeroTotalLen.length = 164 := rfl
    refine iteration_start ?_ ?_ ?_
    · rw [hrecord]
    · rw [hlength]
      decide
    · rw [hlength, payloadStart, hrecord]
      decide
  have hbytes : ∀ b ∈ zeroTotalLen, b < 128 := by decide +kernel
  have hpayload := append_payload_iff.mpr ⟨(by decide :
    (PacketState.start.record zeroTotalLen).Taken), rfl⟩
  have hinside := h zeroTotalLen (lenDataCaptured_nonneg hbytes) _ _ _ hiteration
    (by decide) hpayload
  rw [payloadLen_payloadAt (tcpPayloadLen_lt _)] at hinside
  exact absurd hinside (by decide)

end Nyctomek.Parsecap

/-
# `Parsecap.Chain` — from one record to the next

The captured length of a record says where the loop goes on, and it may say so backwards.
Apart from the first record's type and protocol, which the others have to share, the loop
carries nothing along that would matter: the records it comes to are the hops of
`nextRecord`.

    leaves_iff          the loop is left exactly if these hops do not lead in a circle, and an
                        `int` has room for the last one
    leaves_of_nonneg    so it is, when no record has a negative length
-/
import Nyctomek.Parsecap.Alignment
import Nyctomek.Prog.Hops

namespace Nyctomek.Parsecap

open Prog

section
variable (file : Bytes) (q : Nat)

/-- The lengths of the first record. -/
def firstRecord : Nat := PCAP_LEN_GLOBAL_HEADER + PCAP_LEN_TIMESTAMPS

/-- The record at `q` is in the file, and is one of the kind of the first. -/
structure Whole : Prop where
  untruncated : (recordAt file q).lenDataCaptured = (recordAt file q).lenDataUntruncated
  sameType : (recordAt file q).etherType = (recordAt file firstRecord).etherType
  sameProtocol : (recordAt file q).transportProtocol
    = (recordAt file firstRecord).transportProtocol
  headers : q + 42 < file.length
  payload : (recordAt file q).Taken → payloadStart file q < file.length

/-- Where a turn over the record stops reading. -/
def behind : Nat := min (q + (recordAt file q).span) file.length

/-- What `offsetToNextPacket` is there. -/
def remaining : Int := toInt (q + 8 + (recordAt file q).lenDataCaptured - behind file q)

/-- The hop to the next record. -/
def hop : Int := behind file q + (remaining file q + PCAP_LEN_TIMESTAMPS)

theorem whole_iff : Whole file q ↔
    (recordAt file q).lenDataCaptured = (recordAt file q).lenDataUntruncated ∧
    (recordAt file q).etherType = (recordAt file firstRecord).etherType ∧
    (recordAt file q).transportProtocol = (recordAt file firstRecord).transportProtocol ∧
    q + 42 < file.length ∧ ((recordAt file q).Taken → payloadStart file q < file.length) :=
  ⟨fun ⟨h₁, h₂, h₃, h₄, h₅⟩ => ⟨h₁, h₂, h₃, h₄, h₅⟩, fun ⟨h₁, h₂, h₃, h₄, h₅⟩ =>
    ⟨h₁, h₂, h₃, h₄, h₅⟩⟩

instance : Decidable (Whole file q) := decidable_of_iff' _ (whole_iff file q)

/-- The record behind the one at `q`. -/
def nextRecord : Option Nat :=
  if Whole file q ∧ remaining file q + PCAP_LEN_TIMESTAMPS ≤ INT_MAX ∧ 0 ≤ hop file q then
    some (hop file q).toNat
  else none

/-- In front of the record at `q`. -/
structure At (s : PacketState) : Prop where
  lengths : s.lengths = q
  fits : s.offsetToNextPacket + PCAP_LEN_TIMESTAMPS ≤ INT_MAX
  inFile : 0 ≤ s.pos + (s.offsetToNextPacket + PCAP_LEN_TIMESTAMPS)
  known : s.numPackets = 0 ∧ q = firstRecord ∨ s.numPackets ≠ 0 ∧
    s.etherType = (recordAt file firstRecord).etherType ∧
    s.transportProtocol = (recordAt file firstRecord).transportProtocol

end

section
variable {file : Bytes} {q q' : Nat} {s s' : PacketState}

theorem at_start (file : Bytes) : At file firstRecord .start :=
  ⟨rfl, by decide, by decide, .inl ⟨rfl, rfl⟩⟩

theorem At.completes_iff (h : At file q s) : Completes file s ↔ Whole file q := by
  obtain ⟨rfl, hfits, hpos, hknown⟩ := h
  constructor
  · rintro ⟨-, -, hlen, htype, hprotocol, hend, hpayload⟩
    rcases hknown with ⟨-, hfirst⟩ | ⟨hnot, htype', hprotocol'⟩
    · exact ⟨hlen, by rw [hfirst], by rw [hfirst], hend, hpayload⟩
    · refine ⟨hlen, ?_, ?_, hend, hpayload⟩
      · rw [← htype']
        exact ((or_iff_right hnot).mp htype).symm
      · rw [← hprotocol']
        exact ((or_iff_right hnot).mp hprotocol).symm
  · rintro ⟨hlen, htype, hprotocol, hend, hpayload⟩
    refine ⟨hfits, hpos, hlen, ?_, ?_, hend, hpayload⟩
    · rcases hknown with ⟨hzero, -⟩ | ⟨-, htype', -⟩
      · exact .inl hzero
      · exact .inr (htype'.trans htype.symm)
    · rcases hknown with ⟨hzero, -⟩ | ⟨-, -, hprotocol'⟩
      · exact .inl hzero
      · exact .inr (hprotocol'.trans hprotocol.symm)

/-- A turn comes to the next record. -/
theorem At.turn (h : At file q s) (hwhole : Whole file q) :
    packetTurn file s = .ok (.again (s.next file)) :=
  packetTurn_again_iff.mpr ⟨h.completes_iff.mpr hwhole, rfl⟩

theorem At.next (h : At file q s) (hwhole : Whole file q)
    (hfits : remaining file q + PCAP_LEN_TIMESTAMPS ≤ INT_MAX) (hhop : (q' : Int) = hop file q) :
    At file q' (s.next file) := by
  obtain ⟨rfl, -, -, -⟩ := h
  have hlengths : (s.next file).lengths = (hop file s.lengths).toNat := rfl
  rw [← hhop, Int.toNat_natCast] at hlengths
  have hpos : 0 ≤ hop file s.lengths := hhop ▸ Int.natCast_nonneg q'
  exact ⟨hlengths, hfits, hpos, .inr ⟨Nat.succ_ne_zero _, hwhole.sameType, hwhole.sameProtocol⟩⟩

theorem nextRecord_eq_some (h : nextRecord file q = some q') :
    Whole file q ∧ remaining file q + PCAP_LEN_TIMESTAMPS ≤ INT_MAX ∧ (q' : Int) = hop file q := by
  rw [nextRecord] at h
  split at h
  · rename_i hstep
    obtain ⟨hwhole, hfits, hpos⟩ := hstep
    cases Option.some.inj h
    exact ⟨hwhole, hfits, Int.toNat_of_nonneg hpos⟩
  · cases h

theorem At.step (h : At file q s) (hnext : nextRecord file q = some q') :
    ∃ s', packetTurn file s = .ok (.again s') ∧ At file q' s' := by
  obtain ⟨hwhole, hfits, hhop⟩ := nextRecord_eq_some hnext
  exact ⟨_, h.turn hwhole, h.next hwhole hfits hhop⟩

/-- A turn that does not go through is the last one. -/
theorem ends_of_not_completes (h : ¬ Completes file s) :
    ∃ r, Ends (fun fuel => loop (packetTurn file) fuel s) r ∧
      (r = .error .overflow ↔ INT_MAX < s.offsetToNextPacket + PCAP_LEN_TIMESTAMPS) := by
  rw [← @packet_overflow_iff file s]
  cases hpacket : packet file s with
  | ok s' => exact absurd (packet_eq_ok_iff.mp hpacket).1 h
  | error exit =>
      cases exit with
      | eof => exact ⟨_, Ends.loop_stop (packetTurn_eof hpacket), by simp⟩
      | fault fault =>
          have hturn : packetTurn file s = .error fault := by rw [packetTurn, hpacket]
          exact ⟨_, Ends.loop_error hturn, by simp⟩

/-- The last turns: they overflow only where the hop does. -/
theorem At.last (h : At file q s) (hnext : nextRecord file q = none) :
    ∃ r, Ends (fun fuel => loop (packetTurn file) fuel s) r ∧ (r = .error .overflow ↔
      Whole file q ∧ INT_MAX < remaining file q + PCAP_LEN_TIMESTAMPS) := by
  by_cases hwhole : Whole file q
  · have hturn := h.turn hwhole
    obtain ⟨rfl, -, -, -⟩ := h
    have hnot : ¬ Completes file (s.next file) := by
      intro hcompletes
      rw [nextRecord, if_pos ⟨hwhole, hcompletes.fits, hcompletes.inFile⟩] at hnext
      cases hnext
    obtain ⟨r, hr, hoverflow⟩ := ends_of_not_completes hnot
    exact ⟨r, Ends.of_turns (Turns.single hturn) hr,
      hoverflow.trans (and_iff_right hwhole).symm⟩
  · obtain ⟨r, hr, hoverflow⟩ :=
      ends_of_not_completes (mt h.completes_iff.mp hwhole)
    refine ⟨r, hr, hoverflow.trans (iff_of_false (not_lt.mpr h.fits) ?_)⟩
    exact fun hnot => hwhole hnot.1

end

/-- Records that the loop can hop to are within 2 GiB behind the file. -/
theorem nextRecord_le {file : Bytes} {q q' : Nat} (h : nextRecord file q = some q') :
    q' ≤ file.length + 2147483647 := by
  obtain ⟨-, hfits, hhop⟩ := nextRecord_eq_some h
  have hend : behind file q ≤ file.length := Nat.min_le_right _ _
  rw [INT_MAX] at hfits
  rw [hop] at hhop
  omega

/-- The end of the loop, by the last record it comes to. -/
theorem leaves_iff_last (file : Bytes) :
    (∃ r, Ends (packetLoop file) r ∧ r ≠ .error .overflow) ↔
      ¬ Circular (nextRecord file) firstRecord ∧
      ∀ n q, hops (nextRecord file) n firstRecord = some q → nextRecord file q = none →
        ¬ (Whole file q ∧ INT_MAX < remaining file q + PCAP_LEN_TIMESTAMPS) := by
  refine ends_iff_hops (R := fun s q => At file q s) (Set.finite_le_nat _)
    (fun _ _ => nextRecord_le) (fun _ _ _ h => h.step) ?_ (at_start file)
  intro s q h hnext
  obtain ⟨r, hr, hoverflow⟩ := h.last hnext
  exact ⟨r, hr, not_congr hoverflow⟩

/-- **Termination**: the loop is left, and not by an overflow, exactly if the records do not
lead back to one of them, and at none of them the sum with the timestamps overflows. -/
theorem leaves_iff (file : Bytes) :
    (∃ r, Ends (packetLoop file) r ∧ r ≠ .error .overflow) ↔
      ¬ Circular (nextRecord file) firstRecord ∧
      ∀ n q, hops (nextRecord file) n firstRecord = some q → Whole file q →
        remaining file q + PCAP_LEN_TIMESTAMPS ≤ INT_MAX := by
  have hfits : ∀ q, (Whole file q → remaining file q + PCAP_LEN_TIMESTAMPS ≤ INT_MAX) ↔
      (nextRecord file q = none →
        ¬ (Whole file q ∧ INT_MAX < remaining file q + PCAP_LEN_TIMESTAMPS)) := by
    intro q
    cases hnext : nextRecord file q with
    | none => rw [imp_iff_right rfl, not_and, not_lt]
    | some q' =>
        exact iff_of_true (fun _ => (nextRecord_eq_some hnext).2.1) (fun h => nomatch h)
  simp only [hfits]
  exact leaves_iff_last file

/-! ## Lengths that lead forwards, and one that does not -/

/-- From a record of no negative length the loop goes on behind it. -/
theorem lt_hop {file : Bytes} {q : Nat} (h : Whole file q)
    (hlen : 0 ≤ (recordAt file q).lenDataCaptured) :
    q < hop file q ∧ remaining file q + PCAP_LEN_TIMESTAMPS ≤ INT_MAX := by
  have hheaders := h.headers
  have hle := lenDataCaptured_le file q
  have hpayload := tcpPayloadLen_lt (recordAt file q)
  have hwords := tcpHeaderLen_le file q
  rw [hop, remaining, behind, toInt, INT_MAX, PCAP_LEN_TIMESTAMPS, Record.span]
  by_cases htaken : (recordAt file q).Taken
  · have hstart : q + 62 + (recordAt file q).options < file.length := h.payload htaken
    rw [if_pos htaken]
    rcases Nat.lt_or_ge (recordAt file q).tcpHeader.tcpHeaderLen 20 with hshort | hlong
    · rw [options_of_lt hshort] at hstart ⊢
      omega
    · rw [options_of_le hlong hwords] at hstart ⊢
      omega
  · rw [if_neg htaken]
    omega

/-- **Without negative lengths the loop is left.** -/
theorem leaves_of_nonneg (file : Bytes) (h : ∀ n q, hops (nextRecord file) n firstRecord = some q →
    0 ≤ (recordAt file q).lenDataCaptured) :
    ∃ r, Ends (packetLoop file) r ∧ r ≠ .error .overflow := by
  refine (leaves_iff_last file).mpr ⟨?_, ?_⟩
  · apply not_circular_of_lt
    intro n q q' hq hnext
    obtain ⟨hwhole, -, hhop⟩ := nextRecord_eq_some hnext
    have hlt := (lt_hop hwhole (h n q hq)).1
    rw [← hhop] at hlt
    exact Int.ofNat_lt.mp hlt
  · rintro n q hq - ⟨hwhole, hover⟩
    exact absurd (lt_hop hwhole (h n q hq)).2 (not_le.mpr hover)

/-- A record of -16 bytes: it is its own next record. -/
def backwards : Bytes :=
  List.replicate 32 0 ++ [240, 255, 255, 255, 240, 255, 255, 255] ++ List.replicate 54 0

theorem not_leaves_backwards : ¬ ∃ r, Ends (packetLoop backwards) r := by
  rintro ⟨r, hr⟩
  have hnext : nextRecord backwards firstRecord = some firstRecord := by decide
  have hcircular : Circular (nextRecord backwards) firstRecord :=
    ⟨0, 0, firstRecord, rfl, (hops_one _).trans hnext⟩
  exact not_ends_of_circular (R := fun s q => At backwards q s) (fun _ _ _ h => h.step)
    (at_start backwards) hcircular r hr

end Nyctomek.Parsecap

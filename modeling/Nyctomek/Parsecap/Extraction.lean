/-
# `Parsecap.Extraction` — the payloads the packet loop finds

`packetLoop_iff` says for which layouts of the frames the loop finds the server's payloads,
whatever the frames have in them:

    no IP header has options
    a last frame may have 4 bytes of them, if nothing is behind the 20 bytes of its TCP header

Behind other options a payload is missed, and a frame without one can seem to have one.
-/
import Nyctomek.Parsecap.Records

namespace Nyctomek.Parsecap

open Prog

/-! ## The loop -/

section
variable {file : Bytes} {s : PacketState} {rest : Bytes}

/-- The layouts for which the loop finds the payloads. -/
def Extractable : List Layout → Prop
  | [] => True
  | l :: ls => (l.ipOptionWords = 0 ∨ (l.Bare ∧ ls = [])) ∧ Extractable ls

instance decidableExtractable : (ls : List Layout) → Decidable (Extractable ls)
  | [] => inferInstanceAs (Decidable True)
  | _ :: ls =>
      have := decidableExtractable ls
      inferInstanceAs (Decidable (_ ∧ _))

/-- **A run over frames with these layouts.** -/
theorem ends_of_extractable {frames : List Frame} (h : Between file s (frames.flatMap Frame.packet))
    (hextractable : Extractable (frames.map Frame.layout)) :
    Ends (fun fuel => loop (packetTurn file) fuel s)
      (.ok (s.payloads ++ frames.filterMap Frame.serverPayload)) := by
  induction frames generalizing s with
  | nil =>
      rw [List.filterMap_nil, List.append_nil]
      exact Ends.loop_stop (packetTurn_end h)
  | cons f frames ih =>
      obtain ⟨hfirst, hrest⟩ := hextractable
      rw [List.flatMap_cons] at h
      rcases hfirst with hplain | ⟨hbare, hlast⟩
      · obtain ⟨s', hturn, hbetween, hpayloads⟩ := packetTurn_plain f hplain h
        have hrun := ih hbetween hrest
        rw [hpayloads, List.append_assoc] at hrun
        have hlist : (f :: frames).filterMap Frame.serverPayload
            = f.serverPayload.toList ++ frames.filterMap Frame.serverPayload := by
          rw [List.filterMap_cons]
          cases f.serverPayload with
          | none => rfl
          | some payload => rfl
        rw [hlist]
        exact Ends.of_turns (.single hturn) hrun
      · cases List.map_eq_nil_iff.mp hlast
        have hnone : f.serverPayload = none := by
          apply if_neg
          rintro ⟨-, hne⟩
          apply hne
          apply List.eq_nil_of_length_eq_zero
          rw [f.payload_length, hbare.2.2.1]
        rw [List.filterMap_cons_none hnone, List.filterMap_nil, List.append_nil]
        rcases packetTurn_bare f hbare h with hstop | ⟨s', hturn, hbetween, hpayloads⟩
        · exact Ends.loop_stop hstop
        · rw [← hpayloads]
          exact Ends.of_turns (.single hturn) (Ends.loop_stop (packetTurn_end hbetween))

/-- A run over frames of which none seems to come from port 80. -/
theorem turns_of_unseen {frames : List Frame} (hunseen : ∀ f ∈ frames, f.seen.sourcePort ≠ 80)
    (h : Between file s (frames.flatMap Frame.packet ++ rest)) :
    ∃ s', Turns (packetTurn file) s s' ∧ Between file s' rest ∧ s'.payloads = s.payloads := by
  induction frames generalizing s with
  | nil => exact ⟨s, .refl s, h, rfl⟩
  | cons f frames ih =>
      obtain ⟨hfirst, hrest⟩ := List.forall_mem_cons.mp hunseen
      rw [List.flatMap_cons, List.append_assoc] at h
      obtain ⟨s₁, hturn, hbetween, hpayloads⟩ := packetTurn_other f h (Or.inr hfirst)
      obtain ⟨s', hturns, hbetween', hpayloads'⟩ := ih hrest hbetween
      exact ⟨s', .head hturn hturns, hbetween', hpayloads'.trans hpayloads⟩

end

/-! ## Frames with IP options -/

/-- A frame whose TCP header begins with twelve equal bytes, but for the source port. -/
def Frame.filled (l : Layout) (ipOptions : Bytes) (h : ipOptions.length = 4 * l.ipOptionWords)
    (sourcePort : UInt16) (fill : UInt8) : Frame where
  layout := l
  timestamps := List.replicate 8 0
  macAddresses := List.replicate 12 0
  typeOfService := 0
  fragment := List.replicate 5 0
  ipAddresses := List.replicate 10 0
  ipOptions := ipOptions
  sourcePort := sourcePort
  destinationPort := UInt16.ofNat (257 * fill.toNat)
  sequenceNumber := UInt32.ofNat (16843009 * fill.toNat)
  acknowledgment := List.replicate 4 fill
  reserved := 0
  flags := List.replicate 7 0
  tcpOptions := List.replicate (4 * l.tcpOptionWords) 0
  payload := List.replicate l.payloadLen 0
  padding := List.replicate l.paddingLen 0
  timestamps_length := rfl
  macAddresses_length := rfl
  fragment_length := rfl
  ipAddresses_length := rfl
  ipOptions_length := h
  acknowledgment_length := rfl
  flags_length := rfl
  tcpOptions_length := List.length_replicate
  payload_length := List.length_replicate
  padding_length := List.length_replicate

/-- A frame of zeros from some port. -/
def Frame.zeros (l : Layout) (sourcePort : UInt16) : Frame :=
  .filled l (List.replicate (4 * l.ipOptionWords) 0) List.length_replicate sourcePort 0

/-- Options are taken for the ports. -/
theorem sourcePort_of_options {f : Frame} {high low : UInt8} {options : Bytes}
    (h : f.ipOptions = high :: low :: options) :
    f.seen.sourcePort = 256 * high.toNat + low.toNat := by
  rw [Frame.seen, Frame.behindIpHeader, h]
  exact ntohs_shortAt _ 0

theorem sourcePort_zeros {l : Layout} {sourcePort : UInt16}
    (h : l.ipOptionWords ≠ 0 ∨ sourcePort = 0) :
    (Frame.zeros l sourcePort).seen.sourcePort ≠ 80 := by
  rcases Nat.eq_zero_or_pos l.ipOptionWords with hzero | hpos
  · have hport := h.resolve_left (not_not_intro hzero)
    subst hport
    have hlayout : (Frame.zeros l 0).layout.ipOptionWords = 0 := hzero
    rw [(seen_of_plain hlayout).2]
    show (0 : UInt16).toNat ≠ 80
    decide
  · obtain ⟨n, hn⟩ : ∃ n, 4 * l.ipOptionWords = n + 2 := ⟨4 * l.ipOptionWords - 2, by omega⟩
    have hoptions : (Frame.zeros l sourcePort).ipOptions = 0 :: 0 :: List.replicate n 0 := by
      show List.replicate (4 * l.ipOptionWords) 0 = _
      rw [hn]
      rfl
    rw [sourcePort_of_options hoptions]
    decide

theorem be16_fill (fill : UInt8) : be16 (257 * fill.toNat) = [fill, fill] := by
  have hlt := fill.toNat_lt
  have hdiv : 257 * fill.toNat / 256 = fill.toNat := by omega
  have hlow : UInt8.ofNat (257 * fill.toNat) = fill := by
    apply UInt8.toNat_inj.mp
    rw [toNat_ofNat]
    omega
  rw [be16, hdiv, UInt8.ofNat_toNat, hlow]

theorem be32_fill (fill : UInt8) : be32 (16843009 * fill.toNat) = [fill, fill, fill, fill] := by
  have hlt := fill.toNat_lt
  have hhigh : 16843009 * fill.toNat / 65536 = 257 * fill.toNat := by omega
  have hdiv : 16843009 * fill.toNat / 256 = 65793 * fill.toNat := by omega
  have hmiddle : UInt8.ofNat (65793 * fill.toNat) = fill := by
    apply UInt8.toNat_inj.mp
    rw [toNat_ofNat]
    omega
  have hlow : UInt8.ofNat (16843009 * fill.toNat) = fill := by
    apply UInt8.toNat_inj.mp
    rw [toNat_ofNat]
    omega
  rw [be32, hhigh, be16_fill, be16, hdiv, hmiddle, hlow]
  rfl

/-- A frame whose options look like a header from port 80. -/
def Frame.http (l : Layout) (h : l.ipOptionWords ≠ 0) (fill : UInt8) : Frame :=
  .filled l (0 :: 80 :: List.replicate (4 * l.ipOptionWords - 2) fill)
    (by rw [List.length_cons, List.length_cons, List.length_replicate]; omega)
    (UInt16.ofNat (257 * fill.toNat)) fill

/-- The byte that makes a frame without a payload look like one with a payload: it stands
for a TCP header of 20 bytes where there are options, else for one of 24. -/
def Layout.fill (l : Layout) : UInt8 := if l.tcpOptionWords = 0 then 96 else 80

section
variable {l : Layout} (h : l.ipOptionWords ≠ 0) (fill : UInt8)

theorem behindIpHeader_http : ∃ rest, (Frame.http l h fill).behindIpHeader
    = 0 :: 80 :: (List.replicate (4 * l.ipOptionWords - 2 + 12) fill ++ rest) := by
  have hlt := fill.toNat_lt
  have hfit : 257 * fill.toNat < 65536 := by omega
  have hfit' : 16843009 * fill.toNat < 4294967296 := by omega
  have hport : (Frame.http l h fill).sourcePort.toNat = 257 * fill.toNat :=
    UInt16.toNat_ofNat_of_lt hfit
  have hport' : (Frame.http l h fill).destinationPort.toNat = 257 * fill.toNat :=
    UInt16.toNat_ofNat_of_lt hfit
  have hsequence : (Frame.http l h fill).sequenceNumber.toNat = 16843009 * fill.toNat :=
    UInt32.toNat_ofNat_of_lt hfit'
  have hoptions : (Frame.http l h fill).ipOptions
      = 0 :: 80 :: List.replicate (4 * l.ipOptionWords - 2) fill := rfl
  have hack : (Frame.http l h fill).acknowledgment = List.replicate 4 fill := rfl
  refine ⟨(UInt8.ofNat (16 * (5 + l.tcpOptionWords) + 0) :: (Frame.http l h fill).flags) ++
    ((Frame.http l h fill).tcpOptions ++
      ((Frame.http l h fill).payload ++ (Frame.http l h fill).padding)), ?_⟩
  rw [Frame.behindIpHeader, Frame.tcpHeader, hport, hport', hsequence, be16_fill, be32_fill,
    hoptions, hack, List.replicate_add]
  simp only [List.append_assoc, List.cons_append]
  rfl

theorem charAt_replicate {b : UInt8} {n i : Nat} (hi : i < n) (rest : Bytes) :
    charAt (List.replicate n b ++ rest) i = b.toNat := by
  rw [charAt, List.getD_append _ _ _ _ (by rwa [List.length_replicate]), List.getD_replicate _ hi]

theorem seen_http : (Frame.http l h fill).seen.sourcePort = 80 ∧
    (Frame.http l h fill).seen.tcpHeaderLen = 4 * (fill.toNat >>> 4) := by
  obtain ⟨rest, hbytes⟩ := behindIpHeader_http h fill
  have hoptions : (Frame.http l h fill).ipOptions
      = 0 :: 80 :: List.replicate (4 * l.ipOptionWords - 2) fill := rfl
  refine ⟨sourcePort_of_options hoptions, ?_⟩
  have hlt : 10 < 4 * l.ipOptionWords - 2 + 12 :=
    Nat.lt_of_lt_of_le (by decide) (Nat.le_add_left _ _)
  have hbyte : charAt ((Frame.http l h fill).behindIpHeader.take 20) 12 = fill.toNat := by
    rw [charAt_take (by decide), hbytes]
    exact charAt_replicate hlt rest
  show 4 * (charAt ((Frame.http l h fill).behindIpHeader.take 20) 12 >>> 4) = _
  rw [hbyte]

/-- **A payload that is not one**: bytes of the frame, or behind it, go to the list. -/
theorem packetTurn_http {file : Bytes} {s : PacketState} {rest : Bytes}
    (hempty : l.payloadLen = 0) (hrest : ¬(l.Bare ∧ rest = []))
    (hbetween : Between file s ((Frame.http l h l.fill).packet ++ rest)) :
    ∃ s' payload, packetTurn file s = .ok (.again s') ∧ s'.payloads = s.payloads ++ [payload] := by
  have hle := l.tcp_le
  have hleft : ((Frame.http l h l.fill).behindIpHeader.drop 20).length
      = 4 * l.ipOptionWords + 4 * l.tcpOptionWords + l.paddingLen := by
    rw [List.length_drop, Frame.length_behindIpHeader]
    show 20 + 4 * l.ipOptionWords + 4 * l.tcpOptionWords + l.payloadLen + l.paddingLen - 20 = _
    omega
  obtain ⟨hport, hheader⟩ := seen_http h l.fill
  have hpayloadLen : (Frame.http l h l.fill).layout.tcpHeaderLen
      + (Frame.http l h l.fill).layout.payloadLen = 20 + 4 * l.tcpOptionWords := by
    show 20 + 4 * l.tcpOptionWords + l.payloadLen = _
    rw [hempty, Nat.add_zero]
  have hskip : ∀ n : Nat, 20 ≤ n → n < 100 →
      toUnsigned (n - TCP_HEADER_REQUIRED_FIELDS_LEN) = n - 20 := by
    intro n hn hlt
    rw [toUnsigned, TCP_HEADER_REQUIRED_FIELDS_LEN]
    omega
  by_cases htcp : l.tcpOptionWords = 0
  · have hheaderLen : (Frame.http l h l.fill).seen.tcpHeaderLen = 24 := by
      rw [hheader, Layout.fill, if_pos htcp]
      rfl
    refine packetTurn_taken _ hbetween ?_ hport ?_
    · rw [Frame.seenLen, hpayloadLen, hheaderLen, htcp]
      decide
    · rw [Frame.skipped, hheaderLen, hskip 24 (by decide) (by decide), hleft, htcp]
      have hlong : l.ipOptionWords ≠ 1 ∨ l.paddingLen ≠ 0 ∨ rest.length ≠ 0 := by
        by_contra hshort
        simp only [not_or, not_not, List.length_eq_zero_iff] at hshort
        exact hrest ⟨⟨hshort.1, htcp, hempty, hshort.2.1⟩, hshort.2.2⟩
      omega
  · have hheaderLen : (Frame.http l h l.fill).seen.tcpHeaderLen = 20 := by
      rw [hheader, Layout.fill, if_neg htcp]
      rfl
    refine packetTurn_taken _ hbetween ?_ hport ?_
    · rw [Frame.seenLen, hpayloadLen, hheaderLen, toShort]
      omega
    · rw [Frame.skipped, hheaderLen, hskip 20 (by decide) (by decide), hleft]
      omega

end

/-! ## Which captures are read -/

/-- The loop finds the payloads, whatever the frames with these layouts have in them. -/
def Extracts (layouts : List Layout) : Prop :=
  ∀ c : Capture, c.frames.map Frame.layout = layouts →
    Ends (packetLoop c.file) (.ok c.serverPayloads)

/-- The capture of some frames. -/
def Capture.of (frames : List Frame) : Capture where
  corrections := List.replicate 8 0
  snapshotLen := 2147483647
  frames := frames
  corrections_length := rfl
  snapshotLen_ge := fun f _ => f.layout.frameLen_le

/-- In front of the first packet. -/
theorem between_start (c : Capture) : Between c.file ⟨PCAP_LEN_GLOBAL_HEADER, 0, 0, 0, 0, []⟩
    (c.frames.flatMap Frame.packet) := by
  refine ⟨Or.inl rfl, [], ⟨?_, rfl, Nat.zero_le _⟩, by decide⟩
  rw [Capture.file, List.drop_left' c.length_globalHeader, List.nil_append]

/-- If no frame seems to come from port 80, the list stays empty. -/
theorem ends_of_unseen (c : Capture) (h : ∀ f ∈ c.frames, f.seen.sourcePort ≠ 80) :
    Ends (packetLoop c.file) (.ok []) := by
  have hstart := between_start c
  rw [← List.append_nil (List.flatMap _ _)] at hstart
  obtain ⟨s, hturns, hend, hpayloads⟩ := turns_of_unseen h hstart
  have hstop := Ends.loop_stop (packetTurn_end hend)
  rw [hpayloads] at hstop
  exact Ends.of_turns hturns hstop

/-- A layout for which a payload is missed or made up. -/
theorem exists_unextractable {layouts : List Layout} (h : ¬Extractable layouts) :
    ∃ front l back, layouts = front ++ l :: back ∧ l.ipOptionWords ≠ 0 ∧ ¬(l.Bare ∧ back = []) := by
  induction layouts with
  | nil => exact absurd trivial h
  | cons l ls ih =>
      by_cases hfirst : l.ipOptionWords = 0 ∨ (l.Bare ∧ ls = [])
      · obtain ⟨front, l', back, rfl, hl'⟩ := ih fun hrest => h ⟨hfirst, hrest⟩
        exact ⟨l :: front, l', back, rfl, hl'⟩
      · obtain ⟨hoptions, hbare⟩ := not_or.mp hfirst
        exact ⟨[], l, ls, rfl, hoptions, hbare⟩

/-- Frames of zeros, with one among them. -/
def Frame.among (front : List Layout) (f : Frame) (back : List Layout) : List Frame :=
  front.map (Frame.zeros · 0) ++ f :: back.map (Frame.zeros · 0)

section
variable {front back : List Layout} {f : Frame}

theorem layout_among :
    (Frame.among front f back).map Frame.layout = front ++ f.layout :: back := by
  have hzeros : ∀ ls : List Layout, (ls.map (Frame.zeros · 0)).map Frame.layout = ls := by
    intro ls
    rw [List.map_map]
    exact List.map_id ls
  rw [Frame.among, List.map_append, List.map_cons, hzeros, hzeros]

theorem unseen_zeros (ls : List Layout) :
    ∀ f ∈ ls.map (Frame.zeros · 0), f.seen.sourcePort ≠ 80 := by
  intro f hf
  obtain ⟨l, -, rfl⟩ := List.mem_map.mp hf
  exact sourcePort_zeros (Or.inr rfl)

theorem eq_nil_of_packets {frames : List Frame} (h : frames.flatMap Frame.packet = []) :
    frames = [] := by
  cases frames with
  | nil => rfl
  | cons f frames =>
      rw [List.flatMap_cons, f.packet_append] at h
      have hlen := congrArg List.length h
      rw [List.length_append, f.timestamps_length, List.length_nil] at hlen
      omega

/-- Of frames of zeros no payload is the server's. -/
theorem serverPayload_zeros (ls : List Layout) :
    (ls.map (Frame.zeros · 0)).filterMap Frame.serverPayload = [] := by
  rw [List.filterMap_eq_nil_iff]
  intro f hf
  obtain ⟨l, -, rfl⟩ := List.mem_map.mp hf
  apply if_neg
  rintro ⟨hport, -⟩
  have hzero : (0 : UInt16) ≠ 80 := by decide
  exact hzero hport

theorem serverPayloads_among : (Frame.among front f back).filterMap Frame.serverPayload
    = f.serverPayload.toList := by
  rw [Frame.among, List.filterMap_append, serverPayload_zeros, List.filterMap_cons,
    serverPayload_zeros]
  cases f.serverPayload with
  | none => rfl
  | some payload => rfl

/-- A payload behind IP options is missed. -/
theorem not_extracts_payload {l : Layout} (hoptions : l.ipOptionWords ≠ 0)
    (hpayload : l.payloadLen ≠ 0) : ¬Extracts (front ++ l :: back) := by
  intro hextracts
  have hrun := hextracts (.of (Frame.among front (Frame.zeros l 80) back)) layout_among
  have hunseen : ∀ f ∈ Frame.among front (Frame.zeros l 80) back, f.seen.sourcePort ≠ 80 := by
    refine List.forall_mem_append.mpr
      ⟨unseen_zeros front, List.forall_mem_cons.mpr ⟨?_, unseen_zeros back⟩⟩
    exact sourcePort_zeros (Or.inl hoptions)
  have hempty := ends_of_unseen (.of (Frame.among front (Frame.zeros l 80) back)) hunseen
  have heq := Except.ok.inj (hrun.unique hempty)
  have hserver : (Frame.zeros l 80).serverPayload
      = some (.of 0 (List.replicate l.payloadLen 0)) := by
    apply if_pos
    refine ⟨rfl, ?_⟩
    intro hnil
    apply hpayload
    exact (List.replicate_eq_nil_iff 0).mp hnil
  have hlist : Capture.serverPayloads (.of (Frame.among front (Frame.zeros l 80) back))
      = [.of 0 (List.replicate l.payloadLen 0)] := by
    rw [Capture.serverPayloads, Capture.of, serverPayloads_among, hserver]
    rfl
  rw [hlist] at heq
  cases heq

/-- A frame without a payload that seems to have one. -/
theorem not_extracts_empty {l : Layout} (hoptions : l.ipOptionWords ≠ 0) (hempty : l.payloadLen = 0)
    (hbare : ¬(l.Bare ∧ back = [])) : ¬Extracts (front ++ l :: back) := by
  intro hextracts
  have hrun := hextracts (.of (Frame.among front (Frame.http l hoptions l.fill) back)) layout_among
  have hstart := between_start (.of (Frame.among front (Frame.http l hoptions l.fill) back))
  have hpackets : (Frame.among front (Frame.http l hoptions l.fill) back).flatMap Frame.packet
      = (front.map (Frame.zeros · 0)).flatMap Frame.packet ++
        ((Frame.http l hoptions l.fill).packet ++
          (back.map (Frame.zeros · 0)).flatMap Frame.packet) := by
    rw [Frame.among, List.flatMap_append, List.flatMap_cons]
  have hrest : ¬(l.Bare ∧ (back.map (Frame.zeros · 0)).flatMap Frame.packet = []) := by
    rintro ⟨hl, hnil⟩
    exact hbare ⟨hl, List.map_eq_nil_iff.mp (eq_nil_of_packets hnil)⟩
  rw [Capture.of, hpackets] at hstart
  obtain ⟨s, hturns, hbetween, -⟩ := turns_of_unseen (unseen_zeros front) hstart
  obtain ⟨s', payload, hturn, hpayloads⟩ := packetTurn_http hoptions hempty hrest hbetween
  obtain ⟨n, hn⟩ := Ends.behind_turns (hturns.trans (.single hturn)) hrun
  have hserver : (Frame.http l hoptions l.fill).serverPayload = none := by
    apply if_neg
    rintro ⟨-, hne⟩
    apply hne
    apply List.eq_nil_of_length_eq_zero
    rw [Frame.payload_length]
    exact hempty
  have hlist : Capture.serverPayloads (.of (Frame.among front (Frame.http l hoptions l.fill) back))
      = [] := by
    rw [Capture.serverPayloads, Capture.of, serverPayloads_among, hserver]
    rfl
  have hprefix := payloads_loop (hn n (Nat.le_refl n))
  rw [hlist, hpayloads] at hprefix
  have hnil := List.prefix_nil.mp hprefix
  exact absurd hnil (List.append_ne_nil_of_right_ne_nil _ (List.cons_ne_nil _ _))

end

/-- **The layouts for which the loop finds the server's payloads.** -/
theorem packetLoop_iff (layouts : List Layout) : Extracts layouts ↔ Extractable layouts := by
  constructor
  · intro hextracts
    by_contra h
    obtain ⟨front, l, back, rfl, hoptions, hbare⟩ := exists_unextractable h
    rcases Nat.eq_zero_or_pos l.payloadLen with hempty | hpos
    · exact not_extracts_empty hoptions hempty hbare hextracts
    · exact not_extracts_payload hoptions (Nat.ne_of_gt hpos) hextracts
  · rintro h c rfl
    exact ends_of_extractable (between_start c) h

/-- A byte from port 80, behind an IP header with the options NOP, NOP, NOP, end. -/
def nopFrame : Frame where
  layout := ⟨1, 0, 1, 0, by decide, by decide, by decide, by decide⟩
  timestamps := List.replicate 8 0
  macAddresses := List.replicate 12 0
  typeOfService := 0
  fragment := [0, 1, 0, 0, 64]
  ipAddresses := [121, 199, 127, 0, 0, 1, 127, 0, 0, 1]
  ipOptions := [1, 1, 1, 0]
  sourcePort := 80
  destinationPort := 50000
  sequenceNumber := 1
  acknowledgment := [0, 0, 0, 1]
  reserved := 0
  flags := [16, 16, 0, 157, 46, 0, 0]
  tcpOptions := []
  payload := [65]
  padding := []
  timestamps_length := rfl
  macAddresses_length := rfl
  fragment_length := rfl
  ipAddresses_length := rfl
  ipOptions_length := rfl
  acknowledgment_length := rfl
  flags_length := rfl
  tcpOptions_length := rfl
  payload_length := rfl
  padding_length := rfl

/-- Its options are taken for the ports, and the list stays empty. -/
theorem not_extracted_nop : ¬∀ c : Capture, Ends (packetLoop c.file) (.ok c.serverPayloads) := by
  intro h
  have hoptions : nopFrame.seen.sourcePort = 257 := sourcePort_of_options (f := nopFrame) rfl
  have hunseen : ∀ f ∈ [nopFrame], f.seen.sourcePort ≠ 80 := by
    rw [List.forall_mem_singleton, hoptions]
    decide
  have heq := Except.ok.inj ((h (.of [nopFrame])).unique (ends_of_unseen (.of [nopFrame]) hunseen))
  have hlist : (Capture.of [nopFrame]).serverPayloads = [.of 1 [65]] := rfl
  rw [hlist] at heq
  cases heq

end Nyctomek.Parsecap

/-
# `Http.Surplus` — bytes behind the end of a message

The packet with a message's last byte can bring more than that.  Then it depends on what
it brings whether the parser still finds the end.

    a body       the bytes are counted with it: nothing may stand behind it
    no body      they are read as lines: `Harmless`

`surplus_iff` is the answer for packets that cut no delimiter.
-/
import Nyctomek.Http.Proxy

namespace Nyctomek.Http

open Prog

variable {parse : Bytes → Int}

/-! ## Streams of packets -/

/-- The bytes of some packets. -/
def stream (packets : List Bytes) : List Tagged := packets.flatMap tagged

theorem stream_append (packets packets' : List Bytes) :
    stream (packets ++ packets') = stream packets ++ stream packets' := List.flatMap_append

theorem stream_singleton (packet : Bytes) : stream [packet] = tagged packet :=
  List.flatMap_singleton tagged packet

theorem map_snd_tagged (packet : Bytes) : (tagged packet).map Prod.snd = packet := by
  cases packet with
  | nil => rfl
  | cons b bs => rw [tagged, List.map_cons, map_snd_inside]

theorem map_snd_stream (packets : List Bytes) : (stream packets).map Prod.snd = packets.flatten := by
  induction packets with
  | nil => rfl
  | cons packet packets ih =>
      rw [stream, List.flatMap_cons, List.map_append, map_snd_tagged, ← stream, ih,
        List.flatten_cons]

/-- A packet goes on behind its first byte. -/
theorem tagged_append {packet : Bytes} (h : packet ≠ []) (rest : Bytes) :
    tagged (packet ++ rest) = tagged packet ++ inside rest := by
  obtain ⟨b, bs, rfl⟩ := List.exists_cons_of_ne_nil h
  rw [List.cons_append, tagged, tagged, inside_append, List.cons_append]

/-- **The parser's answers** are those of one run over the bytes. -/
theorem streamInPackets_stream (z : Scan) {packets : List Bytes}
    (h : ∀ packet ∈ packets, packet ≠ []) :
    ∃ dones, streamInPackets parse packets z.state
        = .ok (dones, (z.run parse (stream packets)).state) ∧
      ∀ before packet after, packets = before ++ packet :: after →
        dones[before.length]? = some (z.run parse (stream (before ++ [packet]))).state.done := by
  induction packets generalizing z with
  | nil => exact ⟨[], rfl, fun before packet after heq => by simp at heq⟩
  | cons packet packets ih =>
      obtain ⟨hpacket, hpackets⟩ := List.forall_mem_cons.mp h
      obtain ⟨dones, hrun, hdones⟩ := ih (z.run parse (tagged packet)) hpackets
      refine ⟨(z.run parse (tagged packet)).state.done :: dones, ?_, ?_⟩
      · rw [streamInPackets, streamInHTTPMessage_eq parse z hpacket, ok_bind, stream,
          List.flatMap_cons, run_append]
        show (streamInPackets parse packets (z.run parse (tagged packet)).state >>= _) = _
        rw [hrun]
        rfl
      · intro before packet' after heq
        cases before with
        | nil =>
            obtain ⟨rfl, -⟩ := List.cons.inj heq
            rw [List.nil_append, stream_singleton]
            rfl
        | cons packet'' before =>
            obtain ⟨rfl, hrest⟩ := List.cons.inj heq
            rw [List.length_cons, List.getElem?_cons_succ, hdones before packet' after hrest,
              ← run_append]
            rfl

/-- `done` at one of the packets. -/
def DoneAt (parse : Bytes → Int) (packets : List Bytes) (i : Nat) : Prop :=
  ∃ dones s, streamInPackets parse packets State.initial = .ok (dones, s) ∧ dones[i]? = some true

theorem doneAt_iff {before after : List Bytes} {packet : Bytes}
    (h : ∀ p ∈ before ++ packet :: after, p ≠ []) :
    DoneAt parse (before ++ packet :: after) before.length ↔
      (Scan.run parse ⟨State.initial, false⟩ (stream (before ++ [packet]))).state.done = true := by
  obtain ⟨dones, hrun, hdones⟩ := @streamInPackets_stream parse ⟨State.initial, false⟩ _ h
  have hdone := hdones before packet after rfl
  constructor
  · rintro ⟨dones', s, hrun', hdone'⟩
    obtain ⟨rfl, -⟩ := Prod.mk.inj (Except.ok.inj (hrun.symm.trans hrun'))
    exact Option.some.inj (hdone.symm.trans hdone')
  · intro h
    exact ⟨dones, _, hrun, by rw [hdone, h]⟩

/-! ## Where a message has ended -/

/-- The parser behind a message whose packets cut no delimiter. -/
theorem run_uncut {m : Header} (hm : m.Reads parse) {t : List Tagged} {body : Bytes}
    (ht : t.map Prod.snd = m.bytes ++ body) (hbody : body.length = m.bodyLength) (hu : Uncut t) :
    ∃ line, Scan.run parse ⟨State.initial, false⟩ t
      = if m.bodyLength = 0 then noticed 0 else ⟨ended line m.bodyLength, true⟩ := by
  obtain ⟨t₁, t₂, rfl, ht₁, ht₂⟩ := List.map_eq_append_iff.mp ht
  have hlen : t₁.length = m.bytes.length := by rw [← ht₁, List.length_map]
  have hflags : t₁.map Prod.fst <+: (t₁ ++ t₂).map Prod.fst := by
    rw [List.map_append]
    exact List.prefix_append _ _
  have htake : ((t₁ ++ t₂).map Prod.fst).take m.bytes.length = t₁.map Prod.fst := by
    rw [List.map_append]
    exact List.take_left' (by rw [List.length_map, hlen])
  have henough : m.bytes.length ≤ ((t₁ ++ t₂).map Prod.fst).length := by
    rw [← hlen, List.length_map, List.length_append]
    exact Nat.le_add_right _ _
  obtain ⟨hknown, hnull⟩ := known_of_uncut henough
    (by rw [htake, ← List.zip_of_prod rfl ht₁]; exact hu.append.1)
  obtain ⟨hrun, -⟩ := run_header hm ht₁ hflags
  rw [run_append, hrun, hknown, hnull, afterHeader]
  by_cases hzero : m.bodyLength = 0
  · have hnil : t₂ = [] := by
      rw [List.eq_nil_of_length_eq_zero (hbody.trans hzero)] at ht₂
      exact List.map_eq_nil_iff.mp ht₂
    refine ⟨[], ?_⟩
    rw [if_pos hzero, if_pos hzero, hnil]
    rfl
  · have hlen₂ : t₂.length = m.bodyLength := by rw [← hbody, ← ht₂, List.length_map]
    obtain ⟨line, hcontent, -⟩ := run_streaming parse
      (z := ⟨⟨[], m.bodyLength, 0, true⟩, true⟩) (t := t₂) rfl rfl (by simp) (by simp [hlen₂])
    refine ⟨line, ?_⟩
    rw [if_neg hzero, if_neg hzero, hcontent, hlen₂]
    simp

/-! ## What may stand behind a message without a body -/

/-- Header lines and the empty line. -/
def headerBytes (lines : List Line) : Bytes := lines.flatMap Line.bytes ++ CRLF_DELIMETER

/-- Headers that announce nothing; behind these some bytes without a delimiter, or one
message with the body that it announces. -/
inductive Harmless (parse : Bytes → Int) : Bytes → Prop
  | plain {bytes : Bytes} : ¬CRLF_DELIMETER <:+: bytes → Harmless parse bytes
  | header {lines : List Line} {bytes : Bytes} : (∀ l ∈ lines, parse l.bytes = 0) →
      Harmless parse bytes → Harmless parse (headerBytes lines ++ bytes)
  | message {lines lines' : List Line} {l : Line} {body : Bytes} : (∀ l ∈ lines, parse l.bytes = 0) →
      0 < parse l.bytes → (body.length : Int) = parse l.bytes →
      Harmless parse (headerBytes (lines ++ l :: lines') ++ body)

theorem headerBytes_cons (l : Line) (lines : List Line) (bytes : Bytes) :
    headerBytes (l :: lines) ++ bytes = l.bytes ++ (headerBytes lines ++ bytes) := by
  simp [headerBytes]

/-- A line in front, with a header behind it. -/
theorem Harmless.line {l : Line} {bytes : Bytes} (hl : parse l.bytes = 0) (h : Harmless parse bytes)
    (hinner : CRLF_DELIMETER <:+: bytes) : Harmless parse (l.bytes ++ bytes) := by
  cases h with
  | plain hplain => exact absurd hinner hplain
  | header hlines hrest =>
      rw [← headerBytes_cons]
      exact .header (List.forall_mem_cons.mpr ⟨hl, hlines⟩) hrest
  | message hlines hpos hlen =>
      rw [← headerBytes_cons, ← List.cons_append]
      exact .message (List.forall_mem_cons.mpr ⟨hl, hlines⟩) hpos hlen

/-- Bytes have no delimiter, or begin with the empty line, or with another one. -/
theorem exists_line (bytes : Bytes) : ¬CRLF_DELIMETER <:+: bytes ∨
    (∃ rest, bytes = CRLF_DELIMETER ++ rest) ∨ ∃ (l : Line) (rest : Bytes), bytes = l.bytes ++ rest := by
  cases hfind : find CRLF_DELIMETER bytes with
  | none => exact .inl (find_eq_none.mp hfind)
  | some i =>
      obtain ⟨pre, rest, hbytes, hno, -, -⟩ := copyEndPos_some hfind
      have hsplit : bytes = (pre ++ CRLF_DELIMETER) ++ rest := by
        rw [hbytes, CRLF_DELIMETER]
        simp
      by_cases hpre : pre = []
      · exact .inr (.inl ⟨rest, by rw [hsplit, hpre, List.nil_append]⟩)
      · have hinner : ¬CRLF_DELIMETER <:+: pre := fun h =>
          hno (h.trans (List.prefix_append _ _).isInfix)
        exact .inr (.inr ⟨⟨pre, hpre, hinner⟩, rest, hsplit⟩)

/-- Induction on the lines of the bytes, from the last one to the first. -/
theorem lines_induction {motive : Bytes → Prop}
    (plain : ∀ bytes, ¬CRLF_DELIMETER <:+: bytes → motive bytes)
    (null : ∀ rest, motive rest → motive (CRLF_DELIMETER ++ rest))
    (line : ∀ (l : Line) (rest : Bytes), motive rest → motive (l.bytes ++ rest)) (bytes : Bytes) :
    motive bytes := by
  induction hn : bytes.length using Nat.strongRecOn generalizing bytes with
  | ind n ih =>
      rcases exists_line bytes with hplain | ⟨rest, rfl⟩ | ⟨l, rest, rfl⟩
      · exact plain bytes hplain
      · refine null rest (ih rest.length ?_ rest rfl)
        rw [← hn, List.length_append, CRLF_DELIMETER, List.length_cons]
        omega
      · refine line l rest (ih rest.length ?_ rest rfl)
        have hpos := List.length_pos_of_ne_nil l.nonempty
        rw [← hn, List.length_append, Line.bytes, List.length_append]
        omega

/-! ## Lines inside a packet -/

theorem run_inside_line {s : State} (hline : s.httpLine = []) (hs : s.streams = false) (l : Line) :
    Scan.run parse ⟨s, false⟩ (inside l.bytes) = ⟨s.complete parse l.bytes, false⟩ := by
  have hsplit : inside l.bytes = inside (l.content ++ [CR]) ++ [(false, LF)] := by
    simp [Line.bytes, CRLF_DELIMETER, inside]
  rw [hsplit, run_line hline hs (map_snd_inside _), if_neg Bool.false_ne_true]

theorem run_inside_null {c : Int} {null : Bool} (hs : (⟨[], c, 0, null⟩ : State).streams = false)
    (hnull : c = 0 → parse CRLF_DELIMETER = 0) :
    Scan.run parse ⟨⟨[], c, 0, null⟩, false⟩ (inside CRLF_DELIMETER)
      = ⟨⟨[], c, 0, true⟩, (⟨[], c, 0, true⟩ : State).streams⟩ := by
  have hrun := @run_null parse c 0 null false _ hs hnull (map_snd_inside [CR])
  rw [Bool.false_and, if_neg Bool.false_ne_true] at hrun
  exact hrun

theorem run_inside_plain {s : State} (hline : s.httpLine = []) (hs : s.streams = false)
    {bytes : Bytes} (h : ¬CRLF_DELIMETER <:+: bytes) :
    Scan.run parse ⟨s, false⟩ (inside bytes) = ⟨{ s with httpLine := bytes }, false⟩ := by
  have hquiet : Quiet s.httpLine ((inside bytes).map Prod.snd) := by
    rw [hline, map_snd_inside]
    exact quiet_nil h
  rw [run_quiet hs hquiet, hline, map_snd_inside, List.nil_append]

theorem complete_unknown (r : Int) (null : Bool) (l : Line) :
    State.complete parse ⟨[], 0, r, null⟩ l.bytes = ⟨[], parse l.bytes, r, false⟩ := by
  rw [complete_of_ne l.bytes_ne]
  simp [State.complete, processCompleteHTTPLine]

theorem streams_unknown (r : Int) (null : Bool) : (⟨[], 0, r, null⟩ : State).streams = false := by
  simp [State.streams]

/-- Lines that announce nothing. -/
theorem run_lines_unknown (null : Bool) {lines : List Line} (hlines : ∀ l ∈ lines, parse l.bytes = 0) :
    ∃ null', Scan.run parse ⟨⟨[], 0, 0, null⟩, false⟩ (inside (lines.flatMap Line.bytes))
      = ⟨⟨[], 0, 0, null'⟩, false⟩ := by
  induction lines generalizing null with
  | nil => exact ⟨null, rfl⟩
  | cons l lines ih =>
      obtain ⟨hl, hlines⟩ := List.forall_mem_cons.mp hlines
      rw [List.flatMap_cons, inside_append, run_append, run_inside_line rfl (streams_unknown 0 null),
        complete_unknown, hl]
      exact ih false hlines

theorem run_header_unknown (hnull : parse CRLF_DELIMETER = 0) (null : Bool) {lines : List Line}
    (hlines : ∀ l ∈ lines, parse l.bytes = 0) :
    Scan.run parse ⟨⟨[], 0, 0, null⟩, false⟩ (inside (headerBytes lines)) = noticed 0 := by
  obtain ⟨null', hrun⟩ := run_lines_unknown null hlines
  rw [headerBytes, inside_append, run_append, hrun,
    run_inside_null (streams_unknown 0 null') fun _ => hnull, streams_unknown]

theorem streams_announced {c : Int} (hc : 0 < c) : (⟨[], c, 0, true⟩ : State).streams = true := by
  simp [State.streams, hc, Int.ne_of_gt hc]

/-- The rest of a header behind the line that announces a body. -/
theorem run_header_rest {c : Int} (hc : 0 < c) (lines : List Line) :
    Scan.run parse ⟨⟨[], c, 0, false⟩, false⟩ (inside (headerBytes lines))
      = ⟨⟨[], c, 0, true⟩, true⟩ := by
  have hne : c ≠ 0 := Int.ne_of_gt hc
  obtain ⟨hrun, -⟩ := @run_lines parse c 0 lines _ (fun l _ hzero => absurd hzero hne)
    (map_snd_inside (lines.flatMap Line.bytes))
  rw [headerBytes, inside_append, run_append, hrun, run_inside_null rfl fun hzero => absurd hzero hne,
    streams_announced hc]

/-- A header that announces a body. -/
theorem run_header_announced (null : Bool) {lines lines' : List Line} {l : Line}
    (hlines : ∀ l ∈ lines, parse l.bytes = 0) (hpos : 0 < parse l.bytes) :
    Scan.run parse ⟨⟨[], 0, 0, null⟩, false⟩ (inside (headerBytes (lines ++ l :: lines')))
      = ⟨⟨[], parse l.bytes, 0, true⟩, true⟩ := by
  obtain ⟨null', hrun⟩ := run_lines_unknown null hlines
  have hsplit : headerBytes (lines ++ l :: lines')
      = lines.flatMap Line.bytes ++ (l.bytes ++ headerBytes lines') := by simp [headerBytes]
  rw [hsplit, inside_append, run_append, hrun, inside_append, run_append,
    run_inside_line rfl (streams_unknown 0 null'), complete_unknown, run_header_rest hpos]

/-- Content is over if there is as much of it as announced. -/
theorem done_content {c : Int} (line : Bytes) (r : Int) (bytes : Bytes) :
    (Scan.run parse ⟨⟨line, c, r, true⟩, true⟩ (inside bytes)).state.done = true
      ↔ r + bytes.length = c := by
  rw [run_content rfl]
  simp [State.done]

/-! ## When the end is found -/

/-- A length below zero is never reached. -/
theorem not_done_negative {c : Int} (hc : c < 0) {s : State} (hlength : s.contentLength = c)
    (hreceived : s.receivedContentLength = 0) (bytes : Bytes) :
    (Scan.run parse ⟨s, false⟩ (inside bytes)).state.done = false := by
  induction bytes generalizing s with
  | nil =>
      simp only [inside, List.map_nil, run_nil, State.done, hlength, hreceived, Bool.and_eq_false_iff,
        beq_eq_false_iff_ne]
      exact .inr (Int.ne_of_gt hc)
  | cons b bytes ih =>
      have hs : ∀ s' : State, s'.contentLength = c → s'.receivedContentLength = 0 →
          s'.streams = false := by
        intro s' hlength' hreceived'
        simp [State.streams, hlength', hreceived', Int.not_lt.mpr (Int.le_of_lt hc)]
      rw [inside_cons, run_cons]
      by_cases hsuf : CRLF_DELIMETER <:+ s.httpLine ++ [b]
      · have hcomplete : (s.complete parse (s.httpLine ++ [b])).contentLength = c := by
          simp [State.complete, processCompleteHTTPLine, hlength, Int.ne_of_lt hc]
        rw [feed_complete (hs s hlength hreceived) hsuf, Bool.false_and, if_neg Bool.false_ne_true,
          hs _ hcomplete hreceived]
        exact ih hcomplete hreceived
      · rw [feed_quiet (hs s hlength hreceived) hsuf]
        exact ih hlength hreceived

/-- Behind a line that announces a body: the rest of the header, and the body. -/
theorem exists_message {c : Int} (hc : 0 < c) {bytes : Bytes}
    (h : (Scan.run parse ⟨⟨[], c, 0, false⟩, false⟩ (inside bytes)).state.done = true) :
    ∃ lines body, bytes = headerBytes lines ++ body ∧ (body.length : Int) = c := by
  have hne : c ≠ 0 := Int.ne_of_gt hc
  induction bytes using lines_induction with
  | plain bytes hplain =>
      rw [run_inside_plain rfl rfl hplain] at h
      cases h
  | null rest _ =>
      rw [inside_append, run_append, run_inside_null rfl fun hzero => absurd hzero hne,
        streams_announced hc, done_content, Int.zero_add] at h
      exact ⟨[], rest, rfl, h⟩
  | line l rest ih =>
      have hcomplete : State.complete parse ⟨[], c, 0, false⟩ l.bytes = ⟨[], c, 0, false⟩ := by
        rw [complete_of_ne l.bytes_ne]
        simp [State.complete, processCompleteHTTPLine, hne]
      rw [inside_append, run_append, run_inside_line rfl rfl, hcomplete] at h
      obtain ⟨lines, body, rfl, hbody⟩ := ih h
      exact ⟨l :: lines, body, (headerBytes_cons l lines body).symm, hbody⟩

theorem harmless_of_done (hnull : parse CRLF_DELIMETER = 0) {null : Bool} {bytes : Bytes}
    (h : (Scan.run parse ⟨⟨[], 0, 0, null⟩, false⟩ (inside bytes)).state.done = true) :
    Harmless parse bytes ∧ (null = false → CRLF_DELIMETER <:+: bytes) := by
  induction bytes using lines_induction generalizing null with
  | plain bytes hplain =>
      rw [run_inside_plain rfl (streams_unknown 0 null) hplain] at h
      refine ⟨.plain hplain, ?_⟩
      rintro rfl
      cases h
  | null rest ih =>
      rw [inside_append, run_append, run_inside_null (streams_unknown 0 null) fun _ => hnull,
        streams_unknown] at h
      have hheader : Harmless parse (headerBytes [] ++ rest) :=
        .header (List.forall_mem_nil _) (ih h).1
      exact ⟨hheader, fun _ => (List.prefix_append _ _).isInfix⟩
  | line l rest ih =>
      have hinfix : CRLF_DELIMETER <:+: l.bytes ++ rest := by
        rw [Line.bytes]
        exact ⟨l.content, rest, rfl⟩
      refine ⟨?_, fun _ => hinfix⟩
      rw [inside_append, run_append, run_inside_line rfl (streams_unknown 0 null),
        complete_unknown] at h
      rcases Int.lt_trichotomy (parse l.bytes) 0 with hneg | hzero | hpos
      · rw [not_done_negative hneg rfl rfl] at h
        cases h
      · rw [hzero] at h
        obtain ⟨hrest, hinner⟩ := ih h
        exact hrest.line hzero (hinner rfl)
      · obtain ⟨lines, body, rfl, hbody⟩ := exists_message hpos h
        rw [← headerBytes_cons]
        have hmessage : Harmless parse (headerBytes ([] ++ l :: lines) ++ body) :=
          .message (List.forall_mem_nil _) hpos hbody
        exact hmessage

theorem Harmless.done (hnull : parse CRLF_DELIMETER = 0) {bytes : Bytes} (h : Harmless parse bytes) :
    (Scan.run parse (noticed 0) (inside bytes)).state.done = true := by
  induction h with
  | plain hplain =>
      rw [run_inside_plain rfl (streams_unknown 0 true) hplain]
      rfl
  | header hlines _ ih =>
      rw [inside_append, run_append, run_header_unknown hnull true hlines]
      exact ih
  | message hlines hpos hlen =>
      rw [inside_append, run_append, run_header_announced true hlines hpos, done_content,
        Int.zero_add, hlen]

/-- **Bytes behind a message**, in the packet with its last byte: `done` is true there
exactly if they are harmless, or if there is a body and there are none. -/
theorem surplus_iff {m : Header} (hm : m.Reads parse) {body : Bytes}
    (hbody : body.length = m.bodyLength) {before after : List Bytes} {last surplus : Bytes}
    (hpackets : ∀ packet ∈ before ++ (last ++ surplus) :: after, packet ≠ []) (hlast : last ≠ [])
    (hmessage : before.flatten ++ last = m.bytes ++ body)
    (huncut : Uncut (stream (before ++ (last ++ surplus) :: after))) :
    DoneAt parse (before ++ (last ++ surplus) :: after) before.length ↔
      if m.bodyLength = 0 then Harmless parse surplus else surplus = [] := by
  have hsplit : stream (before ++ [last ++ surplus])
      = stream (before ++ [last]) ++ inside surplus := by
    rw [stream_append, stream_singleton, tagged_append hlast, ← List.append_assoc, stream_append,
      stream_singleton]
  have hprefix : Uncut (stream (before ++ [last])) := by
    rw [List.append_cons, stream_append, hsplit] at huncut
    exact huncut.append.1.append.1
  obtain ⟨line, hrun⟩ := run_uncut hm (t := stream (before ++ [last]))
    (by rw [map_snd_stream, List.flatten_append, List.flatten_singleton, hmessage]) hbody hprefix
  rw [doneAt_iff hpackets, hsplit, run_append, hrun]
  split
  · exact ⟨fun h => (harmless_of_done hm.null h).1, fun h => h.done hm.null⟩
  · rw [done_content, ← List.length_eq_zero_iff]
    omega

/-- A request with the next one behind it. -/
theorem surplus_iff_get :
    DoneAt parseThree [getHeader.bytes ++ (headerBytes [getLine] ++ [])] 0 :=
  (@surplus_iff _ _ reads_getHeader [] rfl [] [] _ _ (by decide) (by decide) (by decide)
    (by decide)).mpr (.header (by decide) (.plain (by decide)))

/-- A body of three bytes, and one byte behind it. -/
theorem not_doneAt_surplus : ¬DoneAt parseThree [threeHeader.bytes ++ ascii "abcd"] 0 := by
  intro h
  have hdone := (@doneAt_iff _ [] [] _ (by decide)).mp h
  obtain ⟨line, hrun⟩ := run_uncut reads_parseThree
    (t := tagged (threeHeader.bytes ++ ascii "abc")) (map_snd_tagged _) rfl (by decide)
  have hsplit : stream ([] ++ [threeHeader.bytes ++ ascii "abcd"])
      = tagged (threeHeader.bytes ++ ascii "abc") ++ inside (ascii "d") := rfl
  rw [hsplit, run_append, hrun, if_neg (by decide), done_content] at hdone
  exact absurd hdone (by decide)

end Nyctomek.Http

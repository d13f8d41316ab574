/-
# `Http.Bytewise` — a packet read byte by byte

`streamInHTTPMessage` searches whole packets; what it makes of them can be said byte
by byte, if of every byte it is known whether it opens a packet.

    a byte of content            joins the last packet, and counts
    the LF that ends a line      `State.complete`; at the head of a packet only for content
    any other byte               joins the line

`streamInHTTPMessage_eq` is the connection: one packet is one fold of `Scan.feed`.
-/
import Nyctomek.Http.Basic

namespace Nyctomek.Http

open Prog

variable {parse : Bytes → Int}

/-! ## Where lines end -/

theorem crlf_suffix_concat {line : Bytes} {b : UInt8} :
    CRLF_DELIMETER <:+ line ++ [b] ↔ line.getLast? = some CR ∧ b = LF := by
  constructor
  · rintro ⟨pre, hpre⟩
    have hsplit : (pre ++ [CR]) ++ [LF] = line ++ [b] := by
      rw [← hpre, CRLF_DELIMETER, List.append_assoc, List.singleton_append]
    obtain ⟨hline, hb⟩ := List.append_inj' hsplit rfl
    rw [← hline]
    exact ⟨List.getLast?_concat, (List.cons.inj hb).1.symm⟩
  · rintro ⟨hlast, rfl⟩
    obtain ⟨pre, rfl⟩ := List.getLast?_eq_some_iff.mp hlast
    exact ⟨pre, by simp [CRLF_DELIMETER]⟩

theorem crlf_prefix_cons {b : UInt8} {bs : Bytes} :
    CRLF_DELIMETER <+: b :: bs ↔ b = CR ∧ bs.head? = some LF := by
  cases bs with
  | nil => simp [CRLF_DELIMETER]
  | cons c bs => simp [CRLF_DELIMETER, eq_comm]

/-- None of the bytes that follow a line completes it. -/
def Quiet : Bytes → Bytes → Prop
  | _, [] => True
  | line, b :: bs => ¬CRLF_DELIMETER <:+ line ++ [b] ∧ Quiet (line ++ [b]) bs

/-- A delimiter stands across the two parts or inside the second. -/
theorem quiet_iff {line bs : Bytes} : Quiet line bs ↔
    ¬(line.getLast? = some CR ∧ bs.head? = some LF) ∧ ¬CRLF_DELIMETER <:+: bs := by
  induction bs generalizing line with
  | nil => simp [Quiet, CRLF_DELIMETER]
  | cons b bs ih =>
      rw [Quiet, crlf_suffix_concat, ih, List.getLast?_concat, List.infix_cons_iff,
        crlf_prefix_cons, not_or, List.head?_cons, Option.some.injEq, Option.some.injEq]

theorem Quiet.not_suffix {line bs : Bytes} (h : Quiet line bs) (hbs : bs ≠ []) :
    ¬CRLF_DELIMETER <:+ line ++ bs := by
  induction bs generalizing line with
  | nil => exact absurd rfl hbs
  | cons b bs ih =>
      cases bs with
      | nil => exact h.1
      | cons c bs => simpa using ih h.2 (List.cons_ne_nil c bs)

/-! ## One byte -/

@[simp] theorem streams_httpLine (s : State) (line : Bytes) :
    ({ s with httpLine := line } : State).streams = s.streams := rfl

@[simp] theorem done_httpLine (s : State) (line : Bytes) :
    ({ s with httpLine := line } : State).done = s.done := rfl

@[simp] theorem complete_httpLine (s : State) (line line' : Bytes) :
    ({ s with httpLine := line } : State).complete parse line' = s.complete parse line' := rfl

/-- The state, and whether the rest of the packet is content. -/
structure Scan where
  state : State
  streaming : Bool
  deriving DecidableEq, Repr

/-- A byte, with whether it opens a packet. -/
abbrev Tagged := Bool × UInt8

/-- What one byte does. -/
def Scan.feed (parse : Bytes → Int) (z : Scan) (x : Tagged) : Scan :=
  if (if x.1 then z.state.streams else z.streaming) then
    ⟨⟨(if x.1 then [] else z.state.httpLine) ++ [x.2], z.state.contentLength,
      z.state.receivedContentLength + 1, true⟩, true⟩
  else if CRLF_DELIMETER <:+ z.state.httpLine ++ [x.2] then
    let s' := z.state.complete parse (z.state.httpLine ++ [x.2])
    if x.1 && !s'.streams then ⟨{ z.state with httpLine := [] }, false⟩ else ⟨s', s'.streams⟩
  else ⟨{ z.state with httpLine := z.state.httpLine ++ [x.2] }, false⟩

/-- What some bytes do. -/
def Scan.run (parse : Bytes → Int) (z : Scan) (t : List Tagged) : Scan :=
  t.foldl (Scan.feed parse) z

@[simp] theorem run_nil (z : Scan) : z.run parse [] = z := rfl

theorem run_cons (z : Scan) (x : Tagged) (t : List Tagged) :
    z.run parse (x :: t) = (z.feed parse x).run parse t := rfl

theorem run_append (z : Scan) (t t' : List Tagged) :
    z.run parse (t ++ t') = (z.run parse t).run parse t' := List.foldl_append

section
variable {s : State} {b : UInt8} {f : Bool}

/-- At the head of a packet it does not matter what the last one was read as. -/
theorem feed_first (z : Scan) (streaming : Bool) :
    z.feed parse (true, b) = Scan.feed parse ⟨z.state, streaming⟩ (true, b) := rfl

theorem feed_quiet (hs : s.streams = false) (hb : ¬CRLF_DELIMETER <:+ s.httpLine ++ [b]) :
    Scan.feed parse ⟨s, false⟩ (f, b) = ⟨{ s with httpLine := s.httpLine ++ [b] }, false⟩ := by
  simp [Scan.feed, hs, hb]

/-- A line is completed, but not if its LF opens a packet and is not followed by content. -/
theorem feed_complete (hs : s.streams = false) (hb : CRLF_DELIMETER <:+ s.httpLine ++ [b]) :
    Scan.feed parse ⟨s, false⟩ (f, b)
      = if f && !(s.complete parse (s.httpLine ++ [b])).streams
        then ⟨{ s with httpLine := [] }, false⟩
        else ⟨s.complete parse (s.httpLine ++ [b]),
          (s.complete parse (s.httpLine ++ [b])).streams⟩ := by
  simp [Scan.feed, hs, hb]

theorem run_quiet {t : List Tagged} (hs : s.streams = false)
    (ht : Quiet s.httpLine (t.map Prod.snd)) :
    Scan.run parse ⟨s, false⟩ t
      = ⟨{ s with httpLine := s.httpLine ++ t.map Prod.snd }, false⟩ := by
  induction t generalizing s with
  | nil => simp
  | cons x t ih =>
      obtain ⟨hx, ht⟩ := ht
      rw [run_cons, feed_quiet hs hx, ih (by simpa using hs) ht]
      simp
end

/-! ## One packet -/

/-- The bytes of a packet behind its first. -/
def inside (bytes : Bytes) : List Tagged := bytes.map (Prod.mk false)

theorem inside_cons (b : UInt8) (bytes : Bytes) :
    inside (b :: bytes) = (false, b) :: inside bytes := rfl

theorem inside_append (bytes bytes' : Bytes) :
    inside (bytes ++ bytes') = inside bytes ++ inside bytes' := List.map_append

/-- The bytes of a packet. -/
def tagged : Bytes → List Tagged
  | [] => []
  | b :: bs => (true, b) :: inside bs

theorem map_snd_inside (bytes : Bytes) : (inside bytes).map Prod.snd = bytes := by
  rw [inside, List.map_map]
  exact List.map_id bytes

/-- What a packet is turned into, at the end of its bytes. -/
def Scan.result (z : Scan) : State × Bool := (z.state, z.state.done)

theorem run_content {s : State} (hnull : s.receivedNullLine = true) (bytes : Bytes) :
    Scan.run parse ⟨s, true⟩ (inside bytes)
      = ⟨⟨s.httpLine ++ bytes, s.contentLength, s.receivedContentLength + bytes.length, true⟩,
        true⟩ := by
  induction bytes generalizing s with
  | nil => simp [inside, ← hnull]
  | cons b bytes ih =>
      have hfeed : Scan.feed parse ⟨s, true⟩ (false, b)
          = ⟨⟨s.httpLine ++ [b], s.contentLength, s.receivedContentLength + 1, true⟩, true⟩ := rfl
      rw [inside_cons, run_cons, hfeed, ih rfl]
      simp only [List.append_assoc, List.singleton_append, List.length_cons, Nat.cast_add,
        Nat.cast_one]
      rw [Int.add_assoc, Int.add_comm 1]

/-- Content behind a line of the same packet. -/
theorem streamInHTTPContent_eq {s : State} (hline : s.httpLine = [])
    (hnull : s.receivedNullLine = true) (bytes : Bytes) :
    streamInHTTPContent bytes s.contentLength s.receivedContentLength
      = (Scan.run parse ⟨s, true⟩ (inside bytes)).result := by
  rw [run_content hnull, hline, Scan.result, streamInHTTPContent]
  simp [State.done, eq_comm]

theorem receivedNullLine_of_streams {s : State} (h : s.streams = true) :
    s.receivedNullLine = true := by
  simp only [State.streams, Bool.and_eq_true] at h
  exact h.1.1

/-- What the loop finds in a packet: a line's end, and what stands behind it. -/
theorem copyEndPos_some {packet : Bytes} {i : Nat} (h : find CRLF_DELIMETER packet = some i) :
    ∃ pre suf, packet = (pre ++ [CR]) ++ LF :: suf ∧ ¬CRLF_DELIMETER <:+: pre ++ [CR] ∧
      packet.take (copyEndPos packet) = (pre ++ [CR]) ++ [LF] ∧
      packet.drop (copyEndPos packet) = suf := by
  obtain ⟨pre, suf, hsplit, hlen, hfirst⟩ := find_eq_some.mp h
  have hpacket : packet = ((pre ++ [CR]) ++ [LF]) ++ suf := by
    rw [hsplit, CRLF_DELIMETER]
    simp
  have hpos : copyEndPos packet = ((pre ++ [CR]) ++ [LF]).length := by
    rw [copyEndPos, h]
    simp [hlen, CRLF_DELIMETER]
  refine ⟨pre, suf, by rw [hpacket, List.append_assoc, List.singleton_append], ?_, ?_, ?_⟩
  · rintro ⟨before, behind, hinner⟩
    -- an earlier delimiter would have been found
    have hlt : before.length < i := by
      have hlength := congrArg List.length hinner
      simp only [List.length_append, CRLF_DELIMETER, List.length_cons, List.length_nil] at hlength
      omega
    apply hfirst _ hlt
    rw [hpacket, ← hinner]
    simp
  · rw [hpos, hpacket, List.take_left]
  · rw [hpos, hpacket, List.drop_left]

/-- Behind a line that has begun: the delimiter that is found is the first to end it. -/
theorem exists_line_end {packet line : Bytes} {i : Nat} (h : find CRLF_DELIMETER packet = some i)
    (hhead : ¬(line.getLast? = some CR ∧ packet.head? = some LF)) :
    ∃ content suf, packet = content ++ LF :: suf ∧ Quiet line content ∧
      CRLF_DELIMETER <:+ (line ++ content) ++ [LF] ∧
      packet.take (copyEndPos packet) = content ++ [LF] ∧
      packet.drop (copyEndPos packet) = suf := by
  obtain ⟨pre, suf, hpacket, hno, htake, hdrop⟩ := copyEndPos_some h
  refine ⟨pre ++ [CR], suf, hpacket, quiet_iff.mpr ⟨?_, hno⟩, ?_, htake, hdrop⟩
  · intro hcut
    apply hhead
    rw [hpacket, List.head?_append, hcut.2]
    exact ⟨hcut.1, rfl⟩
  · exact crlf_suffix_concat.mpr ⟨by rw [← List.append_assoc, List.getLast?_concat], rfl⟩

theorem streamInLines_eq (packet : Bytes) {s : State} (hs : s.streams = false)
    (hhead : ¬(s.httpLine.getLast? = some CR ∧ packet.head? = some LF)) :
    streamInLines parse packet s = (Scan.run parse ⟨s, false⟩ (inside packet)).result := by
  induction hn : packet.length using Nat.strongRecOn generalizing packet s with
  | ind n ih =>
      by_cases hnil : packet = []
      · rw [hnil, streamInLines_nil]
        rfl
      cases hfind : find CRLF_DELIMETER packet with
      | none =>
          -- no delimiter: the loop takes the whole packet
          have hquiet : Quiet s.httpLine packet := quiet_iff.mpr ⟨hhead, find_eq_none.mp hfind⟩
          have hpos : copyEndPos packet = packet.length := by rw [copyEndPos, hfind]
          rw [streamInLines_turn _ hnil (by rw [hpos, List.take_length])
              (by rw [hpos, List.drop_length]) (if_neg (hquiet.not_suffix hnil)),
            streams_httpLine, hs, if_neg Bool.false_ne_true, streamInLines_nil,
            run_quiet hs (by rwa [map_snd_inside]), map_snd_inside]
          rfl
      | some i =>
          -- the loop takes a line and goes on behind it
          obtain ⟨content, suf, hpacket, hquiet, hsuf, htake, hdrop⟩ := exists_line_end hfind hhead
          have hrun : Scan.run parse ⟨s, false⟩ (inside packet)
              = Scan.run parse ⟨s.complete parse (s.httpLine ++ content ++ [LF]),
                (s.complete parse (s.httpLine ++ content ++ [LF])).streams⟩ (inside suf) := by
            rw [hpacket, inside_append, run_append, run_quiet hs (by rwa [map_snd_inside]),
              map_snd_inside, inside_cons, run_cons,
              feed_complete (s := { s with httpLine := s.httpLine ++ content }) hs hsuf,
              complete_httpLine, Bool.false_and, if_neg Bool.false_ne_true]
          have hassoc : s.httpLine ++ (content ++ [LF]) = s.httpLine ++ content ++ [LF] :=
            (List.append_assoc _ _ _).symm
          have hcomplete : (if CRLF_DELIMETER <:+ s.httpLine ++ (content ++ [LF])
              then s.complete parse (s.httpLine ++ (content ++ [LF]))
              else { s with httpLine := s.httpLine ++ (content ++ [LF]) })
                = s.complete parse (s.httpLine ++ content ++ [LF]) := by
            rw [hassoc, if_pos hsuf]
          rw [streamInLines_turn _ hnil htake hdrop hcomplete, hrun]
          cases hstreams : (s.complete parse (s.httpLine ++ content ++ [LF])).streams with
          | true =>
              rw [if_pos rfl]
              exact streamInHTTPContent_eq rfl (receivedNullLine_of_streams hstreams) suf
          | false =>
              have hlt : suf.length < n := by
                rw [← hn, hpacket, List.length_append, List.length_cons]
                omega
              rw [if_neg Bool.false_ne_true]
              exact ih _ hlt suf hstreams (by simp [State.complete]) rfl

/-- **One packet, byte by byte.** -/
theorem streamInHTTPMessage_eq (parse : Bytes → Int) (z : Scan) {packet : Bytes} (hpacket : packet ≠ []) :
    streamInHTTPMessage parse packet z.state = .ok (z.run parse (tagged packet)).result := by
  obtain ⟨b, bs, rfl⟩ := List.exists_cons_of_ne_nil hpacket
  obtain ⟨s, streaming⟩ := z
  rw [tagged, run_cons, feed_first _ false]
  show streamInHTTPMessage parse (b :: bs) s = _
  rw [streamInHTTPMessage]
  cases hs : s.streams with
  | true =>
      have hfeed : Scan.feed parse ⟨s, false⟩ (true, b)
          = ⟨⟨[b], s.contentLength, s.receivedContentLength + 1, true⟩, true⟩ := by
        simp [Scan.feed, hs]
      rw [if_pos rfl, hfeed, run_content rfl, streamInHTTPContent, Scan.result]
      simp only [State.done, Bool.true_and, List.singleton_append, List.length_cons, Nat.cast_add,
        Nat.cast_one]
      rw [Int.add_comm bs.length 1, ← Int.add_assoc, Bool.beq_comm]
  | false =>
      rw [if_neg Bool.false_ne_true]
      by_cases hsuf : CRLF_DELIMETER <:+ s.httpLine ++ [b]
      · -- the special case
        obtain ⟨hlast, hb⟩ := crlf_suffix_concat.mp hsuf
        rw [if_pos hlast, Bytes.index_eq_ok.mpr (by simp : (b :: bs)[0]? = some b), ok_bind,
          if_pos hb, feed_complete hs hsuf, List.drop_one, List.tail_cons]
        cases hstreams : (s.complete parse (s.httpLine ++ [b])).streams with
        | true =>
            show (if (s.complete parse (s.httpLine ++ [b])).streams = true then _ else _) = _
            rw [if_pos hstreams,
              streamInHTTPContent_eq rfl (receivedNullLine_of_streams hstreams) bs]
            rfl
        | false =>
            show (if (s.complete parse (s.httpLine ++ [b])).streams = true then _ else _) = _
            rw [if_neg (by simp [hstreams]), streamInLines_eq bs (by simpa using hs) (by simp)]
            rfl
      · have hhead : ¬(s.httpLine.getLast? = some CR ∧ (b :: bs).head? = some LF) := by
          intro h
          exact hsuf (crlf_suffix_concat.mpr ⟨h.1, Option.some.inj h.2⟩)
        have hlines : streamInLines parse (b :: bs) s
            = (Scan.run parse (Scan.feed parse ⟨s, false⟩ (true, b)) (inside bs)).result := by
          rw [streamInLines_eq _ hs hhead, inside_cons, run_cons, feed_quiet hs hsuf,
            feed_quiet hs hsuf]
        split
        · rename_i hlast
          rw [Bytes.index_eq_ok.mpr (by simp : (b :: bs)[0]? = some b), ok_bind,
            if_neg fun hb => hsuf (crlf_suffix_concat.mpr ⟨hlast, hb⟩), hlines]
        · rw [hlines]

end Nyctomek.Http

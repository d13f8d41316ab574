/-
# `Http.Lines` — the lines of a header

Which lines `streamInHTTPMessage` hands to `processCompleteHTTPLine` is kept in a log
(`streamInHTTPMessageLog`).  For the lines up to the first empty one they are those of
the byte string, however it is cut (`handed_lines`).

    packets     GET / HTTP/1.1\r      \nHost: x\r\n\r      \n
    lines       GET / HTTP/1.1\r\n    Host: x\r\n          \r\n
-/
import Nyctomek.Http.Bytewise
import Nyctomek.Prog.Split

namespace Nyctomek.Http

open Prog

/-! ## The lines that are handed over -/

section
variable (parseContentLength : Bytes → Int)

/-- `streamInLines`, and the lines handed over. -/
def streamInLinesLog (packet : Bytes) (s : State) : List Bytes × (State × Bool) :=
  if h : 0 < packet.length then
    have := copyEndPos_pos h
    let currentHttpLine := s.httpLine ++ packet.take (copyEndPos packet)
    let handed := if CRLF_DELIMETER <:+ currentHttpLine then [currentHttpLine] else []
    let s' := if CRLF_DELIMETER <:+ currentHttpLine
      then s.complete parseContentLength currentHttpLine else { s with httpLine := currentHttpLine }
    if s'.streams then
      (handed, streamInHTTPContent (packet.drop (copyEndPos packet)) s'.contentLength
        s'.receivedContentLength)
    else
      let rest := streamInLinesLog (packet.drop (copyEndPos packet)) s'
      (handed ++ rest.1, rest.2)
  else ([], (s, s.done))
termination_by packet.length
decreasing_by
  rw [List.length_drop]
  omega

/-- `streamInHTTPMessage`, and the lines handed over. -/
def streamInHTTPMessageLog (packet : Bytes) (s : State) :
    Except Panic (List Bytes × (State × Bool)) :=
  if s.streams then
    .ok ([], streamInHTTPContent packet s.contentLength s.receivedContentLength)
  else if s.httpLine.getLast? = some CR then do
    let first ← packet.index 0
    if first = LF then
      let s' := s.complete parseContentLength (s.httpLine ++ [first])
      if s'.streams then
        .ok ([s.httpLine ++ [first]],
          streamInHTTPContent (packet.drop 1) s'.contentLength s'.receivedContentLength)
      else
        let rest := streamInLinesLog parseContentLength (packet.drop 1) { s with httpLine := [] }
        .ok ((s.httpLine ++ [first]) :: rest.1, rest.2)
    else .ok (streamInLinesLog parseContentLength packet s)
  else .ok (streamInLinesLog parseContentLength packet s)

/-- Successive calls: the lines handed over by all of them, and the state in the end. -/
def streamInPacketsLog : List Bytes → State → Except Panic (List Bytes × State)
  | [], s => .ok ([], s)
  | packet :: packets, s => do
      let r ← streamInHTTPMessageLog parseContentLength packet s
      let rest ← streamInPacketsLog packets r.2.1
      .ok (r.1 ++ rest.1, rest.2)

end

variable {parse : Bytes → Int}

theorem streamInLinesLog_nil (s : State) : streamInLinesLog parse [] s = ([], (s, s.done)) := by
  rw [streamInLinesLog, dif_neg (by simp)]

/-- The turn of the loop that takes `taken` from a packet and leaves `rest`. -/
theorem streamInLinesLog_turn {packet taken rest : Bytes} {handed : List Bytes} {s s' : State}
    (hpacket : packet ≠ []) (htaken : packet.take (copyEndPos packet) = taken)
    (hrest : packet.drop (copyEndPos packet) = rest)
    (hhanded : (if CRLF_DELIMETER <:+ s.httpLine ++ taken then [s.httpLine ++ taken] else []) = handed)
    (hs' : (if CRLF_DELIMETER <:+ s.httpLine ++ taken then s.complete parse (s.httpLine ++ taken)
      else { s with httpLine := s.httpLine ++ taken }) = s') :
    streamInLinesLog parse packet s
      = if s'.streams then
          (handed, streamInHTTPContent rest s'.contentLength s'.receivedContentLength)
        else (handed ++ (streamInLinesLog parse rest s').1, (streamInLinesLog parse rest s').2) := by
  subst htaken hrest hhanded hs'
  rw [streamInLinesLog, dif_pos (List.length_pos_of_ne_nil hpacket)]

/-- The log changes nothing. -/
theorem streamInLinesLog_snd (packet : Bytes) (s : State) :
    (streamInLinesLog parse packet s).2 = streamInLines parse packet s := by
  induction hn : packet.length using Nat.strongRecOn generalizing packet s with
  | ind n ih =>
      by_cases hnil : packet = []
      · rw [hnil, streamInLinesLog_nil, streamInLines_nil]
      · have hlt : (packet.drop (copyEndPos packet)).length < n := by
          have hpos := List.length_pos_of_ne_nil hnil
          have htaken := copyEndPos_pos hpos
          rw [List.length_drop]
          omega
        obtain ⟨s', hs'⟩ : ∃ s', (if CRLF_DELIMETER <:+ s.httpLine ++ packet.take (copyEndPos packet)
            then s.complete parse (s.httpLine ++ packet.take (copyEndPos packet))
            else { s with httpLine := s.httpLine ++ packet.take (copyEndPos packet) }) = s' := ⟨_, rfl⟩
        rw [streamInLinesLog_turn hnil rfl rfl rfl hs', streamInLines_turn _ hnil rfl rfl hs',
          ← ih _ hlt _ _ rfl]
        split
        · rfl
        · rfl

theorem streamInHTTPMessageLog_snd (packet : Bytes) (s : State) :
    (streamInHTTPMessageLog parse packet s).map Prod.snd = streamInHTTPMessage parse packet s := by
  rw [streamInHTTPMessageLog, streamInHTTPMessage]
  split
  · rfl
  · split
    · cases packet.index 0 with
      | error e => rfl
      | ok first =>
          rw [ok_bind, ok_bind]
          split
          · simp only
            split
            · rfl
            · rw [← streamInLinesLog_snd]
              rfl
          · rw [← streamInLinesLog_snd]
            rfl
    · rw [← streamInLinesLog_snd]
      rfl

/-! ## Up to the first empty line -/

/-- If there is an empty line among the lines, then nothing is behind it. -/
def EndsAtNull (r : List Bytes × Bytes) : Prop :=
  ∀ front back, r.1 = front ++ CRLF_DELIMETER :: back → back = [] ∧ r.2 = []

theorem EndsAtNull.tail {line : Bytes} {lines : List Bytes} {rest : Bytes}
    (h : EndsAtNull (line :: lines, rest)) : EndsAtNull (lines, rest) := by
  intro front back heq
  exact h (line :: front) back (by rw [List.cons_append, ← heq])

/-- Behind the empty line. -/
theorem EndsAtNull.behind {bytes : Bytes}
    (h : EndsAtNull (CRLF_DELIMETER :: (splitFrom CRLF_DELIMETER [] bytes).1,
      (splitFrom CRLF_DELIMETER [] bytes).2)) : bytes = [] := by
  obtain ⟨hlines, hrest⟩ := h [] _ rfl
  exact (eq_nil_of_splitFrom (Prod.ext hlines hrest)).2

/-- The first part of a byte string that ends at the first empty line. -/
theorem EndsAtNull.left {line bytes bytes' : Bytes}
    (h : EndsAtNull (splitFrom CRLF_DELIMETER line (bytes ++ bytes'))) :
    EndsAtNull (splitFrom CRLF_DELIMETER line bytes) ∧
      EndsAtNull (splitFrom CRLF_DELIMETER (splitFrom CRLF_DELIMETER line bytes).2 bytes') ∧
      (CRLF_DELIMETER ∈ (splitFrom CRLF_DELIMETER line bytes).1 → bytes' = []) := by
  rw [splitFrom_append] at h
  generalize splitFrom CRLF_DELIMETER line bytes = r at *
  have hrest : ∀ front back, r.1 = front ++ CRLF_DELIMETER :: back →
      back = [] ∧ splitFrom CRLF_DELIMETER r.2 bytes' = ([], []) := by
    intro front back heq
    obtain ⟨hlines, hrest⟩ := h front (back ++ (splitFrom CRLF_DELIMETER r.2 bytes').1)
      (by rw [heq]; simp)
    obtain ⟨hback, hlines⟩ := List.append_eq_nil_iff.mp hlines
    exact ⟨hback, Prod.ext hlines hrest⟩
  refine ⟨?_, ?_, ?_⟩
  · intro front back heq
    obtain ⟨hback, hnil⟩ := hrest front back heq
    exact ⟨hback, (eq_nil_of_splitFrom hnil).1⟩
  · intro front back heq
    exact h (r.1 ++ front) back (by rw [heq, List.append_assoc])
  · intro hmem
    obtain ⟨front, back, heq⟩ := List.append_of_mem hmem
    exact (eq_nil_of_splitFrom (hrest front back heq).2).2

theorem splitFrom_quiet {line bytes : Bytes} (h : Quiet line bytes) :
    splitFrom CRLF_DELIMETER line bytes = ([], line ++ bytes) := by
  induction bytes generalizing line with
  | nil => simp [splitFrom]
  | cons b bytes ih =>
      rw [splitFrom_of_not_suffix h.1, ih h.2, List.append_assoc, List.singleton_append]

/-- What is handed over from some bytes: the lines that end in them; the rest stays.  Only
the empty line is noticed. -/
def HandsOver (line bytes : Bytes) (r : List Bytes × (State × Bool)) : Prop :=
  r.1 = (splitFrom CRLF_DELIMETER line bytes).1 ∧
    r.2.1.httpLine = (splitFrom CRLF_DELIMETER line bytes).2 ∧
    (CRLF_DELIMETER ∉ r.1 → r.2.1.receivedNullLine = false)

theorem streams_of_not_null {s : State} (h : s.receivedNullLine = false) : s.streams = false := by
  rw [State.streams, h]
  rfl

theorem complete_receivedNullLine (s : State) (line : Bytes) :
    (s.complete parse line).receivedNullLine = (line == CRLF_DELIMETER) := by
  simp only [State.complete, processCompleteHTTPLine]
  split <;> rfl

/-- **The lines inside a packet.** -/
theorem handsOver_lines {packet : Bytes} {s : State} (hnull : s.receivedNullLine = false)
    (hhead : ¬(s.httpLine.getLast? = some CR ∧ packet.head? = some LF))
    (hends : EndsAtNull (splitFrom CRLF_DELIMETER s.httpLine packet)) :
    HandsOver s.httpLine packet (streamInLinesLog parse packet s) := by
  induction hn : packet.length using Nat.strongRecOn generalizing packet s with
  | ind n ih =>
      by_cases hnil : packet = []
      · subst hnil
        rw [streamInLinesLog_nil]
        exact ⟨rfl, rfl, fun _ => hnull⟩
      cases hfind : find CRLF_DELIMETER packet with
      | none =>
          have hquiet : Quiet s.httpLine packet := quiet_iff.mpr ⟨hhead, find_eq_none.mp hfind⟩
          have hpos : copyEndPos packet = packet.length := by rw [copyEndPos, hfind]
          have hsuf := hquiet.not_suffix hnil
          rw [streamInLinesLog_turn hnil (by rw [hpos, List.take_length])
              (by rw [hpos, List.drop_length]) (if_neg hsuf) (if_neg hsuf), streams_httpLine,
            streams_of_not_null hnull, if_neg Bool.false_ne_true, streamInLinesLog_nil, HandsOver,
            splitFrom_quiet hquiet]
          exact ⟨rfl, rfl, fun _ => hnull⟩
      | some i =>
          obtain ⟨content, suf, hpacket, hquiet, hsuf, htake, hdrop⟩ := exists_line_end hfind hhead
          have hsplit : splitFrom CRLF_DELIMETER s.httpLine packet
              = ((s.httpLine ++ content ++ [LF]) :: (splitFrom CRLF_DELIMETER [] suf).1,
                (splitFrom CRLF_DELIMETER [] suf).2) := by
            rw [hpacket, splitFrom_append, splitFrom_quiet hquiet, splitFrom_of_suffix hsuf,
              List.nil_append]
          rw [hsplit] at hends
          rw [List.append_assoc] at hsuf hsplit hends
          rw [streamInLinesLog_turn hnil htake hdrop (if_pos hsuf) (if_pos hsuf), HandsOver, hsplit]
          generalize s.httpLine ++ (content ++ [LF]) = line at *
          by_cases hline : line = CRLF_DELIMETER
          · subst hline
            rw [hends.behind, streamInLinesLog_nil]
            split
            · exact ⟨rfl, rfl, fun h => absurd (List.mem_singleton_self _) h⟩
            · exact ⟨rfl, rfl, fun h => absurd (List.mem_singleton_self _) h⟩
          · have hnull' : (s.complete parse line).receivedNullLine = false := by
              rw [complete_receivedNullLine]
              exact beq_eq_false_iff_ne.mpr hline
            have hlt : suf.length < n := by
              rw [← hn, hpacket, List.length_append, List.length_cons]
              omega
            obtain ⟨hhanded, hrest, hnoNull⟩ :=
              ih _ hlt hnull' (by simp [State.complete]) hends.tail rfl
            rw [streams_of_not_null hnull', if_neg Bool.false_ne_true, hhanded]
            refine ⟨rfl, hrest, ?_⟩
            intro h
            rw [← hhanded] at h
            exact hnoNull fun hmem => h (List.mem_cons_of_mem _ hmem)

/-- **One packet.** -/
theorem handsOver_message {packet : Bytes} {s : State} (hpacket : packet ≠ [])
    (hnull : s.receivedNullLine = false)
    (hends : EndsAtNull (splitFrom CRLF_DELIMETER s.httpLine packet)) :
    ∃ r, streamInHTTPMessageLog parse packet s = .ok r ∧ HandsOver s.httpLine packet r := by
  obtain ⟨b, bs, rfl⟩ := List.exists_cons_of_ne_nil hpacket
  rw [streamInHTTPMessageLog, streams_of_not_null hnull, if_neg Bool.false_ne_true]
  by_cases hlast : s.httpLine.getLast? = some CR
  · rw [if_pos hlast, Bytes.index_eq_ok.mpr (by simp : (b :: bs)[0]? = some b), ok_bind]
    by_cases hb : b = LF
    · -- the LF of a delimiter opens the packet
      subst hb
      have hsuf : CRLF_DELIMETER <:+ s.httpLine ++ [LF] := crlf_suffix_concat.mpr ⟨hlast, rfl⟩
      rw [splitFrom_of_suffix hsuf] at hends
      rw [if_pos rfl, List.drop_one, List.tail_cons]
      simp only [HandsOver, splitFrom_of_suffix hsuf]
      generalize s.httpLine ++ [LF] = line at *
      by_cases hline : line = CRLF_DELIMETER
      · subst hline
        rw [hends.behind, streamInLinesLog_nil]
        split
        · exact ⟨_, rfl, rfl, rfl, fun h => absurd (List.mem_singleton_self _) h⟩
        · exact ⟨_, rfl, rfl, rfl, fun h => absurd (List.mem_singleton_self _) h⟩
      · have hnull' : (s.complete parse line).receivedNullLine = false := by
          rw [complete_receivedNullLine]
          exact beq_eq_false_iff_ne.mpr hline
        obtain ⟨hhanded, hrest, hnoNull⟩ := @handsOver_lines parse bs { s with httpLine := [] } hnull
          (by simp) hends.tail
        rw [streams_of_not_null hnull', if_neg Bool.false_ne_true]
        refine ⟨_, rfl, by rw [hhanded], hrest, ?_⟩
        exact fun h => hnoNull fun hmem => h (List.mem_cons_of_mem _ hmem)
    · rw [if_neg hb]
      exact ⟨_, rfl, handsOver_lines hnull (fun h => hb (Option.some.inj h.2)) hends⟩
  · rw [if_neg hlast]
    exact ⟨_, rfl, handsOver_lines hnull (fun h => hlast h.1) hends⟩

/-- Successive packets of a byte string that ends at its first empty line. -/
theorem streamInPacketsLog_eq {packets : List Bytes} (hpackets : ∀ packet ∈ packets, packet ≠ [])
    {s : State} (hnull : s.receivedNullLine = false)
    (hends : EndsAtNull (splitFrom CRLF_DELIMETER s.httpLine packets.flatten)) :
    ∃ s', streamInPacketsLog parse packets s
        = .ok ((splitFrom CRLF_DELIMETER s.httpLine packets.flatten).1, s') ∧
      s'.httpLine = (splitFrom CRLF_DELIMETER s.httpLine packets.flatten).2 := by
  induction packets generalizing s with
  | nil => exact ⟨s, rfl, rfl⟩
  | cons packet packets ih =>
      obtain ⟨hpacket, hpackets⟩ := List.forall_mem_cons.mp hpackets
      rw [List.flatten_cons] at hends ⊢
      obtain ⟨hfirst, hrest, hlast⟩ := hends.left
      obtain ⟨r, hr, hhanded, hline, hnoNull⟩ := @handsOver_message parse _ _ hpacket hnull hfirst
      rw [streamInPacketsLog, hr, ok_bind, splitFrom_append, ← hline, ← hhanded]
      by_cases hmem : CRLF_DELIMETER ∈ r.1
      · -- the empty line was the last
        have hnil : packets = [] := by
          rw [hhanded] at hmem
          cases packets with
          | nil => rfl
          | cons packet' packets =>
              have hempty := (List.append_eq_nil_iff.mp (List.flatten_cons ▸ hlast hmem)).1
              exact absurd hempty (hpackets packet' List.mem_cons_self)
        subst hnil
        exact ⟨r.2.1, rfl, rfl⟩
      · rw [← hline] at hrest
        obtain ⟨s', hrun, hline'⟩ := ih hpackets (hnoNull hmem) hrest
        exact ⟨s', by rw [hrun]; rfl, hline'⟩

/-- **The lines do not depend on the packets.**  Of a byte string that is a sequence of lines
up to the first empty one, successive calls hand over just these lines; and behind any number
of calls the lines that have ended are handed over, and the rest is kept. -/
theorem handed_lines {packets lines : List Bytes} (hpackets : ∀ packet ∈ packets, packet ≠ [])
    (hsplit : splitAfter CRLF_DELIMETER packets.flatten = (lines ++ [CRLF_DELIMETER], []))
    (hfirst : CRLF_DELIMETER ∉ lines) :
    (∃ s, streamInPacketsLog parse packets State.initial = .ok (lines ++ [CRLF_DELIMETER], s)) ∧
      ∀ n, ∃ s, streamInPacketsLog parse (packets.take n) State.initial
          = .ok ((splitAfter CRLF_DELIMETER (packets.take n).flatten).1, s) ∧
        s.httpLine = (splitAfter CRLF_DELIMETER (packets.take n).flatten).2 := by
  have hends : EndsAtNull (splitAfter CRLF_DELIMETER packets.flatten) := by
    rw [hsplit]
    intro front back heq
    refine ⟨?_, rfl⟩
    rcases List.eq_nil_or_concat back with hback | ⟨back, line, rfl⟩
    · exact hback
    · have hlines : lines = front ++ CRLF_DELIMETER :: back := by
        have hboth : lines ++ [CRLF_DELIMETER] = (front ++ CRLF_DELIMETER :: back) ++ [line] :=
          heq.trans (by simp)
        exact (List.append_inj' hboth rfl).1
      exact absurd (by rw [hlines]; simp) hfirst
  have hprefix : ∀ n, ∃ s, streamInPacketsLog parse (packets.take n) State.initial
        = .ok ((splitAfter CRLF_DELIMETER (packets.take n).flatten).1, s) ∧
      s.httpLine = (splitAfter CRLF_DELIMETER (packets.take n).flatten).2 := by
    intro n
    refine streamInPacketsLog_eq
      (fun packet hmem => hpackets packet (List.mem_of_mem_take hmem)) rfl ?_
    have hparts : packets.flatten = (packets.take n).flatten ++ (packets.drop n).flatten := by
      rw [← List.flatten_append, List.take_append_drop]
    rw [splitAfter, hparts] at hends
    exact hends.left.1
  refine ⟨?_, hprefix⟩
  obtain ⟨s, hrun, -⟩ := hprefix packets.length
  rw [List.take_length, hsplit] at hrun
  exact ⟨s, hrun⟩

/-- A line with a CR in it, and the empty line, in four packets. -/
theorem handed_lines_cut :
    ∃ s, streamInPacketsLog (fun _ => 0) [[65, 13], [13], [10, 13], [10]] State.initial
      = .ok ([[65, 13, 13, 10], [13, 10]], s) :=
  (@handed_lines _ _ [[65, 13, 13, 10]] (by decide) (by decide) (by decide)).1

end Nyctomek.Http

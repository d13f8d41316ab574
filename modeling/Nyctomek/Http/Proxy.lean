/-
# `Http.Proxy` — a response behind a request

`runHTTPProxyLoop` does not begin anew between the two: the response is read from the
state in which the request has ended.

    request            its end                             what that means for the response
    without a body     line empty, lengths 0, `done`       `done` until a line is complete
    with a body        line not empty, lengths equal,      likewise; the first line is another,
                       `done`                              and no length is read

`independent_iff` answers when the response's packets are judged as they would be
from the initial state.
-/
import Mathlib.Data.List.Chain
import Nyctomek.Http.Framing

namespace Nyctomek.Http

open Prog

variable {parse : Bytes → Int}

/-! ## The two loops -/

theorem streamInPackets_cons {packet : Bytes} {packets : List Bytes} {s s' : State}
    {dones : List Bool} (h : streamInPackets parse (packet :: packets) s = .ok (dones, s')) :
    ∃ s₁ d rest, streamInHTTPMessage parse packet s = .ok (s₁, d) ∧
      streamInPackets parse packets s₁ = .ok (rest, s') ∧ dones = d :: rest := by
  obtain ⟨r, hr, h⟩ := bind_eq_ok h
  obtain ⟨rest, hs, h⟩ := bind_eq_ok h
  obtain ⟨hdones, rfl⟩ := Prod.mk.inj (Except.ok.inj h)
  exact ⟨r.1, r.2, rest.1, hr, hs, hdones.symm⟩

/-- The request loop takes the packets of a framed request, all of them and no more. -/
theorem requestLoop_of_framed {packets : List Bytes} {s s' : State} (hne : packets ≠ [])
    (hpackets : ∀ packet ∈ packets, packet ≠ [])
    (h : streamInPackets parse packets s = .ok (framed packets.length, s')) :
    requestLoop parse packets s = .ok (packets, s') := by
  induction packets generalizing s with
  | nil => exact absurd rfl hne
  | cons packet packets ih =>
      obtain ⟨hpacket, hrest⟩ := List.forall_mem_cons.mp hpackets
      obtain ⟨s₁, d, dones, hfirst, hstream, hdones⟩ := streamInPackets_cons h
      rw [requestLoop, if_neg (fun hlen => hpacket (List.eq_nil_of_length_eq_zero hlen)), hfirst,
        ok_bind]
      cases packets with
      | nil =>
          obtain ⟨rfl, -⟩ := List.cons.inj hdones
          obtain ⟨-, rfl⟩ := Prod.mk.inj (Except.ok.inj hstream)
          rfl
      | cons packet' packets =>
          obtain ⟨rfl, rfl⟩ := List.cons.inj hdones
          have hloop := ih (List.cons_ne_nil packet' packets) hrest hstream
          rw [if_neg Bool.false_ne_true, hloop]
          rfl

/-- The response loop stops at the first `done`: that is the last packet's exactly if
`done` is false for the others. -/
theorem responseLoop_eq {packets : List Bytes} {s s' : State} {dones : List Bool}
    (hne : packets ≠ []) (h : streamInPackets parse packets s = .ok (dones, s')) :
    ∃ sent s'', responseLoop parse packets s = .ok (sent, s'') ∧
      (sent.map Prod.snd = framed packets.length ↔ dones = framed packets.length) := by
  induction packets generalizing s dones with
  | nil => exact absurd rfl hne
  | cons packet packets ih =>
      obtain ⟨s₁, d, rest, hfirst, hstream, rfl⟩ := streamInPackets_cons h
      rw [responseLoop, hfirst, ok_bind]
      cases packets with
      | nil =>
          obtain ⟨rfl, -⟩ := Prod.mk.inj (Except.ok.inj hstream)
          cases d with
          | true => exact ⟨_, _, rfl, Iff.rfl⟩
          | false => exact ⟨_, _, rfl, Iff.rfl⟩
      | cons packet' packets =>
          have hframed : framed (packet :: packet' :: packets).length
              = false :: framed (packet' :: packets).length := rfl
          rw [hframed]
          cases d with
          | true => exact ⟨_, _, rfl, by simp⟩
          | false =>
              obtain ⟨sent, s'', hloop, hiff⟩ := ih (List.cons_ne_nil packet' packets) hstream
              refine ⟨(packet, false) :: sent, s'', ?_, ?_⟩
              · rw [if_neg Bool.false_ne_true, hloop]
                rfl
              · rw [List.map_cons, List.cons.injEq, List.cons.injEq, hiff]

/-! ## Packets that cut no delimiter -/

/-- No packet opens between a CR and an LF. -/
def Uncut (t : List Tagged) : Prop :=
  t.IsChain fun x y => x.2 = CR → y.2 = LF → y.1 = false

instance (t : List Tagged) : Decidable (Uncut t) :=
  inferInstanceAs (Decidable (t.IsChain _))

theorem Uncut.append {t t' : List Tagged} (h : Uncut (t ++ t')) : Uncut t ∧ Uncut t' := by
  obtain ⟨h₁, h₂, -⟩ := List.isChain_append.mp h
  exact ⟨h₁, h₂⟩

/-- Bytes behind, none of which is an LF that opens a packet. -/
theorem Uncut.append_of_forall {t t' : List Tagged} (h : Uncut t)
    (ht' : ∀ x ∈ t', x.2 = LF → x.1 = false) : Uncut (t ++ t') := by
  refine List.isChain_append.mpr ⟨h, ?_, ?_⟩
  · apply List.Pairwise.isChain
    exact List.pairwise_of_forall_mem_list fun x _ y hy _ hlf => ht' y hy hlf
  · intro x _ y hy _ hlf
    exact ht' y (List.mem_of_mem_head? hy) hlf

/-- Then the LF that ends a line opens no packet. -/
theorem Uncut.last {t : List Tagged} {f : Bool} {q : Bytes} (h : Uncut (t ++ [(f, LF)]))
    (ht : t.map Prod.snd = q ++ [CR]) : f = false := by
  obtain ⟨t', t₁, rfl, -, ht₁⟩ := List.map_eq_append_iff.mp ht
  obtain ⟨⟨g, b⟩, rfl, hb⟩ := List.map_eq_singleton_iff.mp ht₁
  exact (List.isChain_append.mp h).2.2 (g, b) (by simp) (f, LF) (by simp) hb rfl

/-! ## From where a request has ended -/

/-- Where a request has ended: its last packet, and its length received. -/
abbrev ended (line : Bytes) (c : Int) : State := ⟨line, c, c, true⟩

theorem streams_ended (line : Bytes) (c : Int) (null : Bool) :
    (⟨line, c, c, null⟩ : State).streams = false := by
  simp [State.streams]

/-- The rest of a line behind its first byte. -/
theorem undone_behind {s : State} {f g : Bool} {b : UInt8} {q : Bytes} {t : List Tagged}
    (hs : s.streams = false) (hdone : s.done = true) (ht : t.map Prod.snd = q)
    (hquiet : Quiet s.httpLine (b :: q)) :
    Undone parse (Scan.feed parse ⟨s, false⟩ (g, b)) (t ++ [(f, LF)])
      ↔ Unopened (t ++ [(f, LF)]) := by
  rw [feed_quiet hs hquiet.1, undone_rest (by simpa using hs) ht (by simpa using hquiet.2)]
  simp [hdone]

/-- With a length that is known, a line is the empty one or not. -/
theorem complete_ended {c : Int} (hc : c ≠ 0) (s line : Bytes) (null : Bool) :
    State.complete parse ⟨s, c, c, null⟩ line = ⟨[], c, c, line == CRLF_DELIMETER⟩ := by
  simp [State.complete, processCompleteHTTPLine, hc]

/-- **The first line behind a request with a body.**  It is read as the rest of a line, so
it is not the empty one; but if the body ends in a CR and the line begins with an LF, then
that is left out, and what is behind it can be. -/
theorem run_first (parse : Bytes → Int) {c : Int} (hc : c ≠ 0) {line : Bytes} (hline : line ≠ []) {l : Line}
    {b : UInt8} {t : List Tagged} (ht : b :: t.map Prod.snd = l.bytes)
    (hu : Uncut ((true, b) :: t)) :
    Scan.run parse ⟨ended line c, false⟩ ((true, b) :: t)
        = ⟨⟨[], c, c, decide (line.getLast? = some CR ∧ l.content = [LF])⟩, false⟩ ∧
      (Undone parse (Scan.feed parse ⟨ended line c, false⟩ (true, b)) t ↔ Unopened t) := by
  obtain ⟨b', q, hcontent⟩ := List.exists_cons_of_ne_nil l.nonempty
  have hbytes : b :: t.map Prod.snd = b' :: ((q ++ [CR]) ++ [LF]) := by
    rw [ht, Line.bytes, hcontent, CRLF_DELIMETER]
    simp
  obtain ⟨rfl, hrest⟩ := List.cons.inj hbytes
  obtain ⟨t, f, rfl, hq⟩ := exists_rest hrest
  have hf : f = false := by
    refine Uncut.last (t := (true, b) :: t) (q := b :: q) hu ?_
    rw [List.map_cons, hq, List.cons_append]
  subst hf
  have hinner : ¬CRLF_DELIMETER <:+: b :: (q ++ [CR]) := by
    rw [← List.cons_append, ← hcontent]
    exact l.noInner_concat
  have hdone : (ended line c).done = true := by simp [State.done]
  by_cases hsuf : CRLF_DELIMETER <:+ line ++ [b]
  · -- the LF completes the body's last packet
    obtain ⟨hlast, rfl⟩ := crlf_suffix_concat.mp hsuf
    have hfeed : Scan.feed parse ⟨ended line c, false⟩ (true, LF) = noticed c := by
      rw [feed_complete (streams_ended line c true) hsuf, complete_ended hc,
        streams_ended [] c]
      rfl
    have hquiet : Quiet [] (q ++ [CR]) := quiet_nil fun h => hinner (List.infix_cons h)
    have hs := streams_ended [] c true
    refine ⟨?_, ?_⟩
    · rw [run_cons, hfeed, run_rest hs hq hquiet (by simp), complete_ended hc,
        streams_ended [] c, Bool.false_and, if_neg Bool.false_ne_true, hcontent]
      have hnull : (q ++ [CR] ++ [LF] == CRLF_DELIMETER) = decide (q = []) := by
        rw [Bool.eq_iff_iff]
        simp [CRLF_DELIMETER]
      rw [List.nil_append, hnull]
      simp [hlast]
    · rw [hfeed, undone_rest hs hq hquiet]
      simp [State.done]
  · have hquiet : Quiet line (b :: (q ++ [CR])) := by
      refine quiet_iff.mpr ⟨?_, hinner⟩
      intro h
      exact hsuf (crlf_suffix_concat.mpr ⟨h.1, Option.some.inj h.2⟩)
    refine ⟨?_, undone_behind (streams_ended line c true) hdone hq hquiet⟩
    have hrun := @run_rest parse (ended line c) ((true, b) :: t) (b :: (q ++ [CR])) false
      (streams_ended line c true) (by rw [List.map_cons, hq]) hquiet
      (by rw [← List.cons_append, ← List.append_assoc, List.getLast?_concat])
    rw [List.cons_append] at hrun
    rw [hrun, complete_ended hc, streams_ended [] c, Bool.false_and, if_neg Bool.false_ne_true]
    have hne : line ++ b :: (q ++ [CR]) ++ [LF] ≠ CRLF_DELIMETER := by
      intro h
      have hlen := congrArg List.length h
      have hpos := List.length_pos_of_ne_nil hline
      simp only [List.length_append, List.length_cons, List.length_nil, CRLF_DELIMETER] at hlen
      omega
    have hnot : ¬(line.getLast? = some CR ∧ l.content = [LF]) := by
      rintro ⟨hlast, hlf⟩
      rw [hcontent] at hlf
      exact hsuf (crlf_suffix_concat.mpr ⟨hlast, (List.cons.inj hlf).1⟩)
    rw [decide_eq_false hnot, beq_eq_false_iff_ne.mpr hne]

/-- The rest of a header whose empty line is not yet noticed. -/
theorem settles_rest {c : Int} (hc : c ≠ 0) {ls : List Line} {t t' : List Tagged}
    (ht : t.map Prod.snd = ls.flatMap Line.bytes ++ CRLF_DELIMETER) (hu : Uncut t) :
    Settles parse ⟨⟨[], c, c, false⟩, false⟩ (t ++ t') ↔ Settles parse (noticed c) t' := by
  obtain ⟨t₁, t₂, rfl, ht₁, ht₂⟩ := List.map_eq_append_iff.mp ht
  obtain ⟨t₂, f, rfl, hcr⟩ := exists_rest (q := [CR]) ht₂
  have hf : f = false := hu.append.2.last (q := []) hcr
  have hs := streams_ended [] c false
  obtain ⟨hrun, hundone⟩ := run_lines (r := c)
    (fun l _ hzero => absurd hzero hc : ∀ l ∈ ls, c = 0 → parse l.bytes = 0) ht₁
  have hnull : Scan.run parse ⟨⟨[], c, c, false⟩, false⟩ (t₂ ++ [(f, LF)]) = noticed c := by
    rw [run_null hs (fun hzero => absurd hzero hc) hcr, hf, Bool.false_and,
      if_neg Bool.false_ne_true, streams_ended]
  have hundone₂ : Undone parse ⟨⟨[], c, c, false⟩, false⟩ (t₂ ++ [(f, LF)]) :=
    (undone_null rfl hs hcr).mpr fun h => absurd h (by simp [State.done])
  rw [settles_append, run_append, hrun, hnull, undone_append, hrun]
  exact and_iff_right ⟨hundone, hundone₂⟩

/-- The rest of a header in a state that is `done`: no packet may open in the next line. -/
theorem settles_done_rest (parse : Bytes → Int) {c : Int} (hc : c ≠ 0) {ls : List Line}
    {t : List Tagged} (t' : List Tagged)
    (ht : t.map Prod.snd = ls.flatMap Line.bytes ++ CRLF_DELIMETER) (hu : Uncut t) :
    ∃ t₁ t₂, t = t₁ ++ t₂ ∧
      t₁.length = ((ls.map Line.bytes ++ [CRLF_DELIMETER]).take 1).flatten.length ∧
      (Settles parse (noticed c) (t ++ t') ↔ Unopened t₁ ∧ Settles parse (noticed c) t') := by
  have hs := streams_ended [] c true
  have hdone : (noticed c).state.done = true := by simp [State.done]
  cases ls with
  | nil =>
      obtain ⟨t₁, f, rfl, hcr⟩ := exists_rest (q := [CR]) ht
      have hf : f = false := hu.last (q := []) hcr
      refine ⟨t₁ ++ [(f, LF)], [], (List.append_nil _).symm, ?_, ?_⟩
      · rw [← List.length_map Prod.snd, ht]
        rfl
      · rw [settles_append, undone_null rfl hs hcr,
          run_null hs (fun hzero => absurd hzero hc) hcr, hf, Bool.false_and,
          if_neg Bool.false_ne_true, streams_ended]
        simp [State.done]
  | cons l ls =>
      rw [List.flatMap_cons, List.append_assoc] at ht
      obtain ⟨t₁, t₂, rfl, ht₁, ht₂⟩ := List.map_eq_append_iff.mp ht
      obtain ⟨hu₁, hu₂⟩ := hu.append
      refine ⟨t₁, t₂, rfl, ?_, ?_⟩
      · rw [← List.length_map Prod.snd, ht₁]
        simp
      · have hq : t₁.map Prod.snd = (l.content ++ [CR]) ++ [LF] := by
          rw [ht₁, Line.bytes, CRLF_DELIMETER]
          simp
        obtain ⟨t₁, f, rfl, hcontent⟩ := exists_rest hq
        have hf : f = false := hu₁.last hcontent
        have hrun : Scan.run parse (noticed c) (t₁ ++ [(f, LF)]) = ⟨⟨[], c, c, false⟩, false⟩ := by
          rw [run_line rfl hs hcontent, hf, if_neg Bool.false_ne_true, complete_ended hc,
            beq_eq_false_iff_ne.mpr l.bytes_ne]
        rw [List.append_assoc, settles_append, undone_line rfl hs hcontent, hrun,
          settles_rest hc ht₂ hu₂]
        simp [State.done]

/-! ## A response behind a request -/

/-- The lines of a header, with the empty one. -/
def Header.rows (m : Header) : List Bytes := m.lines.map Line.bytes ++ [CRLF_DELIMETER]

theorem Header.flatten_rows (m : Header) : m.rows.flatten = m.bytes := by
  rw [Header.rows, Header.bytes, List.flatten_append, List.flatMap_def]
  simp

theorem unopened_iff {flags : List Bool} (t₁ : List Tagged) {t t₂ : List Tagged}
    (h : (t₁ ++ (t ++ t₂)).map Prod.fst = flags) :
    Unopened t ↔ Unbroken flags t₁.length (t₁.length + t.length) := by
  subst h
  constructor
  · intro ht i hlow hi
    have hlt : i - t₁.length < t.length := by omega
    have hget : (t₁ ++ (t ++ t₂))[i]? = some t[i - t₁.length] := by
      rw [List.getElem?_append_right hlow, List.getElem?_append_left hlt,
        List.getElem?_eq_getElem hlt]
    rw [openAt, List.getElem?_map, hget]
    exact ht _ (List.getElem_mem hlt)
  · intro ht x hx
    obtain ⟨i, hi, rfl⟩ := List.mem_iff_getElem.mp hx
    have hopen := ht (t₁.length + i) (Nat.le_add_right _ i) (Nat.add_lt_add_left hi _)
    have hget : (t₁ ++ (t ++ t₂))[t₁.length + i]? = some t[i] := by
      rw [List.getElem?_append_right (Nat.le_add_right _ i), Nat.add_sub_cancel_left,
        List.getElem?_append_left hi, List.getElem?_eq_getElem hi]
    rw [openAt, List.getElem?_map, hget] at hopen
    exact hopen

theorem unbroken_append {flags : List Bool} {low mid high : Nat} (h : low ≤ mid)
    (h' : mid ≤ high) :
    Unbroken flags low high ↔ Unbroken flags low mid ∧ Unbroken flags mid high := by
  constructor
  · intro hall
    exact ⟨fun i hi hm => hall i hi (by omega), fun i hm hi => hall i (by omega) hi⟩
  · rintro ⟨h₁, h₂⟩ i hi hhigh
    rcases Nat.lt_or_ge i mid with hlt | hge
    · exact h₁ i hi hlt
    · exact h₂ i hge hhigh

/-- Behind the first byte of a packet: the line, and the rest of the stream. -/
theorem framed_cons_append {z : Scan} {x : Tagged} {t t' : List Tagged} :
    Framed parse z ((x :: t) ++ t') ↔
      Undone parse (z.feed parse x) t ∧ Settles parse (z.run parse (x :: t)) t' := by
  rw [Framed, Settles, List.cons_append, List.take_one, List.head?_cons, Option.toList_some,
    run_cons z x [], run_nil, List.drop_one, List.tail_cons, undone_append, run_cons, run_append,
    run_cons]
  exact and_left_comm

/-- Every line of a header ends where its first delimiter does. -/
theorem Header.rows_spec {m : Header} {row : Bytes} (h : row ∈ m.rows) :
    ∃ q, row = (q ++ [CR]) ++ [LF] ∧ ¬CRLF_DELIMETER <:+: q ++ [CR] := by
  rcases List.mem_append.mp h with hline | hnull
  · obtain ⟨l, -, rfl⟩ := List.mem_map.mp hline
    exact ⟨l.content, by simp [Line.bytes, CRLF_DELIMETER], l.noInner_concat⟩
  · cases List.mem_singleton.mp hnull
    exact ⟨[], rfl, not_infix_of_not_mem (by decide)⟩

/-- A message in parts: the first line, behind its first byte, the rest of the header, and
the body. -/
theorem exists_first {m : Header} {flags : List Bool} {body : Bytes}
    (hlen : flags.length = (m.bytes ++ body).length) (hopen : flags.head? = some true) :
    ∃ row rest b t₁ t₂, m.rows = row :: rest ∧ b :: t₁.map Prod.snd = row ∧
      t₂.map Prod.snd = rest.flatten ∧
      (flags.take m.bytes.length).zip m.bytes = ((true, b) :: t₁) ++ t₂ ∧
      (((true, b) :: t₁) ++ (t₂ ++ (flags.drop m.bytes.length).zip body)).map Prod.fst = flags ∧
      (m.rows.take 1).flatten.length = 1 + t₁.length ∧
      (Unopened t₁ ↔ Unbroken flags 1 (m.rows.take 1).flatten.length) := by
  have hsplit := zip_message hlen
  have hfst : (flags.zip (m.bytes ++ body)).map Prod.fst = flags :=
    List.map_fst_zip (Nat.le_of_eq hlen)
  obtain ⟨hsnd, -⟩ := zip_header hlen
  obtain ⟨row, rest, hrows⟩ : ∃ row rest, m.rows = row :: rest :=
    List.exists_cons_of_ne_nil (List.append_ne_nil_of_right_ne_nil _ (List.cons_ne_nil _ _))
  obtain ⟨q, hq, -⟩ := Header.rows_spec (m := m) (by rw [hrows]; exact List.mem_cons_self)
  have hbytes : m.bytes = row ++ rest.flatten := by
    rw [← m.flatten_rows, hrows, List.flatten_cons]
  obtain ⟨t₁, t₂, hparts, ht₁, ht₂⟩ := List.map_eq_append_iff.mp (hsnd.trans hbytes)
  cases t₁ with
  | nil =>
      rw [hq] at ht₁
      simp at ht₁
  | cons x t₁ =>
      obtain ⟨f, b⟩ := x
      rw [hsplit, hparts, List.append_assoc] at hfst
      have hf : f = true := by
        rw [← hfst] at hopen
        exact Option.some.inj hopen
      subst hf
      have hlen₁ : (m.rows.take 1).flatten.length = 1 + t₁.length := by
        rw [hrows, List.take_succ_cons, List.take_zero, List.flatten_singleton, ← ht₁,
          List.length_map, List.length_cons, Nat.add_comm]
      refine ⟨row, rest, b, t₁, t₂, hrows, ht₁, ht₂, hparts, hfst, hlen₁, ?_⟩
      rw [hlen₁]
      exact unopened_iff [(true, b)] hfst

/-- **Behind a request without a body** the response's first line has to come at once. -/
theorem framed_behind_empty {m : Header} {flags : List Bool} {body : Bytes}
    (hlen : flags.length = (m.bytes ++ body).length) (hopen : flags.head? = some true)
    (hu : Uncut ((flags.take m.bytes.length).zip m.bytes))
    (hfresh : Framed parse ⟨State.initial, false⟩ (flags.zip (m.bytes ++ body))) :
    Framed parse ⟨ended [] 0, false⟩ (flags.zip (m.bytes ++ body))
      ↔ Unbroken flags 1 (m.rows.take 1).flatten.length := by
  obtain ⟨row, rest, b, t₁, t₂, hrows, hrow, -, hheader, -, -, hfirst⟩ := exists_first hlen hopen
  obtain ⟨q, hq, hinner⟩ := Header.rows_spec (m := m) (by rw [hrows]; exact List.mem_cons_self)
  have hwhole : ((true, b) :: t₁).map Prod.snd = (q ++ [CR]) ++ [LF] := by
    rw [List.map_cons, hrow, hq]
  obtain ⟨t, f, ht, hcr⟩ := exists_rest hwhole
  rw [zip_message hlen, hheader, List.append_assoc] at hfresh ⊢
  rw [hheader] at hu
  rw [framed_cons_append] at hfresh ⊢
  -- a complete line leads to the same state
  have hrun : Scan.run parse ⟨ended [] 0, false⟩ ((true, b) :: t₁)
      = Scan.run parse ⟨State.initial, false⟩ ((true, b) :: t₁) := by
    have hf : f = false := by
      rw [ht] at hu
      exact hu.append.1.last hcr
    rw [ht, run_rest rfl hcr (quiet_nil hinner) (by simp), run_rest rfl hcr (quiet_nil hinner) (by simp), hf]
    rfl
  have hundone : Undone parse (Scan.feed parse ⟨ended [] 0, false⟩ (true, b)) t₁
      ↔ Unopened t₁ := by
    cases t with
    | nil => simp at hcr
    | cons x t =>
        obtain ⟨rfl, ht₁⟩ := List.cons.inj ht
        have hquiet : Quiet [] (b :: t.map Prod.snd) := by
          rw [show b :: t.map Prod.snd = q ++ [CR] from hcr]
          exact quiet_nil hinner
        rw [ht₁]
        exact undone_behind rfl rfl rfl hquiet
  rw [hrun, hundone, hfirst]
  exact and_iff_left hfresh.2

/-- The empty line, read as the end of another one. -/
theorem not_settles_null {c : Int} (hc : c ≠ 0) {line : Bytes} (hline : line ≠ []) {x : Tagged}
    {t : List Tagged} (hrow : (x :: t).map Prod.snd = CRLF_DELIMETER) (hu : Uncut (x :: t)) :
    ¬Settles parse (Scan.run parse ⟨ended line c, false⟩ (x :: t)) [] := by
  have hwhole : (x :: t).map Prod.snd = [CR] ++ [LF] := hrow
  obtain ⟨t', f, ht, hcr⟩ := exists_rest hwhole
  have hf : f = false := by
    rw [ht] at hu
    exact hu.last (q := []) hcr
  have hquiet : Quiet line [CR] :=
    quiet_iff.mpr ⟨fun h => absurd h.2 (by decide), not_infix_of_not_mem (by decide)⟩
  have hne : line ++ [CR] ++ [LF] ≠ CRLF_DELIMETER := by
    rw [List.append_assoc]
    exact fun h => hline (List.append_left_eq_self.mp h)
  intro hsettles
  rw [ht, run_rest (streams_ended line c true) hcr hquiet (by simp), hf, Bool.false_and,
    if_neg Bool.false_ne_true, complete_ended hc, beq_eq_false_iff_ne.mpr hne] at hsettles
  cases hsettles.1

/-- Without lines no length is announced. -/
theorem bodyLength_of_lines_nil {m : Header} (hlines : m.lines = []) : m.bodyLength = 0 := by
  have hannounce := (List.append_eq_nil_iff.mp (List.append_eq_nil_iff.mp hlines).2).1
  cases hn : m.contentLength with
  | none => simp [Header.bodyLength, hn]
  | some n => simp [Header.announcement, hn] at hannounce

/-- The second line has to come at once, and what comes behind it is in the body. -/
theorem settles_second (parse : Bytes → Int) {c : Int} (hc : c ≠ 0) {m : Header}
    {flags : List Bool} {row : Bytes} {ls : List Line} {b : UInt8} {t₁ t₂ tail : List Tagged}
    (hrows : m.rows = row :: (ls.map Line.bytes ++ [CRLF_DELIMETER]))
    (ht₂ : t₂.map Prod.snd = ls.flatMap Line.bytes ++ CRLF_DELIMETER) (hu : Uncut t₂)
    (hlen₁ : (m.rows.take 1).flatten.length = 1 + t₁.length)
    (hflags : (((true, b) :: t₁) ++ (t₂ ++ tail)).map Prod.fst = flags) :
    (m.rows.take 1).flatten.length ≤ (m.rows.take 2).flatten.length ∧
      (Settles parse (noticed c) (t₂ ++ tail) ↔
        Unbroken flags (m.rows.take 1).flatten.length (m.rows.take 2).flatten.length ∧
          Settles parse (noticed c) tail) := by
  obtain ⟨t₃, t₄, hparts, hlen₃, hsettles⟩ := settles_done_rest parse hc tail ht₂ hu
  have hlen₂ : (m.rows.take 2).flatten.length
      = (m.rows.take 1).flatten.length + t₃.length := by
    rw [hrows, hlen₃, List.take_succ_cons, List.take_succ_cons, List.take_zero,
      List.flatten_cons, List.flatten_singleton, List.length_append]
  have hflags' : (((true, b) :: t₁) ++ (t₃ ++ (t₄ ++ tail))).map Prod.fst = flags := by
    rw [← List.append_assoc t₃, ← hparts, hflags]
  refine ⟨hlen₂ ▸ Nat.le_add_right _ _, ?_⟩
  rw [hsettles, hlen₂, hlen₁, Nat.add_comm 1]
  exact and_congr_left fun _ => unopened_iff _ hflags'

/-- **Behind a request with a body.** -/
theorem framed_behind {c : Int} (hc : c ≠ 0) {line : Bytes} (hline : line ≠ []) {m : Header}
    {flags : List Bool} {body : Bytes} (hlen : flags.length = (m.bytes ++ body).length)
    (hbody : body.length = m.bodyLength) (hopen : flags.head? = some true)
    (hu : Uncut ((flags.take m.bytes.length).zip m.bytes)) :
    Framed parse ⟨ended line c, false⟩ (flags.zip (m.bytes ++ body)) ↔
      m.lines ≠ [] ∧ Unbroken flags 1 (m.rows.take 1).flatten.length ∧
      (line.getLast? = some CR → m.rows.head? = some [LF, CR, LF] →
        Unbroken flags 1 (m.rows.take 2).flatten.length) ∧
      Settles parse (noticed c) ((flags.drop m.bytes.length).zip body) := by
  obtain ⟨row, rest, b, t₁, t₂, hrows, hrow, hrest, hheader, hflags, hlen₁, hfirst⟩ :=
    exists_first hlen hopen
  rw [zip_message hlen, hheader, List.append_assoc, framed_cons_append]
  rw [hheader] at hu
  cases hlines : m.lines with
  | nil =>
      -- the empty line is read as the end of another
      have hrow' : row :: rest = [CRLF_DELIMETER] := by
        rw [← hrows, Header.rows, hlines]
        rfl
      obtain ⟨rfl, rfl⟩ := List.cons.inj hrow'
      refine iff_of_false ?_ (fun h => h.1 rfl)
      rintro ⟨-, hsettles⟩
      rw [List.eq_nil_of_length_eq_zero (hbody.trans (bodyLength_of_lines_nil hlines)),
        List.zip_nil_right,
        List.map_eq_nil_iff.mp hrest] at hsettles
      exact not_settles_null (x := (true, b)) hc hline hrow hu.append.1 hsettles
  | cons l ls =>
      have hrow' : row :: rest = l.bytes :: (ls.map Line.bytes ++ [CRLF_DELIMETER]) := by
        rw [← hrows, Header.rows, hlines]
        rfl
      obtain ⟨rfl, rfl⟩ := List.cons.inj hrow'
      obtain ⟨hrun, hundone⟩ := run_first parse hc hline hrow hu.append.1
      have ht₂ : t₂.map Prod.snd = ls.flatMap Line.bytes ++ CRLF_DELIMETER := by
        rw [hrest, List.flatten_append, List.flatMap_def]
        simp
      rw [hrun, hundone, hfirst]
      by_cases hlf : line.getLast? = some CR ∧ l.content = [LF]
      · obtain ⟨hle, hsecond⟩ :=
          settles_second parse hc hrows ht₂ hu.append.2 hlen₁ hflags
        have hhead : m.rows.head? = some [LF, CR, LF] := by
          rw [hrows, List.head?_cons, Line.bytes, hlf.2]
          rfl
        have hboth : Unbroken flags 1 (m.rows.take 2).flatten.length ↔
            Unbroken flags 1 (m.rows.take 1).flatten.length ∧
              Unbroken flags (m.rows.take 1).flatten.length (m.rows.take 2).flatten.length :=
          unbroken_append (by omega) hle
        rw [decide_eq_true hlf, hsecond, hboth]
        constructor
        · rintro ⟨h₁, h₂, h₃⟩
          exact ⟨List.cons_ne_nil l ls, h₁, fun _ _ => ⟨h₁, h₂⟩, h₃⟩
        · rintro ⟨-, h₁, h₂, h₃⟩
          exact ⟨h₁, (h₂ hlf.1 hhead).2, h₃⟩
      · have hvacuous : line.getLast? = some CR → m.rows.head? = some [LF, CR, LF] →
            Unbroken flags 1 (m.rows.take 2).flatten.length := by
          intro hlast hhead
          rw [hrows] at hhead
          have hbytes : l.content ++ [CR, LF] = [LF] ++ [CR, LF] := Option.some.inj hhead
          exact absurd ⟨hlast, List.append_cancel_right hbytes⟩ hlf
        rw [decide_eq_false hlf, settles_rest hc ht₂ hu.append.2]
        constructor
        · rintro ⟨h₁, h₂⟩
          exact ⟨List.cons_ne_nil l ls, h₁, hvacuous, h₂⟩
        · rintro ⟨-, h₁, -, h₂⟩
          exact ⟨h₁, h₂⟩

/-! ## The proxy -/

/-- The response loop answers as the parser does from the initial state: `done` at the
last of the server's packets and not before. -/
def FramedAsFresh (parse : Bytes → Int) (client server : List Bytes) : Prop :=
  ∃ e s, runHTTPProxyLoop parse client server = .ok e ∧
    streamInPackets parse server State.initial = .ok (e.responseDone, s) ∧
    e.responseDone = framed server.length

/-- A part of the header that ends with a delimiter, in packets that cut none. -/
theorem openAt_uncut {flags : List Bool} {header : Bytes} (pre suf : Bytes) (hlen : header.length ≤ flags.length)
    (hheader : header = ((pre ++ [CR]) ++ [LF]) ++ suf)
    (hu : Uncut ((flags.take header.length).zip header)) :
    openAt flags ((pre ++ CRLF_DELIMETER).length - 1) = false := by
  have htake : (flags.take header.length).length = header.length := by
    rw [List.length_take]
    omega
  have hsnd : ((flags.take header.length).zip header).map Prod.snd = header :=
    List.map_snd_zip (Nat.le_of_eq htake.symm)
  obtain ⟨t₁, t₂, hparts, ht₁, -⟩ := List.map_eq_append_iff.mp (hsnd.trans hheader)
  obtain ⟨t, f, rfl, hcr⟩ := exists_rest ht₁
  have hpre : (t ++ [(f, LF)]).map Prod.fst <+: flags := by
    have hfst : ((flags.take header.length).zip header).map Prod.fst = flags.take header.length :=
      List.map_fst_zip (Nat.le_of_eq htake)
    rw [hparts, List.map_append] at hfst
    exact (List.prefix_append _ _).trans (hfst ▸ List.take_prefix _ _)
  rw [hparts] at hu
  rw [openAt_last hpre (by rw [← List.length_map Prod.snd, ht₁]; simp [CRLF_DELIMETER])]
  exact hu.append.1.last hcr

/-- In packets that cut no delimiter the length is known and the empty line noticed. -/
theorem known_of_uncut {m : Header} {flags : List Bool} (hlen : m.bytes.length ≤ flags.length)
    (hu : Uncut ((flags.take m.bytes.length).zip m.bytes)) :
    m.known flags = m.bodyLength ∧ openAt flags (m.bytes.length - 1) = false := by
  refine ⟨?_, ?_⟩
  · cases hn : m.contentLength with
    | none => simp [Header.known, Header.bodyLength, hn]
    | some n =>
        have hann : (m.before ++ m.announcement).flatMap Line.bytes
            = (m.before.flatMap Line.bytes ++ (contentLengthLine n).content) ++ CRLF_DELIMETER := by
          rw [Header.announcement, hn, Option.map_some, Option.toList_some, List.flatMap_append,
            List.flatMap_singleton, Line.bytes, List.append_assoc]
        have hopen := openAt_uncut (m.before.flatMap Line.bytes ++ (contentLengthLine n).content)
          (m.after.flatMap Line.bytes ++ CRLF_DELIMETER) hlen ?_ hu
        · rw [← hann] at hopen
          simp only [Header.known, Header.announced, hopen, Bool.false_eq_true, if_false]
        · rw [Header.bytes, Header.lines, ← List.append_assoc, List.flatMap_append, hann]
          simp [CRLF_DELIMETER]
  · have hopen := openAt_uncut (m.lines.flatMap Line.bytes) [] hlen
      (by rw [Header.bytes]; simp [CRLF_DELIMETER]) hu
    exact hopen

section
variable {m : Header} {p : Packets (m.bytes.length + m.bodyLength)}

/-- A message in such packets is framed, from the initial state. -/
theorem framed_of_uncut (hm : m.Reads parse)
    (hu : Uncut ((opens p.sizes).take m.bytes.length |>.zip m.bytes)) {body : Bytes}
    (hbody : body.length = m.bodyLength) :
    Framed parse ⟨State.initial, false⟩ ((opens p.sizes).zip (m.bytes ++ body)) ∧
    ∃ line, (Scan.run parse ⟨State.initial, false⟩ ((opens p.sizes).zip (m.bytes ++ body))).state
        = ended line m.bodyLength ∧ line.getLast? = body.getLast? := by
  obtain ⟨hknown, hnull⟩ := known_of_uncut (by rw [p.length_opens]; exact Nat.le_add_right _ _) hu
  have hlen : (opens p.sizes).length = (m.bytes ++ body).length := by
    rw [p.length_opens, List.length_append, hbody]
  have htail : (((opens p.sizes).drop m.bytes.length).zip body).length = m.bodyLength := by
    rw [List.length_zip, List.length_drop, hlen, List.length_append, hbody]
    omega
  have hsnd : (((opens p.sizes).drop m.bytes.length).zip body).map Prod.snd = body := by
    apply List.map_snd_zip
    rw [List.length_drop, hlen, List.length_append]
    omega
  rw [framed_message hm hlen, (run_message hm hlen).1, hknown, hnull, afterHeader]
  generalize hn : m.bodyLength = n at *
  cases n with
  | zero =>
      rw [List.eq_nil_of_length_eq_zero hbody, List.zip_nil_right, if_pos rfl]
      exact ⟨⟨rfl, trivial⟩, [], rfl, rfl⟩
  | succ n =>
      rw [if_neg (Nat.succ_ne_zero n)]
      refine ⟨settles_content htail, ?_⟩
      obtain ⟨line, hrun, hlast, -⟩ := run_streaming parse
        (z := ⟨⟨[], (n + 1 : Nat), 0, true⟩, true⟩)
        (t := ((opens p.sizes).drop m.bytes.length).zip body) rfl rfl (by simp) (by simp [htail])
      refine ⟨line, ?_, by rw [hlast, hsnd, List.nil_append]⟩
      rw [hrun, htail]
      simp

end

section
variable {m₁ m₂ : Header} (p₁ : Packets (m₁.bytes.length + m₁.bodyLength))
  (p₂ : Packets (m₂.bytes.length + m₂.bodyLength))

theorem sizes_ne_nil {m : Header} (p : Packets (m.bytes.length + m.bodyLength)) : p.sizes ≠ [] := by
  intro hnil
  have hsum := p.sum_eq
  have hpos := length_bytes_pos m
  rw [hnil, List.sum_nil] at hsum
  omega

theorem nonempty_of_mem_cut {sizes : List Nat} {bytes : Bytes} (hpos : ∀ k ∈ sizes, 0 < k)
    (hlen : bytes.length = sizes.sum) : ∀ packet ∈ cut sizes bytes, packet ≠ [] := by
  induction sizes generalizing bytes with
  | nil => exact fun _ h => nomatch h
  | cons k ks ih =>
      obtain ⟨hk, hks⟩ := List.forall_mem_cons.mp hpos
      rw [List.sum_cons] at hlen
      refine List.forall_mem_cons.mpr ⟨?_, ih hks (by rw [List.length_drop]; omega)⟩
      apply List.ne_nil_of_length_pos
      rw [List.length_take]
      omega

theorem length_cut : ∀ (sizes : List Nat) (bytes : Bytes), (cut sizes bytes).length = sizes.length
  | [], _ => rfl
  | k :: ks, bytes => congrArg (· + 1) (length_cut ks (bytes.drop k))

theorem cut_ne_nil {m : Header} (p : Packets (m.bytes.length + m.bodyLength)) {bytes : Bytes} :
    cut p.sizes bytes ≠ [] := by
  intro hnil
  have hlength := congrArg List.length hnil
  rw [length_cut] at hlength
  exact sizes_ne_nil p (List.eq_nil_of_length_eq_zero hlength)

/-- The parser on a message that its packets do not cut. -/
theorem streamInPackets_uncut {m : Header} {p : Packets (m.bytes.length + m.bodyLength)}
    (hm : m.Reads parse) (hu : Uncut ((opens p.sizes).take m.bytes.length |>.zip m.bytes))
    {body : Bytes} (hbody : body.length = m.bodyLength) :
    ∃ line, streamInPackets parse (cut p.sizes (m.bytes ++ body)) State.initial
        = .ok (framed p.sizes.length, ended line m.bodyLength) ∧
      line.getLast? = body.getLast? := by
  have hlen : (m.bytes ++ body).length = p.sizes.sum := by
    rw [List.length_append, hbody, p.sum_eq]
  obtain ⟨dones, hrun, hdones⟩ := streamInPackets_eq parse ⟨State.initial, false⟩
    p.pos hlen (sizes_ne_nil p)
  obtain ⟨hframed, line, hstate, hlast⟩ := framed_of_uncut hm hu hbody
  exact ⟨line, by rw [hrun, hstate, hdones.mpr hframed], hlast⟩

/-- **The proxy takes the whole request,** and reads the response from where that has ended. -/
theorem framedAsFresh_iff (h₁ : m₁.Reads parse) (h₂ : m₂.Reads parse)
    (hu₁ : Uncut ((opens p₁.sizes).take m₁.bytes.length |>.zip m₁.bytes))
    (hu₂ : Uncut ((opens p₂.sizes).take m₂.bytes.length |>.zip m₂.bytes)) {body₁ body₂ : Bytes}
    (hbody₁ : body₁.length = m₁.bodyLength) (hbody₂ : body₂.length = m₂.bodyLength) :
    ∃ line, line.getLast? = body₁.getLast? ∧
      (FramedAsFresh parse (cut p₁.sizes (m₁.bytes ++ body₁)) (cut p₂.sizes (m₂.bytes ++ body₂)) ↔
        Framed parse ⟨ended line m₁.bodyLength, false⟩
          ((opens p₂.sizes).zip (m₂.bytes ++ body₂))) := by
  have hlen₁ : (m₁.bytes ++ body₁).length = p₁.sizes.sum := by
    rw [List.length_append, hbody₁, p₁.sum_eq]
  have hlen₂ : (m₂.bytes ++ body₂).length = p₂.sizes.sum := by
    rw [List.length_append, hbody₂, p₂.sum_eq]
  obtain ⟨line, hstream, hlast⟩ := streamInPackets_uncut h₁ hu₁ hbody₁
  obtain ⟨line₂, hfresh, -⟩ := streamInPackets_uncut h₂ hu₂ hbody₂
  obtain ⟨dones, hrun, hdones⟩ := streamInPackets_eq parse
    ⟨ended line m₁.bodyLength, false⟩ p₂.pos hlen₂ (sizes_ne_nil p₂)
  rw [← length_cut p₁.sizes (m₁.bytes ++ body₁)] at hstream
  rw [← length_cut p₂.sizes (m₂.bytes ++ body₂)] at hfresh hdones
  have hrequest := requestLoop_of_framed (cut_ne_nil p₁) (nonempty_of_mem_cut p₁.pos hlen₁) hstream
  obtain ⟨sent, s, hresponse, hsent⟩ := responseLoop_eq (cut_ne_nil p₂) hrun
  have hproxy : runHTTPProxyLoop parse (cut p₁.sizes (m₁.bytes ++ body₁))
      (cut p₂.sizes (m₂.bytes ++ body₂)) = .ok ⟨cut p₁.sizes (m₁.bytes ++ body₁), sent⟩ := by
    rw [runHTTPProxyLoop, hrequest, ok_bind, hresponse]
    rfl
  refine ⟨line, hlast, ?_⟩
  rw [FramedAsFresh, hproxy, ← hdones, ← hsent]
  constructor
  · rintro ⟨e, -, he, -, hframed⟩
    cases Except.ok.inj he
    exact hframed
  · intro h
    exact ⟨_, _, rfl, by rw [Exchange.responseDone, h]; exact hfresh, h⟩

end

/-- When a response is read behind a request with a body of `n` bytes as it is from the
initial state. -/
def Header.ReadBehind (m : Header) (n : Nat) (sizes : List Nat) : Prop :=
  Unbroken (opens sizes) 1 (m.rows.take 1).flatten.length ∧
  (n ≠ 0 → m.lines ≠ [] ∧
    (m.rows.head? = some [LF, CR, LF] →
      Unbroken (opens sizes) 1 (m.rows.take 2).flatten.length) ∧
    (m.bodyLength ≠ 0 → m.bodyLength ≤ 2 ∧
      Unbroken (opens sizes) m.bytes.length (m.bytes.length + m.bodyLength)))

theorem uncut_message {m : Header} {flags : List Bool} {body : Bytes}
    (hlen : flags.length = (m.bytes ++ body).length)
    (hu : Uncut ((flags.take m.bytes.length).zip m.bytes))
    (hbody : LF ∉ body ∨ ∀ f ∈ flags.drop m.bytes.length, f = false) :
    Uncut (flags.zip (m.bytes ++ body)) := by
  rw [zip_message hlen]
  refine hu.append_of_forall ?_
  intro x hx hlf
  obtain ⟨hfst, hsnd⟩ := List.of_mem_zip (a := x.1) (b := x.2) hx
  rcases hbody with hno | hflags
  · exact absurd (hlf ▸ hsnd) hno
  · exact hflags _ hfst

theorem zip_take_length {flags : List Bool} {bytes : Bytes} (h : bytes.length ≤ flags.length) :
    (flags.take bytes.length).zip bytes = flags.zip bytes := by
  have hmin : flags.zip bytes = (flags.take (min flags.length bytes.length)).zip
      (bytes.take (min flags.length bytes.length)) := List.zip_eq_zip_take_min
  rw [hmin, Nat.min_eq_right h, List.take_length]

theorem Packets.length_message {m : Header} (p : Packets (m.bytes.length + m.bodyLength))
    {body : Bytes} (hbody : body.length = m.bodyLength) :
    (opens p.sizes).length = (m.bytes ++ body).length := by
  rw [p.length_opens, List.length_append, hbody]

/-- A body without an LF is not cut. -/
theorem Packets.uncut_plain {m : Header} (p : Packets (m.bytes.length + m.bodyLength))
    (hu : Uncut (((opens p.sizes).take m.bytes.length).zip m.bytes)) {body : Bytes}
    (hbody : body.length = m.bodyLength) (hno : LF ∉ body) :
    Uncut ((opens p.sizes).zip (m.bytes ++ body)) :=
  uncut_message (p.length_message hbody) hu (Or.inl hno)

section
variable {m₁ m₂ : Header} (p₁ : Packets (m₁.bytes.length + m₁.bodyLength))
  (p₂ : Packets (m₂.bytes.length + m₂.bodyLength))

theorem head_opens : (opens p₂.sizes).head? = some true := by
  obtain ⟨k, ks, hsizes⟩ := List.exists_cons_of_ne_nil (sizes_ne_nil p₂)
  rw [hsizes]
  rfl

/-- Behind a request without a body. -/
theorem framedAsFresh_empty (h₁ : m₁.Reads parse) (h₂ : m₂.Reads parse)
    (hu₁ : Uncut (((opens p₁.sizes).take m₁.bytes.length).zip m₁.bytes))
    (hu₂ : Uncut (((opens p₂.sizes).take m₂.bytes.length).zip m₂.bytes)) {body₁ body₂ : Bytes}
    (hbody₁ : body₁.length = m₁.bodyLength) (hbody₂ : body₂.length = m₂.bodyLength)
    (hn : m₁.bodyLength = 0) :
    FramedAsFresh parse (cut p₁.sizes (m₁.bytes ++ body₁)) (cut p₂.sizes (m₂.bytes ++ body₂))
      ↔ Unbroken (opens p₂.sizes) 1 (m₂.rows.take 1).flatten.length := by
  obtain ⟨line, hlast, hiff⟩ := framedAsFresh_iff p₁ p₂ h₁ h₂ hu₁ hu₂ hbody₁ hbody₂
  rw [List.eq_nil_of_length_eq_zero (hbody₁.trans hn), List.getLast?_nil,
    List.getLast?_eq_none_iff] at hlast
  rw [hiff, hlast, hn]
  exact framed_behind_empty (p₂.length_message hbody₂) (head_opens p₂) hu₂
    (framed_of_uncut h₂ hu₂ hbody₂).1

/-- Behind a request with a body. -/
theorem framedAsFresh_content (h₁ : m₁.Reads parse) (h₂ : m₂.Reads parse)
    (hu₁ : Uncut (((opens p₁.sizes).take m₁.bytes.length).zip m₁.bytes))
    (hu₂ : Uncut (((opens p₂.sizes).take m₂.bytes.length).zip m₂.bytes)) {body₁ body₂ : Bytes}
    (hbody₁ : body₁.length = m₁.bodyLength) (hbody₂ : body₂.length = m₂.bodyLength)
    (hn : m₁.bodyLength ≠ 0) :
    FramedAsFresh parse (cut p₁.sizes (m₁.bytes ++ body₁)) (cut p₂.sizes (m₂.bytes ++ body₂)) ↔
      m₂.lines ≠ [] ∧ Unbroken (opens p₂.sizes) 1 (m₂.rows.take 1).flatten.length ∧
      (body₁.getLast? = some CR → m₂.rows.head? = some [LF, CR, LF] →
        Unbroken (opens p₂.sizes) 1 (m₂.rows.take 2).flatten.length) ∧
      Settles parse (noticed m₁.bodyLength)
        (((opens p₂.sizes).drop m₂.bytes.length).zip body₂) := by
  obtain ⟨line, hlast, hiff⟩ := framedAsFresh_iff p₁ p₂ h₁ h₂ hu₁ hu₂ hbody₁ hbody₂
  have hc : (m₁.bodyLength : Int) ≠ 0 := by exact_mod_cast hn
  have hline : line ≠ [] := by
    rintro rfl
    rw [List.getLast?_nil, eq_comm, List.getLast?_eq_none_iff] at hlast
    rw [hlast] at hbody₁
    exact hn hbody₁.symm
  rw [hiff, ← hlast]
  exact framed_behind hc hline (p₂.length_message hbody₂) hbody₂ (head_opens p₂) hu₂

/-- **A response behind a request.** -/
theorem independent_iff (h₁ : m₁.Reads parse) (h₂ : m₂.Reads parse)
    (hu₁ : Uncut ((opens p₁.sizes).zip m₁.bytes)) (hu₂ : Uncut ((opens p₂.sizes).zip m₂.bytes)) :
    (∀ body₁ body₂ : Bytes, body₁.length = m₁.bodyLength → body₂.length = m₂.bodyLength →
      Uncut ((opens p₁.sizes).zip (m₁.bytes ++ body₁)) →
      Uncut ((opens p₂.sizes).zip (m₂.bytes ++ body₂)) →
      FramedAsFresh parse (cut p₁.sizes (m₁.bytes ++ body₁))
        (cut p₂.sizes (m₂.bytes ++ body₂))) ↔ m₂.ReadBehind m₁.bodyLength p₂.sizes := by
  rw [← zip_take_length (by rw [p₁.length_opens]; omega)] at hu₁
  rw [← zip_take_length (by rw [p₂.length_opens]; omega)] at hu₂
  have hfill : (List.replicate m₂.bodyLength filler).length = m₂.bodyLength := List.length_replicate
  have huncut := p₂.uncut_plain hu₂ hfill (lf_notMem_replicate _)
  rw [Header.ReadBehind]
  by_cases hn : m₁.bodyLength = 0
  · constructor
    · intro h
      have hnil : ([] : Bytes).length = m₁.bodyLength := hn.symm
      have hframed := h [] _ hnil hfill (p₁.uncut_plain hu₁ hnil (by simp)) huncut
      exact ⟨(framedAsFresh_empty p₁ p₂ h₁ h₂ hu₁ hu₂ hnil hfill hn).mp hframed,
        fun hne => absurd hn hne⟩
    · rintro ⟨hfirst, -⟩ body₁ body₂ hbody₁ hbody₂ - -
      exact (framedAsFresh_empty p₁ p₂ h₁ h₂ hu₁ hu₂ hbody₁ hbody₂ hn).mpr hfirst
  · have hrest : ((opens p₂.sizes).drop m₂.bytes.length).length = m₂.bodyLength := by
      rw [List.length_drop, p₂.length_opens]
      omega
    constructor
    · intro h
      -- a request that ends in a CR
      have hcr : (List.replicate (m₁.bodyLength - 1) filler ++ [CR]).length = m₁.bodyLength := by
        rw [List.length_append, List.length_replicate, List.length_singleton]
        omega
      have hno : LF ∉ List.replicate (m₁.bodyLength - 1) filler ++ [CR] := by
        rw [List.mem_append, not_or]
        exact ⟨lf_notMem_replicate _, by decide⟩
      have hrequest := p₁.uncut_plain hu₁ hcr hno
      obtain ⟨hlines, hfirst, hsecond, -⟩ :=
        (framedAsFresh_content p₁ p₂ h₁ h₂ hu₁ hu₂ hcr hfill hn).mp
          (h _ _ hcr hfill hrequest huncut)
      refine ⟨hfirst, fun _ => ⟨hlines, hsecond List.getLast?_concat, fun _ => ?_⟩⟩
      rw [unbroken_iff_drop p₂.length_opens]
      by_cases hgood : ((opens p₂.sizes).drop m₂.bytes.length).length ≤ 2 ∧
          ∀ f ∈ (opens p₂.sizes).drop m₂.bytes.length, f = false
      · exact ⟨hrest ▸ hgood.1, hgood.2⟩
      · obtain ⟨body, hbody, hcut, hbad⟩ :=
          exists_not_settles parse m₁.bodyLength hgood
        have hbody₂ := hbody.trans hrest
        have hframed := h _ _ hcr hbody₂ hrequest
          (uncut_message (p₂.length_message hbody₂) hu₂ hcut)
        have hparts := (framedAsFresh_content p₁ p₂ h₁ h₂ hu₁ hu₂ hcr hbody₂ hn).mp hframed
        exact absurd hparts.2.2.2 hbad
    · rintro ⟨hfirst, hmore⟩ body₁ body₂ hbody₁ hbody₂ - -
      obtain ⟨hlines, hsecond, hbodies⟩ := hmore hn
      refine (framedAsFresh_content p₁ p₂ h₁ h₂ hu₁ hu₂ hbody₁ hbody₂ hn).mpr
        ⟨hlines, hfirst, fun _ => hsecond, ?_⟩
      by_cases hzero : m₂.bodyLength = 0
      · rw [List.eq_nil_of_length_eq_zero (hbody₂.trans hzero), List.zip_nil_right]
        exact ⟨by simp [State.done], trivial⟩
      · obtain ⟨hshort, hunbroken⟩ := hbodies hzero
        rw [unbroken_iff_drop p₂.length_opens] at hunbroken
        have hc : (m₁.bodyLength : Int) ≠ 0 := by exact_mod_cast hn
        exact settles_short (fun h => absurd h hc) (hbody₂.trans hrest.symm)
          (Nat.le_trans (Nat.le_of_eq hrest) hshort) hunbroken

end

/-- A request and a response with three bytes each, in a packet each. -/
def onePacket : Packets (threeHeader.bytes.length + threeHeader.bodyLength) :=
  ⟨[40], by decide, by decide⟩

/-- The same header in a packet of its own. -/
def twoPackets : Packets (threeHeader.bytes.length + threeHeader.bodyLength) :=
  ⟨[37, 3], by decide, by decide⟩

/-- The same without a body in two packets, of which the first has the first line. -/
def firstLine : Packets (getHeader.bytes.length + getHeader.bodyLength) :=
  ⟨[16, 2], by decide, by decide⟩

theorem reads_getHeader : getHeader.Reads parseThree where
  number _ hn := nomatch hn
  other l hl := reads_parseThree.other l hl
  null := reads_parseThree.null

theorem independent_iff_first : FramedAsFresh parseThree
    (cut [40] (threeHeader.bytes ++ ascii "abc")) (cut [16, 2] (getHeader.bytes ++ [])) :=
  (independent_iff onePacket firstLine reads_parseThree reads_getHeader (by decide)
    (by decide)).mpr (by
      refine ⟨by decide, fun _ => ⟨List.cons_ne_nil _ _, fun h => absurd h (by decide), ?_⟩⟩
      exact fun h => absurd rfl h) (ascii "abc") [] rfl rfl (by decide) (by decide)

/-- A header and a body in two packets, behind a request with a body. -/
theorem not_independent : ¬FramedAsFresh parseThree
    (cut [40] (threeHeader.bytes ++ ascii "abc")) (cut [37, 3] (threeHeader.bytes ++ ascii "abc")) := by
  intro h
  have hparts := (framedAsFresh_content onePacket twoPackets reads_parseThree reads_parseThree
    (by decide) (by decide) rfl rfl (by decide)).mp h
  have hopen := (settles_noticed_iff (not_infix_of_not_mem (by decide))).mp hparts.2.2.2
  exact absurd (hopen (true, 97) (by decide)) (by decide)

end Nyctomek.Http

/-
# `Http.Framing` — messages in packets

A message is header lines, an empty line, and as many bytes as a `Content-Length`
line says.  `framed_iff` answers in which packets the parser finds its end, whatever
the body is:

    no body     if no packet opens between the CR and the LF of the empty line
    a body      if none opens between the CR and the LF of the `Content-Length` line;
                or if its one or two bytes come with the CR of the empty line
-/
import Nyctomek.Http.Packets

namespace Nyctomek.Http

open Prog

variable {parse : Bytes → Int}

/-! ## Messages -/

/-- A header line. -/
structure Line where
  content : Bytes
  nonempty : content ≠ []
  noInner : ¬CRLF_DELIMETER <:+: content

def Line.bytes (l : Line) : Bytes := l.content ++ CRLF_DELIMETER

theorem not_infix_of_not_mem {bytes : Bytes} (h : LF ∉ bytes) : ¬CRLF_DELIMETER <:+: bytes :=
  fun hinner => h (hinner.subset (by simp [CRLF_DELIMETER]))

theorem lf_notMem_ascii_toString (n : Nat) : LF ∉ ascii (toString n) := by
  intro h
  obtain ⟨c, hc, hlf⟩ := List.mem_map.mp h
  rw [Nat.toString_eq_repr, Nat.toList_repr] at hc
  have hdigit := Nat.isDigit_of_mem_toDigits (by decide) (by decide) hc
  simp only [Char.isDigit, Bool.and_eq_true, decide_eq_true_eq, UInt32.le_iff_toNat_le] at hdigit
  have hlow : 48 ≤ c.toNat := hdigit.1
  have hhigh : c.toNat ≤ 57 := hdigit.2
  have hten : c.toNat % 256 = 10 := by
    rw [← UInt8.toNat_ofNat', hlf]
    rfl
  omega

/-- `Content-Length: n`. -/
def contentLengthLine (n : Nat) : Line where
  content := ascii "Content-Length: " ++ ascii (toString n)
  nonempty := List.append_ne_nil_of_left_ne_nil (by decide) _
  noInner := by
    apply not_infix_of_not_mem
    rw [List.mem_append, not_or]
    exact ⟨by decide, lf_notMem_ascii_toString n⟩

/-- The header of a message, with at most one `Content-Length` line. -/
structure Header where
  before : List Line
  contentLength : Option Nat
  after : List Line

namespace Header

/-- The `Content-Length` line, if there is one. -/
def announcement (m : Header) : List Line := (m.contentLength.map contentLengthLine).toList

def lines (m : Header) : List Line := m.before ++ (m.announcement ++ m.after)

/-- The header with its empty line. -/
def bytes (m : Header) : Bytes := m.lines.flatMap Line.bytes ++ CRLF_DELIMETER

/-- How many bytes the body has. -/
def bodyLength (m : Header) : Nat := m.contentLength.getD 0

/-- Where the `Content-Length` line ends. -/
def announced (m : Header) : Nat := ((m.before ++ m.announcement).flatMap Line.bytes).length

/-- `fmt.Sscanf` yields the number on the `Content-Length` line, and 0 on the others. -/
structure Reads (parse : Bytes → Int) (m : Header) : Prop where
  number : ∀ n, m.contentLength = some n → parse (contentLengthLine n).bytes = n
  other : ∀ l ∈ m.before ++ m.after, parse l.bytes = 0
  null : parse CRLF_DELIMETER = 0

end Header

/-! ## Runs over a header -/

theorem exists_rest {t : List Tagged} {q : Bytes} (ht : t.map Prod.snd = q ++ [LF]) :
    ∃ t' f, t = t' ++ [(f, LF)] ∧ t'.map Prod.snd = q := by
  obtain ⟨t', l, rfl, hq, hl⟩ := List.map_eq_append_iff.mp ht
  obtain ⟨⟨f, b⟩, rfl, hb⟩ := List.map_eq_singleton_iff.mp hl
  cases hb
  exact ⟨t', f, rfl, hq⟩

theorem quiet_nil {q : Bytes} (h : ¬CRLF_DELIMETER <:+: q) : Quiet [] q :=
  quiet_iff.mpr ⟨by simp, h⟩

theorem Line.noInner_concat (l : Line) : ¬CRLF_DELIMETER <:+: l.content ++ [CR] := by
  intro h
  rcases List.infix_concat_iff.mp h with hsuf | hinner
  · have hlf := (crlf_suffix_concat.mp hsuf).2
    exact absurd hlf (by decide)
  · exact l.noInner hinner

theorem Line.bytes_ne (l : Line) : l.bytes ≠ CRLF_DELIMETER := by
  intro h
  have hlen := congrArg List.length h
  rw [Line.bytes, List.length_append] at hlen
  have hpos := List.length_pos_of_ne_nil l.nonempty
  omega

/-- A complete line other than the empty one. -/
theorem complete_of_ne {s : State} {line : Bytes} (hne : line ≠ CRLF_DELIMETER) :
    s.complete parse line = ⟨[], (s.complete parse line).contentLength,
      s.receivedContentLength, false⟩ := by
  simp only [State.complete, processCompleteHTTPLine]
  split <;> simp [hne]

theorem streams_complete_of_ne {s : State} {line : Bytes} (hne : line ≠ CRLF_DELIMETER) :
    (s.complete parse line).streams = false := by
  rw [complete_of_ne hne]
  rfl

/-- **A header line.**  Where a packet opens at its LF, the line is forgotten. -/
theorem run_line {s : State} {l : Line} {t : List Tagged} {f : Bool} (hline : s.httpLine = [])
    (hs : s.streams = false) (ht : t.map Prod.snd = l.content ++ [CR]) :
    Scan.run parse ⟨s, false⟩ (t ++ [(f, LF)])
      = ⟨if f then s else s.complete parse l.bytes, false⟩ := by
  have hquiet : Quiet s.httpLine (l.content ++ [CR]) := by
    rw [hline]
    exact quiet_nil l.noInner_concat
  have hbytes : s.httpLine ++ (l.content ++ [CR]) ++ [LF] = l.bytes := by
    rw [hline, Line.bytes, CRLF_DELIMETER]
    simp
  rw [run_rest hs ht hquiet (by rw [← List.append_assoc, List.getLast?_concat]), hbytes,
    streams_complete_of_ne l.bytes_ne]
  cases f with
  | true =>
      obtain ⟨line, c, r, b⟩ := s
      cases hline
      rfl
  | false => rfl

theorem undone_line {s : State} {l : Line} {t : List Tagged} {f : Bool} (hline : s.httpLine = [])
    (hs : s.streams = false) (ht : t.map Prod.snd = l.content ++ [CR]) :
    Undone parse ⟨s, false⟩ (t ++ [(f, LF)]) ↔ (s.done = true → Unopened (t ++ [(f, LF)])) :=
  undone_rest hs ht (by rw [hline]; exact quiet_nil l.noInner_concat)

/-- The lines of a header leave the state alone that has its length, or that finds none. -/
theorem run_lines {c r : Int} {ls : List Line} {t : List Tagged}
    (hread : ∀ l ∈ ls, c = 0 → parse l.bytes = 0) (ht : t.map Prod.snd = ls.flatMap Line.bytes) :
    Scan.run parse ⟨⟨[], c, r, false⟩, false⟩ t = ⟨⟨[], c, r, false⟩, false⟩ ∧
      Undone parse ⟨⟨[], c, r, false⟩, false⟩ t := by
  induction ls generalizing t with
  | nil =>
      cases List.map_eq_nil_iff.mp ht
      exact ⟨rfl, trivial⟩
  | cons l ls ih =>
      obtain ⟨hl, hls⟩ := List.forall_mem_cons.mp hread
      obtain ⟨t₁, t₂, rfl, ht₁, ht₂⟩ := List.map_eq_append_iff.mp (ht.trans List.flatMap_cons)
      have hq : t₁.map Prod.snd = (l.content ++ [CR]) ++ [LF] := by
        rw [ht₁, Line.bytes, CRLF_DELIMETER]
        simp
      obtain ⟨t₁, f, rfl, hcontent⟩ := exists_rest hq
      have hcomplete : State.complete parse ⟨[], c, r, false⟩ l.bytes = ⟨[], c, r, false⟩ := by
        rw [complete_of_ne l.bytes_ne]
        simp only [State.complete, processCompleteHTTPLine]
        split
        · rename_i hc
          rw [hl hc, hc]
        · rfl
      have hrun : Scan.run parse ⟨⟨[], c, r, false⟩, false⟩ (t₁ ++ [(f, LF)])
          = ⟨⟨[], c, r, false⟩, false⟩ := by
        rw [run_line rfl rfl hcontent, hcomplete, ite_self]
      obtain ⟨hrest, hundone⟩ := ih hls ht₂
      refine ⟨by rw [run_append, hrun, hrest], ?_⟩
      rw [undone_append, hrun]
      exact ⟨(undone_line rfl rfl hcontent).mpr (fun h => absurd h (by simp [State.done])), hundone⟩

theorem quiet_cr : Quiet [] [CR] := quiet_nil (not_infix_of_not_mem (by decide))

/-- **The empty line.**  Where a packet opens at its LF and no content follows, it is
forgotten. -/
theorem run_null {c r : Int} {null f : Bool} {t : List Tagged}
    (hs : (⟨[], c, r, null⟩ : State).streams = false) (hnull : c = 0 → parse CRLF_DELIMETER = 0)
    (ht : t.map Prod.snd = [CR]) :
    Scan.run parse ⟨⟨[], c, r, null⟩, false⟩ (t ++ [(f, LF)])
      = if f && !(⟨[], c, r, true⟩ : State).streams then ⟨⟨[], c, r, null⟩, false⟩
        else ⟨⟨[], c, r, true⟩, (⟨[], c, r, true⟩ : State).streams⟩ := by
  have hcomplete : State.complete parse ⟨[], c, r, null⟩ CRLF_DELIMETER = ⟨[], c, r, true⟩ := by
    simp only [State.complete, processCompleteHTTPLine]
    split
    · rename_i hc
      rw [hnull hc, hc]
      rfl
    · rfl
  rw [run_rest hs ht quiet_cr rfl]
  show (if f && !(State.complete parse _ CRLF_DELIMETER).streams then _ else
    (⟨State.complete parse _ CRLF_DELIMETER, (State.complete parse _ CRLF_DELIMETER).streams⟩ : Scan)) = _
  rw [hcomplete]

theorem undone_null {s : State} {f : Bool} {t : List Tagged} (hline : s.httpLine = [])
    (hs : s.streams = false) (ht : t.map Prod.snd = [CR]) :
    Undone parse ⟨s, false⟩ (t ++ [(f, LF)]) ↔ (s.done = true → Unopened (t ++ [(f, LF)])) :=
  undone_rest hs ht (by rw [hline]; exact quiet_cr)

/-- Whether a packet opens at a position. -/
def openAt (flags : List Bool) (i : Nat) : Bool := flags[i]?.getD false

/-- The flag of the last byte of a part. -/
theorem openAt_last {flags : List Bool} {t : List Tagged} {f : Bool} {b : UInt8} {i : Nat}
    (h : (t ++ [(f, b)]).map Prod.fst <+: flags) (hi : (t ++ [(f, b)]).length = i) :
    openAt flags (i - 1) = f := by
  obtain ⟨rest, rfl⟩ := h
  subst hi
  simp [openAt]

/-- What `contentLength` is behind the header: 0, if the LF of its line opens a packet. -/
def Header.known (m : Header) (flags : List Bool) : Nat :=
  if openAt flags (m.announced - 1) then 0 else m.bodyLength

/-- The lines up to the `Content-Length` line. -/
theorem run_announcement {m : Header} (hm : m.Reads parse) {t : List Tagged} {flags : List Bool}
    (ht : t.map Prod.snd = (m.before ++ m.announcement).flatMap Line.bytes)
    (hflags : t.map Prod.fst <+: flags) :
    Scan.run parse ⟨State.initial, false⟩ t = ⟨⟨[], m.known flags, 0, false⟩, false⟩ ∧
      Undone parse ⟨State.initial, false⟩ t := by
  obtain ⟨t₁, t₂, rfl, ht₁, ht₂⟩ := List.map_eq_append_iff.mp (ht.trans List.flatMap_append)
  obtain ⟨hrun, hundone⟩ := run_lines (r := 0)
    (fun l hl _ => hm.other l (List.mem_append_left _ hl)) ht₁
  cases hn : m.contentLength with
  | none =>
      have hzero : m.known flags = 0 := by simp [Header.known, Header.bodyLength, hn]
      have hnil : t₂ = [] := by
        rw [Header.announcement, hn] at ht₂
        exact List.map_eq_nil_iff.mp ht₂
      subst hnil
      rw [List.append_nil, hzero]
      exact ⟨hrun, hundone⟩
  | some n =>
      have hq : t₂.map Prod.snd = ((contentLengthLine n).content ++ [CR]) ++ [LF] := by
        rw [ht₂, Header.announcement, hn, Option.map_some, Option.toList_some,
          List.flatMap_singleton, Line.bytes, CRLF_DELIMETER]
        simp
      obtain ⟨t₂, f, rfl, hcontent⟩ := exists_rest hq
      have hlen : ((t₁ ++ t₂) ++ [(f, LF)]).length = m.announced := by
        rw [Header.announced, ← ht, List.length_map, List.append_assoc]
      have hopen : openAt flags (m.announced - 1) = f := by
        rw [← List.append_assoc] at hflags
        exact openAt_last hflags hlen
      have hknown : m.known flags = if f then 0 else n := by
        simp [Header.known, hopen, Header.bodyLength, hn]
      refine ⟨?_, ?_⟩
      · rw [run_append]
        show Scan.run parse (Scan.run parse ⟨⟨[], 0, 0, false⟩, false⟩ t₁) _ = _
        have hcomplete : State.complete parse ⟨[], 0, 0, false⟩ (contentLengthLine n).bytes
            = ⟨[], n, 0, false⟩ := by
          rw [complete_of_ne (contentLengthLine n).bytes_ne, State.complete]
          simp only [processCompleteHTTPLine, if_pos, hm.number n hn]
        rw [hrun, run_line rfl rfl hcontent, hknown, hcomplete]
        cases f <;> rfl
      · rw [undone_append]
        refine ⟨hundone, ?_⟩
        show Undone parse (Scan.run parse ⟨⟨[], 0, 0, false⟩, false⟩ t₁) _
        rw [hrun, undone_line rfl rfl hcontent]
        exact fun h => absurd h (by simp [State.done])

/-- Behind the header: content, if a length is known; else a state that has noticed the
empty line, if its LF opened no packet. -/
def afterHeader (known : Nat) (nullCut : Bool) : Scan :=
  if known = 0 then ⟨⟨[], 0, 0, !nullCut⟩, false⟩ else ⟨⟨[], known, 0, true⟩, true⟩

/-- **A header from the initial state.** -/
theorem run_header {m : Header} (hm : m.Reads parse) {t : List Tagged} {flags : List Bool}
    (ht : t.map Prod.snd = m.bytes) (hflags : t.map Prod.fst <+: flags) :
    Scan.run parse ⟨State.initial, false⟩ t
        = afterHeader (m.known flags) (openAt flags (m.bytes.length - 1)) ∧
      Undone parse ⟨State.initial, false⟩ t := by
  have hsplit : m.bytes = (m.before ++ m.announcement).flatMap Line.bytes
      ++ (m.after.flatMap Line.bytes ++ ([CR] ++ [LF])) := by
    rw [Header.bytes, Header.lines, ← List.append_assoc, List.flatMap_append, List.append_assoc]
    rfl
  obtain ⟨t₁, t', rfl, ht₁, ht'⟩ := List.map_eq_append_iff.mp (ht.trans hsplit)
  obtain ⟨t₂, t₃, rfl, ht₂, ht₃⟩ := List.map_eq_append_iff.mp ht'
  obtain ⟨t₃, f, rfl, hcr⟩ := exists_rest ht₃
  have hopen : openAt flags (m.bytes.length - 1) = f := by
    refine openAt_last (t := t₁ ++ (t₂ ++ t₃)) (b := LF) ?_ ?_
    · simpa using hflags
    · rw [← ht, List.length_map]
      simp
  have hpre : t₁.map Prod.fst <+: flags := by
    rw [List.map_append] at hflags
    exact (List.prefix_append _ _).trans hflags
  obtain ⟨hrun₁, hundone₁⟩ := run_announcement hm ht₁ hpre
  generalize hc : m.known flags = c at *
  obtain ⟨hrun₂, hundone₂⟩ := run_lines (c := c) (r := 0)
    (fun l hl _ => hm.other l (List.mem_append_right _ hl)) ht₂
  refine ⟨?_, ?_⟩
  · rw [run_append, hrun₁, run_append, hrun₂, run_null rfl (fun _ => hm.null) hcr, hopen,
      afterHeader]
    cases c with
    | zero => cases f <;> rfl
    | succ c =>
        have hstreams : (⟨[], (c + 1 : Nat), 0, true⟩ : State).streams = true := by
          simp only [State.streams, Bool.true_and, Bool.and_eq_true, bne_iff_ne, decide_eq_true_eq]
          omega
        rw [hstreams, Bool.not_true, Bool.and_false, if_neg Bool.false_ne_true,
          if_neg (Nat.succ_ne_zero c)]
  · rw [undone_append, hrun₁, undone_append, hrun₂, undone_null rfl rfl hcr]
    exact ⟨hundone₁, hundone₂, fun h => absurd h (by simp [State.done])⟩

/-! ## Behind the header -/

/-- The bytes end in a state that is `done`, and no packet among them opened in one. -/
def Settles (parse : Bytes → Int) (z : Scan) (t : List Tagged) : Prop :=
  (z.run parse t).state.done = true ∧ Undone parse z t

theorem settles_append {z : Scan} {t t' : List Tagged} :
    Settles parse z (t ++ t') ↔ Undone parse z t ∧ Settles parse (z.run parse t) t' := by
  rw [Settles, run_append, undone_append, Settles]
  exact and_left_comm

theorem settles_content {n : Nat} {t : List Tagged} (hlen : t.length = n) :
    Settles parse ⟨⟨[], n, 0, true⟩, true⟩ t := by
  obtain ⟨line, hrun, -, hundone⟩ := run_streaming parse
    (z := ⟨⟨[], n, 0, true⟩, true⟩) (t := t) rfl rfl (by simp) (by simp [hlen])
  refine ⟨?_, hundone⟩
  rw [hrun]
  simp [State.done, hlen]

/-- Without a notice of the empty line, bytes that end no line lead nowhere. -/
theorem not_settles_lost {c r : Int} {t : List Tagged}
    (ht : ¬CRLF_DELIMETER <:+: t.map Prod.snd) :
    ¬Settles parse ⟨⟨[], c, r, false⟩, false⟩ t := by
  rintro ⟨hdone, -⟩
  rw [run_quiet rfl (quiet_nil ht)] at hdone
  cases hdone

/-- The empty line has been noticed, and no content is expected. -/
abbrev noticed (c : Int) : Scan := ⟨⟨[], c, c, true⟩, false⟩

theorem streams_noticed (c : Int) (null : Bool) :
    (⟨[], c, c, null⟩ : State).streams = false := by
  simp [State.streams]

/-- Then bytes that end no line change nothing. -/
theorem settles_noticed_iff {c : Int} {t : List Tagged}
    (ht : ¬CRLF_DELIMETER <:+: t.map Prod.snd) :
    Settles parse (noticed c) t ↔ Unopened t := by
  rw [Settles, undone_quiet (streams_noticed c true) (quiet_nil ht),
    run_quiet (streams_noticed c true) (quiet_nil ht)]
  simp [State.done]

theorem unopened_zip {flags : List Bool} {bytes : Bytes} (hlen : bytes.length = flags.length) :
    Unopened (flags.zip bytes) ↔ ∀ f ∈ flags, f = false := by
  have hfst : (flags.zip bytes).map Prod.fst = flags := List.map_fst_zip (Nat.le_of_eq hlen.symm)
  rw [Unopened, ← hfst, List.forall_mem_map, hfst]

/-- One or two more bytes that come with the empty line are no harm, whatever they are. -/
theorem settles_short {c : Int} {flags : List Bool} {body : Bytes}
    (hnull : c = 0 → parse CRLF_DELIMETER = 0) (hlen : body.length = flags.length)
    (hshort : flags.length ≤ 2) (hflags : ∀ f ∈ flags, f = false) :
    Settles parse (noticed c) (flags.zip body) := by
  have hunopened : Unopened (flags.zip body) := (unopened_zip hlen).mpr hflags
  have hsnd : (flags.zip body).map Prod.snd = body := List.map_snd_zip (Nat.le_of_eq hlen)
  by_cases hinner : CRLF_DELIMETER <:+: body
  · -- the body is a second empty line
    have hbody : CRLF_DELIMETER = body := hinner.eq_of_length_le (by rw [hlen]; exact hshort)
    subst hbody
    obtain ⟨t, f, ht, hcr⟩ := exists_rest (q := [CR]) hsnd
    rw [ht] at hunopened ⊢
    refine ⟨?_, hunopened.undone _⟩
    have hf : f = false := (unopened_append.mp hunopened).2 (f, LF) (List.mem_singleton_self _)
    rw [run_null (streams_noticed c true) hnull hcr, hf, Bool.false_and, if_neg Bool.false_ne_true]
    simp [State.done]
  · rw [settles_noticed_iff (by rwa [hsnd])]
    exact hunopened

/-- A byte of a body. -/
def filler : UInt8 := 120

theorem lf_notMem_replicate (n : Nat) : LF ∉ List.replicate n filler := by
  intro h
  exact absurd (List.eq_of_mem_replicate h) (by decide)

/-- A line of a body. -/
def fillerLine : Line where
  content := [filler]
  nonempty := by decide
  noInner := not_infix_of_not_mem (by decide)

/-- Any other packets are wrong for some body: one without a line's end, or, if no packet
opens there, one with a line. -/
theorem exists_not_settles (parse : Bytes → Int) (c : Int) {flags : List Bool}
    (h : ¬(flags.length ≤ 2 ∧ ∀ f ∈ flags, f = false)) :
    ∃ body : Bytes, body.length = flags.length ∧
      (LF ∉ body ∨ ∀ f ∈ flags, f = false) ∧ ¬Settles parse (noticed c) (flags.zip body) := by
  by_cases hflags : ∀ f ∈ flags, f = false
  · -- a line puts an end to the notice
    have hlong : 3 ≤ flags.length := by
      rcases Nat.lt_or_ge flags.length 3 with hlt | hge
      · exact absurd ⟨Nat.le_of_lt_succ hlt, hflags⟩ h
      · exact hge
    have hfirst : (flags.take 3).length = fillerLine.bytes.length := by
      rw [List.length_take, Nat.min_eq_left hlong]
      rfl
    refine ⟨fillerLine.bytes ++ List.replicate (flags.length - 3) filler, ?_, Or.inr hflags, ?_⟩
    · rw [List.length_append, ← hfirst, List.length_take, List.length_replicate]
      omega
    · intro hsettles
      rw [← List.take_append_drop 3 flags, List.zip_append hfirst, settles_append] at hsettles
      have hsnd : ((flags.take 3).zip fillerLine.bytes).map Prod.snd
          = (fillerLine.content ++ [CR]) ++ [LF] := List.map_snd_zip (Nat.le_of_eq hfirst.symm)
      obtain ⟨t, f, ht, hcontent⟩ := exists_rest hsnd
      have hf : f = false := by
        have hmem : (f, LF) ∈ (flags.take 3).zip fillerLine.bytes := by
          rw [ht]
          exact List.mem_append_right _ (List.mem_singleton_self _)
        exact hflags f (List.mem_of_mem_take (List.of_mem_zip hmem).1)
      rw [ht, run_line rfl (streams_noticed c true) hcontent, hf, if_neg Bool.false_ne_true,
        complete_of_ne fillerLine.bytes_ne] at hsettles
      refine not_settles_lost (not_infix_of_not_mem ?_) hsettles.2
      rw [List.map_snd_zip (by simp)]
      exact lf_notMem_replicate _
  · refine ⟨List.replicate flags.length filler, List.length_replicate, Or.inl (lf_notMem_replicate _), ?_⟩
    intro hsettles
    have hsnd : (flags.zip (List.replicate flags.length filler)).map Prod.snd
        = List.replicate flags.length filler := List.map_snd_zip (by simp)
    rw [settles_noticed_iff (by rw [hsnd]; exact not_infix_of_not_mem (lf_notMem_replicate _)),
      unopened_zip List.length_replicate] at hsettles
    exact hflags hsettles

/-! ## Packets that show the end of a message -/

/-- A run over a message is one over its header and one over its body. -/
theorem zip_message {flags : List Bool} {header body : Bytes}
    (hlen : flags.length = (header ++ body).length) :
    flags.zip (header ++ body) = (flags.take header.length).zip header
      ++ (flags.drop header.length).zip body := by
  rw [List.length_append] at hlen
  have hheader : (flags.take header.length).length = header.length := by
    rw [List.length_take]
    omega
  rw [← List.zip_append hheader, List.take_append_drop]

/-- The bytes and the flags of the header alone. -/
theorem zip_header {m : Header} {flags : List Bool} {body : Bytes}
    (hlen : flags.length = (m.bytes ++ body).length) :
    ((flags.take m.bytes.length).zip m.bytes).map Prod.snd = m.bytes ∧
      ((flags.take m.bytes.length).zip m.bytes).map Prod.fst <+: flags := by
  have hheader : (flags.take m.bytes.length).length = m.bytes.length := by
    rw [List.length_take, hlen, List.length_append]
    omega
  refine ⟨List.map_snd_zip (Nat.le_of_eq hheader.symm), ?_⟩
  rw [List.map_fst_zip (Nat.le_of_eq hheader)]
  exact List.take_prefix _ _

/-- From a state that is not `done`, the first packet may open. -/
theorem framed_iff_settles {z : Scan} {t : List Tagged} (hz : z.state.done = false) :
    Framed parse z t ↔ Settles parse z t := by
  cases t with
  | nil => rfl
  | cons x t =>
      rw [Framed, Settles, List.take_one, List.head?_cons, Option.toList_some, run_cons z x [],
        run_nil, List.drop_one, List.tail_cons, Undone]
      exact and_congr_right fun _ => (and_iff_right fun _ => hz).symm

/-- What happens behind the header decides. -/
theorem run_message {m : Header} (hm : m.Reads parse) {flags : List Bool} {body : Bytes}
    (hlen : flags.length = (m.bytes ++ body).length) :
    Scan.run parse ⟨State.initial, false⟩ (flags.zip (m.bytes ++ body))
        = (afterHeader (m.known flags) (openAt flags (m.bytes.length - 1))).run parse
          ((flags.drop m.bytes.length).zip body) ∧
      (Undone parse ⟨State.initial, false⟩ (flags.zip (m.bytes ++ body)) ↔
        Undone parse (afterHeader (m.known flags) (openAt flags (m.bytes.length - 1)))
          ((flags.drop m.bytes.length).zip body)) := by
  obtain ⟨hsnd, hfst⟩ := zip_header hlen
  obtain ⟨hrun, hundone⟩ := run_header hm hsnd hfst
  rw [zip_message hlen, run_append, undone_append, hrun]
  exact ⟨rfl, and_iff_right hundone⟩

theorem framed_message {m : Header} (hm : m.Reads parse) {flags : List Bool} {body : Bytes}
    (hlen : flags.length = (m.bytes ++ body).length) :
    Framed parse ⟨State.initial, false⟩ (flags.zip (m.bytes ++ body)) ↔
      Settles parse (afterHeader (m.known flags) (openAt flags (m.bytes.length - 1)))
        ((flags.drop m.bytes.length).zip body) := by
  obtain ⟨hrun, hundone⟩ := run_message hm hlen
  rw [framed_iff_settles rfl, Settles, hrun, hundone, Settles]

/-- No packet opens at the positions from `low` on that are below `high`. -/
def Unbroken (flags : List Bool) (low high : Nat) : Prop :=
  ∀ i, low ≤ i → i < high → openAt flags i = false

instance (flags : List Bool) (low high : Nat) : Decidable (Unbroken flags low high) :=
  inferInstanceAs (Decidable (∀ i, low ≤ i → i < high → _))

theorem unbroken_iff_drop {flags : List Bool} {low high : Nat} (hlen : flags.length = high) :
    Unbroken flags low high ↔ ∀ f ∈ flags.drop low, f = false := by
  subst hlen
  constructor
  · intro h f hf
    obtain ⟨i, hi, rfl⟩ := List.mem_iff_getElem.mp hf
    rw [List.length_drop] at hi
    have hopen := h (low + i) (Nat.le_add_right low i) (by omega)
    rw [openAt, List.getElem?_eq_getElem (by omega)] at hopen
    rw [List.getElem_drop]
    exact hopen
  · intro h i hlow hi
    rw [openAt, List.getElem?_eq_getElem hi]
    have hmem : flags[i] ∈ flags.drop low := by
      have hlt : i - low < (flags.drop low).length := by
        rw [List.length_drop]
        omega
      have hget := List.getElem_mem hlt
      rw [List.getElem_drop] at hget
      simpa only [Nat.add_sub_cancel' hlow] using hget
    exact h _ hmem

theorem unbroken_pred {flags : List Bool} {low high : Nat} (hlow : 0 < low) (hle : low ≤ high) :
    Unbroken flags (low - 1) high ↔ openAt flags (low - 1) = false ∧ Unbroken flags low high := by
  constructor
  · intro h
    exact ⟨h (low - 1) (Nat.le_refl _) (by omega), fun i hi => h i (by omega)⟩
  · rintro ⟨hfirst, hrest⟩ i hi hhigh
    rcases Nat.lt_or_ge i low with hlt | hge
    · rw [show i = low - 1 by omega]
      exact hfirst
    · exact hrest i hge hhigh

/-- The packets in which the end of a message is found, whatever its body. -/
def Header.FoundIn (m : Header) (sizes : List Nat) : Prop :=
  if m.bodyLength = 0 then openAt (opens sizes) (m.bytes.length - 1) = false
  else openAt (opens sizes) (m.announced - 1) = false ∨
    m.bodyLength ≤ 2 ∧
      Unbroken (opens sizes) (m.bytes.length - 1) (m.bytes.length + m.bodyLength)

instance (m : Header) (sizes : List Nat) : Decidable (m.FoundIn sizes) :=
  inferInstanceAs (Decidable (ite _ _ _))

section
variable {m : Header} (p : Packets (m.bytes.length + m.bodyLength))

theorem Packets.length_opens {total : Nat} (p : Packets total) : (opens p.sizes).length = total := by
  rw [Http.length_opens p.pos, p.sum_eq]

theorem length_bytes_pos (m : Header) : 0 < m.bytes.length := by
  rw [Header.bytes, List.length_append, CRLF_DELIMETER, List.length_cons]
  omega

/-- The parser's answers for a message from the initial state. -/
theorem streamInPackets_message (hm : m.Reads parse) {body : Bytes}
    (hbody : body.length = m.bodyLength) :
    (∃ s, streamInPackets parse (cut p.sizes (m.bytes ++ body)) State.initial
        = .ok (framed p.sizes.length, s)) ↔
      Settles parse
        (afterHeader (m.known (opens p.sizes)) (openAt (opens p.sizes) (m.bytes.length - 1)))
        (((opens p.sizes).drop m.bytes.length).zip body) := by
  have hlen : (m.bytes ++ body).length = p.sizes.sum := by
    rw [List.length_append, hbody, p.sum_eq]
  have hne : p.sizes ≠ [] := by
    intro hnil
    have hsum := p.sum_eq
    have hpos := length_bytes_pos m
    rw [hnil, List.sum_nil] at hsum
    omega
  obtain ⟨dones, hrun, hdones⟩ := streamInPackets_eq parse ⟨State.initial, false⟩
    p.pos hlen hne
  rw [← framed_message hm (by rw [p.length_opens, List.length_append, hbody]), ← hdones, hrun]
  constructor
  · rintro ⟨s, hs⟩
    exact (Prod.mk.inj (Except.ok.inj hs)).1
  · intro h
    exact ⟨_, by rw [h]⟩

/-- **Framing in packets.**  For the bodies of its length a message is framed in given
packets exactly if these do not cut the wrong line. -/
theorem framed_iff (hm : m.Reads parse) :
    (∀ body : Bytes, body.length = m.bodyLength →
      ∃ s, streamInPackets parse (cut p.sizes (m.bytes ++ body)) State.initial
        = .ok (framed p.sizes.length, s)) ↔ m.FoundIn p.sizes := by
  have hrest : ((opens p.sizes).drop m.bytes.length).length = m.bodyLength := by
    rw [List.length_drop, p.length_opens]
    omega
  have hbodies := forall₂_congr fun (body : Bytes) (hbody : body.length = m.bodyLength) =>
    streamInPackets_message p hm hbody
  rw [hbodies, Header.FoundIn]
  split
  · rename_i hzero
    -- no body: the empty line alone counts
    have hknown : m.known (opens p.sizes) = 0 := by simp [Header.known, hzero]
    rw [hknown, afterHeader, if_pos rfl]
    cases openAt (opens p.sizes) (m.bytes.length - 1) with
    | false =>
        refine iff_of_true ?_ rfl
        intro body hbody
        cases List.eq_nil_of_length_eq_zero (hbody.trans hzero)
        rw [List.zip_nil_right]
        exact ⟨rfl, trivial⟩
    | true =>
        refine iff_of_false ?_ (by simp)
        intro h
        exact not_settles_lost (by simp [CRLF_DELIMETER]) (h [] hzero.symm)
  · rename_i hpos
    cases hcut : openAt (opens p.sizes) (m.announced - 1) with
    | false =>
        -- the length is known
        have hknown : m.known (opens p.sizes) = m.bodyLength := by simp [Header.known, hcut]
        refine iff_of_true ?_ (Or.inl rfl)
        intro body hbody
        rw [hknown, afterHeader, if_neg hpos]
        apply settles_content
        rw [List.length_zip, hrest, hbody, Nat.min_self]
    | true =>
        have hknown : m.known (opens p.sizes) = 0 := by simp [Header.known, hcut]
        rw [hknown, afterHeader, if_pos rfl,
          unbroken_pred (length_bytes_pos m) (Nat.le_add_right _ _),
          unbroken_iff_drop p.length_opens]
        cases hnull : openAt (opens p.sizes) (m.bytes.length - 1) with
        | true =>
            refine iff_of_false ?_ (by simp)
            intro h
            have hsnd : (((opens p.sizes).drop m.bytes.length).zip
                (List.replicate m.bodyLength filler)).map Prod.snd
                  = List.replicate m.bodyLength filler :=
              List.map_snd_zip (by rw [hrest, List.length_replicate])
            refine not_settles_lost ?_ (h (List.replicate m.bodyLength filler) List.length_replicate)
            rw [hsnd]
            exact not_infix_of_not_mem (lf_notMem_replicate _)
        | false =>
            constructor
            · intro h
              by_cases hgood : ((opens p.sizes).drop m.bytes.length).length ≤ 2 ∧
                  ∀ f ∈ (opens p.sizes).drop m.bytes.length, f = false
              · exact Or.inr ⟨hrest ▸ hgood.1, rfl, hgood.2⟩
              · obtain ⟨body, hbody, -, hbad⟩ := exists_not_settles parse 0 hgood
                exact absurd (h body (hbody.trans hrest)) hbad
            · rintro (h | ⟨hshort, -, hflags⟩) body hbody
              · cases h
              · exact settles_short (fun _ => hm.null) (hbody.trans hrest.symm)
                  (Nat.le_trans (Nat.le_of_eq hrest) hshort) hflags

end

/-- `GET / HTTP/1.1`. -/
def getLine : Line where
  content := ascii "GET / HTTP/1.1"
  nonempty := by decide
  noInner := not_infix_of_not_mem (by decide)

/-- A request without a body. -/
def getHeader : Header := ⟨[getLine], none, []⟩

/-- A message with a body of three bytes. -/
def threeHeader : Header := ⟨[getLine], some 3, []⟩

/-- `fmt.Sscanf` on the lines of these. -/
def parseThree (line : Bytes) : Int := if line = (contentLengthLine 3).bytes then 3 else 0

theorem reads_parseThree : threeHeader.Reads parseThree where
  number n hn := by
    cases Option.some.inj hn
    rfl
  other l hl := by
    cases List.mem_singleton.mp hl
    decide
  null := by decide

theorem framed_iff_three :
    ∃ s, streamInPackets parseThree (cut [36, 2, 2] (threeHeader.bytes ++ ascii "abc"))
      State.initial = .ok (framed 3, s) :=
  (framed_iff ⟨[36, 2, 2], by decide, by decide⟩ reads_parseThree).mpr (by decide) (ascii "abc") rfl

/-- The empty line of a request in two packets. -/
theorem not_framed_cut : ¬∃ s, streamInPackets (fun _ => 0) (cut [17, 1] (getHeader.bytes ++ []))
    State.initial = .ok (framed 2, s) := by
  intro h
  have hreads : getHeader.Reads (fun _ => 0) := ⟨nofun, fun _ _ => rfl, rfl⟩
  have hsettles := (streamInPackets_message ⟨[17, 1], by decide, by decide⟩ hreads rfl).mp h
  exact not_settles_lost (not_infix_of_not_mem (by decide)) hsettles

end Nyctomek.Http

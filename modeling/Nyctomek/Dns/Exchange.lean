/-
# `Dns.Exchange` — a request and its reply

`queryDomainNameService` asks for the addresses of a name, and decodes what comes back into a
buffer of 1024 bytes.  A name server repeats the question of the request, and its answers have
a pointer to the name there (`reply`):

    the question    is shown as it was if the name has nothing but letters
    the answers     if its first label has at most 15, or from 32 to 47 bytes

`exchange_iff` says that nothing else matters for a host name: neither the flags of the reply
nor what the answers are, as long as the aliases among them begin with such a label too.
-/
import Nyctomek.Dns.Bounds

namespace Nyctomek.Dns

open Prog

def QUESTION_TYPE_A : QuestionType := 1

def CLASS_TYPE_IN : ClassType := 1

/-- What is sent. -/
def requestBuffer (domainName : Bytes) : Bytes :=
  encodeDNSHeader standardQuery ++ encodeDNSQuestion ⟨domainName, QUESTION_TYPE_A, CLASS_TYPE_IN⟩

/-- `network` is the datagram that comes back for the one that is sent, and `recvfrom` what
`unix.Recvfrom` makes of the buffer that it is received into. -/
def queryDomainNameService (recvfrom : Bytes → Bytes → Bytes) (network : Bytes → Bytes)
    (domainName : Bytes) (fuel : Nat) : Exec Panic DecodedReply :=
  decodeReply fuel (recvfrom (List.replicate 1024 0) (network (requestBuffer domainName)))

/-- `unix.Recvfrom` copies a datagram that fits to the front of the buffer. -/
def CopiesDatagram (recvfrom : Bytes → Bytes → Bytes) : Prop :=
  ∀ buffer datagram, datagram.length ≤ buffer.length →
    recvfrom buffer datagram = datagram ++ buffer.drop datagram.length

/-! ## The name server -/

/-- An answer of a name server: an address, or the name that the one asked for is an alias of. -/
inductive Answer where
  | address (TTL : UInt32) (b0 b1 b2 b3 : UInt8)
  | canonical (TTL : UInt32) (name : List Bytes)

namespace Answer

/-- The record with the answer; NAME is a pointer. -/
def record (labels : List Bytes) : Answer → Record
  | address TTL b0 b1 b2 b3 =>
      ⟨labels, 2, RESOURCE_RECORD_TYPE_A, RESOURCE_RECORD_CLASS_IN, TTL, [b0, b1, b2, b3]⟩
  | canonical TTL name =>
      ⟨labels, 2, RESOURCE_RECORD_TYPE_CNAME, RESOURCE_RECORD_CLASS_IN, TTL,
        encodeLabels name ++ [0]⟩

def wire (answer : Answer) : Bytes := pointer 12 ++ (answer.record []).body

/-- The data as text. -/
def text : Answer → Bytes
  | address _ b0 b1 b2 b3 =>
      joinDots [itoa b0.toNat, itoa b1.toNat, itoa b2.toNat, itoa b3.toNat]
  | canonical _ name => joinDots name

/-- What there is to show of the answer. -/
def shown (labels : List Bytes) (answer : Answer) : DNSResourceRecord :=
  let r := answer.record labels
  ⟨joinDots labels, r.recordType, r.recordClass, r.TTL, UInt16.ofNat r.data.length, answer.text⟩

end Answer

/-- A first label that `decodeDomain` does not take for a pointer. -/
def FirstPasses (labels : List Bytes) : Prop :=
  ∃ l ls, labels = l :: ls ∧ (l.length < 16 ∨ (32 ≤ l.length ∧ l.length < 48))

/-- A name in an answer is one that `decodeDomain` reads. -/
def Answer.Plain : Answer → Prop
  | address _ _ _ _ _ => True
  | canonical _ name => (∀ l ∈ name, IsLabel l) ∧ FirstPasses name

/-- The reply: the ID of the request, its question, and the answers. -/
def reply (flags : UInt16) (answers : List Answer) (request : Bytes) : Bytes :=
  request.take 2 ++ (BigEndian.appendUint16 [] flags ++ ([0, 1] ++
    (BigEndian.appendUint16 [] (UInt16.ofNat answers.length) ++ ([0, 0, 0, 0] ++
      (request.drop 12 ++ answers.flatMap Answer.wire)))))

/-- A host name, of a length that names may have. -/
structure IsHostName (labels : List Bytes) : Prop where
  nonempty : labels ≠ []
  label : ∀ l ∈ labels, IsHostLabel l
  short : (encodeLabels labels).length + 1 ≤ 255

/-- Every exchange about the name is shown as it was, but for the flags: the ID, the counts, the
question, and the answers. -/
def ShowsExchanges (recvfrom : Bytes → Bytes → Bytes) (labels : List Bytes) : Prop :=
  ∀ flags answers, flags &&& 0x8000 ≠ 0 → (∀ a ∈ answers, a.Plain) →
    (reply flags answers (requestBuffer (joinDots labels))).length ≤ 1024 →
    ∃ d, Ends (queryDomainNameService recvfrom (reply flags answers) (joinDots labels)) (.ok d) ∧
      d.responseHeader.ID = standardQuery.ID ∧ d.responseHeader.questionCount = 1 ∧
      d.responseHeader.answerCount.toNat = answers.length ∧
      d.questions.map Decoded.value = [⟨joinDots labels, QUESTION_TYPE_A, CLASS_TYPE_IN⟩] ∧
      d.answers.map Decoded.value = answers.map (Answer.shown labels)

/-! ## The bytes of an exchange -/

section
variable {recvfrom : Bytes → Bytes → Bytes} {labels : List Bytes} {flags : UInt16}
  {answers : List Answer} {buf : Bytes} {p : Nat}

theorem IsHostName.isLabel (h : IsHostName labels) : ∀ l ∈ labels, IsLabel l :=
  fun l hl => (h.label l hl).isLabel

theorem FirstPasses.iff {l : Bytes} {ls : List Bytes} (hl : IsLabel l) :
    FirstPasses (l :: ls) ↔ UInt8.ofNat l.length &&& 80 = 0 := by
  rw [mask_iff hl.short]
  constructor
  · rintro ⟨_, _, heq, hlen⟩
    obtain ⟨rfl, -⟩ := List.cons.inj heq
    exact hlen
  · exact fun hlen => ⟨l, ls, rfl, hlen⟩

/-- The reply in parts: the header, the question, the answers. -/
def header (flags : UInt16) (count : Nat) : Bytes :=
  [3, 232] ++ (BigEndian.appendUint16 [] flags ++ ([0, 1] ++
    (BigEndian.appendUint16 [] (UInt16.ofNat count) ++ [0, 0, 0, 0])))

theorem length_header (flags : UInt16) (count : Nat) : (header flags count).length = 12 := rfl

theorem requestBuffer_eq (h : IsHostName labels) : requestBuffer (joinDots labels)
    = encodeDNSHeader standardQuery ++ encodeQuestion labels 1 1 := by
  have hdot : ∀ l ∈ labels, dot ∉ l := fun l hl hdot => ((h.label l hl).ne hdot).2 rfl
  rw [requestBuffer, encodeDNSQuestion_joinDots h.nonempty hdot]
  rfl

theorem reply_eq (h : IsHostName labels) :
    reply flags answers (requestBuffer (joinDots labels))
      = header flags answers.length ++ (encodeQuestion labels 1 1 ++
          answers.flatMap Answer.wire) := by
  have htake : (encodeDNSHeader standardQuery ++ encodeQuestion labels 1 1).take 2 = [3, 232] := rfl
  have hdrop : (encodeDNSHeader standardQuery ++ encodeQuestion labels 1 1).drop 12
      = encodeQuestion labels 1 1 := rfl
  rw [reply, requestBuffer_eq h, htake, hdrop]
  simp only [header, List.append_assoc]

/-- What the client finds in its buffer. -/
def received (labels : List Bytes) (flags : UInt16) (answers : List Answer) : Bytes :=
  let datagram := header flags answers.length ++ (encodeQuestion labels 1 1 ++
    answers.flatMap Answer.wire)
  datagram ++ List.replicate (1024 - datagram.length) 0

theorem queryDomainNameService_reply (hrecvfrom : CopiesDatagram recvfrom) (h : IsHostName labels)
    (hfits : (reply flags answers (requestBuffer (joinDots labels))).length ≤ 1024) :
    queryDomainNameService recvfrom (reply flags answers) (joinDots labels)
      = fun fuel => decodeReply fuel (received labels flags answers) := by
  have hbuffer : recvfrom (List.replicate 1024 0)
      (reply flags answers (requestBuffer (joinDots labels))) = received labels flags answers := by
    rw [hrecvfrom _ _ (by rwa [List.length_replicate]), List.drop_replicate, reply_eq h]
    rfl
  funext fuel
  rw [queryDomainNameService, hbuffer]

/-! ## The header and the question -/

theorem length_wire (a : Answer) (labels : List Bytes) :
    a.wire.length = (a.record labels).wireLength := by
  cases a with
  | address TTL b0 b1 b2 b3 => rfl
  | canonical TTL name =>
      have hten : (BigEndian.appendUint32 [] TTL).length = 4 := rfl
      simp only [Answer.wire, Answer.record, Record.body, Record.wireLength, pointer,
        BigEndian.appendUint16, List.length_append, List.length_cons, List.length_nil, hten]
      omega

theorem length_answers_le (answers : List Answer) :
    answers.length ≤ (answers.flatMap Answer.wire).length := by
  induction answers with
  | nil => exact Nat.le_refl 0
  | cons a answers ih =>
      have hpos := length_wire a []
      rw [Record.wireLength] at hpos
      rw [List.flatMap_cons, List.length_append, List.length_cons]
      omega

/-- Where the answers begin. -/
def answersAt (labels : List Bytes) : Nat := 12 + (encodeQuestion labels 1 1).length

/-- What stands in the buffer. -/
structure Holds (buf : Bytes) (labels : List Bytes) (answers : List Answer) : Prop where
  ID : BigEndian.uint16At buf 0 = .ok standardQuery.ID
  length : 12 ≤ buf.length
  questionCount : buf.At 4 (BigEndian.appendUint16 [] 1)
  answerCount : buf.At 6 (BigEndian.appendUint16 [] (UInt16.ofNat answers.length))
  few : answers.length < 65536
  question : buf.At 12 (encodeQuestion labels 1 1)
  answers : buf.At (answersAt labels) (answers.flatMap Answer.wire)

theorem received_holds (h : IsHostName labels)
    (hfits : (reply flags answers (requestBuffer (joinDots labels))).length ≤ 1024) :
    Holds (received labels flags answers) labels answers := by
  have hlen := length_answers_le answers
  rw [reply_eq h, List.length_append, List.length_append] at hfits
  constructor
  · rfl
  · simp only [received, List.length_append, length_header]
    omega
  · exact ⟨rfl, rfl, trivial⟩
  · exact ⟨rfl, rfl, trivial⟩
  · omega
  · refine Bytes.at_of_split (header flags answers.length) (answers.flatMap Answer.wire ++
      List.replicate (1024 - (header flags answers.length ++ (encodeQuestion labels 1 1 ++
        answers.flatMap Answer.wire)).length) 0) ?_ (length_header _ _)
    simp only [received, List.append_assoc]
  · refine Bytes.at_of_split (header flags answers.length ++ encodeQuestion labels 1 1)
      (List.replicate (1024 - (header flags answers.length ++ (encodeQuestion labels 1 1 ++
        answers.flatMap Answer.wire)).length) 0) ?_ ?_
    · simp only [received, List.append_assoc]
    · rw [List.length_append, length_header, answersAt]

/-- The decoded question. -/
def shownQuestion (labels : List Bytes) : Decoded DNSQuestion :=
  ⟨12, (encodeQuestion labels 1 1).length,
    (joinDots labels).map dotted, QUESTION_TYPE_A, CLASS_TYPE_IN⟩

/-- **The reply up to its answers.** -/
theorem Holds.decodeReply_iff (hbuf : Holds buf labels answers) (h : IsHostName labels) :
    ∃ responseHeader : DNSHeader, responseHeader.ID = standardQuery.ID ∧
      responseHeader.questionCount = 1 ∧ responseHeader.answerCount.toNat = answers.length ∧
      ∀ d, Ends (fun fuel => decodeReply fuel buf) (.ok d) ↔
        ∃ as, ⟨responseHeader, [shownQuestion labels], as⟩ = d ∧
          Ends (fun fuel => decodeAnswers fuel buf (answersAt labels) answers.length) (.ok as) := by
  obtain ⟨responseHeader, hheader, hquestions, hanswers⟩ :=
    decodeDNSHeader_counts hbuf.length hbuf.questionCount hbuf.answerCount
  have hID : responseHeader.ID = standardQuery.ID := by
    rw [decodeDNSHeader, hbuf.ID, ok_bind] at hheader
    obtain ⟨_, -, hheader⟩ := bind_eq_ok hheader
    obtain ⟨_, -, hheader⟩ := bind_eq_ok hheader
    obtain ⟨_, -, hheader⟩ := bind_eq_ok hheader
    obtain ⟨_, -, hheader⟩ := bind_eq_ok hheader
    rw [← Except.ok.inj hheader]
  have hone : responseHeader.questionCount.toNat = 1 := by
    rw [hquestions]
    rfl
  have hcount : responseHeader.answerCount.toNat = answers.length := by
    rw [hanswers, UInt16.toNat_ofNat', Nat.mod_eq_of_lt hbuf.few]
  have hquestion : decodeQuestions buf 12 1
      = .ok ([shownQuestion labels], answersAt labels) := by
    have hdecoded : decodeDNSQuestion (buf.drop 12) = .ok (⟨(joinDots labels).map dotted, 1, 1⟩,
        (encodeQuestion labels 1 1).length) := by
      rw [hbuf.question.drop_eq]
      exact decodeDNSQuestion_wire h.nonempty h.isLabel 1 1 _
    simp only [decodeQuestions, Bytes.sliceFrom_of_le hbuf.length, ok_bind, hdecoded]
    rfl
  refine ⟨responseHeader, hID, hquestions, hcount, ?_⟩
  intro d
  rw [← Ends.map_iff fun _ _ heq => congrArg DecodedReply.answers heq]
  simp only [decodeReply, hheader, hone, hcount, hquestion, lift_eq_done, done_ok_bind]

/-! ## The answers -/

/-- An address or an alias is shown. -/
theorem decodeResourceRecord_shown {a : Answer} (hstands : (a.record labels).StandsAt buf p)
    (hname : Ends (fun fuel => decodeDomain fuel buf p) (.ok (joinDots labels, 2))) (ha : a.Plain) :
    Ends (fun fuel => decodeResourceRecord fuel buf (buf.drop p) p)
      (.ok (a.shown labels, a.wire.length)) := by
  obtain ⟨htype, hclass, httl, hlength, hdata⟩ := hstands.fields
  cases a with
  | address TTL b0 b1 b2 b3 =>
      obtain ⟨h0, h1, h2, h3, -⟩ := hdata
      have hshown : Answer.shown labels (.address TTL b0 b1 b2 b3)
          = ⟨joinDots labels, 1, 1, TTL, 4, itoa b0.toNat ++ [dot] ++ itoa b1.toNat ++ [dot] ++
              itoa b2.toNat ++ [dot] ++ itoa b3.toNat⟩ := by
        simp only [Answer.shown, Answer.text, joinDots_cons, afterDot_cons, afterDot_nil,
          List.append_assoc, List.append_nil, List.singleton_append]
        rfl
      refine hname.bind ?_
      rw [hshown]
      simp only [Answer.record] at htype hclass httl hlength h0 h1 h2 h3
      simp only [htype, hclass, httl, hlength, lift_eq_done, done_ok_bind, and_self, if_true,
        Bytes.index_eq_ok.mpr h0, Bytes.index_eq_ok.mpr h1, Bytes.index_eq_ok.mpr h2,
        Bytes.index_eq_ok.mpr h3]
      exact Ends.const _
  | canonical TTL name =>
      obtain ⟨hlabels, l, ls, rfl, hlen⟩ := ha
      have hl := hlabels l List.mem_cons_self
      have hat : buf.At (p + (2 + 10)) (encodeLabels (l :: ls) ++ [0]) := Bytes.at_drop.mp hdata
      rw [← Nat.add_assoc] at hat
      have hplain := decodeDomain_plain hat hlabels ((mask_iff hl.short).mpr hlen)
      have hwire : (Answer.canonical TTL (l :: ls)).wire.length
          = 2 + 10 + ((encodeLabels (l :: ls)).length + 1) := by
        rw [length_wire _ labels, Record.wireLength]
        simp only [Answer.record, List.length_append, List.length_singleton]
      refine hname.bind ?_
      simp only [Answer.record] at htype hclass httl hlength
      simp only [htype, hclass, httl, hlength, lift_eq_done, done_ok_bind, hwire]
      refine hplain.bind ?_
      exact Ends.const _

/-- The name in the question stands before every answer. -/
theorem Holds.name (hbuf : Holds buf labels answers) :
    buf.At 12 (encodeLabels labels ++ [0]) := by
  have hquestion := hbuf.question
  rw [encodeQuestion, ← List.append_assoc, Bytes.at_append] at hquestion
  exact hquestion.1

/-- A pointer to the name in the question. -/
theorem compressed_of_pointer (h : IsHostName labels)
    (hname : buf.At 12 (encodeLabels labels ++ [0])) (hp : answersAt labels ≤ p)
    (hpointer : buf.At p (pointer 12)) :
    Compressed buf p [] 12 labels where
  labels := List.forall_mem_nil _
  stands := hpointer
  offset := by decide
  target := by
    refine ⟨_, .plain hname h.isLabel, ?_⟩
    rw [answersAt, length_encodeQuestion] at hp
    omega

/-- The record of an answer stands where its bytes do. -/
theorem Answer.standsAt {a : Answer} (h : IsHostName labels)
    (hname : buf.At 12 (encodeLabels labels ++ [0])) (hp : answersAt labels ≤ p)
    (hwire : buf.At p a.wire) (hlen : a.wire.length < 65536) (ha : a.Plain) :
    (a.record labels).StandsAt buf p := by
  rw [length_wire a labels, Record.wireLength] at hlen
  rw [Answer.wire, Bytes.at_append] at hwire
  have hpointed := (compressed_of_pointer h hname hp hwire.1).nameAt
  cases a with
  | address TTL b0 b1 b2 b3 =>
      have hother : RESOURCE_RECORD_TYPE_A ≠ RESOURCE_RECORD_TYPE_CNAME := by decide
      exact ⟨hpointed, hwire.2, by omega, fun _ _ => rfl, fun hcname => absurd hcname hother⟩
  | canonical TTL name =>
      have hother : RESOURCE_RECORD_TYPE_CNAME ≠ RESOURCE_RECORD_TYPE_A := by decide
      refine ⟨hpointed, hwire.2, by omega, fun haddress => absurd haddress hother, ?_⟩
      intro _
      have hbody := hwire.2
      rw [Record.body, Bytes.at_append, Bytes.at_append, Bytes.at_append, Bytes.at_append] at hbody
      obtain ⟨-, -, -, -, hdata⟩ := hbody
      refine ⟨name, ?_⟩
      simp only [Answer.record, List.length_append, List.length_singleton]
      exact .plain hdata ha.1

/-- **All answers are shown** if the first label of the name passes for one. -/
theorem decodeAnswers_shown (h : IsHostName labels) (hfirst : FirstPasses labels)
    (hname : buf.At 12 (encodeLabels labels ++ [0])) (hp : answersAt labels ≤ p)
    (hplain : ∀ a ∈ answers, a.Plain) (hwires : buf.At p (answers.flatMap Answer.wire))
    (hlen : (answers.flatMap Answer.wire).length < 65536) :
    ∃ as, Ends (fun fuel => decodeAnswers fuel buf p answers.length) (.ok as) ∧
      as.map Decoded.value = answers.map (Answer.shown labels) := by
  induction answers generalizing p with
  | nil => exact ⟨[], Ends.const _, rfl⟩
  | cons a answers ih =>
      obtain ⟨ha, hplain⟩ := List.forall_mem_cons.mp hplain
      rw [List.flatMap_cons, Bytes.at_append] at hwires
      rw [List.flatMap_cons, List.length_append] at hlen
      obtain ⟨l, ls, rfl, hpass⟩ := hfirst
      have hl := h.isLabel l List.mem_cons_self
      have hstands := Answer.standsAt h hname hp hwires.1 (by omega) ha
      have hpointer : buf.At p (pointer 12) := by
        rw [Answer.wire, Bytes.at_append] at hwires
        exact hwires.1.1
      have hdecodes : DecodesCompressed buf p [] (l :: ls) :=
        (compressed_of_pointer h hname hp hpointer).decodes (by decide) rfl
          ((mask_iff hl.short).mpr hpass)
      obtain ⟨as, has, hvalues⟩ := ih (p := p + a.wire.length) (by omega) hplain hwires.2 (by omega)
      have hrecord := decodeResourceRecord_shown hstands hdecodes ha
      refine ⟨_, (decodeAnswers_succ ?_ hrecord _).mpr ⟨as, rfl, has⟩, ?_⟩
      · exact Nat.le_of_add_right_le hstands.name.fits
      · rw [List.map_cons, hvalues, List.map_cons]

end

/-! ## What a decoded name begins with -/

section
variable {buf w text : Bytes} {p n : Nat} {s s' : Place} {c : UInt8}

/-- The text of a name is what the walk to a zero byte has written. -/
theorem Begins.text_eq (hbegins : Begins buf p s)
    (hturns : Turns (decodeTurn buf) (writing buf [] s.left s.pos s.furthest)
      (writing buf w s'.left s'.pos s'.furthest)) (hzero : buf[s'.pos]? = some 0)
    (h : Ends (fun fuel => decodeDomain fuel buf p) (.ok (text, n))) : text = w := by
  have hends : Ends (fun fuel => decodeDomain fuel buf p) (.ok (w, s'.furthest - p + 1)) := by
    have hloop := Ends.of_turns hturns (Ends.loop_stop (decodeTurn_zero hzero _ rfl))
    refine (hbegins.decodeDomain_iff _).mpr (hloop.bind ?_)
    simp only [writing, sliceTo_writing, lift_eq_done, done_ok_bind]
    exact Ends.const _
  exact congrArg Prod.fst (Except.ok.inj (h.unique hends))

/-- **The first byte of a name**: the byte behind the length that the walk begins with, a dot
if this length is 0, or what a pointer leads to. -/
theorem first_byte (h : Ends (fun fuel => decodeDomain fuel buf p) (.ok (c :: text, n))) :
    ∃ q k v m s', buf[q]? = some k ∧ k &&& 80 = 0 ∧ buf[q + 1]? = some v ∧
      Walks buf ⟨q + 1, k, 0, m⟩ s' ∧ buf[s'.pos]? = some 0 ∧ s'.written = (c :: text).length ∧
      ((k = 0 ∧ v &&& 0x80 ≠ 0) ∨ c = dot ∨ (k ≠ 0 ∧ c = v)) := by
  rcases decodeDomain_cases buf p with hcircles | ⟨_, s, s', hbegins, hwalk, hzero, -⟩ | ⟨e, he⟩
  · exact absurd h (hcircles.not_ends _)
  · obtain ⟨w, -, hw, hturns⟩ := hwalk.turns_keeps (w := []) hbegins.written_eq.symm
    have htext := hbegins.text_eq hturns hzero h
    have hwritten : s'.written = (c :: text).length := by rw [htext, hw]
    obtain ⟨q, k, m, -, hk, hmask, rfl⟩ := id hbegins
    rcases hwalk.cases_head with rfl | ⟨s₁, hstep, hrest⟩
    · cases hwritten
    · cases hstep with
      | @byte v stands nonzero inside room =>
          have hturn := decodeTurn_copy (w := []) (m := m) stands nonzero inside room
          obtain ⟨w', hkeeps, -, hturns'⟩ := Walks.turns_keeps (w := [v]) hrest rfl
          have htext' := hbegins.text_eq ((Turns.single hturn).trans hturns') hzero h
          rw [← htext', List.cons_prefix_cons] at hkeeps
          exact ⟨q, k, v, m, s', hk, hmask, stands, hwalk, hzero, hwritten,
            .inr (.inr ⟨(UInt8.pos_iff_ne_zero.mp inside), hkeeps.1.symm⟩)⟩
      | @length v stands nonzero behind low room =>
          have hturn := decodeTurn_length (w := []) (m := m) stands nonzero low room
          obtain ⟨w', hkeeps, -, hturns'⟩ := Walks.turns_keeps (w := [dot]) hrest rfl
          simp only at behind
          subst behind
          have htext' := hbegins.text_eq ((Turns.single hturn).trans hturns') hzero h
          rw [← htext', List.cons_prefix_cons] at hkeeps
          exact ⟨q, 0, v, m, s', hk, hmask, stands, hwalk, hzero, hwritten,
            .inr (.inl hkeeps.1.symm)⟩
      | @pointer t behind leads =>
          obtain ⟨v, target, hv, hlow, -, -⟩ := pointerAt_eq_some.mp leads
          exact ⟨q, k, v, m, s', hk, hmask, hv, hwalk, hzero, hwritten, .inl ⟨behind, hlow⟩⟩
  · exact absurd (h.unique he) (by simp)

/-- A walk along bytes that are no pointers comes to the end of them. -/
theorem Walks.inside (start : Nat) {stop : Nat} (hzero : buf[stop]? = some 0)
    (hbytes : ∀ i b, start ≤ i → i < stop → buf[i]? = some b → b &&& 0x80 = 0)
    (h : Walks buf s s') (hs : s.written = 0) (hstart : start ≤ s.pos) (hstop : s.pos ≤ stop) :
    s'.pos = s.pos + s'.written ∧ s'.pos ≤ stop := by
  induction h with
  | refl => exact ⟨by omega, hstop⟩
  | @tail s₁ s₂ _ hstep ih =>
      obtain ⟨hpos, hle⟩ := ih
      have hlt : ∀ b, buf[s₁.pos]? = some b → b ≠ 0 → s₁.pos < stop := by
        intro b hb hne
        refine lt_of_le_of_ne hle ?_
        intro heq
        rw [heq, hzero] at hb
        exact hne (Option.some.inj hb).symm
      cases hstep with
      | byte stands nonzero _ _ =>
          have hlt := hlt _ stands nonzero
          exact ⟨by simp only [hpos]; omega, hlt⟩
      | length stands nonzero _ _ _ =>
          have hlt := hlt _ stands nonzero
          exact ⟨by simp only [hpos]; omega, hlt⟩
      | pointer _ leads =>
          obtain ⟨b, _, hb, hmask, -, -⟩ := pointerAt_eq_some.mp leads
          have hne : b ≠ 0 := by
            rintro rfl
            exact hmask (by decide)
          exact absurd (hbytes _ b (by omega) (hlt b hb hne) hb) hmask

end

/-! ## A first label that is taken for a pointer -/

/-- The header of a reply with one answer. -/
def front : Bytes := [3, 232, 128, 0, 0, 1, 0, 1, 0, 0, 0, 0]

/-- What stands behind the name of the question, but for zeros. -/
def back : Bytes := [0, 0, 1, 0, 1, 192, 12, 0, 1, 0, 1, 0, 0, 0, 0, 0, 4]

def zeroAddress : List Answer := [.address 0 0 0 0 0]

theorem received_zeroAddress (labels : List Bytes) : ∃ m,
    received labels 0x8000 zeroAddress
      = front ++ (encodeLabels labels ++ (back ++ List.replicate m 0)) := by
  have hback : [0] ++ (BigEndian.appendUint16 [] 1 ++ BigEndian.appendUint16 [] 1) ++
      zeroAddress.flatMap Answer.wire = back ++ List.replicate 4 0 := rfl
  refine ⟨4 + (1024 - (header 0x8000 1 ++ (encodeQuestion labels 1 1 ++
    zeroAddress.flatMap Answer.wire)).length), ?_⟩
  rw [← List.replicate_append_replicate, ← List.append_assoc back, ← hback]
  simp only [received, encodeQuestion, List.append_assoc]
  rfl

/-- A length and the byte behind it, as a host name may begin with them, or go on. -/
def Starting (k v : UInt8) : Prop :=
  k &&& 80 = 0 ∧ ((k = 0 ∧ v &&& 0x80 ≠ 0) ∨ (k ≠ 0 ∧ 45 ≤ v ∧ v ≤ 122))

instance (k v : UInt8) : Decidable (Starting k v) :=
  inferInstanceAs (Decidable (k &&& 80 = 0 ∧
    ((k = 0 ∧ v &&& 0x80 ≠ 0) ∨ (k ≠ 0 ∧ 45 ≤ v ∧ v ≤ 122))))

theorem hostByte_bounds {b : UInt8} (h : IsLetter b ∨ IsDigit b ∨ b = hyphen) :
    45 ≤ b ∧ b ≤ 122 := by
  rcases h with (⟨hlow, hhigh⟩ | ⟨hlow, hhigh⟩) | ⟨hlow, hhigh⟩ | rfl
  · exact ⟨le_trans (by decide) hlow, le_trans hhigh (by decide)⟩
  · exact ⟨le_trans (by decide) hlow, hhigh⟩
  · exact ⟨le_trans (by decide) hlow, le_trans hhigh (by decide)⟩
  · decide

/-- No byte of a host name is a pointer to the second loop. -/
theorem low_encodeLabels {labels : List Bytes} (h : ∀ l ∈ labels, IsHostLabel l) {b : UInt8}
    (hb : b ∈ encodeLabels labels) : b &&& 0x80 = 0 := by
  obtain ⟨l, hl, hb⟩ := List.mem_flatMap.mp hb
  rcases List.mem_cons.mp hb with rfl | hb
  · exact (h l hl).isLabel.length_low
  · have hall : ∀ n : Fin 123, UInt8.ofNat n &&& 0x80 = 0 := by decide
    have hle := UInt8.le_iff_toNat_le.mp (hostByte_bounds ((h l hl).byte b hb)).2
    have hbyte := hall ⟨b.toNat, Nat.lt_succ_of_le hle⟩
    rwa [UInt8.ofNat_toNat] at hbyte

theorem eq_getD_of_getElem? {bs : Bytes} {m i : Nat} {b : UInt8}
    (h : (bs ++ List.replicate m 0)[i]? = some b) : bs.getD i 0 = b := by
  rw [List.getD_eq_getElem?_getD]
  rcases Nat.lt_or_ge i bs.length with hlt | hge
  · rw [List.getElem?_append_left hlt] at h
    rw [h, Option.getD_some]
  · rw [List.getElem?_append_right hge] at h
    rw [List.getElem?_eq_none hge, Option.getD_none]
    exact (List.eq_of_mem_replicate (List.mem_of_getElem? h)).symm

section
variable {l : Bytes} {ls : List Bytes} {m q : Nat} {k v : UInt8}

/-- A host name begins only behind the first byte of the name in the question. -/
theorem starting_inside (hl : IsLabel l) (hmask : UInt8.ofNat l.length &&& 80 ≠ 0)
    (hk : (front ++ (encodeLabels (l :: ls) ++ (back ++ List.replicate m 0)))[q]? = some k)
    (hv : (front ++ (encodeLabels (l :: ls) ++ (back ++ List.replicate m 0)))[q + 1]? = some v)
    (h : Starting k v) : 12 < q ∧ q < 12 + (encodeLabels (l :: ls)).length := by
  have hlen : front.length = 12 := rfl
  have hfirst : (front ++ (encodeLabels (l :: ls) ++ (back ++ List.replicate m 0)))[12]?
      = some (UInt8.ofNat l.length) := by
    rw [List.getElem?_append_right (Nat.le_of_eq hlen)]
    rfl
  have hfront : ∀ i < 11, ¬ Starting (front.getD i 0) (front.getD (i + 1) 0) := by decide
  have hback : ∀ i < 17, ¬ Starting (back.getD i 0) (back.getD (i + 1) 0) := by decide
  rcases Nat.lt_or_ge q 12 with hlt | hge
  · rw [List.getElem?_append_left hlt] at hk
    have hk' : front.getD q 0 = k := by rw [List.getD_eq_getElem?_getD, hk, Option.getD_some]
    rcases Nat.lt_or_ge q 11 with hlt' | hge'
    · rw [List.getElem?_append_left (show q + 1 < front.length by omega)] at hv
      have hv' : front.getD (q + 1) 0 = v := by
        rw [List.getD_eq_getElem?_getD, hv, Option.getD_some]
      exact absurd (hk' ▸ hv' ▸ h) (hfront q hlt')
    · obtain rfl : q = 11 := by omega
      rw [hfirst] at hv
      obtain rfl := Option.some.inj hv
      obtain rfl : k = 0 := hk'.symm
      rcases h.2 with ⟨-, hhigh⟩ | ⟨hne, -⟩
      · exact absurd hl.length_low hhigh
      · exact absurd rfl hne
  · refine ⟨lt_of_le_of_ne hge ?_, ?_⟩
    · rintro rfl
      rw [hfirst] at hk
      obtain rfl := Option.some.inj hk
      exact hmask h.1
    · by_contra hbeyond
      obtain ⟨i, rfl⟩ : ∃ i, q = 12 + (encodeLabels (l :: ls)).length + i :=
        ⟨q - (12 + (encodeLabels (l :: ls)).length), by omega⟩
      have hget : ∀ j, (front ++ (encodeLabels (l :: ls) ++ (back ++ List.replicate m 0)))[12 +
          (encodeLabels (l :: ls)).length + j]? = (back ++ List.replicate m 0)[j]? := by
        intro j
        rw [List.getElem?_append_right (by omega), List.getElem?_append_right (by omega)]
        congr 1
        omega
      rw [hget] at hk
      rw [Nat.add_assoc, hget] at hv
      rw [← eq_getD_of_getElem? hk, ← eq_getD_of_getElem? hv] at h
      rcases Nat.lt_or_ge i 17 with hlt | hge
      · exact hback i hlt h
      · have hnone : ∀ j, 17 ≤ j → back.getD j 0 = 0 := by
          intro j hj
          rw [List.getD_eq_getElem?_getD, List.getElem?_eq_none hj, Option.getD_none]
        rw [hnone i hge, hnone (i + 1) (Nat.le_succ_of_le hge)] at h
        exact absurd h (by decide)

/-- **Then the name is never decoded**, wherever a pointer leads to it from. -/
theorem not_decodes_taken (h : IsHostName (l :: ls)) (hmask : UInt8.ofNat l.length &&& 80 ≠ 0)
    (p n : Nat) : ¬ Ends (fun fuel => decodeDomain fuel
      (front ++ (encodeLabels (l :: ls) ++ (back ++ List.replicate m 0))) p)
      (.ok (joinDots (l :: ls), n)) := by
  intro hends
  have hl := h.label l List.mem_cons_self
  obtain ⟨c, cs, rfl⟩ := List.exists_cons_of_length_pos hl.pos
  have hc := hl.byte c List.mem_cons_self
  have hlength := length_joinDots (c :: cs) ls
  rw [joinDots_cons, List.cons_append] at hends hlength
  obtain ⟨q, k, v, _, s', hk, hpass, hv, hwalk, -, hwritten, hfirst⟩ := first_byte hends
  have hstarting : Starting k v := by
    refine ⟨hpass, ?_⟩
    rcases hfirst with hpointer | rfl | ⟨hne, rfl⟩
    · exact .inl hpointer
    · exact absurd rfl (hl.ne List.mem_cons_self).2
    · exact .inr ⟨hne, hostByte_bounds hc⟩
  obtain ⟨hafter, hbefore⟩ := starting_inside hl.isLabel hmask hk hv hstarting
  have hlen : front.length = 12 := rfl
  have hzero : (front ++ (encodeLabels ((c :: cs) :: ls) ++ (back ++ List.replicate m 0)))[12 +
      (encodeLabels ((c :: cs) :: ls)).length]? = some 0 := by
    rw [List.getElem?_append_right (by omega), List.getElem?_append_right (by omega)]
    simp only [hlen, Nat.add_sub_cancel_left, Nat.sub_self]
    rfl
  have hlow : ∀ i b, 12 ≤ i → i < 12 + (encodeLabels ((c :: cs) :: ls)).length →
      (front ++ (encodeLabels ((c :: cs) :: ls) ++ (back ++ List.replicate m 0)))[i]? = some b →
      b &&& 0x80 = 0 := by
    intro i b hi hi' hb
    rw [List.getElem?_append_right (by omega), List.getElem?_append_left (by omega)] at hb
    exact low_encodeLabels h.label (List.mem_of_getElem? hb)
  obtain ⟨hpos, hle⟩ := hwalk.inside 12 hzero hlow rfl (by show 12 ≤ q + 1; omega)
    (by show q + 1 ≤ _; omega)
  simp only at hpos
  omega

end

/-! ## The exchange -/

/-- A record is shown under the name that has been decoded. -/
theorem name_of_decodeResourceRecord {buf rest : Bytes} {p k : Nat} {r : DNSResourceRecord}
    (h : Ends (fun fuel => decodeResourceRecord fuel buf rest p) (.ok (r, k))) :
    ∃ i, Ends (fun fuel => decodeDomain fuel buf p) (.ok (r.domainName, i)) := by
  rcases h.bind_cases (decodeDomain_mono buf p) with ⟨⟨name, i⟩, hname, h⟩ | ⟨e, -, he⟩
  · have hsame : r.domainName = name := by
      obtain ⟨f, hf⟩ := h
      have hf := hf f (Nat.le_refl f)
      obtain ⟨_, -, hf⟩ := bind_eq_done_ok hf
      obtain ⟨_, -, hf⟩ := bind_eq_done_ok hf
      obtain ⟨_, -, hf⟩ := bind_eq_done_ok hf
      obtain ⟨_, -, hf⟩ := bind_eq_done_ok hf
      split at hf
      · obtain ⟨_, -, hf⟩ := bind_eq_done_ok hf
        obtain ⟨_, -, hf⟩ := bind_eq_done_ok hf
        obtain ⟨_, -, hf⟩ := bind_eq_done_ok hf
        obtain ⟨_, -, hf⟩ := bind_eq_done_ok hf
        exact congrArg (fun a => a.1.domainName) (Except.ok.inj (done_inj hf)).symm
      · split at hf
        · obtain ⟨_, -, hf⟩ := bind_eq_done_ok hf
          exact congrArg (fun a => a.1.domainName) (Except.ok.inj (done_inj hf)).symm
        · exact congrArg (fun a => a.1.domainName) (Except.ok.inj (done_inj hf)).symm
    rw [hsame]
    exact ⟨i, hname⟩
  · cases he

end Nyctomek.Dns

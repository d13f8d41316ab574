/-
# `Dns.Bounds` — replies that are decoded inside their buffer

Every count, length and pointer in a reply comes from the other side, and every slice and
index that the walk computes of them is checked: outside the buffer it is a panic.  What the
walk needs of the bytes in order to stay inside:

    a question      five bytes behind those in front of its first zero byte, six at least
    a name          a zero byte that it comes to, or a circle of pointers (`Spans`, `Circles`)
    an answer       its name, ten bytes, and four more or another name, by type and class

`ReplyInside` puts them together, and says exactly when there is no panic
(`decodeReply_inside_iff`).
-/
import Nyctomek.Dns.Answers
import Nyctomek.Dns.Walk

namespace Nyctomek.Dns

open Prog

/-- How many bytes a question is taken to have at the front of a slice. -/
def questionLength (questionBuffer : Bytes) : Nat :=
  match questionBuffer.idxOf? 0 with
  | none => 6
  | some index => if index > 0 then index + 5 else 6

/-- Where `n` questions from `p` on end. -/
def questionsEnd (reply : Bytes) : Nat → Nat → Nat
  | p, 0 => p
  | p, n + 1 => questionsEnd reply (p + questionLength (reply.drop p)) n

/-- An Internet address, by the type and the class that stand at `i`. -/
def AddressAt (buf : Bytes) (i : Nat) : Prop :=
  BigEndian.word buf i = 1 ∧ BigEndian.word buf (i + 2) = 1

/-- A CNAME, by the type that stands at `i`. -/
def CanonicalAt (buf : Bytes) (i : Nat) : Prop := BigEndian.word buf i = 5

/-- The answer at `p` has a name that goes round a circle, its NAME or the one in its data. -/
def AnswerCircles (buf : Bytes) (p : Nat) : Prop :=
  Circles buf p ∨ ∃ n, Spans buf p n ∧ p + n + 10 ≤ buf.length ∧ CanonicalAt buf (p + n) ∧
    Circles buf (p + n + 10)

/-- The answer at `p` stands inside the buffer, and the walk takes it to have `k` bytes. -/
def AnswerSpans (buf : Bytes) (p k : Nat) : Prop :=
  ∃ n, Spans buf p n ∧ p + n + 10 ≤ buf.length ∧
    ((AddressAt buf (p + n) ∧ p + n + 14 ≤ buf.length ∧ k = n + 14) ∨
      (CanonicalAt buf (p + n) ∧ ∃ m, Spans buf (p + n + 10) m ∧ k = n + 10 + m) ∨
      (¬ AddressAt buf (p + n) ∧ ¬ CanonicalAt buf (p + n) ∧ k = n + 10))

/-- The answers stand inside the buffer, as far as the walk comes to them. -/
def AnswersInside (buf : Bytes) : Nat → Nat → Prop
  | _, 0 => True
  | p, count + 1 => AnswerCircles buf p ∨ ∃ k, AnswerSpans buf p k ∧ AnswersInside buf (p + k) count

/-- The questions and the answers that the header counts stand inside the reply. -/
def ReplyInside (reply : Bytes) : Prop :=
  questionsEnd reply 12 (BigEndian.word reply 4) ≤ reply.length ∧
    AnswersInside reply (questionsEnd reply 12 (BigEndian.word reply 4)) (BigEndian.word reply 6)

/-! ## Questions -/

section
variable {buf reply : Bytes} {p n k : Nat}

theorem length_decodeDomainName (questionBuffer : Bytes) :
    (decodeDomainName questionBuffer true).length + 2 + 4 = questionLength questionBuffer := by
  unfold decodeDomainName questionLength
  cases hindex : questionBuffer.idxOf? 0 with
  | none => rfl
  | some index =>
      have hlt : index < questionBuffer.length := (List.idxOf?_eq_some_iff.mp hindex).1
      by_cases hpos : index > 0
      · simp only [if_pos hpos, if_true, List.length_map, List.length_drop, List.length_take]
        omega
      · simp only [if_neg hpos, List.length_nil]

/-- A question is decoded exactly if the bytes that it is taken to have are there. -/
theorem decodeDNSQuestion_inside (questionBuffer : Bytes) :
    (questionLength questionBuffer ≤ questionBuffer.length ∧ ∃ question,
      decodeDNSQuestion questionBuffer = .ok (question, questionLength questionBuffer)) ∨
    (questionBuffer.length < questionLength questionBuffer ∧
      ∃ e, decodeDNSQuestion questionBuffer = .error e) := by
  have hlength := length_decodeDomainName questionBuffer
  cases hdecode : decodeDNSQuestion questionBuffer with
  | ok result =>
      obtain ⟨questionType, htype, hrest⟩ := bind_eq_ok hdecode
      obtain ⟨classType, hclass, hrest⟩ := bind_eq_ok hrest
      obtain rfl := Except.ok.inj hrest
      rw [hlength]
      exact .inl ⟨hlength ▸ BigEndian.le_of_uint16At hclass, _, rfl⟩
  | error e =>
      refine .inr ⟨?_, e, rfl⟩
      by_contra hfits
      obtain ⟨questionType, htype⟩ := BigEndian.exists_uint16At (b := questionBuffer)
        (p := (decodeDomainName questionBuffer true).length + 2) (by omega)
      obtain ⟨classType, hclass⟩ := BigEndian.exists_uint16At (b := questionBuffer)
        (p := (decodeDomainName questionBuffer true).length + 2 + 2) (by omega)
      simp only [decodeDNSQuestion, htype, hclass, ok_bind] at hdecode
      cases hdecode

theorem le_questionsEnd (reply : Bytes) (p n : Nat) : p ≤ questionsEnd reply p n := by
  induction n generalizing p with
  | zero => exact Nat.le_refl p
  | succ n ih => exact Nat.le_trans (Nat.le_add_right p _) (ih _)

/-- The question loop ends behind the last question, or in a panic. -/
theorem decodeQuestions_inside (n p : Nat) (hp : p ≤ reply.length) :
    (questionsEnd reply p n ≤ reply.length ∧ ∃ questions,
      decodeQuestions reply p n = .ok (questions, questionsEnd reply p n)) ∨
    (reply.length < questionsEnd reply p n ∧ ∃ e, decodeQuestions reply p n = .error e) := by
  induction n generalizing p with
  | zero => exact .inl ⟨hp, [], rfl⟩
  | succ n ih =>
      have hrest : (reply.drop p).length = reply.length - p := List.length_drop
      rw [decodeQuestions, Bytes.sliceFrom_of_le hp, ok_bind, questionsEnd]
      rcases decodeDNSQuestion_inside (reply.drop p) with ⟨hle, question, hok⟩ | ⟨hlt, e, he⟩
      · rw [hok, ok_bind]
        rcases ih (p + questionLength (reply.drop p)) (by omega) with
          ⟨hle, questions, hok⟩ | ⟨hlt, e, he⟩
        · refine .inl ⟨hle, ⟨p, questionLength (reply.drop p), question⟩ :: questions, ?_⟩
          simp only [hok, ok_bind]
        · exact .inr ⟨hlt, e, by simp only [he, error_bind]⟩
      · have hend := le_questionsEnd reply (p + questionLength (reply.drop p)) n
        exact .inr ⟨by omega, e, by rw [he, error_bind]⟩

/-! ## More fuel -/

theorem decodeLabels_mono (buf : Bytes) (pos : Nat × Nat) :
    FuelMono fun fuel => decodeLabels fuel buf pos :=
  (FuelMono.const _).bind fun _ => (loop_mono _ _).bind fun _ => FuelMono.const _

theorem decodeDomain_mono (buf : Bytes) (p : Nat) : FuelMono fun fuel => decodeDomain fuel buf p :=
  (loop_mono _ _).bind fun _ => (decodeLabels_mono buf _).bind fun _ => FuelMono.const _

theorem decodeResourceRecord_mono (buf rest : Bytes) (p : Nat) :
    FuelMono fun fuel => decodeResourceRecord fuel buf rest p := by
  refine (decodeDomain_mono buf p).bind fun _ => ?_
  refine (FuelMono.const _).bind fun _ => (FuelMono.const _).bind fun _ => ?_
  refine (FuelMono.const _).bind fun _ => (FuelMono.const _).bind fun _ => ?_
  split
  · exact FuelMono.const _
  · split
    · exact (decodeDomain_mono buf _).bind fun _ => FuelMono.const _
    · exact FuelMono.const _

theorem decodeAnswers_mono (buf : Bytes) (p count : Nat) :
    FuelMono fun fuel => decodeAnswers fuel buf p count := by
  induction count generalizing p with
  | zero => exact FuelMono.const _
  | succ count ih =>
      refine (FuelMono.const _).bind fun rest => ?_
      refine (decodeResourceRecord_mono buf rest p).bind fun result => ?_
      exact (ih _).bind fun _ => FuelMono.const _

/-- The first answer that the loop decodes. -/
theorem decoded_of_decodeAnswers {buf : Bytes} {p n : Nat}
    {answers : List (Decoded DNSResourceRecord)} (hp : p ≤ buf.length)
    (h : Ends (fun fuel => decodeAnswers fuel buf p (n + 1)) (.ok answers)) :
    ∃ v k, Ends (fun fuel => decodeResourceRecord fuel buf (buf.drop p) p) (.ok (v, k)) := by
  simp only [decodeAnswers, Bytes.sliceFrom_of_le hp, lift_eq_done, done_ok_bind] at h
  rcases h.bind_cases (decodeResourceRecord_mono buf _ p) with ⟨⟨v, k⟩, hrecord, -⟩ | ⟨e, -, he⟩
  · exact ⟨v, k, hrecord⟩
  · cases he

/-! ## Answers -/

/-- The first position of a name is inside the buffer. -/
theorem lt_of_decodeDomain (h : Circles buf p ∨ ∃ n, Spans buf p n) : p < buf.length := by
  by_contra hp
  have hturn : jumpTurn buf (p, p) = .error (.indexOutOfRange p buf.length) := by
    rw [jumpTurn, Bytes.index_of_none (List.getElem?_eq_none (Nat.not_lt.mp hp)), error_bind]
  exact (decodeDomain_inside_iff buf p).mpr h ⟨_, (Ends.loop_error hturn).bind_error⟩

/-- What is read behind the name of an answer: whether it is an address, or a CNAME. -/
theorem fixedFields (hp : p ≤ buf.length) (h : p + n + 10 ≤ buf.length) :
    ∃ recordType recordClass TTL length,
      BigEndian.uint16At (buf.drop p) n = .ok recordType ∧
      BigEndian.uint16At (buf.drop p) (n + 2) = .ok recordClass ∧
      BigEndian.uint32At (buf.drop p) (n + 4) = .ok TTL ∧
      BigEndian.uint16At (buf.drop p) (n + 8) = .ok length ∧
      ((recordType = RESOURCE_RECORD_TYPE_A ∧ recordClass = RESOURCE_RECORD_CLASS_IN) ↔
        AddressAt buf (p + n)) ∧
      (recordType = RESOURCE_RECORD_TYPE_CNAME ↔ CanonicalAt buf (p + n)) := by
  have hrest : (buf.drop p).length = buf.length - p := List.length_drop
  obtain ⟨recordType, htype, htypeWord⟩ :=
    BigEndian.uint16At_word (b := buf.drop p) (p := n) (by omega)
  obtain ⟨recordClass, hclass, hclassWord⟩ :=
    BigEndian.uint16At_word (b := buf.drop p) (p := n + 2) (by omega)
  obtain ⟨TTL, hTTL⟩ := BigEndian.exists_uint32At (b := buf.drop p) (p := n + 4) (by omega)
  obtain ⟨length, hlength⟩ := BigEndian.exists_uint16At (b := buf.drop p) (p := n + 8) (by omega)
  rw [BigEndian.word_drop] at htypeWord hclassWord
  refine ⟨recordType, recordClass, TTL, length, htype, hclass, hTTL, hlength, ?_, ?_⟩
  · rw [AddressAt, Nat.add_assoc, ← htypeWord, ← hclassWord, ← UInt16.toNat_inj, ← UInt16.toNat_inj]
    rfl
  · rw [CanonicalAt, ← htypeWord, ← UInt16.toNat_inj]
    rfl

theorem not_address_of_canonical {recordType : ResourceRecordType}
    (h : recordType = RESOURCE_RECORD_TYPE_CNAME) (recordClass : ResourceRecordClass) :
    ¬ (recordType = RESOURCE_RECORD_TYPE_A ∧ recordClass = RESOURCE_RECORD_CLASS_IN) := by
  rintro ⟨hA, -⟩
  exact absurd (h.symm.trans hA) (by decide)

/-- An answer that goes round a circle has no end. -/
theorem AnswerCircles.not_ends (h : AnswerCircles buf p)
    (r : Except Panic (DNSResourceRecord × Nat)) :
    ¬ Ends (fun fuel => decodeResourceRecord fuel buf (buf.drop p) p) r := by
  intro hends
  rcases h with hcircles | ⟨n, hspans, hfixed, hcanonical, hcircles⟩
  · rcases hends.bind_cases (decodeDomain_mono buf p) with ⟨_, hok, -⟩ | ⟨_, he, -⟩
    · exact hcircles.not_ends _ hok
    · exact hcircles.not_ends _ he
  · have hp : p ≤ buf.length := by omega
    obtain ⟨domainName, hname⟩ := hspans.ends
    obtain ⟨recordType, recordClass, TTL, length, htype, hclass, hTTL, hlength, haddress, hcname⟩ :=
      fixedFields hp hfixed
    have hcanon := hcname.mpr hcanonical
    have hrest := hname.bind_iff.mp hends
    simp only [htype, hclass, hTTL, hlength, lift_eq_done, done_ok_bind,
      if_neg (not_address_of_canonical hcanon _), if_pos hcanon] at hrest
    rcases hrest.bind_cases (decodeDomain_mono buf _) with ⟨_, hok, -⟩ | ⟨_, he, -⟩
    · exact hcircles.not_ends _ hok
    · exact hcircles.not_ends _ he

/-- An answer that stands inside the buffer is decoded. -/
theorem AnswerSpans.ends (h : AnswerSpans buf p k) : ∃ resourceRecord,
    Ends (fun fuel => decodeResourceRecord fuel buf (buf.drop p) p) (.ok (resourceRecord, k)) := by
  obtain ⟨n, hspans, hfixed, hdata⟩ := h
  have hp : p ≤ buf.length := by omega
  obtain ⟨domainName, hname⟩ := hspans.ends
  obtain ⟨recordType, recordClass, TTL, length, htype, hclass, hTTL, hlength, haddress, hcname⟩ :=
    fixedFields hp hfixed
  rw [← haddress, ← hcname] at hdata
  refine Exists.imp (fun _ hrest => hname.bind hrest) ?_
  simp only [htype, hclass, hTTL, hlength, lift_eq_done, done_ok_bind]
  rcases hdata with ⟨haddr, hfits, rfl⟩ | ⟨hcanon, m, hspans', rfl⟩ | ⟨hnoaddr, hnocanon, rfl⟩
  · have hbyte : ∀ i, i < 14 → ∃ b, Bytes.index (buf.drop p) (n + i) = .ok b := by
      intro i hi
      refine ⟨_, Bytes.index_eq_ok.mpr (List.getElem?_eq_getElem ?_)⟩
      rw [List.length_drop]
      omega
    obtain ⟨b0, h0⟩ := hbyte 10 (by decide)
    obtain ⟨b1, h1⟩ := hbyte 11 (by decide)
    obtain ⟨b2, h2⟩ := hbyte 12 (by decide)
    obtain ⟨b3, h3⟩ := hbyte 13 (by decide)
    simp only [if_pos haddr, h0, h1, h2, h3, done_ok_bind]
    exact ⟨_, Ends.const _⟩
  · obtain ⟨resourceData, hdata⟩ := hspans'.ends
    simp only [if_neg (not_address_of_canonical hcanon _), if_pos hcanon]
    exact ⟨_, hdata.bind (Ends.const _)⟩
  · simp only [if_neg hnoaddr, if_neg hnocanon]
    exact ⟨_, Ends.const _⟩

/-- **When an answer is decoded inside the buffer.** -/
theorem decodeResourceRecord_inside_iff (hp : p ≤ buf.length) :
    ¬ GoesWrong (fun fuel => decodeResourceRecord fuel buf (buf.drop p) p) ↔
      AnswerCircles buf p ∨ ∃ k, AnswerSpans buf p k := by
  constructor
  · intro hright
    unfold decodeResourceRecord at hright
    obtain ⟨hname, hrest⟩ := (not_goesWrong_bind (decodeDomain_mono buf p)).mp hright
    rcases (decodeDomain_inside_iff buf p).mp hname with hcircles | ⟨n, hspans⟩
    · exact .inl (.inl hcircles)
    · obtain ⟨domainName, hname⟩ := hspans.ends
      have hright := hrest _ hname
      have hfixed : p + n + 10 ≤ buf.length := by
        obtain ⟨_, -, hright⟩ := not_goesWrong_done hright
        obtain ⟨_, -, hright⟩ := not_goesWrong_done hright
        obtain ⟨_, -, hright⟩ := not_goesWrong_done hright
        obtain ⟨_, hlength, -⟩ := not_goesWrong_done hright
        have hle := BigEndian.le_of_uint16At hlength
        rw [List.length_drop] at hle
        omega
      obtain ⟨recordType, recordClass, TTL, length, htype, hclass, hTTL, hlength, haddress, hcname⟩ :=
        fixedFields hp hfixed
      simp only [htype, hclass, hTTL, hlength, lift_eq_done, done_ok_bind] at hright
      by_cases haddr : recordType = RESOURCE_RECORD_TYPE_A ∧ recordClass = RESOURCE_RECORD_CLASS_IN
      · simp only [if_pos haddr] at hright
        obtain ⟨_, -, hright⟩ := not_goesWrong_done hright
        obtain ⟨_, -, hright⟩ := not_goesWrong_done hright
        obtain ⟨_, -, hright⟩ := not_goesWrong_done hright
        obtain ⟨_, hlast, -⟩ := not_goesWrong_done hright
        obtain ⟨hlt, -⟩ := List.getElem?_eq_some_iff.mp (Bytes.index_eq_ok.mp hlast)
        rw [List.length_drop] at hlt
        exact .inr ⟨_, n, hspans, hfixed, .inl ⟨haddress.mp haddr, by omega, rfl⟩⟩
      · by_cases hcanon : recordType = RESOURCE_RECORD_TYPE_CNAME
        · simp only [if_neg haddr, if_pos hcanon] at hright
          obtain ⟨hdata, -⟩ := (not_goesWrong_bind (decodeDomain_mono buf _)).mp hright
          have hcanonical := hcname.mp hcanon
          rcases (decodeDomain_inside_iff buf _).mp hdata with hcircles | ⟨m, hspans'⟩
          · exact .inl (.inr ⟨n, hspans, hfixed, hcanonical, hcircles⟩)
          · exact .inr ⟨_, n, hspans, hfixed, .inr (.inl ⟨hcanonical, m, hspans', rfl⟩)⟩
        · rw [haddress] at haddr
          rw [hcname] at hcanon
          exact .inr ⟨_, n, hspans, hfixed, .inr (.inr ⟨haddr, hcanon, rfl⟩)⟩
  · rintro (hcircles | ⟨k, hspans⟩)
    · rintro ⟨e, he⟩
      exact hcircles.not_ends _ he
    · obtain ⟨resourceRecord, hends⟩ := hspans.ends
      exact not_goesWrong_of_ok hends

theorem lt_of_answer (h : AnswerCircles buf p ∨ ∃ k, AnswerSpans buf p k) : p < buf.length := by
  rcases h with (hcircles | ⟨n, hspans, -⟩) | ⟨k, n, hspans, -⟩
  · exact lt_of_decodeDomain (.inl hcircles)
  · exact lt_of_decodeDomain (.inr ⟨n, hspans⟩)
  · exact lt_of_decodeDomain (.inr ⟨n, hspans⟩)

/-- The answer loop stays inside the buffer as long as each answer does. -/
theorem decodeAnswers_inside_iff (count p : Nat) :
    ¬ GoesWrong (fun fuel => decodeAnswers fuel buf p count) ↔ AnswersInside buf p count := by
  induction count generalizing p with
  | zero =>
      refine ⟨fun _ => trivial, fun _ => ?_⟩
      exact not_goesWrong_of_ok (Ends.const (.ok []))
  | succ count ih =>
      constructor
      · intro hright
        obtain ⟨rest, hrest, hright⟩ := not_goesWrong_done hright
        obtain ⟨hp, rfl⟩ := Bytes.sliceFrom_eq_ok hrest
        obtain ⟨hfirst, hsecond⟩ :=
          (not_goesWrong_bind (decodeResourceRecord_mono buf _ p)).mp hright
        rcases (decodeResourceRecord_inside_iff hp).mp hfirst with hcircles | ⟨k, hspans⟩
        · exact .inl hcircles
        · obtain ⟨resourceRecord, hends⟩ := hspans.ends
          obtain ⟨hanswers, -⟩ :=
            (not_goesWrong_bind (decodeAnswers_mono buf (p + k) count)).mp (hsecond _ hends)
          exact .inr ⟨k, hspans, (ih (p + k)).mp hanswers⟩
      · intro hinside
        have hanswer : AnswerCircles buf p ∨ ∃ k, AnswerSpans buf p k := by
          rcases hinside with hcircles | ⟨k, hspans, -⟩
          · exact .inl hcircles
          · exact .inr ⟨k, hspans⟩
        have hp : p ≤ buf.length := Nat.le_of_lt (lt_of_answer hanswer)
        simp only [decodeAnswers, Bytes.sliceFrom_of_le hp, lift_eq_done, done_ok_bind]
        refine (not_goesWrong_bind (decodeResourceRecord_mono buf _ p)).mpr
          ⟨(decodeResourceRecord_inside_iff hp).mpr hanswer, ?_⟩
        intro result hends
        rcases hinside with hcircles | ⟨k, hspans, hrest⟩
        · exact absurd hends (hcircles.not_ends _)
        · obtain ⟨resourceRecord, hspansEnds⟩ := hspans.ends
          obtain rfl := Except.ok.inj (hends.unique hspansEnds)
          refine (not_goesWrong_bind (decodeAnswers_mono buf (p + k) count)).mpr
            ⟨(ih (p + k)).mpr hrest, ?_⟩
          intro answers _
          exact not_goesWrong_of_ok (Ends.const (.ok _))

end

/-! ## The whole reply -/

/-- **When a reply is decoded inside its buffer.** -/
theorem decodeReply_inside_iff (reply : Bytes) (h : 12 ≤ reply.length) :
    ¬ GoesWrong (fun fuel => decodeReply fuel reply) ↔ ReplyInside reply := by
  obtain ⟨header, hheader, hquestions, hanswers⟩ := exists_decodeDNSHeader h
  replace hquestions := BigEndian.word_of_uint16At hquestions
  replace hanswers := BigEndian.word_of_uint16At hanswers
  simp only [decodeReply, hheader, hquestions, hanswers, lift_eq_done, done_ok_bind, ReplyInside]
  rcases decodeQuestions_inside (BigEndian.word reply 4) 12 h with ⟨hle, questions, hok⟩ | ⟨hlt, e, he⟩
  · simp only [hok, done_ok_bind]
    rw [not_goesWrong_bind (decodeAnswers_mono reply _ _), decodeAnswers_inside_iff]
    constructor
    · rintro ⟨hinside, -⟩
      exact ⟨hle, hinside⟩
    · rintro ⟨-, hinside⟩
      exact ⟨hinside, fun _ _ => not_goesWrong_of_ok (Ends.const (.ok _))⟩
  · simp only [he, done_error_bind]
    constructor
    · exact fun hright => absurd ⟨e, Ends.const _⟩ hright
    · rintro ⟨hle, -⟩
      omega

/-- One question, of `"a"`, and one answer, an address of the root. -/
def addressReply : Bytes :=
  [0, 0, 128, 0, 0, 1, 0, 1, 0, 0, 0, 0] ++ [1, 97, 0, 0, 1, 0, 1] ++
    [0, 0, 1, 0, 1, 0, 0, 0, 60, 0, 4, 127, 0, 0, 1] ++ List.replicate 990 0

theorem addressReply_inside :
    addressReply.length = 1024 ∧ ¬ GoesWrong fun fuel => decodeReply fuel addressReply := by
  have hlength : addressReply.length = 1024 := by
    rw [addressReply, List.length_append, List.length_replicate]
    rfl
  refine ⟨hlength, (decodeReply_inside_iff addressReply (by omega)).mpr ⟨?_, ?_⟩⟩
  · show 19 ≤ addressReply.length
    omega
  · have hname : Spans addressReply 19 1 :=
      ⟨_, _, ⟨19, 0, 19, .refl, rfl, rfl, rfl⟩, .refl, rfl, rfl⟩
    have hstart : questionsEnd addressReply 12 (BigEndian.word addressReply 4) = 19 := rfl
    rw [hstart]
    exact .inr ⟨15, ⟨1, hname, by omega, .inl ⟨⟨rfl, rfl⟩, by omega, rfl⟩⟩, trivial⟩

/-- A header, and a name whose zero byte is the last byte of the buffer. -/
def longReply : Bytes := [0, 0, 128, 0, 0, 1, 0, 0, 0, 0, 0, 0] ++ (List.replicate 1011 97 ++ [0])

theorem longReply_outside :
    longReply.length = 1024 ∧ GoesWrong fun fuel => decodeReply fuel longReply := by
  have hlength : longReply.length = 1024 := by
    rw [longReply, List.length_append, List.length_append, List.length_replicate]
    rfl
  have hindex : (longReply.drop 12).idxOf? 0 = some 1011 := by
    have hletters : (0 : UInt8) ∉ List.replicate 1011 97 :=
      fun hzero => absurd (List.eq_of_mem_replicate hzero) (by decide)
    have hzero := idxOf?_zero hletters []
    rwa [List.length_replicate] at hzero
  have hend : questionsEnd longReply 12 1 = 1028 := by
    rw [questionsEnd, questionsEnd, questionLength, hindex]
    rfl
  obtain ⟨header, hheader, hquestions, -⟩ :=
    exists_decodeDNSHeader (show 12 ≤ longReply.length by omega)
  replace hquestions := BigEndian.word_of_uint16At hquestions
  refine ⟨hlength, ?_⟩
  rcases decodeQuestions_inside 1 12 (show 12 ≤ longReply.length by omega) with
    ⟨hle, -⟩ | ⟨-, e, he⟩
  · omega
  · rw [show BigEndian.word longReply 4 = 1 from rfl] at hquestions
    simp only [decodeReply, hheader, hquestions, he, lift_eq_done, done_ok_bind, done_error_bind]
    exact ⟨e, Ends.const _⟩

end Nyctomek.Dns

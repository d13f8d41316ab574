/-
# `Dns.Answers` — the walk through a reply

`queryDomainNameService` walks through the questions and the answers of a reply
with one position, which each decoder tells it to advance.  For an answer the
advance does not come from RDLENGTH but from the branch that decoded RDATA: four
bytes for an address, the bytes of the name for a CNAME, none for any other type.
-/
import Nyctomek.Dns.Header
import Nyctomek.Dns.Compression
import Nyctomek.Prog.Decimal

namespace Nyctomek.Dns

open Prog

abbrev ResourceRecordType := UInt16

def RESOURCE_RECORD_TYPE_A : ResourceRecordType := 1
def RESOURCE_RECORD_TYPE_CNAME : ResourceRecordType := 5

abbrev ResourceRecordClass := UInt16

def RESOURCE_RECORD_CLASS_IN : ResourceRecordClass := 1

structure DNSResourceRecord where
  domainName : Bytes
  resourceRecordType : ResourceRecordType
  resourceRecordClass : ResourceRecordClass
  TTL : UInt32
  resourceDataLength : UInt16
  resourceData : Bytes
  deriving DecidableEq, Repr

/-- `strconv.Itoa`. -/
def itoa (n : Nat) : Bytes := digits n

/-- `decodeResourceRecord`, with the new value of `*bytesDecoded`. -/
def decodeResourceRecord (fuel : Nat) (responseBuffer resourceRecordBuffer : Bytes)
    (positionInReply : Nat) : Exec Panic (DNSResourceRecord × Nat) := do
  let (domainName, typeIndex) ← decodeDomain fuel responseBuffer positionInReply
  let resourceRecordType ← (BigEndian.uint16At resourceRecordBuffer typeIndex : Exec Panic _)
  let resourceRecordClass ← (BigEndian.uint16At resourceRecordBuffer (typeIndex + 2) : Exec Panic _)
  let TTL ← (BigEndian.uint32At resourceRecordBuffer (typeIndex + 4) : Exec Panic _)
  let resourceDataLength ← (BigEndian.uint16At resourceRecordBuffer (typeIndex + 8) : Exec Panic _)
  let bytesDecoded := typeIndex + 10
  if resourceRecordType = RESOURCE_RECORD_TYPE_A ∧
      resourceRecordClass = RESOURCE_RECORD_CLASS_IN then do
    let b0 ← (resourceRecordBuffer.index (typeIndex + 10) : Exec Panic _)
    let b1 ← (resourceRecordBuffer.index (typeIndex + 11) : Exec Panic _)
    let b2 ← (resourceRecordBuffer.index (typeIndex + 12) : Exec Panic _)
    let b3 ← (resourceRecordBuffer.index (typeIndex + 13) : Exec Panic _)
    let rdData := itoa b0.toNat ++ [dot] ++ itoa b1.toNat ++ [dot] ++ itoa b2.toNat ++ [dot] ++
      itoa b3.toNat
    return (⟨domainName, resourceRecordType, resourceRecordClass, TTL, resourceDataLength, rdData⟩,
      bytesDecoded + 4)
  else if resourceRecordType = RESOURCE_RECORD_TYPE_CNAME then do
    let (resourceData, domainBytesDecoded) ←
      decodeDomain fuel responseBuffer (positionInReply + typeIndex + 10)
    return (⟨domainName, resourceRecordType, resourceRecordClass, TTL, resourceDataLength,
      resourceData⟩, bytesDecoded + domainBytesDecoded)
  else
    return (⟨domainName, resourceRecordType, resourceRecordClass, TTL, resourceDataLength, []⟩,
      bytesDecoded)

/-- What was decoded at a position, and how many bytes the walk advanced for it. -/
structure Decoded (α : Type) where
  position : Nat
  bytesDecoded : Nat
  value : α
  deriving DecidableEq, Repr

/-- The question loop, from a position on; the position after it. -/
def decodeQuestions (reply : Bytes) :
    Nat → Nat → Except Panic (List (Decoded DNSQuestion) × Nat)
  | positionInReply, 0 => .ok ([], positionInReply)
  | positionInReply, n + 1 => do
      let rest ← reply.sliceFrom positionInReply
      let (responseQuestion, bytesDecoded) ← decodeDNSQuestion rest
      let (questions, last) ← decodeQuestions reply (positionInReply + bytesDecoded) n
      .ok (⟨positionInReply, bytesDecoded, responseQuestion⟩ :: questions, last)

/-- The answer loop, from a position on. -/
def decodeAnswers (fuel : Nat) (reply : Bytes) :
    Nat → Nat → Exec Panic (List (Decoded DNSResourceRecord))
  | _, 0 => return []
  | positionInReply, n + 1 => do
      let rest ← (reply.sliceFrom positionInReply : Exec Panic _)
      let (resourceRecord, bytesDecoded) ← decodeResourceRecord fuel reply rest positionInReply
      let answers ← decodeAnswers fuel reply (positionInReply + bytesDecoded) n
      return ⟨positionInReply, bytesDecoded, resourceRecord⟩ :: answers

/-- What `queryDomainNameService` decodes of a reply, and prints. -/
structure DecodedReply where
  responseHeader : DNSHeader
  questions : List (Decoded DNSQuestion)
  answers : List (Decoded DNSResourceRecord)
  deriving DecidableEq

/-- `queryDomainNameService`, from the arrival of the reply on. -/
def decodeReply (fuel : Nat) (reply : Bytes) : Exec Panic DecodedReply := do
  let responseHeader ← (decodeDNSHeader reply : Exec Panic _)
  let (questions, positionInReply) ←
    (decodeQuestions reply 12 responseHeader.questionCount.toNat : Exec Panic _)
  let answers ← decodeAnswers fuel reply positionInReply responseHeader.answerCount.toNat
  return ⟨responseHeader, questions, answers⟩

/-! ## Records in a message -/

/-- A resource record: the labels of its NAME and the bytes that NAME takes, the
fields and RDATA. -/
structure Record where
  labels : List Bytes
  nameLength : Nat
  recordType : ResourceRecordType
  recordClass : ResourceRecordClass
  TTL : UInt32
  data : Bytes

namespace Record

def wireLength (r : Record) : Nat := r.nameLength + 10 + r.data.length

/-- What stands behind NAME: the ten fixed bytes and RDATA. -/
def body (r : Record) : Bytes :=
  BigEndian.appendUint16 [] r.recordType ++ (BigEndian.appendUint16 [] r.recordClass ++
    (BigEndian.appendUint32 [] r.TTL ++
      (BigEndian.appendUint16 [] (UInt16.ofNat r.data.length) ++ r.data)))

/-- The record stands at `p`, and RDLENGTH is the length its data has. -/
structure StandsAt (r : Record) (buf : Bytes) (p : Nat) : Prop where
  name : NameAt buf p r.labels r.nameLength
  body : buf.At (p + r.nameLength) r.body
  length : r.data.length < 65536
  address : r.recordType = RESOURCE_RECORD_TYPE_A → r.recordClass = RESOURCE_RECORD_CLASS_IN →
    r.data.length = 4
  canonical : r.recordType = RESOURCE_RECORD_TYPE_CNAME →
    ∃ ls, NameAt buf (p + r.nameLength + 10) ls r.data.length

end Record

/-- The records stand one behind the other, from `p` on. -/
def RecordsAt (buf : Bytes) : Nat → List Record → Prop
  | _, [] => True
  | p, r :: rs => r.StandsAt buf p ∧ RecordsAt buf (p + r.wireLength) rs

/-! ## One record -/

section
variable {buf : Bytes} {p : Nat} {r : Record}

/-- The fields of a record are read behind its NAME. -/
theorem Record.StandsAt.fields (h : r.StandsAt buf p) :
    BigEndian.uint16At (buf.drop p) r.nameLength = .ok r.recordType ∧
    BigEndian.uint16At (buf.drop p) (r.nameLength + 2) = .ok r.recordClass ∧
    BigEndian.uint32At (buf.drop p) (r.nameLength + 4) = .ok r.TTL ∧
    BigEndian.uint16At (buf.drop p) (r.nameLength + 8) = .ok (UInt16.ofNat r.data.length) ∧
    Bytes.At (buf.drop p) (r.nameLength + 10) r.data := by
  have hbody := Bytes.at_drop.mpr h.body
  rw [Record.body, Bytes.at_append, Bytes.at_append, Bytes.at_append, Bytes.at_append] at hbody
  obtain ⟨htype, hclass, httl, hlength, hdata⟩ := hbody
  exact ⟨BigEndian.uint16At_of_at htype, BigEndian.uint16At_of_at hclass,
    BigEndian.uint32At_of_at httl, BigEndian.uint16At_of_at hlength, hdata⟩

end

/-! ## The walk -/

/-- One turn of the answer loop, when the record is decoded. -/
theorem decodeAnswers_succ {buf : Bytes} {p n k : Nat} {v : DNSResourceRecord} (hp : p ≤ buf.length)
    (hrecord : Ends (fun fuel => decodeResourceRecord fuel buf (buf.drop p) p) (.ok (v, k)))
    (answers : List (Decoded DNSResourceRecord)) :
    Ends (fun fuel => decodeAnswers fuel buf p (n + 1)) (.ok answers) ↔
      ∃ tail, ⟨p, k, v⟩ :: tail = answers ∧
        Ends (fun fuel => decodeAnswers fuel buf (p + k) n) (.ok tail) := by
  have hcons : ∀ tail tail' : List (Decoded DNSResourceRecord),
      (⟨p, k, v⟩ : Decoded DNSResourceRecord) :: tail = ⟨p, k, v⟩ :: tail' → tail = tail' :=
    fun _ _ h => (List.cons.inj h).2
  rw [← Ends.map_iff hcons]
  simp only [decodeAnswers, Bytes.sliceFrom_of_le hp, lift_eq_done, done_ok_bind]
  exact Ends.bind_iff hrecord

/-! ## Whole replies -/

/-- A question in a message. -/
structure Question where
  labels : List Bytes
  questionType : QuestionType
  classType : ClassType

def Question.wire (q : Question) : Bytes := encodeQuestion q.labels q.questionType q.classType

/-- Where the answers begin. -/
def answersStart (questions : List Question) : Nat := 12 + (questions.flatMap Question.wire).length

/-- A response: a header that counts what follows it, the questions, the records. -/
structure IsResponse (reply : Bytes) (questions : List Question) (records : List Record) : Prop where
  header : 12 ≤ reply.length
  questionCount : reply.At 4 (BigEndian.appendUint16 [] (UInt16.ofNat questions.length))
  answerCount : reply.At 6 (BigEndian.appendUint16 [] (UInt16.ofNat records.length))
  few : questions.length < 65536 ∧ records.length < 65536
  labels : ∀ q ∈ questions, ∀ l ∈ q.labels, IsLabel l
  questionsAt : reply.At 12 (questions.flatMap Question.wire)
  answersAt : RecordsAt reply (answersStart questions) records

/-- The header of a response gives the counts of its sections. -/
theorem decodeDNSHeader_counts {reply : Bytes} {questionCount answerCount : UInt16}
    (hlength : 12 ≤ reply.length) (hquestions : reply.At 4 (BigEndian.appendUint16 [] questionCount))
    (hanswers : reply.At 6 (BigEndian.appendUint16 [] answerCount)) :
    ∃ header, decodeDNSHeader reply = .ok header ∧ header.questionCount = questionCount ∧
      header.answerCount = answerCount := by
  obtain ⟨header, hheader, hquestions', hanswers'⟩ := exists_decodeDNSHeader hlength
  rw [BigEndian.uint16At_of_at hquestions] at hquestions'
  rw [BigEndian.uint16At_of_at hanswers] at hanswers'
  exact ⟨header, hheader, (Except.ok.inj hquestions').symm, (Except.ok.inj hanswers').symm⟩

/-- The question loop passes through the questions of a message, and finds their types and
classes. -/
theorem decodeQuestions_ok {reply : Bytes} {p : Nat} {questions : List Question}
    (hlabels : ∀ q ∈ questions, q.labels ≠ [] ∧ ∀ l ∈ q.labels, IsByteLabel l)
    (h : reply.At p (questions.flatMap Question.wire)) :
    ∃ decoded, decodeQuestions reply p questions.length
        = .ok (decoded, p + (questions.flatMap Question.wire).length) ∧
      decoded.map (fun d => (d.value.questionType, d.value.classType))
        = questions.map fun q => (q.questionType, q.classType) := by
  induction questions generalizing p with
  | nil => exact ⟨[], rfl, rfl⟩
  | cons q qs ih =>
      rw [List.flatMap_cons, Bytes.at_append] at h
      obtain ⟨hq, hqs⟩ := h
      obtain ⟨hne, hlabel⟩ := hlabels q (by simp)
      obtain ⟨decoded, hdecoded, hfields⟩ := ih (fun q' hq' => hlabels q' (by simp [hq'])) hqs
      have hp : p ≤ reply.length :=
        Nat.le_of_add_right_le (hq.length_le (by simp [Question.wire, encodeQuestion]))
      have hfirst : decodeDNSQuestion (reply.drop p)
          = .ok (⟨((encodeLabels q.labels).drop 1).map dotted, q.questionType, q.classType⟩,
              q.wire.length) := by
        rw [hq.drop_eq, Question.wire, encodeQuestion_append, length_encodeQuestion]
        exact decodeDNSQuestion_zero (zero_notMem_encodeLabels hlabel) (encodeLabels_ne_nil hne) _ _ _
      have hlast : p + (List.flatMap Question.wire (q :: qs)).length
          = p + q.wire.length + (List.flatMap Question.wire qs).length := by
        rw [List.flatMap_cons, List.length_append, Nat.add_assoc]
      simp only [List.length_cons, decodeQuestions, Bytes.sliceFrom_of_le hp, ok_bind, hfirst,
        hdecoded, hlast]
      refine ⟨_, rfl, ?_⟩
      rw [List.map_cons, hfields, List.map_cons]

/-- A question as it is asked. -/
def Question.asked (q : Question) : DNSQuestion := ⟨joinDots q.labels, q.questionType, q.classType⟩

/-- **The framing of the question section.**  Behind any bytes and in front of any others,
the question loop recovers the types and classes of encoded questions, and ends where they
end. -/
theorem decodeQuestions_encode (pre rest : Bytes) (questions : List Question)
    (h : ∀ q ∈ questions, q.labels ≠ [] ∧ ∀ l ∈ q.labels, IsByteLabel l ∧ dot ∉ l) :
    ∃ decoded, decodeQuestions
        (pre ++ ((questions.flatMap fun q => encodeDNSQuestion q.asked) ++ rest)) pre.length
        questions.length
        = .ok (decoded,
            pre.length + (questions.flatMap fun q => encodeDNSQuestion q.asked).length) ∧
      decoded.map (fun d => (d.value.questionType, d.value.classType))
        = questions.map fun q => (q.questionType, q.classType) := by
  have hwire : (questions.flatMap fun q => encodeDNSQuestion q.asked)
      = questions.flatMap Question.wire := by
    refine List.flatMap_congr ?_
    intro q hq
    exact encodeDNSQuestion_joinDots (h q hq).1 (fun l hl => ((h q hq).2 l hl).2) _ _
  rw [hwire]
  refine decodeQuestions_ok ?_ (Bytes.at_middle pre (questions.flatMap Question.wire) rest)
  exact fun q hq => ⟨(h q hq).1, fun l hl => ((h q hq).2 l hl).1⟩

/-- Questions for `"a.1"` and, of another type and class, for `"b"`, behind a header of
twelve bytes. -/
theorem decodeQuestions_encode_two : ∃ decoded, decodeQuestions
      (List.replicate 12 0 ++ (([⟨[[97], [49]], 1, 1⟩, ⟨[[98]], 15, 3⟩] : List Question).flatMap
        (fun q => encodeDNSQuestion q.asked) ++ [192, 12])) 12 2 = .ok (decoded, 28) ∧
    decoded.map (fun d => (d.value.questionType, d.value.classType)) = [(1, 1), (15, 3)] := by
  refine decodeQuestions_encode (List.replicate 12 0) [192, 12] [⟨[[97], [49]], 1, 1⟩, ⟨[[98]], 15, 3⟩] ?_
  have hbyte : ∀ b : UInt8, b ≠ 0 → b ≠ dot → IsByteLabel [b] ∧ dot ∉ [b] := by
    intro b hzero hdot
    exact ⟨⟨by simp, by simp, by simpa using hzero.symm⟩, by simpa using hdot.symm⟩
  simp only [List.forall_mem_cons, List.not_mem_nil, false_implies, implies_true, and_true]
  exact ⟨⟨by simp, hbyte 97 (by decide) (by decide), hbyte 49 (by decide) (by decide)⟩, by simp,
    hbyte 98 (by decide) (by decide)⟩

end Nyctomek.Dns

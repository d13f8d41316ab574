/-
# `Dns.Header` — the header of a query, there and back

The flag word is written with the op code in bits 11 to 14 and read with the op
code in bits 10 to 14, bit 10 being the flag of an authoritative answer: an op
code comes back doubled.  Of the four counts the last one is written and not read,
and neither is the response code (`decodeDNSHeader_layout_iff`).
-/
import Mathlib.Data.Nat.Bitwise
import Nyctomek.Prog.GoSlice

namespace Nyctomek.Dns

open Prog

def HEADER_MASK_AUTHORITATIVE_ANSWER : UInt16 := (1 : UInt16) <<< 10
def HEADER_MASK_TRUNCATED : UInt16 := (1 : UInt16) <<< 9
def HEADER_MASK_RECURSION_DESIRED : UInt16 := (1 : UInt16) <<< 8
def HEADER_MASK_RECURSION_AVAILABLE : UInt16 := (1 : UInt16) <<< 7
def HEADER_MASK_AUTHENTICATE_DATA : UInt16 := (1 : UInt16) <<< 5

structure DNSHeader where
  ID : UInt16
  isQuery : Bool
  opCode : UInt8
  authoritativeAnswer : Bool
  truncated : Bool
  recursionDesired : Bool
  recursionAvailable : Bool
  authenticateData : Bool
  rcode : UInt8
  questionCount : UInt16
  answerCount : UInt16
  nameServerCount : UInt16
  additionalRecordsCount : UInt16
  deriving DecidableEq, Repr

/-- The flag word that `encodeDNSHeader` computes. -/
def DNSHeader.flags (header : DNSHeader) : UInt16 :=
  let flags := header.opCode.toUInt16 <<< 11
  let flags := if header.recursionDesired then flags ||| HEADER_MASK_RECURSION_DESIRED else flags
  if header.authenticateData then flags ||| HEADER_MASK_AUTHENTICATE_DATA else flags

def encodeDNSHeader (header : DNSHeader) : Bytes :=
  let headerBuffer := BigEndian.appendUint16 [] header.ID
  let headerBuffer := BigEndian.appendUint16 headerBuffer header.flags
  let headerBuffer := BigEndian.appendUint16 headerBuffer header.questionCount
  let headerBuffer := BigEndian.appendUint16 headerBuffer header.answerCount
  let headerBuffer := BigEndian.appendUint16 headerBuffer header.nameServerCount
  BigEndian.appendUint16 headerBuffer header.additionalRecordsCount

/-- The words of a header. -/
def DNSHeader.words (header : DNSHeader) : List UInt16 :=
  [header.ID, header.flags, header.questionCount, header.answerCount, header.nameServerCount,
    header.additionalRecordsCount]

/-- `rcode` and `additionalRecordsCount` keep their zero values. -/
def decodeDNSHeader (headerBuffer : Bytes) : Except Panic DNSHeader := do
  let ID ← BigEndian.uint16At headerBuffer 0
  let flags ← BigEndian.uint16At headerBuffer 2
  let questionCount ← BigEndian.uint16At headerBuffer 4
  let answerCount ← BigEndian.uint16At headerBuffer 6
  let nameServerCount ← BigEndian.uint16At headerBuffer 8
  .ok {
    ID
    isQuery := flags &&& 0x8000 == 0
    opCode := ((flags <<< 1) >>> 11).toUInt8
    authoritativeAnswer := flags &&& HEADER_MASK_AUTHORITATIVE_ANSWER != 0
    truncated := flags &&& HEADER_MASK_TRUNCATED != 0
    recursionDesired := flags &&& HEADER_MASK_RECURSION_DESIRED != 0
    recursionAvailable := flags &&& HEADER_MASK_RECURSION_AVAILABLE != 0
    authenticateData := flags &&& HEADER_MASK_AUTHENTICATE_DATA != 0
    rcode := 0
    questionCount
    answerCount
    nameServerCount
    additionalRecordsCount := 0 }

/-- A header of a query, with an op code of four bits. -/
structure DNSHeader.Query (header : DNSHeader) : Prop where
  isQuery : header.isQuery = true
  opCode : header.opCode < 16
  authoritativeAnswer : header.authoritativeAnswer = false
  truncated : header.truncated = false
  recursionAvailable : header.recursionAvailable = false
  rcode : header.rcode = 0

/-! ## The round trip -/

/-- What the flag word of a query reads as. -/
theorem DNSHeader.Query.flags_eq {header : DNSHeader} (h : header.Query) :
    (header.flags &&& 0x8000 == 0) = true ∧
    ((header.flags <<< 1) >>> 11).toUInt8 = 2 * header.opCode ∧
    (header.flags &&& HEADER_MASK_AUTHORITATIVE_ANSWER != 0) = false ∧
    (header.flags &&& HEADER_MASK_TRUNCATED != 0) = false ∧
    (header.flags &&& HEADER_MASK_RECURSION_DESIRED != 0) = header.recursionDesired ∧
    (header.flags &&& HEADER_MASK_RECURSION_AVAILABLE != 0) = false ∧
    (header.flags &&& HEADER_MASK_AUTHENTICATE_DATA != 0) = header.authenticateData := by
  have hop := h.opCode
  unfold DNSHeader.flags
  generalize header.opCode = opCode at hop ⊢
  generalize header.recursionDesired = recursionDesired
  generalize header.authenticateData = authenticateData
  revert recursionDesired authenticateData
  obtain ⟨n, hn⟩ : ∃ n : Fin 16, opCode = UInt8.ofNat n := ⟨⟨opCode.toNat, hop⟩, by simp⟩
  subst hn
  revert n
  decide

/-- **Decoding an encoded query** doubles the op code, and loses the last count. -/
theorem decodeDNSHeader_encode {header : DNSHeader} (h : header.Query) :
    decodeDNSHeader (encodeDNSHeader header)
      = .ok { header with opCode := 2 * header.opCode, additionalRecordsCount := 0 } := by
  have hread : ∀ i v, (header.words)[i]? = some v →
      BigEndian.uint16At (encodeDNSHeader header) (2 * i) = .ok v :=
    fun i v hv => BigEndian.uint16At_foldl hv
  obtain ⟨h1, h2, h3, h4, h5, h6, h7⟩ := h.flags_eq
  simp only [decodeDNSHeader, hread 0 header.ID rfl, hread 1 header.flags rfl,
    hread 2 header.questionCount rfl, hread 3 header.answerCount rfl,
    hread 4 header.nameServerCount rfl, ok_bind, h1, h2, h3, h4, h5, h6, h7]
  cases header with
  | mk =>
      obtain ⟨rfl, -, rfl, rfl, rfl, rfl⟩ := h
      rfl

/-- **When the header of a query comes back**: its op code has to be 0, and so
does its count of additional records. -/
theorem decodeDNSHeader_encode_iff (header : DNSHeader) (h : header.Query) :
    decodeDNSHeader (encodeDNSHeader header) = .ok header ↔
      header.opCode = 0 ∧ header.additionalRecordsCount = 0 := by
  rw [decodeDNSHeader_encode h]
  constructor
  · intro heq
    have hheader := Except.ok.inj heq
    have hdouble : 2 * header.opCode = header.opCode := congrArg DNSHeader.opCode hheader
    have hnat := congrArg UInt8.toNat hdouble
    have hlt := UInt8.lt_iff_toNat_lt.mp h.opCode
    simp only [UInt8.toNat_mul, UInt8.reduceToNat] at hnat hlt
    refine ⟨UInt8.toNat_inj.mp (show header.opCode.toNat = 0 by omega), ?_⟩
    exact (congrArg DNSHeader.additionalRecordsCount hheader).symm
  · rintro ⟨hop, hcount⟩
    rw [hop, UInt8.mul_zero, ← hop, ← hcount]

/-- A query with op code 0, recursion desired and data authenticated, as the client sends it. -/
def standardQuery : DNSHeader where
  ID := 1000
  isQuery := true
  opCode := 0
  authoritativeAnswer := false
  truncated := false
  recursionDesired := true
  recursionAvailable := false
  authenticateData := true
  rcode := 0
  questionCount := 1
  answerCount := 0
  nameServerCount := 0
  additionalRecordsCount := 0

theorem standardQuery_query : standardQuery.Query := by
  constructor <;> decide

theorem standardQuery_roundTrip :
    decodeDNSHeader (encodeDNSHeader standardQuery) = .ok standardQuery :=
  (decodeDNSHeader_encode_iff standardQuery standardQuery_query).mpr ⟨rfl, rfl⟩

/-- With op code 1 the header comes back with op code 2. -/
theorem inverseQuery_no_roundTrip :
    ({ standardQuery with opCode := 1 } : DNSHeader).Query ∧
    decodeDNSHeader (encodeDNSHeader { standardQuery with opCode := 1 })
      = .ok { standardQuery with opCode := 2 } ∧
    decodeDNSHeader (encodeDNSHeader { standardQuery with opCode := 1 })
      ≠ .ok { standardQuery with opCode := 1 } := by
  have hq : ({ standardQuery with opCode := 1 } : DNSHeader).Query := by constructor <;> decide
  refine ⟨hq, ?_, ?_⟩
  · exact decodeDNSHeader_encode hq
  · rw [decodeDNSHeader_encode hq]
    decide

/-! ## The layout on the wire -/

/-- The fields of a header as they are laid out on the wire, in six words of two bytes; the
second word holds the flags, its highest bit first. -/
structure DNSHeader.LaidOut (header : DNSHeader) (b : Bytes) : Prop where
  ID : header.ID.toNat = BigEndian.word b 0
  isQuery : header.isQuery = !(BigEndian.word b 2).testBit 15
  opCode : header.opCode.toNat = BigEndian.word b 2 / 2048 % 16
  authoritativeAnswer : header.authoritativeAnswer = (BigEndian.word b 2).testBit 10
  truncated : header.truncated = (BigEndian.word b 2).testBit 9
  recursionDesired : header.recursionDesired = (BigEndian.word b 2).testBit 8
  recursionAvailable : header.recursionAvailable = (BigEndian.word b 2).testBit 7
  authenticateData : header.authenticateData = (BigEndian.word b 2).testBit 5
  rcode : header.rcode.toNat = BigEndian.word b 2 % 16
  questionCount : header.questionCount.toNat = BigEndian.word b 4
  answerCount : header.answerCount.toNat = BigEndian.word b 6
  nameServerCount : header.nameServerCount.toNat = BigEndian.word b 8
  additionalRecordsCount : header.additionalRecordsCount.toNat = BigEndian.word b 10

/-- A mask of one bit tests it. -/
theorem and_bit_ne_zero (flags : UInt16) {mask : UInt16} {i : Nat} (h : mask.toNat = 2 ^ i) :
    (flags &&& mask != 0) = flags.toNat.testBit i := by
  have hzero : flags &&& mask = 0 ↔ flags.toNat.testBit i = false := by
    rw [← UInt16.toNat_inj, UInt16.toNat_and, h, Nat.and_two_pow]
    cases flags.toNat.testBit i <;> simp
  cases hbit : flags.toNat.testBit i with
  | false =>
      rw [hzero.mpr hbit]
      rfl
  | true =>
      rw [bne_iff_ne]
      intro hmask
      rw [hzero.mp hmask] at hbit
      cases hbit

/-- The two shifts leave five bits, that of an authoritative answer among them. -/
theorem opCode_toNat (flags : UInt16) :
    ((flags <<< 1) >>> 11).toUInt8.toNat = flags.toNat / 1024 % 32 := by
  have hflags : flags.toNat < 65536 := flags.toNat_lt
  simp only [UInt16.toNat_toUInt8, UInt16.toNat_shiftRight, UInt16.toNat_shiftLeft,
    UInt16.reduceToNat, Nat.reduceMod, Nat.reducePow, Nat.shiftLeft_eq, Nat.shiftRight_eq_div_pow]
  omega

/-- In twelve bytes there is a header, with the counts of questions and answers that are
written in it. -/
theorem exists_decodeDNSHeader {headerBuffer : Bytes} (h : 12 ≤ headerBuffer.length) :
    ∃ header, decodeDNSHeader headerBuffer = .ok header ∧
      BigEndian.uint16At headerBuffer 4 = .ok header.questionCount ∧
      BigEndian.uint16At headerBuffer 6 = .ok header.answerCount := by
  obtain ⟨ID, hID⟩ := BigEndian.exists_uint16At (b := headerBuffer) (p := 0) (by omega)
  obtain ⟨flags, hflags⟩ := BigEndian.exists_uint16At (b := headerBuffer) (p := 2) (by omega)
  obtain ⟨questions, hquestions⟩ := BigEndian.exists_uint16At (b := headerBuffer) (p := 4) (by omega)
  obtain ⟨answers, hanswers⟩ := BigEndian.exists_uint16At (b := headerBuffer) (p := 6) (by omega)
  obtain ⟨servers, hservers⟩ := BigEndian.exists_uint16At (b := headerBuffer) (p := 8) (by omega)
  simp only [decodeDNSHeader, hID, hflags, hquestions, hanswers, hservers, ok_bind]
  exact ⟨_, rfl, rfl, rfl⟩

/-- **When a header is decoded as it is laid out**: the op code has to be 0 and the bit
of an authoritative answer clear, the response code 0, and so the last count. -/
theorem decodeDNSHeader_layout_iff (headerBuffer : Bytes) (h : 12 ≤ headerBuffer.length) :
    (∃ header, decodeDNSHeader headerBuffer = .ok header ∧ header.LaidOut headerBuffer) ↔
      BigEndian.word headerBuffer 2 / 1024 % 32 = 0 ∧ BigEndian.word headerBuffer 2 % 16 = 0 ∧
        BigEndian.word headerBuffer 10 = 0 := by
  obtain ⟨ID, hID, hID'⟩ := BigEndian.uint16At_word (b := headerBuffer) (p := 0) (by omega)
  obtain ⟨flags, hflags, hflags'⟩ := BigEndian.uint16At_word (b := headerBuffer) (p := 2) (by omega)
  obtain ⟨questions, hquestions, hquestions'⟩ :=
    BigEndian.uint16At_word (b := headerBuffer) (p := 4) (by omega)
  obtain ⟨answers, hanswers, hanswers'⟩ :=
    BigEndian.uint16At_word (b := headerBuffer) (p := 6) (by omega)
  obtain ⟨servers, hservers, hservers'⟩ :=
    BigEndian.uint16At_word (b := headerBuffer) (p := 8) (by omega)
  have hopCode := opCode_toNat flags
  simp only [decodeDNSHeader, hID, hflags, hquestions, hanswers, hservers, ok_bind,
    Except.ok.injEq, exists_eq_left']
  constructor
  · intro hlaid
    have hop := hlaid.opCode
    have hrcode := hlaid.rcode
    have hcount := hlaid.additionalRecordsCount
    simp only [hopCode, UInt8.reduceToNat, UInt16.reduceToNat] at hop hrcode hcount
    exact ⟨by omega, hrcode.symm, hcount.symm⟩
  · rintro ⟨hop, hrcode, hcount⟩
    have hbit : ∀ {mask : UInt16} {i : Nat}, mask.toNat = 2 ^ i →
        (flags &&& mask != 0) = (BigEndian.word headerBuffer 2).testBit i := by
      intro mask i hmask
      rw [← hflags', and_bit_ne_zero flags hmask]
    have hquery : (flags &&& 0x8000 != 0) = (BigEndian.word headerBuffer 2).testBit 15 := hbit rfl
    constructor
    case ID => exact hID'
    case isQuery =>
      rw [← hquery]
      exact (Bool.not_not _).symm
    case opCode =>
      rw [hopCode]
      omega
    case authoritativeAnswer => exact hbit rfl
    case truncated => exact hbit rfl
    case recursionDesired => exact hbit rfl
    case recursionAvailable => exact hbit rfl
    case authenticateData => exact hbit rfl
    case rcode => exact hrcode.symm
    case questionCount => exact hquestions'
    case answerCount => exact hanswers'
    case nameServerCount => exact hservers'
    case additionalRecordsCount => exact hcount.symm

/-- A response to a query of the client, without an answer. -/
def plainResponse : Bytes := [3, 232, 129, 160, 0, 1, 0, 0, 0, 0, 0, 0]

theorem plainResponse_laidOut :
    ∃ header, decodeDNSHeader plainResponse = .ok header ∧ header.LaidOut plainResponse :=
  (decodeDNSHeader_layout_iff plainResponse (by decide)).mpr (by decide)

/-- The same from an authoritative server that does not know the name: neither its op
code 0 nor its response code 3 comes out. -/
theorem authoritativeResponse_not_laidOut :
    ¬ ∃ header, decodeDNSHeader [3, 232, 133, 163, 0, 1, 0, 0, 0, 0, 0, 0] = .ok header ∧
      header.LaidOut [3, 232, 133, 163, 0, 1, 0, 0, 0, 0, 0, 0] := by
  rintro ⟨header, hdecode, hlaid⟩
  obtain rfl := Except.ok.inj hdecode
  exact absurd hlaid.rcode (by decide)

end Nyctomek.Dns

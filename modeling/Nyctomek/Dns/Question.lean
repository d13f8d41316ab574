/-
# `Dns.Question` — a question, there and back

The decoder of a question recovers the dots by taking every byte below 64 for the
length of a label.  Lengths are below 64, and so are digits and hyphens: these
come back as dots (`decodeDNSQuestion_encode`).
-/
import Nyctomek.Dns.Name

namespace Nyctomek.Dns

open Prog

abbrev QuestionType := UInt16

abbrev ClassType := UInt16

structure DNSQuestion where
  domainName : Bytes
  questionType : QuestionType
  classType : ClassType
  deriving DecidableEq, Repr

/-- The name in `encodeDNSQuestion`, up to and including the terminating zero. -/
def encodeDomainName (domainName : Bytes) : Bytes :=
  let domainLabels := domainName.splitOn dot
  let questionBuffer := domainLabels.foldl
    (fun questionBuffer v => (questionBuffer ++ [UInt8.ofNat v.length]) ++ v) []
  questionBuffer ++ [0]

def encodeDNSQuestion (question : DNSQuestion) : Bytes :=
  let questionBuffer := encodeDomainName question.domainName
  let questionBuffer := BigEndian.appendUint16 questionBuffer question.questionType
  BigEndian.appendUint16 questionBuffer question.classType

/-- What `decodeDomainName` makes of a byte. -/
def dotted (v : UInt8) : UInt8 := if v < 64 then dot else v

def decodeDomainName (buffer : Bytes) (skipDot : Bool) : Bytes :=
  match buffer.idxOf? 0 with
  | none => []
  | some index =>
      if index > 0 then
        let start := if skipDot then 1 else 0
        ((buffer.take index).drop start).map dotted
      else []

/-- `decodeDNSQuestion`, with the new value of `*bytesDecoded`. -/
def decodeDNSQuestion (questionBuffer : Bytes) : Except Panic (DNSQuestion × Nat) := do
  let domainName := decodeDomainName questionBuffer true
  let typeIndex := domainName.length + 2
  let questionType ← BigEndian.uint16At questionBuffer typeIndex
  let classType ← BigEndian.uint16At questionBuffer (typeIndex + 2)
  .ok (⟨domainName, questionType, classType⟩, typeIndex + 4)

/-! ## Names of letters, digits and hyphens -/

def IsLetter (b : UInt8) : Prop := (65 ≤ b ∧ b ≤ 90) ∨ (97 ≤ b ∧ b ≤ 122)

def IsDigit (b : UInt8) : Prop := 48 ≤ b ∧ b ≤ 57

instance (b : UInt8) : Decidable (IsLetter b) :=
  inferInstanceAs (Decidable ((65 ≤ b ∧ b ≤ 90) ∨ (97 ≤ b ∧ b ≤ 122)))

instance (b : UInt8) : Decidable (IsDigit b) :=
  inferInstanceAs (Decidable (48 ≤ b ∧ b ≤ 57))

/-- `'-'`. -/
def hyphen : UInt8 := 45

/-- A label as a host name has it. -/
structure IsHostLabel (label : Bytes) : Prop where
  pos : 0 < label.length
  short : label.length ≤ 63
  byte : ∀ b ∈ label, IsLetter b ∨ IsDigit b ∨ b = hyphen

theorem IsHostLabel.ne {label : Bytes} (h : IsHostLabel label) {b : UInt8} (hb : b ∈ label) :
    b ≠ 0 ∧ b ≠ dot := by
  -- digits and letters lie above the dot, the hyphen just below it
  have habove : 48 ≤ b → b ≠ 0 ∧ b ≠ dot := by
    intro hlow
    exact ⟨(lt_of_lt_of_le (by decide) hlow).ne', (lt_of_lt_of_le (by decide) hlow).ne'⟩
  rcases h.byte b hb with (⟨hlow, -⟩ | ⟨hlow, -⟩) | ⟨hlow, -⟩ | rfl
  · exact habove (le_trans (by decide) hlow)
  · exact habove (le_trans (by decide) hlow)
  · exact habove hlow
  · decide

theorem IsHostLabel.isLabel {label : Bytes} (h : IsHostLabel label) : IsLabel label where
  pos := h.pos
  short := h.short
  nonzero hzero := (h.ne hzero).1 rfl

/-- Of the bytes of a host name exactly the letters stay. -/
theorem dotted_eq_self {b : UInt8} (h : IsLetter b ∨ IsDigit b ∨ b = hyphen) :
    dotted b = b ↔ IsLetter b := by
  constructor
  · intro heq
    rcases h with hletter | ⟨hlow, hhigh⟩ | rfl
    · exact hletter
    · rw [dotted, if_pos (lt_of_le_of_lt hhigh (by decide))] at heq
      exact absurd hlow (heq ▸ by decide)
    · exact absurd heq (by decide)
  · rintro (⟨hlow, -⟩ | ⟨hlow, -⟩)
    · exact if_neg (not_lt.mpr (le_trans (by decide) hlow))
    · exact if_neg (not_lt.mpr (le_trans (by decide) hlow))

/-! ## The encoding -/

theorem encodeDomainName_eq {labels : List Bytes} (hlabels : labels ≠ [])
    (hdot : ∀ label ∈ labels, dot ∉ label) :
    encodeDomainName (joinDots labels) = encodeLabels labels ++ [0] := by
  have hfold : ∀ (ls : List Bytes) (buffer : Bytes),
      ls.foldl (fun questionBuffer v => (questionBuffer ++ [UInt8.ofNat v.length]) ++ v) buffer
        = buffer ++ encodeLabels ls := by
    intro ls
    induction ls with
    | nil => simp
    | cons l ls ih =>
        intro buffer
        rw [List.foldl_cons, ih, encodeLabels_cons]
        simp [encodeLabel]
  rw [encodeDomainName, joinDots, List.splitOn_intercalate dot hdot hlabels]
  simp only [hfold, List.nil_append]

theorem encodeDNSQuestion_eq (question : DNSQuestion) :
    encodeDNSQuestion question = encodeDomainName question.domainName ++
      (BigEndian.appendUint16 [] question.questionType ++
        BigEndian.appendUint16 [] question.classType) := by
  simp [encodeDNSQuestion, BigEndian.appendUint16]

/-! ## The round trip -/

theorem IsLabel.dotted_length {label : Bytes} (h : IsLabel label) :
    dotted (UInt8.ofNat label.length) = dot := by
  have hlt : UInt8.ofNat label.length < 64 := by
    have hshort := h.short
    rw [UInt8.lt_iff_toNat_lt, h.isByteLabel.toNat_length]
    exact Nat.lt_of_le_of_lt hshort (by decide)
  exact if_pos hlt

/-- Lengths turn into the dots before the labels. -/
theorem map_dotted_encodeLabels {labels : List Bytes} (h : ∀ label ∈ labels, IsLabel label) :
    (encodeLabels labels).map dotted = (afterDot labels).map dotted := by
  induction labels with
  | nil => rfl
  | cons label labels ih =>
      have hdot : dotted dot = dot := rfl
      rw [encodeLabels_cons, afterDot_cons, List.map_append, ih fun l hl => h l (by simp [hl]),
        encodeLabel, List.map_cons, (h label (by simp)).dotted_length, List.map_cons, hdot,
        List.map_append, List.cons_append]

theorem idxOf?_zero {pre : Bytes} (h : 0 ∉ pre) (rest : Bytes) :
    (pre ++ 0 :: rest).idxOf? 0 = some pre.length := by
  induction pre with
  | nil => simp [List.idxOf?_cons]
  | cons b pre ih =>
      have hb : (b == 0) = false := by
        rw [beq_eq_false_iff_ne]
        rintro rfl
        exact h (by simp)
      rw [List.cons_append, List.idxOf?_cons, hb, ih fun hmem => h (by simp [hmem])]
      simp

/-- Bytes up to a zero byte are decoded without the first one. -/
theorem decodeDomainName_zero {name : Bytes} (hzero : 0 ∉ name) (hne : name ≠ []) (rest : Bytes) :
    decodeDomainName (name ++ 0 :: rest) true = (name.drop 1).map dotted := by
  have hpos : name.length > 0 := List.length_pos_iff.mpr hne
  simp only [decodeDomainName, idxOf?_zero hzero rest, if_pos hpos, if_true, List.take_left]

/-- The text of a name is one byte shorter than its labels on the wire. -/
theorem length_joinDots (label : Bytes) (labels : List Bytes) :
    (joinDots (label :: labels)).length + 1 = (encodeLabels (label :: labels)).length := by
  rw [joinDots_cons, encodeLabels_cons, List.length_append, List.length_append, length_afterDot,
    length_encodeLabel]
  omega

/-- A question on the wire. -/
def encodeQuestion (labels : List Bytes) (questionType : QuestionType) (classType : ClassType) :
    Bytes :=
  encodeLabels labels ++ ([0] ++ (BigEndian.appendUint16 [] questionType ++
    BigEndian.appendUint16 [] classType))

theorem length_encodeQuestion {labels : List Bytes} {questionType : QuestionType}
    {classType : ClassType} :
    (encodeQuestion labels questionType classType).length = (encodeLabels labels).length + 5 := by
  simp [encodeQuestion, BigEndian.appendUint16]

/-- **Where a question ends**: the decoder finds type and class behind the zero byte of any
name, and counts up to the end of them. -/
theorem decodeDNSQuestion_zero {name : Bytes} (hzero : 0 ∉ name) (hne : name ≠ [])
    (questionType : QuestionType) (classType : ClassType) (rest : Bytes) :
    decodeDNSQuestion (name ++ (0 :: (BigEndian.appendUint16 [] questionType ++
        (BigEndian.appendUint16 [] classType ++ rest))))
      = .ok (⟨(name.drop 1).map dotted, questionType, classType⟩, name.length + 5) := by
  have hname := decodeDomainName_zero hzero hne (BigEndian.appendUint16 [] questionType ++
    (BigEndian.appendUint16 [] classType ++ rest))
  have hpos : 0 < name.length := List.length_pos_iff.mpr hne
  have hindex : (name.drop 1).length + 2 = name.length + 1 := by
    rw [List.length_drop]
    omega
  generalize hbuf : name ++ (0 :: (BigEndian.appendUint16 [] questionType ++
    (BigEndian.appendUint16 [] classType ++ rest))) = buf at hname ⊢
  have htype : buf.At (name.length + 1) (BigEndian.appendUint16 [] questionType) :=
    Bytes.at_of_split (name ++ [0]) (BigEndian.appendUint16 [] classType ++ rest)
      (by rw [← hbuf, List.append_assoc, List.singleton_append]) (by simp)
  have hclass : buf.At (name.length + 1 + 2) (BigEndian.appendUint16 [] classType) :=
    Bytes.at_of_split (name ++ (0 :: BigEndian.appendUint16 [] questionType)) rest
      (by rw [← hbuf, List.append_assoc, List.cons_append]) (by simp [BigEndian.appendUint16])
  simp only [decodeDNSQuestion, hname, List.length_map, hindex, BigEndian.uint16At_of_at htype,
    BigEndian.uint16At_of_at hclass, ok_bind]

/-- Behind its labels a question goes on as the decoder expects. -/
theorem encodeQuestion_append (labels : List Bytes) (questionType : QuestionType)
    (classType : ClassType) (rest : Bytes) :
    encodeQuestion labels questionType classType ++ rest
      = encodeLabels labels ++ (0 :: (BigEndian.appendUint16 [] questionType ++
          (BigEndian.appendUint16 [] classType ++ rest))) := by
  simp [encodeQuestion]

theorem encodeLabels_ne_nil {labels : List Bytes} (h : labels ≠ []) : encodeLabels labels ≠ [] := by
  obtain ⟨label, labels, rfl⟩ := List.exists_cons_of_ne_nil h
  simp [encodeLabel]

/-- **Decoding a question** turns every byte of its name below 64 into a dot, and
counts the bytes right, whatever comes after it. -/
theorem decodeDNSQuestion_wire {labels : List Bytes} (hlabels : labels ≠ [])
    (h : ∀ l ∈ labels, IsLabel l) (questionType : QuestionType) (classType : ClassType)
    (rest : Bytes) :
    decodeDNSQuestion (encodeQuestion labels questionType classType ++ rest)
      = .ok (⟨(joinDots labels).map dotted, questionType, classType⟩,
          (encodeQuestion labels questionType classType).length) := by
  have hzero := zero_notMem_encodeLabels fun l hl => (h l hl).isByteLabel
  rw [encodeQuestion_append, decodeDNSQuestion_zero hzero (encodeLabels_ne_nil hlabels),
    length_encodeQuestion]
  obtain ⟨label, labels, rfl⟩ := List.exists_cons_of_ne_nil hlabels
  have htail : ∀ l ∈ labels, IsLabel l := fun l hl => h l (by simp [hl])
  rw [joinDots_cons, encodeLabels_cons, encodeLabel, List.cons_append, List.drop_one,
    List.tail_cons, List.map_append, List.map_append, map_dotted_encodeLabels htail]

/-- Decoding an encoded question. -/
theorem decodeDNSQuestion_encode (question : DNSQuestion) {labels : List Bytes}
    (hname : question.domainName = joinDots labels) (hlabels : labels ≠ [])
    (h : ∀ label ∈ labels, IsLabel label ∧ dot ∉ label) :
    decodeDNSQuestion (encodeDNSQuestion question)
      = .ok ({ question with domainName := question.domainName.map dotted },
          (encodeDNSQuestion question).length) := by
  have hencode : encodeDNSQuestion question
      = encodeQuestion labels question.questionType question.classType ++ [] := by
    rw [encodeDNSQuestion_eq, hname, encodeDomainName_eq hlabels fun l hl => (h l hl).2]
    simp [encodeQuestion]
  rw [hencode, decodeDNSQuestion_wire hlabels fun l hl => (h l hl).1, hname, List.append_nil]

/-- Every byte of a label stands in the text; all others there are dots. -/
theorem mem_joinDots {labels : List Bytes} {b : UInt8} :
    (∀ label ∈ labels, b ∈ label → b ∈ joinDots labels) ∧
      (b ∈ joinDots labels → b = dot ∨ ∃ label ∈ labels, b ∈ label) := by
  cases labels with
  | nil => simp [joinDots]
  | cons label labels =>
      have hafter : b ∈ afterDot labels ↔ ∃ l ∈ labels, b = dot ∨ b ∈ l := by
        simp [afterDot]
      simp only [joinDots_cons, List.mem_append, hafter, List.mem_cons]
      constructor
      · rintro l (rfl | hl) hb
        · exact .inl hb
        · exact .inr ⟨l, hl, .inr hb⟩
      · rintro (hb | ⟨l, hl, hdot | hb⟩)
        · exact .inr ⟨label, .inl rfl, hb⟩
        · exact .inl hdot
        · exact .inr ⟨l, .inr hl, hb⟩

/-- The text stays as it is when the bytes of the labels do. -/
theorem map_dotted_joinDots {labels : List Bytes} :
    (joinDots labels).map dotted = joinDots labels ↔
      ∀ label ∈ labels, ∀ b ∈ label, dotted b = b := by
  have hself : (joinDots labels).map dotted = joinDots labels ↔
      ∀ b ∈ joinDots labels, dotted b = b := by
    have hmap : (joinDots labels).map dotted = (joinDots labels).map id ↔
        ∀ b ∈ joinDots labels, dotted b = id b := List.map_inj_left
    rwa [List.map_id] at hmap
  rw [hself]
  constructor
  · exact fun h label hlabel b hb => h b (mem_joinDots.1 label hlabel hb)
  · intro h b hb
    rcases mem_joinDots.2 hb with rfl | ⟨label, hlabel, hb⟩
    · rfl
    · exact h label hlabel b hb

/-- **When a question comes back**: exactly if its name consists of letters. -/
theorem decodeDNSQuestion_encode_iff (question : DNSQuestion) (labels : List Bytes)
    (hname : question.domainName = joinDots labels) (hlabels : labels ≠ [])
    (h : ∀ label ∈ labels, IsHostLabel label) :
    decodeDNSQuestion (encodeDNSQuestion question)
        = .ok (question, (encodeDNSQuestion question).length) ↔
      ∀ label ∈ labels, ∀ b ∈ label, IsLetter b := by
  rw [decodeDNSQuestion_encode question hname hlabels fun l hl =>
    ⟨(h l hl).isLabel, fun hdot => ((h l hl).ne hdot).2 rfl⟩]
  have hletters : (∀ label ∈ labels, ∀ b ∈ label, dotted b = b) ↔
      ∀ label ∈ labels, ∀ b ∈ label, IsLetter b :=
    forall₂_congr fun l hl => forall₂_congr fun b hb => dotted_eq_self ((h l hl).byte b hb)
  rw [← hletters, ← map_dotted_joinDots, ← hname]
  constructor
  · intro heq
    exact congrArg (fun r => r.1.domainName) (Except.ok.inj heq)
  · intro hself
    rw [hself]

/-- `"ab.c"`. -/
theorem lettersQuestion_roundTrip :
    decodeDNSQuestion (encodeDNSQuestion ⟨[97, 98, 46, 99], 1, 1⟩)
      = .ok (⟨[97, 98, 46, 99], 1, 1⟩, (encodeDNSQuestion ⟨[97, 98, 46, 99], 1, 1⟩).length) := by
  have hhost : ∀ label ∈ ([[97, 98], [99]] : List Bytes), IsHostLabel label := by
    simp only [List.mem_cons, List.not_mem_nil, or_false, forall_eq_or_imp, forall_eq]
    exact ⟨⟨by decide, by decide, by simp [IsLetter]⟩, ⟨by decide, by decide, by simp [IsLetter]⟩⟩
  exact (decodeDNSQuestion_encode_iff ⟨[97, 98, 46, 99], 1, 1⟩ [[97, 98], [99]] rfl (by simp)
    hhost).mpr (by simp [IsLetter])

/-- `"a1"` comes back as `"a."`. -/
theorem digitQuestion_no_roundTrip :
    (∀ label ∈ ([[97, 49]] : List Bytes), IsHostLabel label) ∧
    decodeDNSQuestion (encodeDNSQuestion ⟨joinDots [[97, 49]], 1, 1⟩)
      ≠ .ok (⟨joinDots [[97, 49]], 1, 1⟩,
          (encodeDNSQuestion ⟨joinDots [[97, 49]], 1, 1⟩).length) := by
  have hhost : ∀ label ∈ ([[97, 49]] : List Bytes), IsHostLabel label := by
    simp only [List.mem_singleton, forall_eq]
    exact ⟨by decide, by decide, by simp [IsLetter, IsDigit]⟩
  refine ⟨hhost, ?_⟩
  rw [decodeDNSQuestion_encode ⟨joinDots [[97, 49]], 1, 1⟩ rfl (by simp) fun l hl =>
    ⟨(hhost l hl).isLabel, fun hdot => ((hhost l hl).ne hdot).2 rfl⟩]
  decide

/-! ## Spellings -/

/-- The spellings of a name: with and without a dot behind it.  Those of the root are a
dot and the empty string. -/
def IsSpelling (labels : List Bytes) (text : Bytes) : Prop :=
  text = joinDots labels ∨ text = joinDots labels ++ [dot]

/-- What is encoded are the pieces between the dots, the empty ones too. -/
theorem encodeDNSQuestion_joinDots {pieces : List Bytes} (hne : pieces ≠ [])
    (hdot : ∀ piece ∈ pieces, dot ∉ piece) (questionType : QuestionType) (classType : ClassType) :
    encodeDNSQuestion ⟨joinDots pieces, questionType, classType⟩
      = encodeQuestion pieces questionType classType := by
  rw [encodeDNSQuestion_eq, encodeDomainName_eq hne hdot, encodeQuestion, List.append_assoc]

/-- A dot behind a name adds an empty piece, and so it does to the empty string. -/
theorem joinDots_concat_nil {labels : List Bytes} (h : labels ≠ []) :
    joinDots (labels ++ [[]]) = joinDots labels ++ [dot] := by
  obtain ⟨label, labels, rfl⟩ := List.exists_cons_of_ne_nil h
  rw [List.cons_append, joinDots_cons, joinDots_cons, afterDot_append, afterDot_cons, afterDot_nil,
    List.append_assoc, List.append_nil]

/-- The pieces of a spelling other than the one without the dot: some of them are empty. -/
theorem IsSpelling.pieces {labels : List Bytes} {text : Bytes} (h : IsSpelling labels text)
    (hother : ¬ (labels ≠ [] ∧ text = joinDots labels)) :
    ∃ n, text = joinDots (labels ++ List.replicate (n + 1) []) := by
  cases labels with
  | nil =>
      rcases h with rfl | rfl
      · exact ⟨0, rfl⟩
      · exact ⟨1, rfl⟩
  | cons label labels =>
      have hne : label :: labels ≠ [] := List.cons_ne_nil label labels
      rcases h with htext | htext
      · exact absurd ⟨hne, htext⟩ hother
      · exact ⟨0, htext.trans (joinDots_concat_nil hne).symm⟩

theorem length_encodeLabels_append_replicate (labels : List Bytes) (n : Nat) :
    (encodeLabels (labels ++ List.replicate n [])).length = (encodeLabels labels).length + n := by
  induction n with
  | zero => simp
  | succ n ih =>
      rw [List.replicate_succ', ← List.append_assoc, encodeLabels, List.flatMap_append,
        ← encodeLabels, List.length_append, ih]
      rfl

/-- **Which spellings are encoded well**: those without a dot at the end, of names other
than the root. -/
theorem encodeDNSQuestion_wellFormed_iff (labels : List Bytes) (text : Bytes)
    (questionType : QuestionType) (classType : ClassType)
    (hlabels : ∀ label ∈ labels, IsLabel label ∧ dot ∉ label) (htext : IsSpelling labels text) :
    encodeDNSQuestion ⟨text, questionType, classType⟩
        = encodeQuestion labels questionType classType ↔
      labels ≠ [] ∧ text = joinDots labels := by
  constructor
  · intro hwell
    by_contra hother
    obtain ⟨n, rfl⟩ := htext.pieces hother
    have hdot : ∀ piece ∈ labels ++ List.replicate (n + 1) [], dot ∉ piece := by
      intro piece hpiece
      rcases List.mem_append.mp hpiece with hlabel | hnil
      · exact (hlabels piece hlabel).2
      · rw [List.eq_of_mem_replicate hnil]
        exact List.not_mem_nil
    rw [encodeDNSQuestion_joinDots (by simp) hdot] at hwell
    have hlength := congrArg List.length hwell
    rw [length_encodeQuestion, length_encodeQuestion, length_encodeLabels_append_replicate]
      at hlength
    omega
  · rintro ⟨hne, rfl⟩
    exact encodeDNSQuestion_joinDots hne (fun label hlabel => (hlabels label hlabel).2) _ _

/-- `"a.b"`. -/
theorem dotlessQuestion_wellFormed :
    encodeDNSQuestion ⟨[97, 46, 98], 1, 1⟩ = encodeQuestion [[97], [98]] 1 1 := by
  refine (encodeDNSQuestion_wellFormed_iff [[97], [98]] [97, 46, 98] 1 1 ?_ (.inl rfl)).mpr
    ⟨by simp, rfl⟩
  simp only [List.mem_cons, List.not_mem_nil, or_false, forall_eq_or_imp, forall_eq]
  exact ⟨⟨⟨by decide, by decide, by decide⟩, by decide⟩, ⟨⟨by decide, by decide, by decide⟩, by decide⟩⟩

/-- `"a."` has a zero byte too many. -/
theorem dottedQuestion_malformed :
    (∀ label ∈ ([[97]] : List Bytes), IsLabel label ∧ dot ∉ label) ∧ IsSpelling [[97]] [97, 46] ∧
      encodeDNSQuestion ⟨[97, 46], 1, 1⟩ = [1, 97, 0, 0, 0, 1, 0, 1] ∧
      encodeDNSQuestion ⟨[97, 46], 1, 1⟩ ≠ encodeQuestion [[97]] 1 1 := by
  refine ⟨?_, .inr rfl, by decide, by decide⟩
  simp only [List.mem_singleton, forall_eq]
  exact ⟨⟨by decide, by decide, by decide⟩, by decide⟩

end Nyctomek.Dns

/-
# `Dns.Domain` — `decodeDomain`

`decodeDomain` follows the compression pointers in front of a name, takes the
length of the first label, and then copies labels, following pointers, up to a
zero byte.  Its result is the text and the number of bytes up to the furthest
position it came to.

`Starts` and `Resumes` say what its two loops make of a name that stands in the
message, at its beginning and behind another label.
-/
import Nyctomek.Dns.Question
import Nyctomek.Prog.Loop

namespace Nyctomek.Dns

open Prog

/-- The variables of the second loop of `decodeDomain`. -/
structure Decoding where
  domainBuffer : Bytes
  destPos : Nat
  currentPos : Nat
  maxPos : Nat
  numOctets : UInt8
  deriving DecidableEq, Repr

/-- One turn of the first loop: `currentPos` and `maxPos`.  The mask is the
decimal number 80, not `0x80`. -/
def jumpTurn (responseBuffer : Bytes) (s : Nat × Nat) :
    Except Panic (Turn (Nat × Nat) (Nat × Nat)) := do
  let b ← responseBuffer.index s.1
  if b &&& 80 ≠ 0 then
    let currentPos := s.1 + 1
    let maxPos := max s.2 currentPos
    let target ← responseBuffer.index currentPos
    .ok (.again (target.toNat, maxPos))
  else .ok (.stop s)

/-- One turn of the second loop. -/
def decodeTurn (responseBuffer : Bytes) (s : Decoding) : Except Panic (Turn Decoding Decoding) := do
  let b ← responseBuffer.index s.currentPos
  if b ≠ 0 ∧ s.currentPos < responseBuffer.length then
    if s.numOctets > 0 then
      let domainBuffer ← s.domainBuffer.setIndex s.destPos b
      .ok (.again ⟨domainBuffer, s.destPos + 1, s.currentPos + 1,
        max s.maxPos (s.currentPos + 1), s.numOctets - 1⟩)
    else if b &&& 0x80 ≠ 0 then
      let currentPos := s.currentPos + 1
      let maxPos := max s.maxPos currentPos
      let target ← responseBuffer.index currentPos
      .ok (.again { s with currentPos := target.toNat, maxPos })
    else
      let domainBuffer ← s.domainBuffer.setIndex s.destPos dot
      .ok (.again ⟨domainBuffer, s.destPos + 1, s.currentPos + 1,
        max s.maxPos (s.currentPos + 1), b⟩)
  else .ok (.stop s)

/-- `decodeDomain` behind its first loop: the text and the final `maxPos`. -/
def decodeLabels (fuel : Nat) (responseBuffer : Bytes) (pos : Nat × Nat) :
    Exec Panic (Bytes × Nat) := do
  let domainBuffer := List.replicate responseBuffer.length 0
  let numOctets ← (responseBuffer.index pos.1 : Exec Panic _)
  let s ← loop (decodeTurn responseBuffer) fuel ⟨domainBuffer, 0, pos.1 + 1, pos.2, numOctets⟩
  let domainName ← (s.domainBuffer.sliceTo s.destPos : Exec Panic _)
  return (domainName, s.maxPos)

/-- `decodeDomain`: the text and the number of bytes decoded. -/
def decodeDomain (fuel : Nat) (responseBuffer : Bytes) (startPos : Nat) :
    Exec Panic (Bytes × Nat) := do
  let pos ← loop (jumpTurn responseBuffer) fuel (startPos, startPos)
  let (domainName, maxPos) ← decodeLabels fuel responseBuffer pos
  return (domainName, maxPos - startPos + 1)

/-! ## Single turns -/

section
variable {buf : Bytes} {p m : Nat} {w : Bytes} {k b : UInt8}

/-- The variables of the second loop with the text `w` written so far. -/
def writing (buf w : Bytes) (k : UInt8) (p m : Nat) : Decoding :=
  ⟨w ++ List.replicate (buf.length - w.length) 0, w.length, p, m, k⟩

theorem setIndex_writing (h : w.length < buf.length) (b : UInt8) :
    Bytes.setIndex (w ++ List.replicate (buf.length - w.length) 0) w.length b
      = .ok ((w ++ [b]) ++ List.replicate (buf.length - (w ++ [b]).length) 0) := by
  obtain ⟨n, hn⟩ : ∃ n, buf.length - w.length = n + 1 := ⟨buf.length - w.length - 1, by omega⟩
  have hn' : buf.length - (w ++ [b]).length = n := by
    rw [List.length_append, List.length_singleton]
    omega
  rw [Bytes.setIndex_of_lt (by simp [hn]), hn', hn, List.replicate_succ]
  simp

/-- What has been written is the text. -/
theorem sliceTo_writing (buf w : Bytes) :
    Bytes.sliceTo (w ++ List.replicate (buf.length - w.length) 0) w.length = .ok w := by
  rw [Bytes.sliceTo, if_pos (by simp), List.take_left]

/-- A byte of a label is copied. -/
theorem decodeTurn_copy (hb : buf[p]? = some b) (hb0 : b ≠ 0) (hk : k > 0)
    (hout : w.length < buf.length) :
    decodeTurn buf (writing buf w k p m)
      = .ok (.again (writing buf (w ++ [b]) (k - 1) (p + 1) (max m (p + 1)))) := by
  obtain ⟨hp, -⟩ := List.getElem?_eq_some_iff.mp hb
  simp only [decodeTurn, writing, Bytes.index_eq_ok.mpr hb, ok_bind, if_pos (And.intro hb0 hp),
    if_pos hk, setIndex_writing hout, List.length_append, List.length_singleton]

/-- A length is taken for the next label, and a dot written. -/
theorem decodeTurn_length (hb : buf[p]? = some b) (hb0 : b ≠ 0) (hb80 : b &&& 0x80 = 0)
    (hout : w.length < buf.length) :
    decodeTurn buf (writing buf w 0 p m)
      = .ok (.again (writing buf (w ++ [dot]) b (p + 1) (max m (p + 1)))) := by
  obtain ⟨hp, -⟩ := List.getElem?_eq_some_iff.mp hb
  have hk : ¬ (0 : UInt8) > 0 := by decide
  have hlow : ¬ (b &&& 0x80 ≠ 0) := fun h => h hb80
  simp only [decodeTurn, writing, Bytes.index_eq_ok.mpr hb, ok_bind, if_pos (And.intro hb0 hp),
    if_neg hk, if_neg hlow, setIndex_writing hout, List.length_append, List.length_singleton]

/-- A pointer is followed, by its low byte. -/
theorem decodeTurn_pointer {target : UInt8} (hb : buf[p]? = some b) (hb80 : b &&& 0x80 ≠ 0)
    (htarget : buf[p + 1]? = some target) :
    decodeTurn buf (writing buf w 0 p m)
      = .ok (.again (writing buf w 0 target.toNat (max m (p + 1)))) := by
  obtain ⟨hp, -⟩ := List.getElem?_eq_some_iff.mp hb
  have hb0 : b ≠ 0 := by
    rintro rfl
    exact hb80 (by decide)
  have hk : ¬ (0 : UInt8) > 0 := by decide
  simp only [decodeTurn, writing, Bytes.index_eq_ok.mpr hb, ok_bind, if_pos (And.intro hb0 hp),
    if_neg hk, if_pos hb80, Bytes.index_eq_ok.mpr htarget]

/-- A zero byte ends the name. -/
theorem decodeTurn_zero (hb : buf[p]? = some 0) (s : Decoding) (hs : s.currentPos = p) :
    decodeTurn buf s = .ok (.stop s) := by
  have hb0 : ¬ ((0 : UInt8) ≠ 0 ∧ s.currentPos < buf.length) := fun h => h.1 rfl
  subst hs
  simp only [decodeTurn, Bytes.index_eq_ok.mpr hb, ok_bind, if_neg hb0]

/-! ## Whole labels -/

theorem ofNat_succ_pos {n : Nat} (h : n + 1 < 256) :
    UInt8.ofNat (n + 1) > 0 ∧ UInt8.ofNat (n + 1) - 1 = UInt8.ofNat n := by
  constructor
  · rw [gt_iff_lt, UInt8.lt_iff_toNat_lt, UInt8.toNat_ofNat']
    simp
    omega
  · rw [UInt8.ofNat_add]
    exact UInt8.add_sub_cancel _ _

/-- The bytes of a label are copied one by one. -/
theorem copy_turns {bs : Bytes} (hbs : Bytes.At buf p bs) (hzero : 0 ∉ bs) (hne : bs ≠ [])
    (hshort : bs.length < 256) (hout : w.length + bs.length ≤ buf.length) :
    Turns (decodeTurn buf) (writing buf w (UInt8.ofNat bs.length) p m)
      (writing buf (w ++ bs) 0 (p + bs.length) (max m (p + bs.length))) := by
  induction bs generalizing w p m with
  | nil => exact absurd rfl hne
  | cons b bs ih =>
      obtain ⟨hb, hbs⟩ := hbs
      rw [List.length_cons] at hshort hout ⊢
      obtain ⟨hk, hpred⟩ := ofNat_succ_pos hshort
      have hb0 : b ≠ 0 := fun h => hzero (by simp [h])
      have hlt : w.length < buf.length := by omega
      have hturn := decodeTurn_copy (m := m) hb hb0 hk hlt
      rw [hpred] at hturn
      cases bs with
      | nil => exact Turns.single hturn
      | cons b' bs =>
          refine Turns.head hturn ?_
          have ih := ih (w := w ++ [b]) (p := p + 1) (m := max m (p + 1)) hbs
            (fun h => hzero (by simp [h])) (by simp) (by omega)
            (by rw [List.length_append, List.length_singleton]; omega)
          have hpos : p + 1 + (b' :: bs).length = p + ((b' :: bs).length + 1) := by omega
          have hmax : max (max m (p + 1)) (p + ((b' :: bs).length + 1))
              = max m (p + ((b' :: bs).length + 1)) := by omega
          rw [hpos, hmax, List.append_assoc, List.singleton_append] at ih
          exact ih

/-- The length of a label is no pointer to the second loop. -/
theorem IsLabel.length_low {label : Bytes} (h : IsLabel label) :
    UInt8.ofNat label.length &&& 0x80 = 0 := by
  have hall : ∀ n : Fin 64, UInt8.ofNat n &&& 0x80 = 0 := by decide
  exact hall ⟨label.length, Nat.lt_of_le_of_lt h.short (by decide)⟩

/-- Labels behind others are copied, each behind a dot. -/
theorem labels_turns {ls : List Bytes} (hls : Bytes.At buf p (encodeLabels ls))
    (hlabels : ∀ l ∈ ls, IsLabel l) (hpm : p ≤ m)
    (hout : w.length + (afterDot ls).length ≤ buf.length) :
    Turns (decodeTurn buf) (writing buf w 0 p m)
      (writing buf (w ++ afterDot ls) 0 (p + (encodeLabels ls).length)
        (max m (p + (encodeLabels ls).length))) := by
  induction ls generalizing w p m with
  | nil =>
      rw [afterDot_nil, encodeLabels_nil, List.append_nil, List.length_nil, Nat.add_zero,
        Nat.max_eq_left hpm]
      exact .refl _
  | cons l ls ih =>
      have hl := hlabels l (by simp)
      have hshort := hl.short
      rw [encodeLabels_cons, Bytes.at_append, length_encodeLabel] at hls
      obtain ⟨⟨hlen, hbytes⟩, hls⟩ := hls
      simp only [afterDot_cons, List.length_cons, List.length_append] at hout
      have hlength := decodeTurn_length (m := m) hlen hl.isByteLabel.length_ne_zero hl.length_low
        (show w.length < buf.length by omega)
      have hcopy := copy_turns (m := max m (p + 1)) (w := w ++ [dot]) hbytes hl.nonzero
        (List.length_pos_iff.mp hl.pos) (by omega)
        (by rw [List.length_append, List.length_singleton]; omega)
      refine Turns.head hlength (hcopy.trans ?_)
      have hpos : p + 1 + l.length = p + (l.length + 1) := by omega
      have ih := ih (w := w ++ [dot] ++ l) (m := max (max m (p + 1)) (p + (l.length + 1))) hls
        (fun l' hl' => hlabels l' (by simp [hl'])) (by omega)
        (by simp only [List.length_append, List.length_singleton]; omega)
      have hend : p + (l.length + 1) + (encodeLabels ls).length
          = p + (encodeLabels (l :: ls)).length := by
        rw [encodeLabels_cons, List.length_append, length_encodeLabel]
        omega
      have hmax : max (max (max m (p + 1)) (p + (l.length + 1))) (p + (encodeLabels (l :: ls)).length)
          = max m (p + (encodeLabels (l :: ls)).length) := by omega
      rw [hend, hmax] at ih
      rw [hpos]
      simpa using ih

/-! ## Names -/

/-- `n` bytes from `p` on make the second loop write the labels `ls`, behind what
has been written before. -/
def Resumes (buf : Bytes) (p : Nat) (ls : List Bytes) (n : Nat) : Prop :=
  ∀ w m, p ≤ m → w.length + (afterDot ls).length ≤ buf.length →
    ∃ q, Ends (fun fuel => loop (decodeTurn buf) fuel (writing buf w 0 p m))
      (.ok (writing buf (w ++ afterDot ls) 0 q (max m (p + n - 1))))

/-- `n` bytes from `p` on make the two loops, one after the other, write the name
with the labels `ls`. -/
def Starts (buf : Bytes) (p : Nat) (ls : List Bytes) (n : Nat) : Prop :=
  ∀ m, p ≤ m → (joinDots ls).length ≤ buf.length →
    ∃ pos, Ends (fun fuel => loop (jumpTurn buf) fuel (p, m)) (.ok pos) ∧
      Ends (fun fuel => decodeLabels fuel buf pos) (.ok (joinDots ls, max m (p + n - 1)))

/-- What the second loop has written is the text. -/
theorem decodeLabels_ends (pos : Nat × Nat) {q m' : Nat} (hk : buf[pos.1]? = some k)
    (hloop : Ends (fun fuel => loop (decodeTurn buf) fuel (writing buf [] k (pos.1 + 1) pos.2))
      (.ok (writing buf w 0 q m'))) :
    Ends (fun fuel => decodeLabels fuel buf pos) (.ok (w, m')) := by
  simp only [decodeLabels, Bytes.index_eq_ok.mpr hk, lift_eq_done, done_ok_bind]
  refine hloop.bind ?_
  simp only [writing, sliceTo_writing, done_ok_bind]
  exact Ends.const _

/-- Labels and a zero byte. -/
theorem resumes_plain {ls : List Bytes} (hls : Bytes.At buf p (encodeLabels ls ++ [0]))
    (hlabels : ∀ l ∈ ls, IsLabel l) : Resumes buf p ls ((encodeLabels ls).length + 1) := by
  intro w m hpm hout
  obtain ⟨hls, hzero, -⟩ := Bytes.at_append.mp hls
  refine ⟨p + (encodeLabels ls).length, Ends.of_turns (labels_turns hls hlabels hpm hout) ?_⟩
  exact Ends.loop_stop (decodeTurn_zero hzero _ rfl)

/-- A first label with what comes after it. -/
theorem starts_label {l : Bytes} {ls : List Bytes} {n : Nat} (hl : Bytes.At buf p (encodeLabel l))
    (hlabel : IsLabel l) (hmask : UInt8.ofNat l.length &&& 80 = 0) (hn : 0 < n)
    (hrest : Resumes buf (p + (l.length + 1)) ls n) : Starts buf p (l :: ls) (l.length + 1 + n) := by
  intro m hpm hlength
  obtain ⟨hlen, hbytes⟩ := hl
  refine ⟨(p, m), Ends.loop_stop ?_, ?_⟩
  · have hno : ¬ (UInt8.ofNat l.length &&& 80 ≠ 0) := fun h => h hmask
    simp only [jumpTurn, Bytes.index_eq_ok.mpr hlen, ok_bind, if_neg hno]
  · rw [joinDots_cons] at hlength ⊢
    rw [List.length_append] at hlength
    have hshort := hlabel.short
    have hcopy := copy_turns (m := m) (w := []) hbytes hlabel.nonzero
      (List.length_pos_iff.mp hlabel.pos) (by omega) (by simp; omega)
    obtain ⟨q, hq⟩ := hrest l (max m (p + 1 + l.length)) (by omega) hlength
    have hmax : max (max m (p + 1 + l.length)) (p + (l.length + 1) + n - 1)
        = max m (p + (l.length + 1 + n) - 1) := by omega
    rw [hmax, show p + (l.length + 1) = p + 1 + l.length by omega] at hq
    exact decodeLabels_ends (p, m) hlen (Ends.of_turns hcopy hq)

/-- A name, its first label's length passing the mask, and a zero byte. -/
theorem starts_plain {l : Bytes} {ls : List Bytes}
    (hls : Bytes.At buf p (encodeLabels (l :: ls) ++ [0])) (hlabels : ∀ l' ∈ l :: ls, IsLabel l')
    (hmask : UInt8.ofNat l.length &&& 80 = 0) :
    Starts buf p (l :: ls) ((encodeLabels (l :: ls)).length + 1) := by
  rw [encodeLabels_cons, List.append_assoc, Bytes.at_append] at hls
  have hrest := resumes_plain hls.2 fun l' hl' => hlabels l' (by simp [hl'])
  have hstart := starts_label hls.1 (hlabels l (by simp)) hmask (by omega) hrest
  have hn : l.length + 1 + ((encodeLabels ls).length + 1)
      = (encodeLabels (l :: ls)).length + 1 := by
    rw [encodeLabels_cons, List.length_append, length_encodeLabel]
    omega
  rwa [hn] at hstart

/-- What the two loops write is what `decodeDomain` returns. -/
theorem decodeDomain_of_starts {ls : List Bytes} {n : Nat} (h : Starts buf p ls n) (hn : 0 < n)
    (hlength : (joinDots ls).length ≤ buf.length) :
    Ends (fun fuel => decodeDomain fuel buf p) (.ok (joinDots ls, n)) := by
  obtain ⟨pos, hjump, hlabels⟩ := h p (le_refl p) hlength
  refine hjump.bind (hlabels.bind ?_)
  have hcount : max p (p + n - 1) - p + 1 = n := by omega
  simp only [hcount]
  exact Ends.const _

/-- A name, its first label's length passing the mask, is decoded. -/
theorem decodeDomain_plain {l : Bytes} {ls : List Bytes}
    (hls : Bytes.At buf p (encodeLabels (l :: ls) ++ [0])) (hlabels : ∀ l' ∈ l :: ls, IsLabel l')
    (hmask : UInt8.ofNat l.length &&& 80 = 0) :
    Ends (fun fuel => decodeDomain fuel buf p)
      (.ok (joinDots (l :: ls), (encodeLabels (l :: ls)).length + 1)) := by
  have hfits := hls.length_le (by simp)
  have htext := length_joinDots l ls
  rw [List.length_append] at hfits
  exact decodeDomain_of_starts (starts_plain hls hlabels hmask) (by omega) (by omega)

end

/-! ## The inverse of the encoding -/

/-- The lengths of a first label that pass the mask of the first loop. -/
theorem mask_iff {n : Nat} (h : n ≤ 63) :
    UInt8.ofNat n &&& 80 = 0 ↔ n < 16 ∨ (32 ≤ n ∧ n < 48) := by
  have hall : ∀ i : Fin 64, UInt8.ofNat i &&& 80 = 0 ↔ (i : Nat) < 16 ∨ (32 ≤ (i : Nat) ∧ (i : Nat) < 48) := by
    decide
  exact hall ⟨n, Nat.lt_of_le_of_lt h (by decide)⟩

/-- In any surroundings `decodeDomain` inverts the encoding of the name. -/
def DecodesName (labels : List Bytes) : Prop :=
  ∀ pre suf : Bytes,
    Ends (fun fuel => decodeDomain fuel (pre ++ (encodeDomainName (joinDots labels) ++ suf)) pre.length)
      (.ok (joinDots labels, (encodeDomainName (joinDots labels)).length))

/-- Two zero bytes read as a name without text. -/
theorem starts_zeros {buf : Bytes} {p m : Nat} (h : buf[p]? = some 0) (h' : buf[p + 1]? = some 0) :
    Ends (fun fuel => loop (jumpTurn buf) fuel (p, m)) (.ok (p, m)) ∧
      Ends (fun fuel => decodeLabels fuel buf (p, m)) (.ok ([], m)) := by
  constructor
  · refine Ends.loop_stop ?_
    simp only [jumpTurn, Bytes.index_eq_ok.mpr h, ok_bind]
    rfl
  · exact decodeLabels_ends (p, m) h (Ends.loop_stop (decodeTurn_zero h' _ rfl))

theorem exists_zeros (n : Nat) :
    ∃ zeros : Bytes, zeros.length = n ∧ ∀ i, i < n → zeros[i]? = some 0 :=
  ⟨List.replicate n 0, List.length_replicate, fun i hi => by
    rw [List.getElem?_replicate, if_pos hi]⟩

/-- A first label whose length does not pass the mask is taken for a pointer; its
first byte leads to zeros in front of it. -/
theorem decodeDomain_mistaken {pre l : Bytes} (hpre : pre.length = 257)
    (hzeros : ∀ i, i < 257 → pre[i]? = some 0) (hl : IsLabel l)
    (hmask : UInt8.ofNat l.length &&& 80 ≠ 0) (rest : Bytes) :
    Ends (fun fuel => decodeDomain fuel (pre ++ (encodeLabel l ++ rest)) 257) (.ok ([], 2)) := by
  obtain ⟨b, bs, rfl⟩ := List.exists_cons_of_length_pos hl.pos
  obtain ⟨hlen, hb, -⟩ := Bytes.at_middle pre (encodeLabel (b :: bs)) rest
  have hzero : ∀ i, i < 257 → (pre ++ (encodeLabel (b :: bs) ++ rest))[i]? = some 0 :=
    fun i hi => by rw [List.getElem?_append_left (hpre ▸ hi), hzeros i hi]
  rw [hpre] at hlen hb
  generalize pre ++ (encodeLabel (b :: bs) ++ rest) = buf at hlen hb hzero ⊢
  have hb256 : b.toNat < 256 := b.toNat_lt
  obtain ⟨hjump, hlabels⟩ := starts_zeros (m := 258) (hzero b.toNat (by omega))
    (hzero (b.toNat + 1) (by omega))
  have hturn : jumpTurn buf (257, 257) = .ok (.again (b.toNat, 258)) := by
    simp only [jumpTurn, Bytes.index_eq_ok.mpr hlen, ok_bind, if_pos hmask, Bytes.index_eq_ok.mpr hb]
    rfl
  refine (Ends.of_turns (Turns.single hturn) hjump).bind (hlabels.bind ?_)
  exact Ends.const _

/-- **Which names are decoded**: those whose first label has at most 15, or from
32 to 47 bytes. -/
theorem decodeDomain_encode_iff (label : Bytes) (labels : List Bytes)
    (h : ∀ l ∈ label :: labels, IsLabel l ∧ dot ∉ l) :
    DecodesName (label :: labels) ↔
      label.length < 16 ∨ (32 ≤ label.length ∧ label.length < 48) := by
  have hlabel := (h label (by simp)).1
  have hencode : encodeDomainName (joinDots (label :: labels))
      = encodeLabels (label :: labels) ++ [0] :=
    encodeDomainName_eq (by simp) fun l hl => (h l hl).2
  rw [← mask_iff hlabel.short]
  constructor
  · intro hdecodes
    by_contra hmask
    obtain ⟨zeros, hlen, hzeros⟩ := exists_zeros 257
    have hright := hdecodes zeros []
    rw [hencode, hlen, encodeLabels_cons, List.append_assoc, List.append_assoc] at hright
    have hmistaken := decodeDomain_mistaken hlen hzeros hlabel hmask
      (encodeLabels labels ++ ([0] ++ []))
    have heq := Except.ok.inj (hright.unique hmistaken)
    have htext : joinDots (label :: labels) = [] := congrArg Prod.fst heq
    rw [joinDots_cons, List.append_eq_nil_iff] at htext
    exact absurd htext.1 (List.length_pos_iff.mp hlabel.pos)
  · intro hmask pre suf
    rw [hencode]
    have hstands := Bytes.at_middle pre (encodeLabels (label :: labels) ++ [0]) suf
    rw [List.length_append]
    exact decodeDomain_plain hstands (fun l hl => (h l hl).1) hmask

/-- `"a.b"`. -/
theorem decodeDomain_short : DecodesName [[97], [98]] := by
  refine (decodeDomain_encode_iff [97] [[98]] ?_).mpr (by decide)
  simp only [List.mem_cons, List.not_mem_nil, or_false, forall_eq_or_imp, forall_eq]
  exact ⟨⟨⟨by decide, by decide, by decide⟩, by decide⟩,
    ⟨⟨by decide, by decide, by decide⟩, by decide⟩⟩

/-- Sixteen times `'a'`: the length 16 is taken for a pointer, and `'a'` for an
offset beyond the message. -/
theorem decodeDomain_sixteen :
    (IsLabel (List.replicate 16 97) ∧ dot ∉ List.replicate 16 97) ∧
      ¬ DecodesName [List.replicate 16 97] := by
  refine ⟨⟨⟨by decide, by decide, by decide⟩, by decide⟩, ?_⟩
  intro hdecodes
  have hpanic : Ends (fun fuel => decodeDomain fuel
      ([] ++ (encodeDomainName (joinDots [List.replicate 16 97]) ++ [])) 0)
      (.error (.indexOutOfRange 97 18)) := by
    have hjump : Turns (jumpTurn ([] ++ (encodeDomainName (joinDots [List.replicate 16 97]) ++ [])))
        (0, 0) (97, 1) := Turns.single (by decide)
    exact Ends.bind_error (Ends.of_turns hjump (Ends.loop_error (by decide)))
  exact absurd ((hdecodes [] []).unique hpanic) (by simp)

end Nyctomek.Dns

/-
# `Parsecap.Restoring` — the segments from which a response is restored

`reassemble_iff` says for which segments the program restores the body, whatever the
response, the arrivals and the order that `qsort` leaves open: they are those `InOrder`.
For all others there is a response that is not restored.

    a wrap behind the header          two marked bytes of the body change places
    a cut header, or a wrap at once   a byte of the header is written, or the first segment
                                      does not show where the header ends
    a first number 0                  the first segment is left out
-/
import Nyctomek.Parsecap.Reassembly

namespace Nyctomek.Parsecap

open Prog

/-! ## A run over sorted payloads -/

/-- What a turn of the loop can do. -/
theorem imageTurn_cases {s s' : ImageState} {p : TCPPayload} (h : imageTurn s p = .ok s') :
    s'.i = s.i + 1 ∧
      ((s.prevSequenceNumber = p.sequenceNumber ∧
          s'.prevSequenceNumber = s.prevSequenceNumber ∧ s'.image = s.image) ∨
        (s.prevSequenceNumber ≠ p.sequenceNumber ∧ s'.prevSequenceNumber = p.sequenceNumber ∧
          ∃ start, s'.image = s.image ++ p.bytes.drop start ∧ (s.i ≠ 0 → start = 0) ∧
            (s.i = 0 → strstr p.data httpHeaderDelimeter ≠ none))) := by
  rw [imageTurn] at h
  split at h
  · rename_i hskip
    cases Except.ok.inj h
    exact ⟨rfl, Or.inl ⟨hskip, rfl, rfl⟩⟩
  · rename_i hskip
    split at h
    · rename_i hi
      split at h
      · cases h
      · rename_i header hheader
        cases Except.ok.inj h
        refine ⟨rfl, Or.inr ⟨hskip, rfl, header + httpHeaderDelimeterLen, ?_, ?_, ?_⟩⟩
        · rw [TCPPayload.bytes, List.drop_take]
          rfl
        · exact fun hne => absurd hi hne
        · intro _
          rw [hheader]
          exact Option.some_ne_none _
    · rename_i hi
      cases Except.ok.inj h
      refine ⟨rfl, Or.inr ⟨hskip, rfl, 0, ?_, fun _ => rfl, fun hzero => absurd hzero hi⟩⟩
      rw [List.drop_zero, ImageState.write, List.drop_zero, Nat.sub_zero]
      rfl

/-- A run over sorted payloads: what is written comes from payloads with greater numbers. -/
theorem foldlM_cases {l : List TCPPayload} {s s' : ImageState} (h : l.foldlM imageTurn s = .ok s')
    (hsorted : Sorted l)
    (hle : ∀ p ∈ l, s.prevSequenceNumber.toNat ≤ p.sequenceNumber.toNat) :
    s'.i = s.i + l.length ∧
      (s'.prevSequenceNumber = s.prevSequenceNumber ∨
        ∃ p ∈ l, s'.prevSequenceNumber = p.sequenceNumber) ∧
      ∃ written, s'.image = s.image ++ written ∧ ∀ b ∈ written, ∃ p ∈ l,
        s.prevSequenceNumber.toNat < p.sequenceNumber.toNat ∧ b ∈ p.bytes := by
  induction l generalizing s with
  | nil =>
      cases Except.ok.inj h
      exact ⟨rfl, Or.inl rfl, [], by simp, fun _ hb => nomatch hb⟩
  | cons p l ih =>
      obtain ⟨hp, hl⟩ := List.pairwise_cons.mp hsorted
      obtain ⟨hlep, hlel⟩ := List.forall_mem_cons.mp hle
      rw [List.foldlM_cons] at h
      obtain ⟨s₁, hturn, h⟩ := bind_eq_ok h
      obtain ⟨hi, hcases⟩ := imageTurn_cases hturn
      have hle₁ : ∀ q ∈ l, s₁.prevSequenceNumber.toNat ≤ q.sequenceNumber.toNat := by
        rcases hcases with ⟨-, hprev, -⟩ | ⟨-, hprev, -⟩
        · rwa [hprev]
        · rwa [hprev]
      obtain ⟨hi', hprev', written, hwritten, hfrom⟩ := ih h hl hle₁
      refine ⟨by rw [hi', hi, List.length_cons, Nat.add_assoc, Nat.add_comm 1], ?_⟩
      rcases hcases with ⟨-, hprev, himage⟩ | ⟨hne, hprev, start, himage, -⟩
      · rw [hprev] at hprev' hfrom
        refine ⟨?_, written, by rw [hwritten, himage], ?_⟩
        · rcases hprev' with hprev' | ⟨q, hq, hprev'⟩
          · exact Or.inl hprev'
          · exact Or.inr ⟨q, List.mem_cons_of_mem _ hq, hprev'⟩
        · intro b hb
          obtain ⟨q, hq, hlt, hbytes⟩ := hfrom b hb
          exact ⟨q, List.mem_cons_of_mem _ hq, hlt, hbytes⟩
      · rw [hprev] at hprev' hfrom
        have hlt : s.prevSequenceNumber.toNat < p.sequenceNumber.toNat :=
          Nat.lt_of_le_of_ne hlep fun heq => hne (UInt32.toNat_inj.mp heq)
        refine ⟨Or.inr ?_, p.bytes.drop start ++ written,
          by rw [hwritten, himage, List.append_assoc], ?_⟩
        · rcases hprev' with hprev' | ⟨q, hq, hprev'⟩
          · exact ⟨p, List.mem_cons_self, hprev'⟩
          · exact ⟨q, List.mem_cons_of_mem _ hq, hprev'⟩
        · intro b hb
          rcases List.mem_append.mp hb with hb | hb
          · exact ⟨p, List.mem_cons_self, hlt, List.mem_of_mem_drop hb⟩
          · obtain ⟨q, hq, hltq, hbytes⟩ := hfrom b hb
            exact ⟨q, List.mem_cons_of_mem _ hq, hlt.trans hltq, hbytes⟩

/-- A run in two parts. -/
theorem foldlM_append_ok {l l' : List TCPPayload} {s s' : ImageState}
    (h : (l ++ l').foldlM imageTurn s = .ok s') :
    ∃ s₁, l.foldlM imageTurn s = .ok s₁ ∧ l'.foldlM imageTurn s₁ = .ok s' := by
  rw [List.foldlM_append] at h
  exact bind_eq_ok h

theorem reassemble_ok {qsort : StdSort} {payloads : List TCPPayload} {image : Bytes}
    (h : reassemble qsort payloads = .ok image) : ∃ s,
      (qsort.sort (fun a b => decide (compareSequenceNumbers a b < 0)) payloads).foldlM imageTurn
        ⟨0, 0, []⟩ = .ok s ∧ s.image = image := by
  obtain ⟨s, hrun, h⟩ := bind_eq_ok h
  exact ⟨s, hrun, Except.ok.inj h⟩

/-- **A payload that has arrived first** is written, or it is the first of all and shows the
end of the header. -/
theorem written_of_first {p : TCPPayload} {sent : List TCPPayload} {image : Bytes} (hp : p ∈ sent)
    (hseq : p.sequenceNumber ≠ 0) (h : reassemble insertionSort (p :: sent) = .ok image) :
    (∀ b ∈ p.bytes, b ∈ image) ∨
      (strstr p.data httpHeaderDelimeter ≠ none ∧
        ∀ q ∈ sent, p.sequenceNumber.toNat ≤ q.sequenceNumber.toNat) := by
  obtain ⟨s, hrun, rfl⟩ := reassemble_ok h
  obtain ⟨hsorted, hmem⟩ := sorted_qsort insertionSort (p :: sent)
  obtain ⟨front, back, hinsert, -, hfront⟩ := insertSorted_eq
    (fun a b => decide (compareSequenceNumbers a b < 0)) p
    (sent.foldr (insertSorted fun a b => decide (compareSequenceNumbers a b < 0)) [])
  have hsort : insertionSort.sort (fun a b => decide (compareSequenceNumbers a b < 0)) (p :: sent)
      = front ++ p :: back := hinsert
  rw [hsort] at hrun hsorted hmem
  obtain ⟨hsorted₁, hsorted₂, -⟩ := List.pairwise_append.mp hsorted
  obtain ⟨s₁, hfirst, hrest⟩ := foldlM_append_ok hrun
  obtain ⟨hi, hprev, -⟩ := foldlM_cases hfirst hsorted₁ (fun _ _ => Nat.zero_le _)
  rw [List.foldlM_cons] at hrest
  obtain ⟨s₂, hturn, hrest⟩ := bind_eq_ok hrest
  -- no payload before this one has its number
  have hne : s₁.prevSequenceNumber ≠ p.sequenceNumber := by
    rcases hprev with hprev | ⟨q, hq, hprev⟩
    · rw [hprev]
      exact fun h => hseq h.symm
    · have hlt := compareSequenceNumbers_lt.mp (hfront q hq)
      rw [hprev]
      exact fun h => absurd (congrArg UInt32.toNat h) (Nat.ne_of_lt hlt)
  obtain ⟨hback, hsorted₃⟩ := List.pairwise_cons.mp hsorted₂
  obtain ⟨-, ⟨heq, -⟩ | ⟨-, hprev₂, start, himage, hstart, hheader⟩⟩ := imageTurn_cases hturn
  · exact absurd heq hne
  · obtain ⟨-, -, written, hwritten, -⟩ := foldlM_cases hrest hsorted₃ (by rwa [hprev₂])
    cases front with
    | nil =>
        right
        refine ⟨hheader hi, ?_⟩
        intro q hq
        rcases List.mem_cons.mp ((hmem q).mpr (List.mem_cons_of_mem _ hq)) with rfl | hmemq
        · exact Nat.le_refl _
        · exact hback q hmemq
    | cons q front =>
        left
        intro b hb
        have hzero : start = 0 := by
          apply hstart
          rw [hi, List.length_cons]
          omega
        rw [hwritten, himage, hzero, List.drop_zero]
        exact List.mem_append_left _ (List.mem_append_right _ hb)

/-! ## Responses for the segments that are not put together -/

/-- The responses with a header of some length, in segments of given sizes. -/
def Restores (isn : UInt32) (sizes : List Nat) (headerLen : Nat) : Prop :=
  ∀ (qsort : StdSort) (r : Response) (arrivals : List TCPPayload), r.header.length = headerLen →
    r.header.length + r.body.length = sizes.sum →
    Arrived arrivals (segments isn sizes (r.header ++ r.body)) →
    reassemble qsort arrivals = .ok r.body

/-- A byte of a header. -/
def filler : UInt8 := 120

/-- A header of some length. -/
def fillerHeader (headerLen : Nat) : Bytes :=
  List.replicate (headerLen - httpHeaderDelimeterLen) filler ++ httpHeaderDelimeter

theorem length_fillerHeader {headerLen : Nat} (h : httpHeaderDelimeterLen ≤ headerLen) :
    (fillerHeader headerLen).length = headerLen := by
  rw [fillerHeader, List.length_append, List.length_replicate]
  exact Nat.sub_add_cancel h

theorem mem_fillerHeader {headerLen : Nat} {b : UInt8} (h : b ∈ fillerHeader headerLen) :
    b = filler ∨ b ∈ httpHeaderDelimeter := by
  rcases List.mem_append.mp h with h | h
  · exact Or.inl (List.eq_of_mem_replicate h)
  · exact Or.inr h

/-- A response with that header. -/
def fillerResponse {headerLen : Nat} (h : httpHeaderDelimeterLen ≤ headerLen) (body : Bytes) :
    Response where
  header := fillerHeader headerLen
  body := body
  delimited := by
    rw [length_fillerHeader h]
    have hsplit : fillerHeader headerLen = List.replicate (headerLen - httpHeaderDelimeterLen) filler ++
        (httpHeaderDelimeter ++ []) := by rw [fillerHeader, List.append_nil]
    refine find_eq_some.mpr ⟨_, [], hsplit, List.length_replicate, ?_⟩
    intro j hj hprefix
    rw [fillerHeader, List.drop_append_of_le_length (by rw [List.length_replicate]; omega),
      List.drop_replicate] at hprefix
    obtain ⟨n, hn⟩ : ∃ n, headerLen - httpHeaderDelimeterLen - j = n + 1 :=
      ⟨headerLen - httpHeaderDelimeterLen - j - 1, by omega⟩
    rw [hn, List.replicate_succ, List.cons_append, httpHeaderDelimeter,
      List.cons_prefix_cons] at hprefix
    exact absurd hprefix.1 (by decide)
  noNul := by
    intro h0
    rcases mem_fillerHeader h0 with h0 | h0
    · exact absurd h0 (by decide)
    · exact absurd h0 (by decide)

section
variable {isn : UInt32} {sizes : List Nat} {stream : Bytes}

/-- What stands in a segment stands in the stream, as far as the segments go. -/
theorem mem_of_mem_segments (hfits : ∀ k ∈ sizes, k < 65536) {p : TCPPayload}
    (hp : p ∈ segments isn sizes stream) {b : UInt8} (hb : b ∈ p.bytes) :
    b ∈ stream.take sizes.sum := by
  induction sizes generalizing isn stream with
  | nil => cases hp
  | cons k ks ih =>
      obtain ⟨hk, hks⟩ := List.forall_mem_cons.mp hfits
      rw [List.sum_cons, List.take_add]
      rcases List.mem_cons.mp hp with rfl | hp
      · rw [bytes_of (by rw [List.length_take]; omega)] at hb
        exact List.mem_append_left _ hb
      · exact List.mem_append_right _ (ih hks hp)

theorem segments_append (A Z : List Nat) : segments isn (A ++ Z) stream
    = segments isn A stream ++ segments (isn + UInt32.ofNat A.sum) Z (stream.drop A.sum) := by
  induction A generalizing isn stream with
  | nil => simp [segments]
  | cons k A ih =>
      rw [List.cons_append, segments, segments, List.cons_append, ih, List.sum_cons,
        UInt32.ofNat_add, UInt32.add_assoc, List.drop_drop]

/-- A wrap takes place between two segments. -/
theorem exists_wrap (hfits : ∀ k ∈ sizes, k < 65536) (h : ¬NoWrap isn sizes) :
    ∃ A k k' Z, sizes = A ++ k :: k' :: Z ∧
      (isn + UInt32.ofNat (A.sum + k)).toNat < (isn + UInt32.ofNat A.sum).toNat := by
  induction sizes generalizing isn with
  | nil => exact absurd isn.toNat_lt h
  | cons k ks ih =>
      obtain ⟨hk, hks⟩ := List.forall_mem_cons.mp hfits
      cases ks with
      | nil => exact absurd isn.toNat_lt h
      | cons k' ks =>
          by_cases hlt : (isn + UInt32.ofNat k).toNat < isn.toNat
          · exact ⟨[], k, k', ks, rfl, by simpa using hlt⟩
          · have hisn := isn.toNat_lt
            have hnext : isn.toNat + k < 2 ^ 32 := by
              rw [UInt32.toNat_add, UInt32.toNat_ofNat', Nat.add_mod_mod] at hlt
              omega
            have hrest : ¬NoWrap (isn + UInt32.ofNat k) (k' :: ks) := by
              intro hrest
              apply h
              rw [NoWrap, toNat_next hnext] at hrest
              rw [NoWrap, List.dropLast_cons_cons, List.sum_cons]
              omega
            obtain ⟨A, j, j', Z, hsizes, hwrap⟩ := ih hks hrest
            refine ⟨k :: A, j, j', Z, by rw [hsizes, List.cons_append], ?_⟩
            rw [List.sum_cons, Nat.add_assoc, UInt32.ofNat_add k, UInt32.ofNat_add k,
              ← UInt32.add_assoc, ← UInt32.add_assoc]
            exact hwrap

end

/-- Inside the header the stream goes on with a byte of it. -/
theorem exists_header_byte {header : Bytes} {n : Nat} (h : n < header.length) (body : Bytes) :
    ∃ b rest, (header ++ body).drop n = b :: rest ∧ b ∈ header := by
  refine ⟨header[n], header.drop (n + 1) ++ body, ?_, List.getElem_mem h⟩
  rw [List.drop_append_of_le_length (Nat.le_of_lt h), List.drop_eq_getElem_cons h, List.cons_append]

/-- A segment that arrives first and again later. -/
theorem arrived_cons {sent : List TCPPayload} {p : TCPPayload} (hp : p ∈ sent) :
    Arrived (p :: sent) sent := by
  intro q
  refine ⟨?_, List.mem_cons_of_mem p⟩
  intro hq
  rcases List.mem_cons.mp hq with rfl | hq
  · exact hp
  · exact hq

section
variable {isn : UInt32} {c : Segmentation} {r : Response}

/-- With a body of zeros, no segment with a byte of the header may be written whole. -/
theorem zero_of_restores (hrestores : Restores isn c.sizes r.header.length)
    (hsum : r.header.length + r.body.length = c.sizes.sum) (hzero : ∀ b ∈ r.body, b = 0)
    {p : TCPPayload} (hp : p ∈ segments isn c.sizes (r.header ++ r.body))
    (hseq : p.sequenceNumber ≠ 0) (hheader : ∃ b ∈ p.bytes, b ∈ r.header) :
    strstr p.data httpHeaderDelimeter ≠ none ∧
      ∀ q ∈ segments isn c.sizes (r.header ++ r.body),
        p.sequenceNumber.toNat ≤ q.sequenceNumber.toNat := by
  obtain ⟨b, hb, hheader⟩ := hheader
  have hrun := hrestores insertionSort r _ rfl hsum (arrived_cons hp)
  refine (written_of_first hp hseq hrun).resolve_left ?_
  intro hwritten
  cases hzero b (hwritten b hb)
  exact r.noNul hheader

/-- The first segment has to hold the header, and to be the first in order. -/
theorem first_of_restores (hrestores : Restores isn c.sizes r.header.length)
    (hsum : r.header.length + r.body.length = c.sizes.sum) (hzero : ∀ b ∈ r.body, b = 0)
    (hisn : isn ≠ 0) : r.header.length ≤ c.sizes.headD 0 ∧
      ∀ q ∈ segments isn c.sizes (r.header ++ r.body),
        isn.toNat ≤ q.sequenceNumber.toNat := by
  have hstep := fun {p : TCPPayload} => zero_of_restores (p := p) hrestores hsum hzero
  obtain ⟨sizes, hpos, hfits⟩ := c
  have hheader : 0 < r.header.length := Nat.lt_of_lt_of_le (by decide) r.length_le
  cases sizes with
  | nil =>
      simp only [List.sum_nil] at hsum
      omega
  | cons k ks =>
      have hk := hpos k List.mem_cons_self
      have hfit := hfits k List.mem_cons_self
      obtain ⟨b, rest, hfirst, hb⟩ := exists_header_byte hheader r.body
      rw [List.drop_zero] at hfirst
      have hmem : b ∈ (TCPPayload.of isn ((r.header ++ r.body).take k)).bytes := by
        rw [bytes_of (by rw [List.length_take]; omega), hfirst]
        obtain ⟨n, rfl⟩ : ∃ n, k = n + 1 := ⟨k - 1, by omega⟩
        exact List.mem_cons_self
      obtain ⟨hfound, hle⟩ := hstep List.mem_cons_self hisn ⟨b, hmem, hb⟩
      refine ⟨?_, hle⟩
      rcases Nat.lt_or_ge k r.header.length with hlt | hge
      · -- a part of the header does not show its end
        rw [List.take_append_of_le_length (Nat.le_of_lt hlt)] at hfound
        exact absurd (strstr_part r isn hlt) hfound
      · exact hge

/-- A first segment numbered 0 is lost: it must not have a part of the body. -/
theorem not_restores_long {headerLen k : Nat} {ks : List Nat}
    (hfits : ∀ j ∈ k :: ks, j < 65536) (h : httpHeaderDelimeterLen ≤ headerLen)
    (hlt : headerLen < k) : ¬Restores 0 (k :: ks) headerLen := by
  intro hrestores
  have hbody : ((1 : UInt8) :: List.replicate (k + ks.sum - headerLen - 1) 0).length
      = k + ks.sum - headerLen := by
    rw [List.length_cons, List.length_replicate]
    omega
  have hheader := length_fillerHeader h
  have hsum : (fillerHeader headerLen).length
      + ((1 : UInt8) :: List.replicate (k + ks.sum - headerLen - 1) 0).length = (k :: ks).sum := by
    rw [hheader, hbody, List.sum_cons]
    omega
  obtain ⟨s, hfold, himage⟩ := reassemble_ok
    (hrestores insertionSort (fillerResponse h _) _ hheader hsum fun _ => Iff.rfl)
  obtain ⟨hsorted, hmem⟩ := sorted_qsort insertionSort (segments 0 (k :: ks)
    (fillerHeader headerLen ++ 1 :: List.replicate (k + ks.sum - headerLen - 1) 0))
  obtain ⟨-, -, written, hwritten, hfrom⟩ := foldlM_cases hfold hsorted fun _ _ => Nat.zero_le _
  rw [himage] at hwritten
  have hlist : (1 : UInt8) :: List.replicate (k + ks.sum - headerLen - 1) 0 = written := hwritten
  obtain ⟨p, hp, hseq, hb⟩ := hfrom 1 (by rw [← hlist]; exact List.mem_cons_self)
  rcases List.mem_cons.mp ((hmem p).mp hp) with rfl | hp
  · exact absurd hseq (Nat.lt_irrefl _)
  · have htail := List.mem_of_mem_take
      (mem_of_mem_segments (List.forall_mem_cons.mp hfits).2 hp hb)
    obtain ⟨n, hn⟩ : ∃ n, k - headerLen = n + 1 := ⟨k - headerLen - 1, by omega⟩
    rw [List.drop_append, hheader, List.drop_of_length_le (by omega), List.nil_append, hn,
      List.drop_succ_cons] at htail
    exact absurd (List.eq_of_mem_replicate (List.mem_of_mem_drop htail)) (by decide)

/-- Nor may another segment have a part of the header. -/
theorem not_restores_short {k : Nat} {ks : List Nat} (hpos : ∀ j ∈ k :: ks, 0 < j)
    (hfits : ∀ j ∈ k :: ks, j < 65536)
    (hsum : r.header.length + r.body.length = (k :: ks).sum) (hzero : ∀ b ∈ r.body, b = 0)
    (hlt : k < r.header.length) : ¬Restores 0 (k :: ks) r.header.length := by
  intro hrestores
  cases ks with
  | nil =>
      rw [List.sum_cons, List.sum_nil] at hsum
      omega
  | cons k' ks =>
      have hk := hpos k List.mem_cons_self
      have hfit := hfits k List.mem_cons_self
      have hks := List.mem_cons_of_mem k (List.mem_cons_self (a := k') (l := ks))
      have hk' := hpos k' hks
      have hfit' := hfits k' hks
      have hnumber : (0 + UInt32.ofNat k : UInt32).toNat = k := by
        rw [toNat_next]
        · exact Nat.zero_add k
        · show 0 + k < 2 ^ 32
          omega
      obtain ⟨b, rest, hfirst, hb⟩ := exists_header_byte hlt r.body
      have hmem : b ∈ (TCPPayload.of (0 + UInt32.ofNat k)
          (((r.header ++ r.body).drop k).take k')).bytes := by
        rw [bytes_of (by rw [List.length_take]; omega), hfirst]
        obtain ⟨n, rfl⟩ : ∃ n, k' = n + 1 := ⟨k' - 1, by omega⟩
        exact List.mem_cons_self
      have hstep := zero_of_restores (c := ⟨k :: k' :: ks, hpos, hfits⟩) hrestores hsum hzero
        (List.mem_cons_of_mem _ List.mem_cons_self) ?_ ⟨b, hmem, hb⟩
      · have hle := hstep.2 _ List.mem_cons_self
        have hle' : (0 + UInt32.ofNat k : UInt32).toNat ≤ 0 := hle
        omega
      · intro h
        have hnat := congrArg UInt32.toNat h
        have hnat' : (0 + UInt32.ofNat k : UInt32).toNat = 0 := hnat
        omega

end

/-- The payloads up to a number, and those behind it. -/
theorem sorted_split {l : List TCPPayload} (hsorted : Sorted l) (n : Nat) :
    ∃ low high, l = low ++ high ∧ (∀ p ∈ low, p.sequenceNumber.toNat ≤ n) ∧
      ∀ p ∈ high, n < p.sequenceNumber.toNat := by
  induction l with
  | nil => exact ⟨[], [], rfl, (fun _ h => nomatch h), (fun _ h => nomatch h)⟩
  | cons p l ih =>
      obtain ⟨hp, hl⟩ := List.pairwise_cons.mp hsorted
      rcases Nat.lt_or_ge n p.sequenceNumber.toNat with hlt | hge
      · refine ⟨[], p :: l, rfl, (fun _ h => nomatch h), List.forall_mem_cons.mpr ⟨hlt, ?_⟩⟩
        exact fun q hq => Nat.lt_of_lt_of_le hlt (hp q hq)
      · obtain ⟨low, high, rfl, hlow, hhigh⟩ := ih hl
        exact ⟨p :: low, high, rfl, List.forall_mem_cons.mpr ⟨hge, hlow⟩, hhigh⟩

/-- Two segments in the middle. -/
theorem segments_middle {isn : UInt32} {A Z : List Nat} {front x y z : Bytes}
    (hfront : front.length = A.sum) : segments isn (A ++ x.length :: y.length :: Z)
        (front ++ (x ++ (y ++ z)))
      = segments isn A (front ++ (x ++ (y ++ z))) ++
        TCPPayload.of (isn + UInt32.ofNat A.sum) x ::
          TCPPayload.of (isn + UInt32.ofNat (A.sum + x.length)) y ::
            segments (isn + UInt32.ofNat (A.sum + x.length) + UInt32.ofNat y.length) Z z := by
  have hdrop : (front ++ (x ++ (y ++ z))).drop A.sum = x ++ (y ++ z) := List.drop_left' hfront
  rw [segments_append, hdrop, segments, segments, List.take_left, List.drop_left, List.take_left,
    List.drop_left, UInt32.ofNat_add A.sum x.length, ← UInt32.add_assoc]

/-- Where a byte of the stream stands. -/
theorem cases_of_mem_middle {isn : UInt32} {A Z : List Nat} {front x y z : Bytes}
    (hfits : ∀ k ∈ A ++ x.length :: y.length :: Z, k < 65536) (hfront : front.length = A.sum)
    {p : TCPPayload} (hp : p ∈ segments isn (A ++ x.length :: y.length :: Z)
      (front ++ (x ++ (y ++ z)))) {b : UInt8} (hb : b ∈ p.bytes) :
    b ∈ front ∨ (p.sequenceNumber = isn + UInt32.ofNat A.sum ∧ b ∈ x) ∨
      (p.sequenceNumber = isn + UInt32.ofNat (A.sum + x.length) ∧ b ∈ y) ∨ b ∈ z := by
  obtain ⟨hfitsA, hfitsXYZ⟩ := List.forall_mem_append.mp hfits
  obtain ⟨hx, hfitsYZ⟩ := List.forall_mem_cons.mp hfitsXYZ
  obtain ⟨hy, hfitsZ⟩ := List.forall_mem_cons.mp hfitsYZ
  rw [segments_middle hfront] at hp
  rcases List.mem_append.mp hp with hp | hp
  · have hmem := mem_of_mem_segments hfitsA hp hb
    rw [List.take_left' hfront] at hmem
    exact Or.inl hmem
  · rcases List.mem_cons.mp hp with rfl | hp
    · rw [bytes_of hx] at hb
      exact Or.inr (Or.inl ⟨rfl, hb⟩)
    · rcases List.mem_cons.mp hp with rfl | hp
      · rw [bytes_of hy] at hb
        exact Or.inr (Or.inr (Or.inl ⟨rfl, hb⟩))
      · exact Or.inr (Or.inr (Or.inr (List.mem_of_mem_take (mem_of_mem_segments hfitsZ hp hb))))

/-- **The order of two bytes.**  What the one segment has, marked by `1`, and what the next
has, marked by `2`, change places if the number of the next is smaller. -/
theorem not_image_of_wrap {l : List TCPPayload} {s : ImageState} {first next : UInt32}
    (hsorted : Sorted l) (hrun : l.foldlM imageTurn ⟨0, 0, []⟩ = .ok s)
    (hwrap : next.toNat < first.toNat)
    (hone : ∀ p ∈ l, (1 : UInt8) ∈ p.bytes → p.sequenceNumber = first)
    (htwo : ∀ p ∈ l, (2 : UInt8) ∈ p.bytes → p.sequenceNumber = next) {before behind : Bytes}
    (hbefore : (2 : UInt8) ∉ before) (hbehind : (2 : UInt8) ∈ behind) :
    s.image ≠ before ++ 1 :: behind := by
  intro himage
  obtain ⟨low, high, rfl, hlow, hhigh⟩ := sorted_split hsorted next.toNat
  obtain ⟨hsorted₁, hsorted₂, -⟩ := List.pairwise_append.mp hsorted
  obtain ⟨s₁, hrun₁, hrun₂⟩ := foldlM_append_ok hrun
  obtain ⟨-, hprev, written₁, hwritten₁, hfrom₁⟩ :=
    foldlM_cases hrun₁ hsorted₁ fun _ _ => Nat.zero_le _
  have hle : ∀ p ∈ high, s₁.prevSequenceNumber.toNat ≤ p.sequenceNumber.toNat := by
    intro p hp
    rcases hprev with hprev | ⟨q, hq, hprev⟩
    · rw [hprev]
      exact Nat.zero_le _
    · rw [hprev]
      exact Nat.le_of_lt (Nat.lt_of_le_of_lt (hlow q hq) (hhigh p hp))
  obtain ⟨-, -, written₂, hwritten₂, hfrom₂⟩ := foldlM_cases hrun₂ hsorted₂ hle
  have hnot₁ : (1 : UInt8) ∉ written₁ := by
    intro hmem
    obtain ⟨p, hp, -, hb⟩ := hfrom₁ 1 hmem
    have hseq := hone p (List.mem_append_left _ hp) hb
    have hlep := hlow p hp
    rw [hseq] at hlep
    exact absurd hwrap (Nat.not_lt_of_le hlep)
  have hnot₂ : (2 : UInt8) ∉ written₂ := by
    intro hmem
    obtain ⟨p, hp, -, hb⟩ := hfrom₂ 2 hmem
    have hltp := hhigh p hp
    rw [htwo p (List.mem_append_right _ hp) hb] at hltp
    exact absurd hltp (Nat.lt_irrefl _)
  rw [hwritten₂, hwritten₁, List.nil_append] at himage
  -- the `2` is in the first part, and so is the `1` before it
  rcases List.append_eq_append_iff.mp himage with ⟨rest, hbefore', -⟩ | ⟨rest, hwritten, hrest⟩
  · have hmem : (2 : UInt8) ∈ written₁ ++ written₂ := by
      rw [himage]
      exact List.mem_append_right _ (List.mem_cons_of_mem _ hbehind)
    rcases List.mem_append.mp hmem with h | h
    · exact hbefore (by rw [hbefore']; exact List.mem_append_left _ h)
    · exact hnot₂ h
  · cases rest with
    | nil =>
        rw [List.nil_append] at hrest
        exact hnot₂ (by rw [← hrest]; exact List.mem_cons_of_mem _ hbehind)
    | cons b rest =>
        have hb : (1 : UInt8) = b := (List.cons.inj hrest).1
        exact hnot₁ (by rw [hwritten, ← hb]; exact List.mem_append_right _ List.mem_cons_self)

theorem not_mem_zeros {b : UInt8} {n : Nat} (h : b ≠ 0) : b ∉ List.replicate n 0 :=
  fun hmem => h (List.eq_of_mem_replicate hmem)

theorem not_mem_front {b : UInt8} {headerLen n : Nat} (hfiller : b ≠ filler)
    (hdelimeter : b ∉ httpHeaderDelimeter) (h : b ≠ 0) :
    b ∉ fillerHeader headerLen ++ List.replicate n 0 := by
  intro hmem
  rcases List.mem_append.mp hmem with hmem | hmem
  · exact (mem_fillerHeader hmem).elim hfiller hdelimeter
  · exact not_mem_zeros h hmem

/-- Behind the header the numbers must not wrap. -/
theorem not_restores_wrap {isn : UInt32} {A Z : List Nat} {k k' headerLen : Nat}
    (hpos : ∀ j ∈ A ++ k :: k' :: Z, 0 < j) (hfits : ∀ j ∈ A ++ k :: k' :: Z, j < 65536)
    (h : httpHeaderDelimeterLen ≤ headerLen) (hfront : headerLen ≤ A.sum)
    (hwrap : (isn + UInt32.ofNat (A.sum + k)).toNat < (isn + UInt32.ofNat A.sum).toNat) :
    ¬Restores isn (A ++ k :: k' :: Z) headerLen := by
  intro hrestores
  obtain ⟨n, rfl⟩ : ∃ n, k = n + 1 :=
    Nat.exists_eq_succ_of_ne_zero (Nat.ne_of_gt (hpos k (by simp)))
  obtain ⟨n', rfl⟩ : ∃ n', k' = n' + 1 :=
    Nat.exists_eq_succ_of_ne_zero (Nat.ne_of_gt (hpos k' (by simp)))
  -- zeros with two marks, one in each of the segments between which the numbers wrap
  let zeros := fun m : Nat => List.replicate m (0 : UInt8)
  let x := (1 : UInt8) :: zeros n
  let y := (2 : UInt8) :: zeros n'
  let before := zeros (A.sum - headerLen)
  let body := before ++ (x ++ (y ++ zeros Z.sum))
  have hx : x.length = n + 1 := by simp [x, zeros]
  have hy : y.length = n' + 1 := by simp [y, zeros]
  have hheader := length_fillerHeader h
  have hfrontLen : (fillerHeader headerLen ++ before).length = A.sum := by
    rw [List.length_append, hheader, List.length_replicate]
    exact Nat.add_sub_cancel' hfront
  have hsum : (fillerHeader headerLen).length + body.length
      = (A ++ (n + 1) :: (n' + 1) :: Z).sum := by
    simp only [body, List.length_append, hx, hy, List.sum_append, List.sum_cons]
    rw [List.length_append] at hfrontLen
    simp only [zeros, List.length_replicate]
    omega
  obtain ⟨s, hfold, himage⟩ := reassemble_ok
    (hrestores insertionSort (fillerResponse h body) _ hheader hsum fun _ => Iff.rfl)
  obtain ⟨hsorted, hmem⟩ := sorted_qsort insertionSort
    (segments isn (A ++ (n + 1) :: (n' + 1) :: Z) (fillerHeader headerLen ++ body))
  have hcases : ∀ p ∈ insertionSort.sort (fun a b => decide (compareSequenceNumbers a b < 0))
      (segments isn (A ++ (n + 1) :: (n' + 1) :: Z) (fillerHeader headerLen ++ body)),
      ∀ b ∈ p.bytes, b ∈ fillerHeader headerLen ++ before ∨
        (p.sequenceNumber = isn + UInt32.ofNat A.sum ∧ b ∈ x) ∨
        (p.sequenceNumber = isn + UInt32.ofNat (A.sum + (n + 1)) ∧ b ∈ y) ∨ b ∈ zeros Z.sum := by
    intro p hp b hb
    have hp' := (hmem p).mp hp
    rw [← hx, ← hy, ← List.append_assoc] at hp'
    rw [← hx]
    rw [← hx, ← hy] at hfits
    exact cases_of_mem_middle hfits hfrontLen hp' hb
  have himage' : s.image = before ++ 1 :: (zeros n ++ (y ++ zeros Z.sum)) := himage
  have hbehind : 2 ∈ zeros n ++ (y ++ zeros Z.sum) := by simp [y]
  refine not_image_of_wrap hsorted hfold hwrap ?_ ?_ (not_mem_zeros (by decide)) hbehind himage'
  · intro p hp hb
    rcases hcases p hp 1 hb with hfront | ⟨hseq, -⟩ | ⟨-, hy⟩ | hz
    · exact absurd hfront (not_mem_front (by decide) (by decide) (by decide))
    · exact hseq
    · exact absurd hy (List.not_mem_cons_of_ne_of_not_mem (by decide) (not_mem_zeros (by decide)))
    · exact absurd hz (not_mem_zeros (by decide))
  · intro p hp hb
    rcases hcases p hp 2 hb with hfront | ⟨-, hx⟩ | ⟨hseq, -⟩ | hz
    · exact absurd hfront (not_mem_front (by decide) (by decide) (by decide))
    · exact absurd hx (List.not_mem_cons_of_ne_of_not_mem (by decide) (not_mem_zeros (by decide)))
    · exact hseq
    · exact absurd hz (not_mem_zeros (by decide))

/-- Segments from which every response is restored have the header in front. -/
theorem front_of_restores {isn : UInt32} {k : Nat} {ks : List Nat} {headerLen : Nat}
    (hpos : ∀ j ∈ k :: ks, 0 < j) (hfits : ∀ j ∈ k :: ks, j < 65536)
    (h : httpHeaderDelimeterLen ≤ headerLen) (hle : headerLen ≤ (k :: ks).sum)
    (hrestores : Restores isn (k :: ks) headerLen) :
    (if isn = 0 then headerLen = k else headerLen ≤ k) ∧
      ∀ k' Z, ks = k' :: Z → isn.toNat ≤ (isn + UInt32.ofNat k).toNat := by
  have hheader := length_fillerHeader h
  let r := fillerResponse h (List.replicate ((k :: ks).sum - headerLen) 0)
  have hlen : r.header.length = headerLen := hheader
  have hbody : r.body.length = (k :: ks).sum - headerLen := List.length_replicate
  have hsum : r.header.length + r.body.length = (k :: ks).sum := by
    rw [hlen, hbody]
    exact Nat.add_sub_cancel' hle
  have hzero : ∀ b ∈ r.body, b = 0 := fun b hb => List.eq_of_mem_replicate hb
  by_cases hisn : isn = 0
  · subst hisn
    rw [if_pos rfl]
    refine ⟨?_, fun _ _ _ => Nat.zero_le _⟩
    rcases Nat.lt_trichotomy headerLen k with hlt | heq | hgt
    · exact absurd hrestores (not_restores_long hfits h hlt)
    · exact heq
    · rw [← hlen] at hrestores hgt
      exact absurd hrestores (not_restores_short hpos hfits hsum hzero hgt)
  · rw [if_neg hisn]
    rw [← hlen] at hrestores
    obtain ⟨hfirst, hmin⟩ :=
      first_of_restores (c := ⟨k :: ks, hpos, hfits⟩) hrestores hsum hzero hisn
    rw [hlen] at hfirst
    refine ⟨hfirst, ?_⟩
    rintro k' Z rfl
    exact hmin _ (List.mem_cons_of_mem _ List.mem_cons_self)

/-- **When the response is restored**: whatever it is, and in whatever order its segments
arrive. -/
theorem reassemble_iff (isn : UInt32) (c : Segmentation) {headerLen : Nat}
    (h : httpHeaderDelimeterLen ≤ headerLen) (hle : headerLen ≤ c.sizes.sum) :
    Restores isn c.sizes headerLen ↔ InOrder isn c.sizes headerLen := by
  constructor
  · intro hrestores
    obtain ⟨sizes, hpos, hfits⟩ := c
    cases sizes with
    | nil =>
        have hpositive : 0 < httpHeaderDelimeterLen := by decide
        exact absurd (h.trans hle) (Nat.not_le_of_lt hpositive)
    | cons k ks =>
        obtain ⟨hfirst, hmin⟩ := front_of_restores hpos hfits h hle hrestores
        refine ⟨?_, hfirst⟩
        by_contra hwrap
        obtain ⟨A, j, j', Z, hsizes, hlt⟩ := exists_wrap hfits hwrap
        cases A with
        | nil =>
            obtain ⟨rfl, rfl⟩ := List.cons.inj hsizes
            have hfirst : isn + UInt32.ofNat 0 = isn := UInt32.add_zero isn
            rw [List.sum_nil, Nat.zero_add, hfirst] at hlt
            exact absurd hlt (Nat.not_lt_of_le (hmin j' Z rfl))
        | cons a A =>
            obtain ⟨rfl, rfl⟩ := List.cons.inj hsizes
            have hfront : headerLen ≤ (k :: A).sum := by
              have hk : headerLen ≤ k := by
                split at hfirst
                · exact Nat.le_of_eq hfirst
                · exact hfirst
              rw [List.sum_cons]
              exact hk.trans (Nat.le_add_right _ _)
            exact not_restores_wrap hpos hfits h hfront hlt hrestores
  · intro hinorder qsort r arrivals hlen hsum harrived
    subst hlen
    exact reassemble_of_inOrder c hsum hinorder qsort harrived

/-- `HTTP/1.1 200 OK` and a body of three bytes. -/
def okResponse : Response where
  header := [72, 84, 84, 80, 47, 49, 46, 49, 32, 50, 48, 48, 32, 79, 75, 13, 10, 13, 10]
  body := [255, 216, 255]
  delimited := by decide
  noNul := by decide

/-- The header with one byte of the body, and the rest of it. -/
def okSegments : Segmentation where
  sizes := [20, 2]
  pos := by decide
  fits := by decide

/-- Numbered from 2³² − 21 on, the segments are put together. -/
theorem reassemble_iff_ok : Restores 4294967275 okSegments.sizes 19 :=
  (reassemble_iff 4294967275 okSegments (by decide) (by decide)).mpr (by decide)

/-- One further, the second segment has the number 0: it comes first and is left out. -/
theorem not_restored_wrap : ¬∀ (qsort : StdSort) (isn : UInt32) (c : Segmentation) (r : Response)
    (arrivals : List TCPPayload), r.header.length + r.body.length = c.sizes.sum →
      Arrived arrivals (segments isn c.sizes (r.header ++ r.body)) →
        reassemble qsort arrivals = .ok r.body := by
  intro hrestored
  have hrun := hrestored insertionSort 4294967276 okSegments okResponse _ rfl fun _ => Iff.rfl
  have himage : reassemble insertionSort
      (segments 4294967276 okSegments.sizes (okResponse.header ++ okResponse.body))
      = .ok (okResponse.header ++ [255]) := rfl
  rw [himage] at hrun
  exact absurd (Except.ok.inj hrun) (by decide)

end Nyctomek.Parsecap

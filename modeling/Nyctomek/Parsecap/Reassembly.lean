/-
# `Parsecap.Reassembly` — the image from its segments

A response is sent in segments, whose sequence numbers count its bytes from an initial
one on, modulo 2³².  They arrive in any order, some of them more than once.  The loop
over the sorted payloads is followed for segments that are `InOrder`:

    the numbers do not wrap around
    the header lies in the first segment, and is the whole of it if the first number is 0

From these `reassemble` restores the body (`reassemble_of_inOrder`).
-/
import Mathlib.Algebra.Ring.Nat
import Nyctomek.Parsecap.Basic

namespace Nyctomek.Parsecap

open Prog

/-! ## Segments -/

/-- The payload that is written when nothing is stripped. -/
def TCPPayload.bytes (p : TCPPayload) : Bytes := p.data.take p.payloadLen.toNat

/-- An HTTP response: the header ends in its first delimiter and has no NUL. -/
structure Response where
  header : Bytes
  body : Bytes
  delimited : find httpHeaderDelimeter header = some (header.length - httpHeaderDelimeterLen)
  noNul : 0 ∉ header

/-- The sizes of the segments, of which none is empty and each fits into an `unsigned short`. -/
structure Segmentation where
  sizes : List Nat
  pos : ∀ k ∈ sizes, 0 < k
  fits : ∀ k ∈ sizes, k < 65536

/-- The segments of a stream from a sequence number on. -/
def segments : UInt32 → List Nat → Bytes → List TCPPayload
  | _, [], _ => []
  | sequenceNumber, k :: ks, stream =>
      TCPPayload.of sequenceNumber (stream.take k) ::
        segments (sequenceNumber + UInt32.ofNat k) ks (stream.drop k)

theorem bytes_of {seq : UInt32} {payload : Bytes} (h : payload.length < 65536) :
    (TCPPayload.of seq payload).bytes = payload := by
  have hlen : (UInt16.ofNat payload.length).toNat = payload.length := UInt16.toNat_ofNat_of_lt h
  rw [TCPPayload.bytes, TCPPayload.of, hlen]
  simp

/-- The numbers of the segments do not wrap around. -/
def NoWrap (sequenceNumber : UInt32) (sizes : List Nat) : Prop :=
  sequenceNumber.toNat + sizes.dropLast.sum < 2 ^ 32

instance (seq : UInt32) (sizes : List Nat) : Decidable (NoWrap seq sizes) :=
  inferInstanceAs (Decidable (_ < _))

/-- The segments are numbered in increasing order. -/
def Increasing (l : List TCPPayload) : Prop :=
  l.Pairwise fun a b => a.sequenceNumber.toNat < b.sequenceNumber.toNat

section
variable {seq : UInt32} {sizes : List Nat} {stream : Bytes}

theorem toNat_next {k : Nat} (h : seq.toNat + k < 2 ^ 32) :
    (seq + UInt32.ofNat k).toNat = seq.toNat + k := by
  rw [UInt32.toNat_add, UInt32.toNat_ofNat', Nat.add_mod_mod, Nat.mod_eq_of_lt h]

theorem noWrap_cons_cons {k k' : Nat} {ks : List Nat} (h : NoWrap seq (k :: k' :: ks)) :
    seq.toNat + k < 2 ^ 32 ∧ NoWrap (seq + UInt32.ofNat k) (k' :: ks) := by
  rw [NoWrap, List.dropLast_cons_cons, List.sum_cons] at h
  have hk : seq.toNat + k < 2 ^ 32 := by omega
  refine ⟨hk, ?_⟩
  rw [NoWrap, toNat_next hk]
  omega

/-- Without a wrap no number is below the first. -/
theorem le_of_mem_segments (hwrap : NoWrap seq sizes) {p : TCPPayload}
    (hp : p ∈ segments seq sizes stream) : seq.toNat ≤ p.sequenceNumber.toNat := by
  induction sizes generalizing seq stream with
  | nil => cases hp
  | cons k ks ih =>
      rcases List.mem_cons.mp hp with rfl | hp
      · exact Nat.le_refl _
      · cases ks with
        | nil => cases hp
        | cons k' ks =>
            obtain ⟨hk, hrest⟩ := noWrap_cons_cons hwrap
            have hle := ih hrest hp
            rw [toNat_next hk] at hle
            omega

theorem increasing_segments (hwrap : NoWrap seq sizes) (hpos : ∀ k ∈ sizes, 0 < k) :
    Increasing (segments seq sizes stream) := by
  induction sizes generalizing seq stream with
  | nil => exact List.Pairwise.nil
  | cons k ks ih =>
      obtain ⟨hk, hks⟩ := List.forall_mem_cons.mp hpos
      cases ks with
      | nil => exact List.pairwise_singleton _ _
      | cons k' ks =>
          obtain ⟨hlt, hrest⟩ := noWrap_cons_cons hwrap
          refine List.pairwise_cons.mpr ⟨?_, ih hrest hks⟩
          intro p hp
          have hle := le_of_mem_segments hrest hp
          rw [toNat_next hlt] at hle
          exact Nat.lt_of_lt_of_le (Nat.lt_add_of_pos_right hk) hle

/-- The segments hold the stream. -/
theorem flatMap_segments (hfits : ∀ k ∈ sizes, k < 65536) (hlen : stream.length = sizes.sum) :
    (segments seq sizes stream).flatMap TCPPayload.bytes = stream := by
  induction sizes generalizing seq stream with
  | nil => exact (List.eq_nil_of_length_eq_zero hlen).symm
  | cons k ks ih =>
      obtain ⟨hk, hks⟩ := List.forall_mem_cons.mp hfits
      rw [List.sum_cons] at hlen
      have hlen' : (stream.drop k).length = ks.sum := by
        rw [List.length_drop]
        omega
      have hfit : (stream.take k).length < 65536 := by
        rw [List.length_take]
        omega
      rw [segments, List.flatMap_cons, ih hks hlen', bytes_of hfit, List.take_append_drop]

end

/-! ## The loop over sorted payloads -/

/-- Sorted by their numbers. -/
def Sorted (l : List TCPPayload) : Prop :=
  l.Pairwise fun a b => a.sequenceNumber.toNat ≤ b.sequenceNumber.toNat

theorem compareSequenceNumbers_lt {a b : TCPPayload} :
    decide (compareSequenceNumbers a b < 0) = true
      ↔ a.sequenceNumber.toNat < b.sequenceNumber.toNat := by
  rw [decide_eq_true_iff, compareSequenceNumbers, ← UInt32.lt_iff_toNat_lt]
  split
  · rename_i h
    exact iff_of_true (by decide) h
  · rename_i h
    refine iff_of_false ?_ h
    split <;> decide

theorem strictWeakOn_compare (l : List TCPPayload) :
    StrictWeakOn (fun a b => decide (compareSequenceNumbers a b < 0)) l :=
  strictWeakOn_of_key (fun p => p.sequenceNumber.toNat) fun _ _ _ _ => compareSequenceNumbers_lt

/-- What `qsort` leaves: the payloads, sorted. -/
theorem sorted_qsort (qsort : StdSort) (payloads : List TCPPayload) :
    Sorted (qsort.sort (fun a b => decide (compareSequenceNumbers a b < 0)) payloads) ∧
      ∀ p, p ∈ qsort.sort (fun a b => decide (compareSequenceNumbers a b < 0)) payloads
        ↔ p ∈ payloads := by
  have hweak := strictWeakOn_compare payloads
  refine ⟨?_, fun p => (qsort.perm hweak).mem_iff⟩
  refine (qsort.sorted hweak).imp ?_
  intro a b hba
  rw [← Bool.not_eq_true, compareSequenceNumbers_lt] at hba
  exact Nat.le_of_not_lt hba

theorem imageTurn_skip {s : ImageState} {p : TCPPayload}
    (h : s.prevSequenceNumber = p.sequenceNumber) : imageTurn s p = .ok { s with i := s.i + 1 } :=
  if_pos h

theorem imageTurn_write {s : ImageState} {p : TCPPayload}
    (h : s.prevSequenceNumber ≠ p.sequenceNumber) (hi : s.i ≠ 0) :
    imageTurn s p = .ok ⟨s.i + 1, p.sequenceNumber, s.image ++ p.bytes⟩ := by
  rw [imageTurn, if_neg h, if_neg hi, ImageState.write, List.drop_zero, Nat.sub_zero]
  rfl

/-- Of the same payloads the first sorted one is the first in increasing order. -/
theorem head_eq {p q : TCPPayload} {l qs : List TCPPayload} (hsorted : Sorted (p :: l))
    (hincreasing : Increasing (q :: qs)) (hp : p ∈ q :: qs) (hq : q ∈ p :: l) : p = q := by
  rcases List.mem_cons.mp hp with h | h
  · exact h
  · have hlt := (List.pairwise_cons.mp hincreasing).1 p h
    rcases List.mem_cons.mp hq with h' | h'
    · exact h'.symm
    · exact absurd ((List.pairwise_cons.mp hsorted).1 q h') (Nat.not_le_of_lt hlt)

/-- **Behind the first payload** each further segment is written once. -/
theorem foldlM_imageTurn {l ps : List TCPPayload} {s : ImageState} (hi : s.i ≠ 0)
    (hsorted : Sorted l) (hps : Increasing ps)
    (hmem : ∀ p ∈ l, p.sequenceNumber = s.prevSequenceNumber ∨ p ∈ ps)
    (hsub : ∀ p ∈ ps, p ∈ l ∧ s.prevSequenceNumber.toNat < p.sequenceNumber.toNat) :
    ∃ s', l.foldlM imageTurn s = .ok s' ∧ s'.image = s.image ++ ps.flatMap TCPPayload.bytes := by
  induction l generalizing s ps with
  | nil =>
      cases ps with
      | nil => exact ⟨s, rfl, by simp⟩
      | cons p ps => exact absurd (hsub p List.mem_cons_self).1 (by simp)
  | cons p l ih =>
      obtain ⟨hp, hl⟩ := List.pairwise_cons.mp hsorted
      obtain ⟨hmemp, hmeml⟩ := List.forall_mem_cons.mp hmem
      rw [List.foldlM_cons]
      by_cases hskip : s.prevSequenceNumber = p.sequenceNumber
      · rw [imageTurn_skip hskip, ok_bind]
        refine ih (Nat.succ_ne_zero _) hl hps hmeml ?_
        intro q hq
        obtain ⟨hqmem, hlt⟩ := hsub q hq
        rcases List.mem_cons.mp hqmem with rfl | hql
        · rw [hskip] at hlt
          exact absurd hlt (Nat.lt_irrefl _)
        · exact ⟨hql, hlt⟩
      · have hpps : p ∈ ps := hmemp.resolve_left fun h => hskip h.symm
        cases ps with
        | nil => cases hpps
        | cons q qs =>
            obtain ⟨hq, hqs⟩ := List.pairwise_cons.mp hps
            -- the next payload is the first segment left
            have hpq : p = q := head_eq hsorted hps hpps (hsub q List.mem_cons_self).1
            subst hpq
            rw [imageTurn_write hskip hi, ok_bind]
            have hrest : ∀ r ∈ qs, r ∈ l ∧ p.sequenceNumber.toNat < r.sequenceNumber.toNat := by
              intro r hr
              have hlt := hq r hr
              rcases List.mem_cons.mp (hsub r (List.mem_cons_of_mem _ hr)).1 with rfl | h
              · exact absurd hlt (Nat.lt_irrefl _)
              · exact ⟨h, hlt⟩
            have hmem' : ∀ r ∈ l, r.sequenceNumber = p.sequenceNumber ∨ r ∈ qs := by
              intro r hr
              rcases hmeml r hr with h | h
              · have hle := hp r hr
                rw [h] at hle
                exact absurd hle (Nat.not_le_of_lt (hsub p List.mem_cons_self).2)
              · rcases List.mem_cons.mp h with rfl | h
                · exact Or.inl rfl
                · exact Or.inr h
            obtain ⟨s', hrun, himage⟩ :=
              ih (s := ⟨s.i + 1, p.sequenceNumber, s.image ++ p.bytes⟩) (Nat.succ_ne_zero _) hl hqs
                hmem' hrest
            exact ⟨s', hrun, by rw [himage, List.flatMap_cons, List.append_assoc]⟩

/-! ## The header -/

theorem takeWhile_append_nul (payload : Bytes) :
    (payload ++ [0]).takeWhile (· != 0) = payload.takeWhile (· != 0) := by
  induction payload with
  | nil => rfl
  | cons b payload ih =>
      rw [List.cons_append, List.takeWhile_cons, List.takeWhile_cons, ih]

theorem takeWhile_header (header : Bytes) (h : 0 ∉ header) (rest : Bytes) :
    (header ++ rest).takeWhile (· != 0) = header ++ rest.takeWhile (· != 0) := by
  apply List.takeWhile_append_of_pos
  intro b hb
  rw [bne_iff_ne]
  rintro rfl
  exact h hb

theorem Response.length_le (r : Response) : httpHeaderDelimeterLen ≤ r.header.length := by
  have hle := find_add_length_le r.delimited
  simp only [httpHeaderDelimeter, httpHeaderDelimeterLen, List.length_cons, List.length_nil] at *
  omega

/-- A segment with the whole header shows where it ends. -/
theorem strstr_header (r : Response) (seq : UInt32) (rest : Bytes) :
    strstr (TCPPayload.of seq (r.header ++ rest)).data httpHeaderDelimeter
      = some (r.header.length - httpHeaderDelimeterLen) := by
  rw [strstr, TCPPayload.of, takeWhile_append_nul, takeWhile_header _ r.noNul]
  exact find_append r.delimited _

/-- A segment with less of it shows nothing. -/
theorem strstr_part (r : Response) (seq : UInt32) {k : Nat} (hk : k < r.header.length) :
    strstr (TCPPayload.of seq (r.header.take k)).data httpHeaderDelimeter = none := by
  have hall : (r.header.take k).takeWhile (· != 0) = r.header.take k := by
    have happend := takeWhile_header (r.header.take k)
      (fun h => r.noNul (List.mem_of_mem_take h)) []
    simpa using happend
  rw [strstr, TCPPayload.of, takeWhile_append_nul, hall]
  apply find_take r.delimited
  have hle := r.length_le
  simp only [httpHeaderDelimeter, httpHeaderDelimeterLen, List.length_cons, List.length_nil] at *
  omega

/-- The turn for a first segment with the whole header. -/
theorem imageTurn_header (r : Response) {seq : UInt32} (hseq : seq ≠ 0) {rest : Bytes}
    (hfit : (r.header ++ rest).length < 65536) :
    imageTurn ⟨0, 0, []⟩ (TCPPayload.of seq (r.header ++ rest)) = .ok ⟨1, seq, rest⟩ := by
  have hlen : (UInt16.ofNat (r.header ++ rest).length).toNat = (r.header ++ rest).length :=
    UInt16.toNat_ofNat_of_lt hfit
  have hstart : r.header.length - httpHeaderDelimeterLen + httpHeaderDelimeterLen
      = r.header.length := Nat.sub_add_cancel r.length_le
  rw [imageTurn, if_neg (fun h => hseq h.symm), if_pos rfl, strstr_header]
  simp only [ImageState.write, hstart]
  rw [TCPPayload.of, hlen]
  simp

/-! ## Which segments are put together -/

/-- The segments from which any response is restored: numbered without a wrap, with the
header in the first; a first segment numbered 0 is left out, and has to be the header. -/
def InOrder (isn : UInt32) (sizes : List Nat) (headerLen : Nat) : Prop :=
  NoWrap isn sizes ∧
    if isn = 0 then headerLen = sizes.headD 0 else headerLen ≤ sizes.headD 0

instance (isn : UInt32) (sizes : List Nat) (headerLen : Nat) :
    Decidable (InOrder isn sizes headerLen) :=
  inferInstanceAs (Decidable (_ ∧ ite _ _ _))

/-- The payloads that have arrived are the segments of the stream, all of them and each at
least once. -/
def Arrived (arrivals sent : List TCPPayload) : Prop := ∀ p, p ∈ arrivals ↔ p ∈ sent

/-- The first turn of the loop. -/
theorem exists_sorted (qsort : StdSort) {arrivals : List TCPPayload} {q : TCPPayload}
    {qs : List TCPPayload} (harrived : Arrived arrivals (q :: qs))
    (hincreasing : Increasing (q :: qs)) :
    ∃ l, qsort.sort (fun a b => decide (compareSequenceNumbers a b < 0)) arrivals = q :: l ∧
      Sorted l ∧ (∀ p ∈ l, p.sequenceNumber = q.sequenceNumber ∨ p ∈ qs) ∧
      ∀ p ∈ qs, p ∈ l ∧ q.sequenceNumber.toNat < p.sequenceNumber.toNat := by
  obtain ⟨hsorted, hmem⟩ := sorted_qsort qsort arrivals
  generalize qsort.sort (fun a b => decide (compareSequenceNumbers a b < 0)) arrivals = l at *
  have hmem' : ∀ p, p ∈ l ↔ p ∈ q :: qs := fun p => (hmem p).trans (harrived p)
  cases l with
  | nil => exact absurd ((hmem' q).mpr List.mem_cons_self) (by simp)
  | cons p l =>
      have hpq : p = q := head_eq hsorted hincreasing ((hmem' p).mp List.mem_cons_self)
        ((hmem' q).mpr List.mem_cons_self)
      subst hpq
      refine ⟨l, rfl, (List.pairwise_cons.mp hsorted).2, ?_, ?_⟩
      · intro r hr
        rcases List.mem_cons.mp ((hmem' r).mp (List.mem_cons_of_mem _ hr)) with rfl | h
        · exact Or.inl rfl
        · exact Or.inr h
      · intro r hr
        have hlt := (List.pairwise_cons.mp hincreasing).1 r hr
        rcases List.mem_cons.mp ((hmem' r).mpr (List.mem_cons_of_mem _ hr)) with rfl | h
        · exact absurd hlt (Nat.lt_irrefl _)
        · exact ⟨h, hlt⟩

theorem reassemble_of_inOrder {isn : UInt32} (c : Segmentation) {r : Response}
    (hlen : r.header.length + r.body.length = c.sizes.sum)
    (hinorder : InOrder isn c.sizes r.header.length) (qsort : StdSort) {arrivals : List TCPPayload}
    (harrived : Arrived arrivals (segments isn c.sizes (r.header ++ r.body))) :
    reassemble qsort arrivals = .ok r.body := by
  obtain ⟨sizes, hpos, hfits⟩ := c
  obtain ⟨hwrap, hfirst⟩ := hinorder
  have hincreasing : Increasing (segments isn sizes (r.header ++ r.body)) :=
    increasing_segments hwrap hpos
  cases sizes with
  | nil =>
      have hle := r.length_le
      simp only [List.sum_nil, httpHeaderDelimeterLen] at hlen hle
      omega
  | cons k ks =>
      have hk := hfits k List.mem_cons_self
      rw [List.sum_cons] at hlen
      rw [segments] at harrived hincreasing
      obtain ⟨l, hsort, hsorted, hmem, hsub⟩ := exists_sorted qsort harrived hincreasing
      have hrest : ((segments (isn + UInt32.ofNat k) ks ((r.header ++ r.body).drop k)).flatMap
          TCPPayload.bytes) = (r.header ++ r.body).drop k := by
        apply flatMap_segments (List.forall_mem_cons.mp hfits).2
        rw [List.length_drop, List.length_append]
        omega
      have htail := (List.pairwise_cons.mp hincreasing).2
      rw [reassemble]
      simp only [hsort, List.foldlM_cons]
      by_cases hzero : isn = 0
      · -- the header is left out with its segment
        subst hzero
        rw [if_pos rfl] at hfirst
        have hheader : (r.header ++ r.body).drop k = r.body := List.drop_left' hfirst
        obtain ⟨s, hrun, himage⟩ :=
          foldlM_imageTurn (s := ⟨1, 0, []⟩) (Nat.succ_ne_zero 0) hsorted htail hmem hsub
        rw [imageTurn_skip rfl, ok_bind, hrun, ok_bind, himage, hrest, hheader]
        rfl
      · rw [if_neg hzero] at hfirst
        have hle : r.header.length ≤ k := hfirst
        have htake : (r.header ++ r.body).take k
            = r.header ++ r.body.take (k - r.header.length) := by
          rw [List.take_append, List.take_of_length_le hle]
        have hfit : (r.header ++ r.body.take (k - r.header.length)).length < 65536 := by
          rw [← htake, List.length_take]
          omega
        obtain ⟨s, hrun, himage⟩ := foldlM_imageTurn
          (s := ⟨1, isn, r.body.take (k - r.header.length)⟩) (Nat.succ_ne_zero 0) hsorted htail
          hmem hsub
        rw [htake, imageTurn_header r hzero hfit, ok_bind, hrun, ok_bind, himage, hrest,
          List.drop_append, List.drop_of_length_le hle, List.nil_append, List.take_append_drop]

end Nyctomek.Parsecap

/-
# `Parsecap.Program` — from the capture to the image

`main` reads the packets, and puts together what it has found.  Between a capture file and
`image.jpg` stand two formats, records of frames and numbered segments of a stream:

    reassemble_congr     the image is a matter of which payloads there are, not of their order
                         or number
    main_congr           so it is for two captures, whatever else is in them
    main_restores_iff    the responses that come out of every capture of their segments
-/
import Nyctomek.Parsecap.Extraction
import Nyctomek.Parsecap.Restoring
import Nyctomek.Parsecap.Writes

namespace Nyctomek.Parsecap

open Prog

/-- `main` on the bytes of the capture file: what it writes to the image file. -/
def main (qsort : StdSort) (file : Bytes) (fuel : Nat) : Exec Fault Bytes := do
  let payloads ← packetLoop file fuel
  liftM (reassemble qsort payloads)

/-! ## Payloads with the same members -/

section
variable {xs ys : List TCPPayload} {prev : UInt32}

/-- No two payloads have the same number. -/
def Consistent (payloads : List TCPPayload) : Prop :=
  ∀ p ∈ payloads, ∀ q ∈ payloads, p.sequenceNumber = q.sequenceNumber → p = q

instance (payloads : List TCPPayload) : Decidable (Consistent payloads) :=
  inferInstanceAs (Decidable (∀ p ∈ payloads, ∀ q ∈ payloads, _ → _))

theorem Consistent.tail {p : TCPPayload} (h : Consistent (p :: xs)) : Consistent xs :=
  fun q hq r hr => h q (List.mem_cons_of_mem _ hq) r (List.mem_cons_of_mem _ hr)

theorem mem_written_iff (hsorted : Sorted xs) (hconsistent : Consistent xs)
    (hprev : ∀ p ∈ xs, prev.toNat ≤ p.sequenceNumber.toNat) (p : TCPPayload) :
    p ∈ written prev xs ↔ p ∈ xs ∧ prev.toNat < p.sequenceNumber.toNat := by
  obtain ⟨-, hmem, hnumbers⟩ := written_sorted hsorted hprev
  constructor
  · intro hp
    exact ⟨hmem p hp, ((hnumbers p.sequenceNumber).mp ⟨p, hp, rfl⟩).2⟩
  · rintro ⟨hp, hlt⟩
    obtain ⟨q, hq, hnumber⟩ := (hnumbers p.sequenceNumber).mpr ⟨⟨p, hp, rfl⟩, hlt⟩
    rwa [hconsistent p hp q (hmem q hq) hnumber.symm]

/-- Increasing lists with the same members are the same. -/
theorem Increasing.eq_of_mem_iff (hxs : Increasing xs) (hys : Increasing ys)
    (h : ∀ p, p ∈ xs ↔ p ∈ ys) : xs = ys := by
  have hnodup : ∀ {l : List TCPPayload}, Increasing l → l.Nodup := by
    intro l hl
    refine hl.imp ?_
    rintro p q hlt rfl
    exact Nat.lt_irrefl _ hlt
  have hperm : xs.Perm ys := (List.perm_ext_iff_of_nodup (hnodup hxs) (hnodup hys)).mpr h
  refine hperm.eq_of_pairwise ?_ hxs hys
  intro p q _ _ hpq hqp
  exact absurd (hpq.trans hqp) (Nat.lt_irrefl _)

theorem written_congr (hxs : Sorted xs) (hys : Sorted ys) (hconsistent : Consistent xs)
    (hconsistent' : Consistent ys) (hprev : ∀ p ∈ xs, prev.toNat ≤ p.sequenceNumber.toNat)
    (hprev' : ∀ p ∈ ys, prev.toNat ≤ p.sequenceNumber.toNat)
    (h : ∀ p, prev.toNat < p.sequenceNumber.toNat → (p ∈ xs ↔ p ∈ ys)) :
    written prev xs = written prev ys := by
  refine (written_sorted hxs hprev).1.eq_of_mem_iff (written_sorted hys hprev').1 ?_
  intro p
  rw [mem_written_iff hxs hconsistent hprev, mem_written_iff hys hconsistent' hprev']
  exact and_congr_left (h p)

/-- The loop over two sorted lists with the same members. -/
theorem foldlM_writeTurn_congr (hxs : Sorted xs) (hys : Sorted ys) (hconsistent : Consistent xs)
    (h : ∀ p, p ∈ xs ↔ p ∈ ys) :
    (xs.foldlM writeTurn ⟨0, 0, []⟩).map WriteState.writes
      = (ys.foldlM writeTurn ⟨0, 0, []⟩).map WriteState.writes := by
  have hconsistent' : Consistent ys := fun p hp q hq =>
    hconsistent p ((h p).mpr hp) q ((h q).mpr hq)
  cases xs with
  | nil =>
      cases ys with
      | nil => rfl
      | cons q ys => exact absurd ((h q).mpr List.mem_cons_self) List.not_mem_nil
  | cons p xs =>
      cases ys with
      | nil => exact absurd ((h p).mp List.mem_cons_self) List.not_mem_nil
      | cons q ys =>
          obtain ⟨hp, hsortedx⟩ := List.pairwise_cons.mp hxs
          obtain ⟨hq, hsortedy⟩ := List.pairwise_cons.mp hys
          -- both begin with the smallest number
          have hle : ∀ {a b : TCPPayload} {as : List TCPPayload},
              (∀ r ∈ as, a.sequenceNumber.toNat ≤ r.sequenceNumber.toNat) → b ∈ a :: as →
                a.sequenceNumber.toNat ≤ b.sequenceNumber.toNat := by
            intro a b as has hb
            rcases List.mem_cons.mp hb with rfl | hb
            · exact Nat.le_refl _
            · exact has b hb
          have hfirst : p = q := by
            have hqx := (h q).mpr List.mem_cons_self
            refine hconsistent p List.mem_cons_self q hqx (UInt32.toNat_inj.mp ?_)
            exact Nat.le_antisymm (hle hp hqx) (hle hq ((h p).mp List.mem_cons_self))
          subst hfirst
          have hrest : written p.sequenceNumber xs = written p.sequenceNumber ys := by
            refine written_congr hsortedx hsortedy hconsistent.tail hconsistent'.tail hp hq ?_
            intro r hlt
            have hne : r ≠ p := by
              rintro rfl
              exact Nat.lt_irrefl _ hlt
            have hr := h r
            rwa [List.mem_cons, List.mem_cons, or_iff_right hne, or_iff_right hne] at hr
          rw [List.foldlM_cons, List.foldlM_cons]
          cases hturn : writeTurn ⟨0, 0, []⟩ p with
          | error e => rfl
          | ok s =>
              have hs : s.i ≠ 0 ∧ s.prevSequenceNumber = p.sequenceNumber := by
                rw [writeTurn] at hturn
                split at hturn
                · rename_i hzero
                  cases hturn
                  exact ⟨Nat.succ_ne_zero 0, hzero⟩
                · rw [if_pos rfl] at hturn
                  split at hturn
                  · cases hturn
                  · cases hturn
                    exact ⟨Nat.succ_ne_zero 0, rfl⟩
              obtain ⟨hi, hprev⟩ := hs
              obtain ⟨s₁, hrun₁, hwrites₁⟩ := foldlM_writeTurn (l := xs) hi
              obtain ⟨s₂, hrun₂, hwrites₂⟩ := foldlM_writeTurn (l := ys) hi
              rw [ok_bind, ok_bind, hrun₁, hrun₂]
              refine congrArg Except.ok ?_
              rw [hwrites₁, hwrites₂, hprev, hrest]

end

/-- **The image** is a matter of which payloads there are: in what order they have arrived,
and how often, does not matter. -/
theorem reassemble_congr {payloads payloads' : List TCPPayload}
    (hconsistent : Consistent payloads) (h : ∀ p, p ∈ payloads ↔ p ∈ payloads')
    (qsort qsort' : StdSort) : reassemble qsort payloads = reassemble qsort' payloads' := by
  obtain ⟨hsorted, hmem⟩ := sorted_qsort qsort payloads
  obtain ⟨hsorted', hmem'⟩ := sorted_qsort qsort' payloads'
  have hwrites : reassembleWrites qsort payloads = reassembleWrites qsort' payloads' := by
    have hmap : ∀ x : Except Fault WriteState,
        (x >>= fun s => Except.ok s.writes) = x.map WriteState.writes := by
      intro x
      cases x with
      | error e => rfl
      | ok s => rfl
    rw [reassembleWrites, reassembleWrites]
    generalize qsort.sort (fun a b => decide (compareSequenceNumbers a b < 0)) payloads = l at *
    generalize qsort'.sort (fun a b => decide (compareSequenceNumbers a b < 0)) payloads' = l' at *
    refine (hmap _).trans (Eq.trans ?_ (hmap _).symm)
    refine foldlM_writeTurn_congr hsorted hsorted' ?_ ?_
    · intro p hp q hq
      exact hconsistent p ((hmem p).mp hp) q ((hmem q).mp hq)
    · intro p
      rw [hmem, h, hmem']
  rw [reassemble_eq, reassemble_eq, hwrites]

/-! ## The whole program on a capture -/

section
variable {c c' : Capture}

/-- Where the loop finds the server's payloads, they are what is put together. -/
theorem main_ends (h : Extractable (c.frames.map Frame.layout)) (qsort : StdSort) :
    Ends (main qsort c.file) (reassemble qsort c.serverPayloads) :=
  Ends.bind ((packetLoop_iff _).mpr h c rfl) (Ends.const _)

end

/-- The greatest payload behind headers without options. -/
def maxSegment : Nat := 65495

theorem no_options_le : 0 ≤ 10 := Nat.zero_le 10

/-- A frame without options that has some payload from port 80. -/
def Frame.carrying (sequenceNumber : UInt32) (payload : Bytes) (h : payload.length ≤ maxSegment) :
    Frame :=
  { Frame.zeros ⟨0, 0, payload.length, 0, no_options_le, no_options_le,
      by simp only [maxSegment] at h; omega, by simp only [maxSegment] at h; omega⟩ 80 with
    sequenceNumber := sequenceNumber
    payload := payload
    payload_length := rfl }

/-- **Two captures** with the same segments from port 80 give the same image, or fail in the
same way: in whatever order and however often these have been captured, and whatever frames
of other ports stand among them. -/
theorem main_congr {c c' : Capture} (h : Extractable (c.frames.map Frame.layout))
    (h' : Extractable (c'.frames.map Frame.layout)) (hconsistent : Consistent c.serverPayloads)
    (hsame : ∀ p, p ∈ c.serverPayloads ↔ p ∈ c'.serverPayloads) (qsort qsort' : StdSort) :
    ∃ r, Ends (main qsort c.file) r ∧ Ends (main qsort' c'.file) r := by
  refine ⟨_, main_ends h qsort, ?_⟩
  rw [reassemble_congr hconsistent hsame qsort qsort']
  exact main_ends h' qsort'

/-- The header, the body behind it, and a retransmission of the body in front of both. -/
theorem main_congr_retransmitted :
    ∃ r, Ends (main insertionSort (Capture.of [.carrying 7 [13, 10, 13, 10] (by decide),
        .carrying 11 [255, 216] (by decide)]).file) r ∧
      Ends (main mergeSort (Capture.of [.carrying 11 [255, 216] (by decide),
        .carrying 7 [13, 10, 13, 10] (by decide), .carrying 11 [255, 216] (by decide)]).file) r := by
  refine main_congr (by decide) (by decide) (by decide) ?_ insertionSort mergeSort
  intro p
  show p ∈ [TCPPayload.of 7 [13, 10, 13, 10], .of 11 [255, 216]] ↔
    p ∈ [TCPPayload.of 11 [255, 216], .of 7 [13, 10, 13, 10], .of 11 [255, 216]]
  simp only [List.mem_cons, List.not_mem_nil, or_false]
  exact ⟨fun hp => .inr hp, fun hp => hp.elim .inr id⟩

/-! ## Captures of a response -/

/-- Every capture of the segments of a response with a header of some length gives its body. -/
def Recovers (isn : UInt32) (sizes : List Nat) (headerLen : Nat) : Prop :=
  ∀ (qsort : StdSort) (r : Response) (c : Capture), r.header.length = headerLen →
    r.header.length + r.body.length = sizes.sum → Extractable (c.frames.map Frame.layout) →
    Arrived c.serverPayloads (segments isn sizes (r.header ++ r.body)) →
    Ends (main qsort c.file) (.ok r.body)

/-- A segment is a part of the stream, of one of the sizes. -/
theorem exists_of_mem_segments {isn : UInt32} {sizes : List Nat} {stream : Bytes}
    (hlen : stream.length = sizes.sum) {p : TCPPayload} (hp : p ∈ segments isn sizes stream) :
    ∃ sequenceNumber payload, p = .of sequenceNumber payload ∧ payload.length ∈ sizes := by
  induction sizes generalizing isn stream with
  | nil => cases hp
  | cons k ks ih =>
      rw [List.sum_cons] at hlen
      rcases List.mem_cons.mp hp with rfl | hp
      · refine ⟨isn, stream.take k, rfl, ?_⟩
        rw [List.length_take, Nat.min_eq_left (by omega)]
        exact List.mem_cons_self
      · have hrest : (stream.drop k).length = ks.sum := by
          rw [List.length_drop]
          omega
        obtain ⟨sequenceNumber, payload, rfl, hmem⟩ := ih hrest hp
        exact ⟨sequenceNumber, payload, rfl, List.mem_cons_of_mem _ hmem⟩

theorem extractable_of_bare {layouts : List Layout} (h : ∀ l ∈ layouts, l.ipOptionWords = 0) :
    Extractable layouts := by
  induction layouts with
  | nil => exact trivial
  | cons l ls ih =>
      obtain ⟨hl, hls⟩ := List.forall_mem_cons.mp h
      exact ⟨.inl hl, ih hls⟩

/-- There is a capture of any payloads that are not empty and not too long. -/
theorem exists_capture {payloads : List TCPPayload}
    (h : ∀ p ∈ payloads, ∃ sequenceNumber payload, p = .of sequenceNumber payload ∧
      0 < payload.length ∧ payload.length ≤ maxSegment) :
    ∃ c : Capture, Extractable (c.frames.map Frame.layout) ∧ c.serverPayloads = payloads := by
  have hframes : ∃ frames : List Frame, (∀ f ∈ frames, f.layout.ipOptionWords = 0) ∧
      frames.filterMap Frame.serverPayload = payloads := by
    induction payloads with
    | nil => exact ⟨[], List.forall_mem_nil _, rfl⟩
    | cons p ps ih =>
        obtain ⟨hp, hps⟩ := List.forall_mem_cons.mp h
        obtain ⟨frames, hbare, hmap⟩ := ih hps
        obtain ⟨sequenceNumber, payload, rfl, hpos, hle⟩ := hp
        refine ⟨.carrying sequenceNumber payload hle :: frames,
          List.forall_mem_cons.mpr ⟨rfl, hbare⟩, ?_⟩
        have hserver : (Frame.carrying sequenceNumber payload hle).serverPayload
            = some (.of sequenceNumber payload) :=
          if_pos ⟨rfl, List.ne_nil_of_length_pos hpos⟩
        rw [List.filterMap_cons_some hserver, hmap]
  obtain ⟨frames, hbare, hmap⟩ := hframes
  refine ⟨.of frames, extractable_of_bare ?_, hmap⟩
  intro l hl
  obtain ⟨f, hf, rfl⟩ := List.mem_map.mp hl
  exact hbare f hf

/-- **From the wire to the image**: the body comes out of every capture of the segments exactly
if these are numbered without a wrap and the header is in the first of them. -/
theorem main_restores_iff (isn : UInt32) (c : Segmentation) {headerLen : Nat}
    (h : httpHeaderDelimeterLen ≤ headerLen) (hle : headerLen ≤ c.sizes.sum)
    (hmax : ∀ k ∈ c.sizes, k ≤ maxSegment) :
    Recovers isn c.sizes headerLen ↔ InOrder isn c.sizes headerLen := by
  constructor
  · intro hrecovers
    apply (reassemble_iff isn c h hle).mp
    intro qsort r arrivals hlen hsum harrived
    have hcapture : ∃ capture : Capture, Extractable (capture.frames.map Frame.layout) ∧
        capture.serverPayloads = arrivals := by
      apply exists_capture
      intro p hp
      have hstream : (r.header ++ r.body).length = c.sizes.sum := List.length_append.trans hsum
      obtain ⟨sequenceNumber, payload, rfl, hmem⟩ :=
        exists_of_mem_segments hstream ((harrived p).mp hp)
      exact ⟨sequenceNumber, payload, rfl, c.pos _ hmem, hmax _ hmem⟩
    obtain ⟨capture, hextractable, rfl⟩ := hcapture
    exact (main_ends hextractable qsort).unique (hrecovers qsort r capture hlen hsum hextractable
      harrived)
  · intro hinorder qsort r capture hlen hsum hextractable harrived
    subst hlen
    rw [← reassemble_of_inOrder c hsum hinorder qsort harrived]
    exact main_ends hextractable qsort

/-- A response in two segments. -/
theorem main_restores_iff_ok : Recovers 4294967275 okSegments.sizes 19 :=
  (main_restores_iff 4294967275 okSegments (by decide) (by decide) (by decide)).mpr (by decide)

end Nyctomek.Parsecap

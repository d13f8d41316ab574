/-
# `Dns.Alignment` — replies whose answers are decoded where they stand

The position in a reply goes on by the bytes that each decoder counts, and neither RDLENGTH nor
the end of a name sets it right again.  What it takes for the next record to be found:

    the questions    end where the walk takes them to end (`QuestionsCounted`)
    NAME             is counted right, and so is the name in a CNAME record (`NameCounted`)
    the data         is an address or such a name, or there is none

or else the wrong count of a name is made up for by what is read behind it (`Record.MadeUp`).
`decodeDomain` counts a name by the furthest byte that it reads.  Labels up to a zero byte come
out right, if the first one passes the mask 80; where the name goes on elsewhere, the bytes that
are read there have to come to a zero byte without going beyond it.
-/
import Nyctomek.Dns.Bounds

namespace Nyctomek.Dns

open Prog

/-- From the place `s` on, the walk comes to a zero byte, and no further than `last`. -/
def Comes (buf : Bytes) (s : Place) (last : Nat) : Prop :=
  ∃ s', Walks buf s s' ∧ buf[s'.pos]? = some 0 ∧ s'.furthest = last

/-- From `pos` on, with the furthest position so far, there stands a name that is read to a zero
byte, and no further than `last`. -/
def Reads (buf : Bytes) (pos : Nat × Nat) (last : Nat) : Prop :=
  ∃ q k m, Relation.ReflTransGen (Jump buf) pos (q, m) ∧ buf[q]? = some k ∧ k &&& 80 = 0 ∧
    Comes buf ⟨q + 1, k, 0, m⟩ last

/-- The names of `n` bytes whose bytes are counted right. -/
inductive NameCounted (buf : Bytes) (p : Nat) : Nat → Prop
  | plain {l : Bytes} {ls : List Bytes} (stands : buf.At p (encodeLabels (l :: ls) ++ [0]))
      (labels : ∀ l' ∈ l :: ls, IsLabel l') (mask : UInt8.ofNat l.length &&& 80 = 0) :
      NameCounted buf p ((encodeLabels (l :: ls)).length + 1)
  | root (stands : buf.At p [0, 0]) : NameCounted buf p 1
  | pointed {l : Bytes} {ls : List Bytes} {t : Nat}
      (stands : buf.At p (encodeLabels (l :: ls) ++ pointer t))
      (labels : ∀ l' ∈ l :: ls, IsLabel l') (mask : UInt8.ofNat l.length &&& 80 = 0)
      (offset : t < 2 ^ 14)
      (comes : Comes buf ⟨t % 256, 0, (encodeLabels (l :: ls)).length - 1,
        p + (encodeLabels (l :: ls)).length + 1⟩ (p + (encodeLabels (l :: ls)).length + 1)) :
      NameCounted buf p ((encodeLabels (l :: ls)).length + 2)
  | taken {t n : Nat} (leads : pointerAt 80 buf p = some t) (reads : Reads buf (t, p + 1) (p + n)) :
      NameCounted buf p (n + 1)

/-- Where they stand, and how long they are. -/
def recordExtents : Nat → List Record → List (Nat × Nat)
  | _, [] => []
  | p, r :: rs => (p, r.wireLength) :: recordExtents (p + r.wireLength) rs

/-- The answers are decoded where the records stand, each with its whole length. -/
def AnswersAligned (answers : List (Decoded DNSResourceRecord)) (p : Nat) (records : List Record) :
    Prop :=
  answers.map (fun a => (a.position, a.bytesDecoded)) = recordExtents p records

/-- The name is counted with `k` bytes for those that it has, and what is taken for the data makes
up for it. -/
def Record.MadeUp (r : Record) (buf : Bytes) (p : Nat) : Prop :=
  ∃ k, k ≠ r.nameLength ∧ Spans buf p k ∧ p + k + 10 ≤ buf.length ∧
    ((AddressAt buf (p + k) ∧ p + k + 14 ≤ buf.length ∧ k + 4 = r.nameLength + r.data.length) ∨
      (CanonicalAt buf (p + k) ∧ ∃ m, Spans buf (p + k + 10) m ∧
        k + m = r.nameLength + r.data.length) ∨
      (¬ AddressAt buf (p + k) ∧ ¬ CanonicalAt buf (p + k) ∧ k = r.nameLength + r.data.length))

/-- The bytes of the record are counted right. -/
def Record.Counted (r : Record) (buf : Bytes) (p : Nat) : Prop :=
  (NameCounted buf p r.nameLength ∧
    ((r.recordType = RESOURCE_RECORD_TYPE_A ∧ r.recordClass = RESOURCE_RECORD_CLASS_IN) ∨
      (r.recordType = RESOURCE_RECORD_TYPE_CNAME ∧
        NameCounted buf (p + r.nameLength + 10) r.data.length) ∨
      r.data = [])) ∨
  r.MadeUp buf p

/-- The bytes of every record are counted right, where it stands. -/
def AnswersCounted (buf : Bytes) : Nat → List Record → Prop
  | _, [] => True
  | p, r :: rs => r.Counted buf p ∧ AnswersCounted buf (p + r.wireLength) rs

/-- The questions are taken to end where the answers begin, if there are any. -/
structure QuestionsCounted (reply : Bytes) (questions : List Question) (records : List Record) :
    Prop where
  inside : questionsEnd reply 12 questions.length ≤ reply.length
  start : records ≠ [] → questionsEnd reply 12 questions.length = answersStart questions

section
variable {buf : Bytes} {p m n w : Nat} {k : UInt8} {s s' s₁ : Place} {ls : List Bytes}

/-! ## Walks -/

theorem Step.furthest_le (h : Step buf s s') : s.furthest ≤ s'.furthest := by
  cases h with
  | byte _ _ _ _ => exact Nat.le_max_left _ _
  | length _ _ _ _ _ => exact Nat.le_max_left _ _
  | pointer _ _ => exact Nat.le_max_left _ _

theorem Step.lt_furthest (h : Step buf s s') : s.pos < s'.furthest := by
  cases h with
  | byte _ _ _ _ => exact Nat.le_max_right _ _
  | length _ _ _ _ _ => exact Nat.le_max_right _ _
  | pointer _ _ => exact Nat.le_max_right _ _

theorem Walks.furthest_le (h : Walks buf s s') : s.furthest ≤ s'.furthest := by
  induction h with
  | refl => exact Nat.le_refl _
  | tail _ hstep ih => exact Nat.le_trans ih hstep.furthest_le

theorem jumps_furthest_le {a b : Nat × Nat} (h : Relation.ReflTransGen (Jump buf) a b) :
    a.2 ≤ b.2 := by
  induction h with
  | refl => exact Nat.le_refl _
  | tail _ hjump ih =>
      obtain ⟨-, hmax⟩ := hjump
      omega

/-- A step is determined by its place. -/
theorem Step.unique (h : Step buf s s₁) (h' : Step buf s s') : s₁ = s' := by
  cases h with
  | byte stands _ inside _ =>
      cases h' with
      | byte _ _ _ _ => rfl
      | length _ _ behind _ _ => exact absurd (behind ▸ inside) (by decide)
      | pointer behind _ => exact absurd (behind ▸ inside) (by decide)
  | length stands _ behind low _ =>
      cases h' with
      | byte _ _ inside _ => exact absurd (behind ▸ inside) (by decide)
      | length stands' _ _ _ _ => rw [Option.some.inj (stands.symm.trans stands')]
      | pointer _ leads =>
          obtain ⟨b, _, hb, hmask, -, -⟩ := pointerAt_eq_some.mp leads
          exact absurd (Option.some.inj (hb.symm.trans stands) ▸ low) hmask
  | pointer behind leads =>
      cases h' with
      | byte _ _ inside _ => exact absurd (behind ▸ inside) (by decide)
      | length stands _ _ low _ =>
          obtain ⟨b, _, hb, hmask, -, -⟩ := pointerAt_eq_some.mp leads
          exact absurd (Option.some.inj (hb.symm.trans stands) ▸ low) hmask
      | pointer _ leads' => rw [Option.some.inj (leads.symm.trans leads')]

/-- No step begins at a zero byte. -/
theorem not_step_of_zero (hzero : buf[s.pos]? = some 0) : ¬ Step buf s s' := by
  intro hstep
  cases hstep with
  | byte stands nonzero _ _ => exact nonzero (Option.some.inj (stands.symm.trans hzero))
  | length stands nonzero _ _ _ => exact nonzero (Option.some.inj (stands.symm.trans hzero))
  | pointer _ leads =>
      obtain ⟨b, _, hb, hmask, -, -⟩ := pointerAt_eq_some.mp leads
      obtain rfl := Option.some.inj (hb.symm.trans hzero)
      exact hmask (by decide)

/-- Where a walk comes to does not depend on where one takes it up. -/
theorem comes_iff (h : Walks buf s s₁) (last : Nat) : Comes buf s last ↔ Comes buf s₁ last := by
  constructor
  · rintro ⟨s', hwalk, hzero, hlast⟩
    have htotal : Walks buf s₁ s' ∨ Walks buf s' s₁ :=
      Relation.ReflTransGen.total_of_right_unique (fun _ _ _ => Step.unique) h hwalk
    rcases htotal with hrest | hback
    · exact ⟨s', hrest, hzero, hlast⟩
    · rcases hback.cases_head with rfl | ⟨_, hstep, -⟩
      · exact ⟨s', .refl, hzero, hlast⟩
      · exact absurd hstep (not_step_of_zero hzero)
  · rintro ⟨s', hwalk, hzero, hlast⟩
    exact ⟨s', h.trans hwalk, hzero, hlast⟩

/-- The bytes of a label are walked through. -/
theorem walks_bytes {bs : Bytes} (hbs : buf.At p bs) (hzero : 0 ∉ bs) (hne : bs ≠ [])
    (hshort : bs.length < 256) (hroom : w + bs.length ≤ buf.length) :
    Walks buf ⟨p, UInt8.ofNat bs.length, w, m⟩
      ⟨p + bs.length, 0, w + bs.length, max m (p + bs.length)⟩ := by
  induction bs generalizing p w m with
  | nil => exact absurd rfl hne
  | cons b bs ih =>
      obtain ⟨hb, hbs⟩ := hbs
      rw [List.length_cons] at hshort hroom ⊢
      obtain ⟨hk, hpred⟩ := ofNat_succ_pos hshort
      have hstep : Step buf ⟨p, UInt8.ofNat (bs.length + 1), w, m⟩
          ⟨p + 1, UInt8.ofNat (bs.length + 1) - 1, w + 1, max m (p + 1)⟩ :=
        .byte hb (fun h => hzero (by simp [h])) hk (by show w < _; omega)
      rw [hpred] at hstep
      cases bs with
      | nil => exact Relation.ReflTransGen.single hstep
      | cons b' bs =>
          have ih := ih (w := w + 1) (m := max m (p + 1)) hbs (fun h => hzero (by simp [h]))
            (List.cons_ne_nil b' bs) (by omega) (by omega)
          have hmax : max (max m (p + 1)) (p + 1 + (b' :: bs).length)
              = max m (p + ((b' :: bs).length + 1)) := by omega
          rw [hmax, Nat.add_right_comm p, Nat.add_right_comm w] at ih
          exact .head hstep ih

/-- Labels behind others are walked through. -/
theorem walks_labels (hls : buf.At p (encodeLabels ls)) (hlabels : ∀ l ∈ ls, IsLabel l)
    (hroom : w + (encodeLabels ls).length ≤ buf.length) (hpm : p ≤ m) :
    Walks buf ⟨p, 0, w, m⟩ ⟨p + (encodeLabels ls).length, 0, w + (encodeLabels ls).length,
      max m (p + (encodeLabels ls).length)⟩ := by
  induction ls generalizing p w m with
  | nil =>
      rw [encodeLabels_nil, List.length_nil, Nat.add_zero, Nat.max_eq_left hpm]
      exact .refl
  | cons l ls ih =>
      have hl := hlabels l List.mem_cons_self
      have hshort := hl.short
      rw [encodeLabels_cons, Bytes.at_append, length_encodeLabel] at hls
      obtain ⟨⟨hlen, hbytes⟩, hls⟩ := hls
      have hlength : (encodeLabels (l :: ls)).length = l.length + 1 + (encodeLabels ls).length := by
        rw [encodeLabels_cons, List.length_append, length_encodeLabel]
      rw [hlength] at hroom ⊢
      have hstep : Step buf ⟨p, 0, w, m⟩ ⟨p + 1, UInt8.ofNat l.length, w + 1, max m (p + 1)⟩ :=
        .length hlen hl.isByteLabel.length_ne_zero rfl hl.length_low (by show w < _; omega)
      have hbytes := walks_bytes (w := w + 1) (m := max m (p + 1)) hbytes hl.nonzero
        (List.length_pos_iff.mp hl.pos) (by omega) (by omega)
      have ih := ih (w := w + (l.length + 1)) (m := max m (p + (l.length + 1))) hls
        (fun l' hl' => hlabels l' (List.mem_cons_of_mem l hl')) (by omega) (by omega)
      have hmid : max (max m (p + 1)) (p + 1 + l.length) = max m (p + (l.length + 1)) := by omega
      have hmax : max (max m (p + (l.length + 1))) (p + (l.length + 1) + (encodeLabels ls).length)
          = max m (p + (l.length + 1 + (encodeLabels ls).length)) := by omega
      rw [hmid, Nat.add_assoc p 1, Nat.add_assoc w 1, Nat.add_comm 1] at hbytes
      rw [hmax, Nat.add_assoc p, Nat.add_assoc w] at ih
      exact .head hstep (hbytes.trans ih)

/-- The labels of a name are walked through. -/
theorem walks_name {l : Bytes} (hstands : buf.At p (encodeLabels (l :: ls)))
    (hlabels : ∀ l' ∈ l :: ls, IsLabel l') :
    Walks buf ⟨p + 1, UInt8.ofNat l.length, 0, p⟩ ⟨p + (encodeLabels (l :: ls)).length, 0,
      (encodeLabels (l :: ls)).length - 1, p + (encodeLabels (l :: ls)).length⟩ := by
  have hl := hlabels l List.mem_cons_self
  have hpos := hl.pos
  have hshort := hl.short
  have hlength : (encodeLabels (l :: ls)).length = l.length + 1 + (encodeLabels ls).length := by
    rw [encodeLabels_cons, List.length_append, length_encodeLabel]
  have hfits := hstands.length_le (by simp [encodeLabel])
  rw [encodeLabels_cons, Bytes.at_append, length_encodeLabel] at hstands
  obtain ⟨⟨-, hbytes⟩, hls⟩ := hstands
  have hbytes := walks_bytes (w := 0) (m := p) hbytes hl.nonzero (List.length_pos_iff.mp hpos)
    (by omega) (by omega)
  have hls := walks_labels (w := l.length) (m := p + (l.length + 1)) hls
    (fun l' hl' => hlabels l' (List.mem_cons_of_mem l hl')) (by omega) (Nat.le_refl _)
  have hmid : max p (p + 1 + l.length) = p + (l.length + 1) := by omega
  have hmax : max (p + (l.length + 1)) (p + (l.length + 1) + (encodeLabels ls).length)
      = p + (l.length + 1 + (encodeLabels ls).length) := by omega
  have hwritten : l.length + 1 + (encodeLabels ls).length - 1
      = l.length + (encodeLabels ls).length := by omega
  rw [hmid, Nat.add_assoc p 1, Nat.add_comm 1, Nat.zero_add] at hbytes
  rw [hmax, Nat.add_assoc p] at hls
  rw [hlength, hwritten]
  exact hbytes.trans hls

/-! ## Names -/

/-- The bytes of a name that are counted are those that it is read to. -/
theorem spans_iff : Spans buf p (n + 1) ↔ Reads buf (p, p) (p + n) := by
  constructor
  · rintro ⟨_, s', ⟨q, k, m, hjumps, hk, hmask, rfl⟩, hwalk, hzero, hn⟩
    have hle := jumps_furthest_le hjumps
    have hle' := hwalk.furthest_le
    exact ⟨q, k, m, hjumps, hk, hmask, s', hwalk, hzero, by simp only at hle hle'; omega⟩
  · rintro ⟨q, k, m, hjumps, hk, hmask, s', hwalk, hzero, hlast⟩
    exact ⟨_, s', ⟨q, k, m, hjumps, hk, hmask, rfl⟩, hwalk, hzero, by omega⟩

/-- A first byte that passes the mask is a length. -/
theorem reads_passing (hk : buf[p]? = some k) (hmask : k &&& 80 = 0) (last : Nat) :
    Reads buf (p, m) last ↔ Comes buf ⟨p + 1, k, 0, m⟩ last := by
  constructor
  · rintro ⟨q, k', m', hjumps, hk', hmask', hcomes⟩
    rcases hjumps.cases_head with heq | ⟨_, ⟨hleads, -⟩, -⟩
    · obtain ⟨rfl, rfl⟩ := Prod.mk.inj heq
      rwa [Option.some.inj (hk.symm.trans hk')]
    · obtain ⟨b, _, hb, hb80, -, -⟩ := pointerAt_eq_some.mp hleads
      exact absurd (Option.some.inj (hk.symm.trans hb) ▸ hmask) hb80
  · exact fun hcomes => ⟨p, k, m, .refl, hk, hmask, hcomes⟩

/-- A first byte that does not is followed. -/
theorem reads_taken {t : Nat} (hleads : pointerAt 80 buf p = some t) (last : Nat) :
    Reads buf (p, m) last ↔ Reads buf (t, max m (p + 1)) last := by
  constructor
  · rintro ⟨q, k, m', hjumps, hk, hmask, hcomes⟩
    rcases hjumps.cases_head with heq | ⟨⟨t', m₁⟩, ⟨hleads', rfl⟩, hrest⟩
    · obtain ⟨rfl, rfl⟩ := Prod.mk.inj heq
      obtain ⟨b, _, hb, hb80, -, -⟩ := pointerAt_eq_some.mp hleads
      exact absurd (Option.some.inj (hk.symm.trans hb) ▸ hmask) hb80
    · obtain rfl := Option.some.inj (hleads.symm.trans hleads')
      exact ⟨q, k, m', hrest, hk, hmask, hcomes⟩
  · rintro ⟨q, k, m', hjumps, hk, hmask, hcomes⟩
    exact ⟨q, k, m', .head ⟨hleads, rfl⟩ hjumps, hk, hmask, hcomes⟩

section
variable {l : Bytes} {t : Nat}

theorem pointerAt_pointer {mask : UInt8} (hstands : buf.At p (pointer t))
    (hmask : UInt8.ofNat (192 + t / 256) &&& mask ≠ 0) : pointerAt mask buf p = some (t % 256) := by
  obtain ⟨hhigh, hlow, -⟩ := hstands
  exact pointerAt_eq_some.mpr ⟨_, _, hhigh, hmask, hlow, UInt8.toNat_ofNat'⟩

/-- Labels and a zero byte are read to that byte. -/
theorem comes_plain (hstands : buf.At p (encodeLabels (l :: ls) ++ [0]))
    (hlabels : ∀ l' ∈ l :: ls, IsLabel l') :
    Comes buf ⟨p + 1, UInt8.ofNat l.length, 0, p⟩ (p + (encodeLabels (l :: ls)).length) := by
  obtain ⟨hls, hzero, -⟩ := Bytes.at_append.mp hstands
  exact ⟨_, walks_name hls hlabels, hzero, rfl⟩

/-- Labels and a pointer are read on where the low byte of the pointer leads to. -/
theorem comes_pointed (hstands : buf.At p (encodeLabels (l :: ls) ++ pointer t))
    (hlabels : ∀ l' ∈ l :: ls, IsLabel l') (ht : t < 2 ^ 14) (last : Nat) :
    Comes buf ⟨p + 1, UInt8.ofNat l.length, 0, p⟩ last ↔
      Comes buf ⟨t % 256, 0, (encodeLabels (l :: ls)).length - 1,
        p + (encodeLabels (l :: ls)).length + 1⟩ last := by
  obtain ⟨hls, hpointer⟩ := Bytes.at_append.mp hstands
  have hwalk := walks_name hls hlabels
  have hstep : Step buf ⟨p + (encodeLabels (l :: ls)).length, 0, (encodeLabels (l :: ls)).length - 1,
      p + (encodeLabels (l :: ls)).length⟩ ⟨t % 256, 0, (encodeLabels (l :: ls)).length - 1,
      max (p + (encodeLabels (l :: ls)).length) (p + (encodeLabels (l :: ls)).length + 1)⟩ :=
    .pointer rfl (pointerAt_pointer hpointer (pointer_masks ht).1)
  rw [Nat.max_eq_right (Nat.le_succ _)] at hstep
  exact comes_iff (hwalk.tail hstep) last

/-- The first label is taken for a pointer. -/
theorem pointerAt_label (hl : IsLabel l) (hstands : buf.At p (encodeLabel l))
    (hmask : UInt8.ofNat l.length &&& 80 ≠ 0) : ∃ t, pointerAt 80 buf p = some t := by
  obtain ⟨c, cs, rfl⟩ := List.exists_cons_of_length_pos hl.pos
  obtain ⟨hlen, hc, -⟩ := hstands
  exact ⟨_, pointerAt_eq_some.mpr ⟨_, c, hlen, hmask, hc, rfl⟩⟩

end

theorem NameCounted.spans (h : NameCounted buf p n) : Spans buf p n := by
  cases h with
  | plain stands labels mask =>
      have hlen : buf[p]? = some _ := (Bytes.at_append.mp stands).1.1
      exact spans_iff.mpr ((reads_passing hlen mask _).mpr (comes_plain stands labels))
  | root stands =>
      exact spans_iff.mpr ((reads_passing stands.1 (by decide) _).mpr ⟨_, .refl, stands.2.1, rfl⟩)
  | pointed stands labels mask offset comes =>
      have hlen : buf[p]? = some _ := (Bytes.at_append.mp stands).1.1
      exact spans_iff.mpr ((reads_passing hlen mask _).mpr
        ((comes_pointed stands labels offset _).mpr comes))
  | taken leads reads =>
      refine spans_iff.mpr ((reads_taken leads _).mpr ?_)
      rwa [Nat.max_eq_right (Nat.le_succ p)]

/-- **Which names are counted right.** -/
theorem NameAt.spans_iff_counted (h : NameAt buf p ls n) : Spans buf p n ↔ NameCounted buf p n := by
  refine ⟨fun hspans => ?_, NameCounted.spans⟩
  have htaken : ∀ {t n : Nat}, pointerAt 80 buf p = some t → Spans buf p (n + 1) →
      NameCounted buf p (n + 1) := by
    intro t n leads hspans
    have hreads := (reads_taken leads _).mp (spans_iff.mp hspans)
    rw [Nat.max_eq_right (Nat.le_succ p)] at hreads
    exact .taken leads hreads
  cases h with
  | @plain _ ls stands labels =>
      cases ls with
      | nil =>
          have hfirst : buf[p]? = some 0 := stands.1
          obtain ⟨s', hwalk, hzero, hlast⟩ :=
            (reads_passing hfirst (by decide) _).mp (spans_iff.mp hspans)
          rcases hwalk.cases_head with rfl | ⟨s₁, hstep, hrest⟩
          · exact .root ⟨hfirst, hzero, trivial⟩
          · have hle := hstep.lt_furthest
            have hle' := Walks.furthest_le hrest
            simp only [encodeLabels_nil, List.length_nil] at hlast
            simp only at hle
            omega
      | cons l ls =>
          by_cases hmask : UInt8.ofNat l.length &&& 80 = 0
          · exact .plain stands labels hmask
          · rw [encodeLabels_cons, List.append_assoc, Bytes.at_append] at stands
            obtain ⟨t, leads⟩ := pointerAt_label (labels l List.mem_cons_self) stands.1 hmask
            exact htaken leads hspans
  | @pointed _ t m ls ms stands labels offset target before =>
      cases ls with
      | nil => exact htaken (pointerAt_pointer stands (pointer_masks offset).2) hspans
      | cons l ls =>
          by_cases hmask : UInt8.ofNat l.length &&& 80 = 0
          · have hlen : buf[p]? = some _ := (Bytes.at_append.mp stands).1.1
            have hreads := spans_iff.mp hspans
            rw [reads_passing hlen hmask, comes_pointed stands labels offset] at hreads
            exact .pointed stands labels hmask offset hreads
          · rw [encodeLabels_cons, List.append_assoc, Bytes.at_append] at stands
            obtain ⟨t, leads⟩ := pointerAt_label (labels l List.mem_cons_self) stands.1 hmask
            exact htaken leads hspans

end

/-! ## One record -/

section
variable {buf : Bytes} {p k : Nat} {r : Record}

theorem Spans.unique {n : Nat} (h : Spans buf p n) (h' : Spans buf p k) : n = k := by
  obtain ⟨_, hn⟩ := h.ends
  obtain ⟨_, hk⟩ := h'.ends
  exact congrArg Prod.snd (Except.ok.inj (hn.unique hk))

/-- A name that is decoded is read to the last byte that is counted. -/
theorem spans_of_ends {domainName : Bytes}
    (h : Ends (fun fuel => decodeDomain fuel buf p) (.ok (domainName, k))) : Spans buf p k := by
  rcases (decodeDomain_inside_iff buf p).mp (not_goesWrong_of_ok h) with hcircles | ⟨n, hspans⟩
  · exact absurd h (hcircles.not_ends _)
  · obtain ⟨_, hends⟩ := hspans.ends
    obtain rfl : k = n := congrArg Prod.snd (Except.ok.inj (h.unique hends))
    exact hspans

/-- An answer is decoded with the bytes that the walk takes it to have. -/
theorem decodeResourceRecord_iff (hp : p ≤ buf.length) :
    (∃ v, Ends (fun fuel => decodeResourceRecord fuel buf (buf.drop p) p) (.ok (v, k))) ↔
      AnswerSpans buf p k := by
  refine ⟨?_, AnswerSpans.ends⟩
  rintro ⟨v, hends⟩
  rcases (decodeResourceRecord_inside_iff hp).mp (not_goesWrong_of_ok hends) with
    hcircles | ⟨k', hspans⟩
  · exact absurd hends (hcircles.not_ends _)
  · obtain ⟨v', hends'⟩ := hspans.ends
    obtain rfl : k = k' := congrArg Prod.snd (Except.ok.inj (hends.unique hends'))
    exact hspans

theorem Record.length_body (r : Record) : r.body.length = 10 + r.data.length := by
  simp only [Record.body, BigEndian.appendUint16, BigEndian.appendUint32, List.length_append,
    List.length_cons, List.length_nil]
  omega

/-- The type and the class of a record stand behind its NAME. -/
theorem Record.StandsAt.words (h : r.StandsAt buf p) :
    p + r.nameLength + 10 + r.data.length ≤ buf.length ∧
    (AddressAt buf (p + r.nameLength) ↔
      r.recordType = RESOURCE_RECORD_TYPE_A ∧ r.recordClass = RESOURCE_RECORD_CLASS_IN) ∧
    (CanonicalAt buf (p + r.nameLength) ↔ r.recordType = RESOURCE_RECORD_TYPE_CNAME) := by
  have hfits := h.body.length_le (by simp [Record.body, BigEndian.appendUint16])
  rw [Record.length_body] at hfits
  have hp : p ≤ buf.length := by omega
  have hfixed : p + r.nameLength + 10 ≤ buf.length := by omega
  obtain ⟨htype, hclass, -⟩ := h.fields
  obtain ⟨recordType, recordClass, _, _, htype', hclass', -, -, haddress, hcanonical⟩ :=
    fixedFields hp hfixed
  obtain rfl := Except.ok.inj (htype.symm.trans htype')
  obtain rfl := Except.ok.inj (hclass.symm.trans hclass')
  exact ⟨by omega, haddress.symm, hcanonical.symm⟩

/-- **When the bytes of a record are counted right.** -/
theorem Record.StandsAt.counted_iff (h : r.StandsAt buf p) :
    AnswerSpans buf p r.wireLength ↔ r.Counted buf p := by
  obtain ⟨hfits, haddress, hcanonical⟩ := h.words
  have hname := h.name.spans_iff_counted
  unfold Record.wireLength
  constructor
  · rintro ⟨k, hspans, hfixed, hdata⟩
    by_cases hk : k = r.nameLength
    · subst hk
      refine .inl ⟨hname.mp hspans, ?_⟩
      rcases hdata with ⟨haddr, -, -⟩ | ⟨hcname, m, hspans', hm⟩ | ⟨-, -, hlength⟩
      · exact .inl (haddress.mp haddr)
      · obtain rfl : m = r.data.length := by omega
        obtain ⟨ls, hls⟩ := h.canonical (hcanonical.mp hcname)
        exact .inr (.inl ⟨hcanonical.mp hcname, hls.spans_iff_counted.mp hspans'⟩)
      · exact .inr (.inr (List.length_eq_zero_iff.mp (by omega)))
    · refine .inr ⟨k, hk, hspans, hfixed, ?_⟩
      rcases hdata with ⟨haddr, hfour, hlength⟩ | ⟨hcname, m, hspans', hm⟩ | ⟨haddr, hcname, hlength⟩
      · exact .inl ⟨haddr, hfour, by omega⟩
      · exact .inr (.inl ⟨hcname, m, hspans', by omega⟩)
      · exact .inr (.inr ⟨haddr, hcname, by omega⟩)
  · rintro (⟨hcounted, hdata⟩ | ⟨k, -, hspans, hfixed, hdata⟩)
    · refine ⟨r.nameLength, hcounted.spans, by omega, ?_⟩
      by_cases haddr : AddressAt buf (p + r.nameLength)
      · obtain ⟨htype, hclass⟩ := haddress.mp haddr
        have hfour := h.address htype hclass
        exact .inl ⟨haddr, by omega, by omega⟩
      · by_cases hcname : CanonicalAt buf (p + r.nameLength)
        · rcases hdata with hA | ⟨-, hcounted'⟩ | hnil
          · exact absurd (haddress.mpr hA) haddr
          · exact .inr (.inl ⟨hcname, _, hcounted'.spans, rfl⟩)
          · obtain ⟨ls, hls⟩ := h.canonical (hcanonical.mp hcname)
            have hpos := hls.pos
            rw [hnil] at hpos
            exact absurd hpos (Nat.lt_irrefl 0)
        · rcases hdata with hA | ⟨hC, -⟩ | hnil
          · exact absurd (haddress.mpr hA) haddr
          · exact absurd (hcanonical.mpr hC) hcname
          · exact .inr (.inr ⟨haddr, hcname, by rw [hnil]; rfl⟩)
    · refine ⟨k, hspans, hfixed, ?_⟩
      rcases hdata with ⟨haddr, hfour, hlength⟩ | ⟨hcname, m, hspans', hm⟩ | ⟨haddr, hcname, hlength⟩
      · exact .inl ⟨haddr, hfour, by omega⟩
      · exact .inr (.inl ⟨hcname, m, hspans', by omega⟩)
      · exact .inr (.inr ⟨haddr, hcname, by omega⟩)

end

/-! ## The walk -/

/-- The answer loop keeps to the records exactly as far as their bytes are counted right. -/
theorem decodeAnswers_aligned_iff {buf : Bytes} {p : Nat} {records : List Record}
    (h : RecordsAt buf p records) :
    (∃ answers, Ends (fun fuel => decodeAnswers fuel buf p records.length) (.ok answers) ∧
        AnswersAligned answers p records) ↔ AnswersCounted buf p records := by
  induction records generalizing p with
  | nil => exact iff_of_true ⟨[], Ends.const _, rfl⟩ trivial
  | cons r rs ih =>
      obtain ⟨hr, hrs⟩ := h
      have hp : p ≤ buf.length := Nat.le_of_add_right_le hr.name.fits
      rw [AnswersCounted, ← hr.counted_iff, ← decodeResourceRecord_iff hp, ← ih hrs]
      constructor
      · rintro ⟨answers, hanswers, haligned⟩
        rw [List.length_cons] at hanswers
        obtain ⟨v, k, hrecord⟩ := decoded_of_decodeAnswers hp hanswers
        obtain ⟨tail, rfl, htail⟩ := (decodeAnswers_succ hp hrecord answers).mp hanswers
        obtain ⟨hfirst, hrest⟩ := List.cons.inj haligned
        obtain rfl : k = r.wireLength := congrArg Prod.snd hfirst
        exact ⟨⟨v, hrecord⟩, tail, htail, hrest⟩
      · rintro ⟨⟨v, hrecord⟩, tail, htail, haligned⟩
        refine ⟨⟨p, r.wireLength, v⟩ :: tail, ?_, congrArg (List.cons _) haligned⟩
        exact (decodeAnswers_succ hp hrecord _).mpr ⟨tail, rfl, htail⟩

/-! ## Whole replies -/

/-- The reply is decoded, and every answer in it where its record stands. -/
def ReplyAligned (reply : Bytes) (questions : List Question) (records : List Record) : Prop :=
  ∃ decoded, Ends (fun fuel => decodeReply fuel reply) (.ok decoded) ∧
    AnswersAligned decoded.answers (answersStart questions) records

section
variable {reply : Bytes} {questions : List Question} {records : List Record}

/-- What is decoded of a response: its questions, and the answers from where they are taken to
end. -/
theorem IsResponse.decodeReply_iff (h : IsResponse reply questions records) :
    (∃ decoded, Ends (fun fuel => decodeReply fuel reply) (.ok decoded) ∧
        AnswersAligned decoded.answers (answersStart questions) records) ↔
      questionsEnd reply 12 questions.length ≤ reply.length ∧
      ∃ answers, Ends (fun fuel => decodeAnswers fuel reply (questionsEnd reply 12 questions.length)
          records.length) (.ok answers) ∧
        AnswersAligned answers (answersStart questions) records := by
  obtain ⟨header, hheader, hqcount, hacount⟩ :=
    decodeDNSHeader_counts h.header h.questionCount h.answerCount
  have hq : header.questionCount.toNat = questions.length := by
    rw [hqcount, UInt16.toNat_ofNat', Nat.mod_eq_of_lt h.few.1]
  have ha : header.answerCount.toNat = records.length := by
    rw [hacount, UInt16.toNat_ofNat', Nat.mod_eq_of_lt h.few.2]
  simp only [decodeReply, hheader, hq, ha, lift_eq_done, done_ok_bind]
  rcases decodeQuestions_inside questions.length 12 h.header with ⟨hle, decoded, hok⟩ | ⟨hlt, e, he⟩
  · have hreply : ∀ d, Ends (fun fuel => do
          let answers ← decodeAnswers fuel reply (questionsEnd reply 12 questions.length)
            records.length
          return (⟨header, decoded, answers⟩ : DecodedReply)) (.ok d) ↔
        ∃ answers, ⟨header, decoded, answers⟩ = d ∧ Ends (fun fuel => decodeAnswers fuel reply
          (questionsEnd reply 12 questions.length) records.length) (.ok answers) := by
      intro d
      rw [← Ends.map_iff fun _ _ heq => congrArg DecodedReply.answers heq]
    simp only [hok, done_ok_bind]
    constructor
    · rintro ⟨d, hd, haligned⟩
      obtain ⟨answers, rfl, hanswers⟩ := (hreply d).mp hd
      exact ⟨hle, answers, hanswers, haligned⟩
    · rintro ⟨-, answers, hanswers, haligned⟩
      exact ⟨⟨header, decoded, answers⟩, (hreply _).mpr ⟨answers, rfl, hanswers⟩, haligned⟩
  · simp only [he, done_error_bind]
    constructor
    · rintro ⟨d, hd, -⟩
      exact absurd (hd.unique (Ends.const _)) (by simp)
    · rintro ⟨hle, -⟩
      omega

end

/-- Only the question for the root is taken to end elsewhere. -/
theorem IsResponse.questionsCounted {reply : Bytes} {questions : List Question}
    {records : List Record} (h : IsResponse reply questions records)
    (hroot : ∀ q ∈ questions, q.labels ≠ []) : QuestionsCounted reply questions records := by
  have hlabels : ∀ q ∈ questions, q.labels ≠ [] ∧ ∀ l ∈ q.labels, IsByteLabel l :=
    fun q hq => ⟨hroot q hq, fun l hl => (h.labels q hq l hl).isByteLabel⟩
  obtain ⟨decoded, hdecoded, -⟩ := decodeQuestions_ok hlabels h.questionsAt
  rcases decodeQuestions_inside questions.length 12 h.header with ⟨hle, _, hok⟩ | ⟨-, e, he⟩
  · exact ⟨hle, fun _ => congrArg Prod.snd (Except.ok.inj (hok.symm.trans hdecoded))⟩
  · exact absurd (he.symm.trans hdecoded) (by simp)

def questionA : Question := ⟨[[97]], 1, 1⟩

/-- One question, for `"a"`, and answers under the same name. -/
def replyFor (records : List Record) : Bytes :=
  [3, 232, 129, 128, 0, 1] ++ (BigEndian.appendUint16 [] (UInt16.ofNat records.length) ++
    ([0, 0, 0, 0, 1, 97, 0, 0, 1, 0, 1] ++ records.flatMap fun r => [192, 12] ++ r.body))

/-- `"a"` is an alias of `"b"`. -/
def aliasRecord : Record := ⟨[[97]], 2, 5, 1, 60, [1, 98, 0]⟩

/-- `"a"` has the address 1.2.3.4. -/
def addressRecord : Record := ⟨[[97]], 2, 1, 1, 60, [1, 2, 3, 4]⟩

/-- `"a"` has the text `"x"`. -/
def textRecord : Record := ⟨[[97]], 2, 16, 1, 60, [1, 120]⟩

theorem isLabel_a : ∀ l ∈ ([[97]] : List Bytes), IsLabel l :=
  areLabels_singleton (isLabel_single (by decide))

section
variable {buf : Bytes} {p : Nat} {r : Record}

theorem compressed_a (hname : buf.At 12 [1, 97, 0]) (hp : 15 ≤ p) (hpointer : buf.At p [192, 12]) :
    Compressed buf p [] 12 [[97]] where
  labels := by simp
  stands := hpointer
  offset := by decide
  target := ⟨3, .plain hname isLabel_a, hp⟩

/-- An answer under the name `"a"` stands where its bytes do. -/
theorem standsAt_a (hname : buf.At 12 [1, 97, 0]) (hp : 15 ≤ p)
    (hstands : buf.At p ([192, 12] ++ r.body)) (hlabels : r.labels = [[97]])
    (hnameLength : r.nameLength = 2) (hlength : r.data.length < 65536)
    (haddress : r.recordType = RESOURCE_RECORD_TYPE_A → r.recordClass = RESOURCE_RECORD_CLASS_IN →
      r.data.length = 4)
    (hcanonical : r.recordType = RESOURCE_RECORD_TYPE_CNAME →
      ∃ ls, NameAt buf (p + 2 + 10) ls r.data.length) : r.StandsAt buf p where
  name := by
    rw [hlabels, hnameLength]
    exact (compressed_a hname hp (Bytes.at_append.mp hstands).1).nameAt
  body := by
    rw [hnameLength]
    exact (Bytes.at_append.mp hstands).2
  length := hlength
  address := haddress
  canonical hcname := by
    rw [hnameLength]
    exact hcanonical hcname

/-- The pointer to `"a"` is counted right. -/
theorem counted_a (hname : buf.At 12 [1, 97, 0]) (hp : 15 ≤ p) (hpointer : buf.At p [192, 12]) :
    NameCounted buf p 2 := by
  have hcompressed := compressed_a hname hp hpointer
  exact hcompressed.nameAt.spans_iff_counted.mp
    (spans_of_ends (hcompressed.decodes (by decide) rfl (by decide)))

end

end Nyctomek.Dns

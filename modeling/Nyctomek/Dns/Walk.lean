/-
# `Dns.Walk` — names that never end, and names that run out of the message

What `decodeDomain` makes of arbitrary bytes.  Its first loop follows pointers, by the mask
80; its second one writes the bytes of labels, and follows pointers, by the mask 0x80, where
a label would begin:

    a byte that is written       there is room for `buf.length` of them
    a pointer                    leads to one of the first 256 positions

So the second loop has no end only where pointers lead in a circle, without a label between
them.  `Circles` says that the walk comes to such a circle, `Spans` that it comes to a zero
byte; otherwise it ends in a panic (`decodeDomain_cases`).
-/
import Nyctomek.Dns.Domain
import Nyctomek.Prog.Hops
import Mathlib.Logic.Relation

namespace Nyctomek.Dns

open Prog

/-- Where the pointer at `p` leads, if the byte there has a bit of the mask. -/
def pointerAt (mask : UInt8) (buf : Bytes) (p : Nat) : Option Nat :=
  match buf[p]?, buf[p + 1]? with
  | some b, some target => if b &&& mask ≠ 0 then some target.toNat else none
  | _, _ => none

/-- A place in the walk along a name: a position, how much of a label is left, how many
bytes have been written, and the furthest position so far. -/
structure Place where
  pos : Nat
  left : UInt8
  written : Nat
  furthest : Nat
  deriving DecidableEq, Repr

/-- The next place, where there is one. -/
inductive Step (buf : Bytes) : Place → Place → Prop
  | byte {s : Place} {b : UInt8} (stands : buf[s.pos]? = some b) (nonzero : b ≠ 0)
      (inside : s.left > 0) (room : s.written < buf.length) :
      Step buf s ⟨s.pos + 1, s.left - 1, s.written + 1, max s.furthest (s.pos + 1)⟩
  | length {s : Place} {b : UInt8} (stands : buf[s.pos]? = some b) (nonzero : b ≠ 0)
      (behind : s.left = 0) (low : b &&& 0x80 = 0) (room : s.written < buf.length) :
      Step buf s ⟨s.pos + 1, b, s.written + 1, max s.furthest (s.pos + 1)⟩
  | pointer {s : Place} {t : Nat} (behind : s.left = 0) (leads : pointerAt 0x80 buf s.pos = some t) :
      Step buf s ⟨t, 0, s.written, max s.furthest (s.pos + 1)⟩

def Walks (buf : Bytes) : Place → Place → Prop := Relation.ReflTransGen (Step buf)

/-- A pointer in front of a name: a position, and the furthest one so far. -/
def Jump (buf : Bytes) (s s' : Nat × Nat) : Prop :=
  pointerAt 80 buf s.1 = some s'.1 ∧ s'.2 = max s.2 (s.1 + 1)

/-- The walk along the name at `p` begins behind the length of its first label, which the
pointers in front of it lead to. -/
def Begins (buf : Bytes) (p : Nat) (s : Place) : Prop :=
  ∃ q k m, Relation.ReflTransGen (Jump buf) (p, p) (q, m) ∧ buf[q]? = some k ∧ k &&& 80 = 0 ∧
    s = ⟨q + 1, k, 0, m⟩

/-- The pointers lead in a circle, those in front of the name at `p` or some in it. -/
def Circles (buf : Bytes) (p : Nat) : Prop :=
  Circular (pointerAt 80 buf) p ∨ ∃ s s', Begins buf p s ∧ Walks buf s s' ∧ s'.left = 0 ∧
    Circular (pointerAt 0x80 buf) s'.pos

/-- The walk along the name at `p` comes to a zero byte, and no further than `n` bytes. -/
def Spans (buf : Bytes) (p n : Nat) : Prop :=
  ∃ s s', Begins buf p s ∧ Walks buf s s' ∧ buf[s'.pos]? = some 0 ∧ n = s'.furthest - p + 1

section
variable {buf w : Bytes} {mask : UInt8} {p t m n : Nat} {s s' : Place}

/-! ## Pointers -/

theorem pointerAt_eq_some : pointerAt mask buf p = some t ↔
    ∃ b target, buf[p]? = some b ∧ b &&& mask ≠ 0 ∧ buf[p + 1]? = some target ∧
      target.toNat = t := by
  unfold pointerAt
  cases hb : buf[p]? with
  | none => simp
  | some b =>
      cases ht : buf[p + 1]? with
      | none => simp
      | some target => simp

/-- Pointers lead to finitely many positions. -/
theorem circular_pointerAt_iff :
    Circular (pointerAt mask buf) p ↔ ∀ n, hops (pointerAt mask buf) n p ≠ none := by
  refine circular_iff (Set.finite_lt_nat 256) ?_
  intro a b hab
  obtain ⟨-, target, -, -, -, rfl⟩ := pointerAt_eq_some.mp hab
  exact target.toNat_lt

theorem jumpTurn_of_pointerAt (h : pointerAt 80 buf p = some t) (m : Nat) :
    jumpTurn buf (p, m) = .ok (.again (t, max m (p + 1))) := by
  obtain ⟨b, target, hb, hmask, ht, rfl⟩ := pointerAt_eq_some.mp h
  simp only [jumpTurn, Bytes.index_eq_ok.mpr hb, ok_bind, if_pos hmask, Bytes.index_eq_ok.mpr ht]

/-- One turn of the first loop: a pointer, no pointer, or the end of the message. -/
theorem jumpTurn_cases (buf : Bytes) (p m : Nat) :
    (∃ t, pointerAt 80 buf p = some t ∧ jumpTurn buf (p, m) = .ok (.again (t, max m (p + 1)))) ∨
    (∃ k, buf[p]? = some k ∧ k &&& 80 = 0 ∧ jumpTurn buf (p, m) = .ok (.stop (p, m))) ∨
    ∃ e, jumpTurn buf (p, m) = .error e := by
  cases hb : buf[p]? with
  | none => exact .inr (.inr ⟨_, by rw [jumpTurn, Bytes.index_of_none hb, error_bind]⟩)
  | some b =>
      by_cases hmask : b &&& 80 ≠ 0
      · cases ht : buf[p + 1]? with
        | none =>
            refine .inr (.inr ⟨.indexOutOfRange (p + 1) buf.length, ?_⟩)
            simp only [jumpTurn, Bytes.index_eq_ok.mpr hb, ok_bind, if_pos hmask,
              Bytes.index_of_none ht, error_bind]
        | some target =>
            have hpointer := pointerAt_eq_some.mpr ⟨b, target, hb, hmask, ht, rfl⟩
            exact .inl ⟨target.toNat, hpointer, jumpTurn_of_pointerAt hpointer m⟩
      · refine .inr (.inl ⟨b, rfl, not_not.mp hmask, ?_⟩)
        simp only [jumpTurn, Bytes.index_eq_ok.mpr hb, ok_bind, if_neg hmask]

/-! ## Labels -/

/-- A step is a turn of the second loop, which keeps what has been written. -/
theorem Step.turn_keeps (h : Step buf s s') (hw : w.length = s.written) :
    ∃ w', w <+: w' ∧ w'.length = s'.written ∧ decodeTurn buf (writing buf w s.left s.pos s.furthest)
      = .ok (.again (writing buf w' s'.left s'.pos s'.furthest)) := by
  cases h with
  | @byte b stands nonzero inside room =>
      refine ⟨w ++ [b], List.prefix_append w [b], by simp [hw], ?_⟩
      exact decodeTurn_copy stands nonzero inside (hw ▸ room)
  | @length b stands nonzero behind low room =>
      refine ⟨w ++ [dot], List.prefix_append w [dot], by simp [hw], ?_⟩
      rw [behind]
      exact decodeTurn_length stands nonzero low (hw ▸ room)
  | @pointer t behind leads =>
      obtain ⟨b, target, hb, hmask, ht, rfl⟩ := pointerAt_eq_some.mp leads
      refine ⟨w, List.prefix_rfl, hw, ?_⟩
      rw [behind]
      exact decodeTurn_pointer hb hmask ht

theorem Step.turn (h : Step buf s s') (hw : w.length = s.written) :
    ∃ w', w'.length = s'.written ∧ decodeTurn buf (writing buf w s.left s.pos s.furthest)
      = .ok (.again (writing buf w' s'.left s'.pos s'.furthest)) := by
  obtain ⟨w', -, hw', hturn⟩ := h.turn_keeps hw
  exact ⟨w', hw', hturn⟩

theorem setIndex_writing_full (h : buf.length ≤ w.length) (b : UInt8) :
    ∃ e, Bytes.setIndex (w ++ List.replicate (buf.length - w.length) 0) w.length b = .error e := by
  refine ⟨_, Bytes.setIndex_of_le ?_ b⟩
  rw [List.length_append, List.length_replicate]
  omega

/-- One turn of the second loop: a step, a zero byte, or the end of the message or of the
buffer for the text. -/
theorem decodeTurn_cases (buf w : Bytes) (s : Place) (hw : w.length = s.written) :
    (∃ s', Step buf s s') ∨ buf[s.pos]? = some 0 ∨
      ∃ e, decodeTurn buf (writing buf w s.left s.pos s.furthest) = .error e := by
  cases hb : buf[s.pos]? with
  | none => exact .inr (.inr ⟨_, by rw [decodeTurn, writing, Bytes.index_of_none hb, error_bind]⟩)
  | some b =>
      obtain ⟨hp, -⟩ := List.getElem?_eq_some_iff.mp hb
      by_cases hzero : b = 0
      · exact .inr (.inl (congrArg some hzero))
      · have hgo : b ≠ 0 ∧ s.pos < buf.length := ⟨hzero, hp⟩
        by_cases hleft : s.left > 0
        · rcases Nat.lt_or_ge s.written buf.length with hroom | hfull
          · exact .inl ⟨_, .byte hb hzero hleft hroom⟩
          · obtain ⟨e, he⟩ := setIndex_writing_full (hw ▸ hfull) b
            refine .inr (.inr ⟨e, ?_⟩)
            simp only [decodeTurn, writing, Bytes.index_eq_ok.mpr hb, ok_bind, if_pos hgo,
              if_pos hleft, he, error_bind]
        · have hbehind : s.left = 0 := by
            rw [gt_iff_lt, UInt8.lt_iff_toNat_lt] at hleft
            exact UInt8.toNat_inj.mp (Nat.eq_zero_of_not_pos hleft)
          by_cases hmask : b &&& 0x80 ≠ 0
          · cases ht : buf[s.pos + 1]? with
            | none =>
                refine .inr (.inr ⟨.indexOutOfRange (s.pos + 1) buf.length, ?_⟩)
                simp only [decodeTurn, writing, Bytes.index_eq_ok.mpr hb, ok_bind, if_pos hgo,
                  if_neg hleft, if_pos hmask, Bytes.index_of_none ht, error_bind]
            | some target =>
                have hpointer := pointerAt_eq_some.mpr ⟨b, target, hb, hmask, ht, rfl⟩
                exact .inl ⟨_, .pointer hbehind hpointer⟩
          · rcases Nat.lt_or_ge s.written buf.length with hroom | hfull
            · exact .inl ⟨_, .length hb hzero hbehind (not_not.mp hmask) hroom⟩
            · obtain ⟨e, he⟩ := setIndex_writing_full (hw ▸ hfull) dot
              refine .inr (.inr ⟨e, ?_⟩)
              simp only [decodeTurn, writing, Bytes.index_eq_ok.mpr hb, ok_bind, if_pos hgo,
                if_neg hleft, if_neg hmask, he, error_bind]

theorem Walks.turns_keeps (h : Walks buf s s') (hw : w.length = s.written) :
    ∃ w', w <+: w' ∧ w'.length = s'.written ∧ Turns (decodeTurn buf)
      (writing buf w s.left s.pos s.furthest) (writing buf w' s'.left s'.pos s'.furthest) := by
  induction h with
  | refl => exact ⟨w, List.prefix_rfl, hw, .refl _⟩
  | tail _ hstep ih =>
      obtain ⟨w₁, hkeeps₁, hw₁, hturns⟩ := ih
      obtain ⟨w₂, hkeeps₂, hw₂, hturn⟩ := hstep.turn_keeps hw₁
      exact ⟨w₂, hkeeps₁.trans hkeeps₂, hw₂, hturns.trans (Turns.single hturn)⟩

theorem Walks.turns (h : Walks buf s s') (hw : w.length = s.written) :
    ∃ w', w'.length = s'.written ∧ Turns (decodeTurn buf)
      (writing buf w s.left s.pos s.furthest) (writing buf w' s'.left s'.pos s'.furthest) := by
  obtain ⟨w', -, hw', hturns⟩ := h.turns_keeps hw
  exact ⟨w', hw', hturns⟩

/-- A walk to a zero byte is the whole second loop. -/
theorem Walks.ends (h : Walks buf s s') (hzero : buf[s'.pos]? = some 0) (hw : w.length = s.written) :
    ∃ w', w'.length = s'.written ∧ Ends (fun fuel => loop (decodeTurn buf) fuel
      (writing buf w s.left s.pos s.furthest)) (.ok (writing buf w' s'.left s'.pos s'.furthest)) := by
  obtain ⟨w', hw', hturns⟩ := h.turns hw
  exact ⟨w', hw', Ends.of_turns hturns (Ends.loop_stop (decodeTurn_zero hzero _ rfl))⟩

/-! ## Circles -/

theorem jumps_endless (h : Circular (pointerAt 80 buf) p) (m : Nat) (r : Except Panic (Nat × Nat)) :
    ¬ Ends (fun fuel => loop (jumpTurn buf) fuel (p, m)) r := by
  refine not_ends_of_circular (R := fun s p => s.1 = p) ?_ rfl h r
  rintro s _ t rfl ht
  exact ⟨_, jumpTurn_of_pointerAt ht s.2, rfl⟩

/-- Pointers in a circle are a loop without an end. -/
theorem pointers_endless (hleft : s.left = 0) (h : Circular (pointerAt 0x80 buf) s.pos)
    (hw : w.length = s.written) (r : Except Panic Decoding) :
    ¬ Ends (fun fuel => loop (decodeTurn buf) fuel (writing buf w s.left s.pos s.furthest)) r := by
  refine not_ends_of_circular (R := fun d p => ∃ s w, d = writing buf w s.left s.pos s.furthest ∧
    w.length = s.written ∧ s.left = 0 ∧ s.pos = p) ?_ ⟨s, w, rfl, hw, hleft, rfl⟩ h r
  rintro _ _ t ⟨s, w, rfl, hw, hleft, rfl⟩ ht
  obtain ⟨w', hw', hturn⟩ := (Step.pointer hleft ht).turn hw
  exact ⟨_, hturn, _, w', rfl, hw', rfl, rfl⟩

/-! ## No circles -/

/-- A step writes a byte, or follows a pointer. -/
theorem Step.measure (h : Step buf s s') :
    (s.written < buf.length ∧ s'.written = s.written + 1) ∨
      (s.left = 0 ∧ pointerAt 0x80 buf s.pos = some s'.pos ∧ s'.written = s.written) := by
  cases h with
  | byte _ _ _ room => exact .inl ⟨room, rfl⟩
  | length _ _ _ _ room => exact .inl ⟨room, rfl⟩
  | pointer behind leads => exact .inr ⟨behind, leads, rfl⟩

/-- The pointers at a place lead on, if there are any, but not in a circle. -/
theorem exists_hops_eq_none (h : s.left = 0 → ¬ Circular (pointerAt 0x80 buf) s.pos) :
    ∃ n, s.left = 0 → hops (pointerAt 0x80 buf) n s.pos = none := by
  by_cases hleft : s.left = 0
  · have hno := h hleft
    rw [circular_pointerAt_iff, not_forall] at hno
    obtain ⟨n, hn⟩ := hno
    exact ⟨n, fun _ => not_not.mp hn⟩
  · exact ⟨0, fun h => absurd h hleft⟩

/-- **Without circles the second loop ends**: at each place there is room for fewer bytes, or
there are fewer pointers to follow. -/
theorem walk_ends (n : Nat) (s : Place) (w : Bytes) (hw : w.length = s.written)
    (hn : s.left = 0 → hops (pointerAt 0x80 buf) n s.pos = none)
    (hno : ∀ s', Walks buf s s' → s'.left = 0 → ¬ Circular (pointerAt 0x80 buf) s'.pos) :
    (∃ s', Walks buf s s' ∧ buf[s'.pos]? = some 0) ∨
      GoesWrong fun fuel => loop (decodeTurn buf) fuel (writing buf w s.left s.pos s.furthest) := by
  rcases decodeTurn_cases buf w s hw with ⟨s₁, hstep⟩ | hzero | ⟨e, he⟩
  · obtain ⟨w₁, hw₁, hturn⟩ := hstep.turn hw
    have hno₁ : ∀ s', Walks buf s₁ s' → s'.left = 0 → ¬ Circular (pointerAt 0x80 buf) s'.pos :=
      fun s' hwalk => hno s' (.head hstep hwalk)
    have hrest : (∃ s', Walks buf s₁ s' ∧ buf[s'.pos]? = some 0) ∨
        GoesWrong fun fuel => loop (decodeTurn buf) fuel
          (writing buf w₁ s₁.left s₁.pos s₁.furthest) := by
      rcases hstep.measure with ⟨hroom, hwritten⟩ | ⟨hleft, hleads, hwritten⟩
      · obtain ⟨n₁, hn₁⟩ := exists_hops_eq_none (hno₁ s₁ .refl)
        exact walk_ends n₁ s₁ w₁ hw₁ hn₁ hno₁
      · cases n with
        | zero => exact absurd (hn hleft) (Option.some_ne_none s.pos)
        | succ n =>
            have hn₁ := hn hleft
            rw [hops_succ hleads] at hn₁
            exact walk_ends n s₁ w₁ hw₁ (fun _ => hn₁) hno₁
    rcases hrest with ⟨s', hwalk, hzero⟩ | ⟨e, he⟩
    · exact .inl ⟨s', .head hstep hwalk, hzero⟩
    · exact .inr ⟨e, Ends.of_turns (Turns.single hturn) he⟩
  · exact .inl ⟨s, .refl, hzero⟩
  · exact .inr ⟨e, Ends.loop_error he⟩
termination_by (buf.length - s.written, n)
decreasing_by
  · exact .left _ _ (by omega)
  · rw [hwritten]
    exact .right _ (by omega)

/-- Without circles the first loop ends, at a byte that is no pointer. -/
theorem jumps_end (hn : hops (pointerAt 80 buf) n p = none) (m : Nat) :
    (∃ q k m', Relation.ReflTransGen (Jump buf) (p, m) (q, m') ∧ buf[q]? = some k ∧ k &&& 80 = 0) ∨
      GoesWrong fun fuel => loop (jumpTurn buf) fuel (p, m) := by
  induction n generalizing p m with
  | zero => exact absurd hn (Option.some_ne_none p)
  | succ n ih =>
      rcases jumpTurn_cases buf p m with ⟨t, ht, hturn⟩ | ⟨k, hk, hmask, -⟩ | ⟨e, he⟩
      · rw [hops_succ ht] at hn
        rcases ih hn (max m (p + 1)) with ⟨q, k, m', hjumps, hk, hmask⟩ | ⟨e, he⟩
        · exact .inl ⟨q, k, m', .head ⟨ht, rfl⟩ hjumps, hk, hmask⟩
        · exact .inr ⟨e, Ends.of_turns (Turns.single hturn) he⟩
      · exact .inl ⟨p, k, m, .refl, hk, hmask⟩
      · exact .inr ⟨e, Ends.loop_error he⟩

/-! ## Names -/

theorem jumps_turns {a b : Nat × Nat} (h : Relation.ReflTransGen (Jump buf) a b) :
    Turns (jumpTurn buf) a b := by
  induction h with
  | refl => exact .refl _
  | @tail c _ _ hjump ih =>
      obtain ⟨ht, hmax⟩ := hjump
      have hturn := jumpTurn_of_pointerAt ht c.2
      rw [← hmax] at hturn
      exact ih.trans (Turns.single hturn)

/-- The first loop ends where the name begins, and what comes behind it is the walk. -/
theorem Begins.decodeDomain_iff (h : Begins buf p s) (r : Except Panic (Bytes × Nat)) :
    Ends (fun fuel => decodeDomain fuel buf p) r ↔ Ends (fun fuel => do
      let d ← loop (decodeTurn buf) fuel (writing buf [] s.left s.pos s.furthest)
      let domainName ← (d.domainBuffer.sliceTo d.destPos : Exec Panic _)
      return (domainName, d.maxPos - p + 1)) r := by
  obtain ⟨q, k, m, hjumps, hk, hmask, rfl⟩ := h
  have hstop : jumpTurn buf (q, m) = .ok (.stop (q, m)) := by
    simp only [jumpTurn, Bytes.index_eq_ok.mpr hk, ok_bind, if_neg (not_not_intro hmask)]
  have hfirst : Ends (fun fuel => loop (jumpTurn buf) fuel (p, p)) (.ok (q, m)) :=
    Ends.of_turns (jumps_turns hjumps) (Ends.loop_stop hstop)
  refine Iff.trans (Ends.bind_iff hfirst) ?_
  simp only [decodeLabels, Bytes.index_eq_ok.mpr hk, lift_eq_done, done_ok_bind, bind_assoc,
    pure_bind, writing, List.nil_append, List.length_nil, Nat.sub_zero]

/-- At the beginning nothing has been written. -/
theorem Begins.written_eq (h : Begins buf p s) : s.written = 0 := by
  obtain ⟨q, k, m, -, -, -, rfl⟩ := h
  rfl

/-- A name that comes to a zero byte is decoded. -/
theorem Spans.ends (h : Spans buf p n) :
    ∃ domainName, Ends (fun fuel => decodeDomain fuel buf p) (.ok (domainName, n)) := by
  obtain ⟨s, s', hbegins, hwalk, hzero, rfl⟩ := h
  obtain ⟨w, -, hends⟩ := hwalk.ends hzero (w := []) hbegins.written_eq.symm
  refine ⟨w, (hbegins.decodeDomain_iff _).mpr (hends.bind ?_)⟩
  simp only [writing, sliceTo_writing, lift_eq_done, done_ok_bind]
  exact Ends.const _

/-- Round a circle there is no end. -/
theorem Circles.not_ends (h : Circles buf p) (r : Except Panic (Bytes × Nat)) :
    ¬ Ends (fun fuel => decodeDomain fuel buf p) r := by
  intro hends
  rcases h with hcircular | ⟨s, s', hbegins, hwalk, hleft, hcircular⟩
  · rcases hends.bind_cases (loop_mono _ _) with ⟨pos, hpos, -⟩ | ⟨e, he, -⟩
    · exact jumps_endless hcircular p _ hpos
    · exact jumps_endless hcircular p _ he
  · obtain ⟨w, hw, hturns⟩ := hwalk.turns (w := []) hbegins.written_eq.symm
    rcases ((hbegins.decodeDomain_iff r).mp hends).bind_cases (loop_mono _ _) with
      ⟨d, hd, -⟩ | ⟨e, he, -⟩
    · exact pointers_endless hleft hcircular hw _ (hd.behind_turns hturns)
    · exact pointers_endless hleft hcircular hw _ (he.behind_turns hturns)

/-- A name goes round a circle, comes to a zero byte, or goes wrong. -/
theorem decodeDomain_cases (buf : Bytes) (p : Nat) :
    Circles buf p ∨ (∃ n, Spans buf p n) ∨ GoesWrong fun fuel => decodeDomain fuel buf p := by
  by_cases hcircles : Circles buf p
  · exact .inl hcircles
  · refine .inr ?_
    obtain ⟨hfirst, hsecond⟩ := not_or.mp hcircles
    rw [circular_pointerAt_iff, not_forall] at hfirst
    obtain ⟨n, hn⟩ := hfirst
    rcases jumps_end (not_not.mp hn) p with ⟨q, k, m, hjumps, hk, hmask⟩ | ⟨e, he⟩
    · have hbegins : Begins buf p ⟨q + 1, k, 0, m⟩ := ⟨q, k, m, hjumps, hk, hmask, rfl⟩
      have hno : ∀ s', Walks buf ⟨q + 1, k, 0, m⟩ s' → s'.left = 0 →
          ¬ Circular (pointerAt 0x80 buf) s'.pos :=
        fun s' hwalk hleft hcircular => hsecond ⟨_, s', hbegins, hwalk, hleft, hcircular⟩
      obtain ⟨n', hn'⟩ := exists_hops_eq_none (hno _ .refl)
      rcases walk_ends n' ⟨q + 1, k, 0, m⟩ [] rfl hn' hno with ⟨s', hwalk, hzero⟩ | ⟨e, he⟩
      · exact .inl ⟨_, _, s', hbegins, hwalk, hzero, rfl⟩
      · exact .inr ⟨e, (hbegins.decodeDomain_iff _).mpr he.bind_error⟩
    · exact .inr ⟨e, he.bind_error⟩

/-- **When `decodeDomain` ends**: exactly if no pointers that the name comes to lead in a
circle. -/
theorem decodeDomain_ends_iff (responseBuffer : Bytes) (startPos : Nat) :
    (∃ r, Ends (fun fuel => decodeDomain fuel responseBuffer startPos) r) ↔
      ¬ Circles responseBuffer startPos := by
  constructor
  · rintro ⟨r, hr⟩ hcircles
    exact hcircles.not_ends r hr
  · intro hno
    rcases decodeDomain_cases responseBuffer startPos with hcircles | ⟨n, hspans⟩ | ⟨e, he⟩
    · exact absurd hcircles hno
    · obtain ⟨domainName, hends⟩ := hspans.ends
      exact ⟨_, hends⟩
    · exact ⟨_, he⟩

/-- A pointer to itself. -/
theorem selfPointer_endless :
    0 < [192, 0].length ∧ ¬ ∃ r, Ends (fun fuel => decodeDomain fuel [192, 0] 0) r := by
  refine ⟨by decide, ?_⟩
  rintro ⟨r, hr⟩
  exact Circles.not_ends (.inl ⟨0, 0, 0, rfl, rfl⟩) r hr

/-- **When a name is decoded inside the message**: it goes round a circle, or comes to a zero
byte. -/
theorem decodeDomain_inside_iff (buf : Bytes) (p : Nat) :
    ¬ GoesWrong (fun fuel => decodeDomain fuel buf p) ↔ Circles buf p ∨ ∃ n, Spans buf p n := by
  constructor
  · intro hright
    rcases decodeDomain_cases buf p with hcircles | hspans | hwrong
    · exact .inl hcircles
    · exact .inr hspans
    · exact absurd hwrong hright
  · rintro (hcircles | ⟨n, hspans⟩) ⟨e, he⟩
    · exact hcircles.not_ends _ he
    · obtain ⟨domainName, hends⟩ := hspans.ends
      exact absurd (hends.unique he) (by simp)

end

end Nyctomek.Dns

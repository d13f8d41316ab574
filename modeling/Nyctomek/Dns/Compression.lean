/-
# `Dns.Compression` — names that go on elsewhere in the message

A name may end in a pointer to a name that stands before it, and so on
(`NameAt`).  Of the fourteen bits of an offset `decodeDomain` uses the low eight,
so it finds the names in the first 256 bytes of a message; behind a pointer as in
front of it, it takes some lengths of a first label for pointers; and it has no
end for the root name, which has no first label (`decodeDomain_compressed_iff`).
-/
import Nyctomek.Dns.Domain

namespace Nyctomek.Dns

open Prog

/-- A pointer to offset `t`: top bits 11, then fourteen bits. -/
def pointer (t : Nat) : Bytes := [UInt8.ofNat (192 + t / 256), UInt8.ofNat t]

/-- At `p` there stands a name with the labels `ls`, in `n` bytes: its labels and a
zero, or some labels and a pointer to a name that ends before `p`. -/
inductive NameAt (buf : Bytes) : Nat → List Bytes → Nat → Prop
  | plain {p : Nat} {ls : List Bytes} (stands : buf.At p (encodeLabels ls ++ [0]))
      (labels : ∀ l ∈ ls, IsLabel l) : NameAt buf p ls ((encodeLabels ls).length + 1)
  | pointed {p t n : Nat} {ls ms : List Bytes} (stands : buf.At p (encodeLabels ls ++ pointer t))
      (labels : ∀ l ∈ ls, IsLabel l) (offset : t < 2 ^ 14) (target : NameAt buf t ms n)
      (before : t + n ≤ p) : NameAt buf p (ls ++ ms) ((encodeLabels ls).length + 2)

section
variable {buf : Bytes} {p t n m : Nat} {ls ms : List Bytes} {l : Bytes}

theorem NameAt.pos (h : NameAt buf p ls n) : 0 < n := by
  cases h with
  | plain _ _ => omega
  | pointed _ _ _ _ _ => omega

@[simp] theorem encodeLabels_append :
    encodeLabels (ls ++ ms) = encodeLabels ls ++ encodeLabels ms := by
  simp [encodeLabels]

/-- All the labels of a name stand, one behind the other, before its end. -/
theorem NameAt.length_lt (h : NameAt buf p ls n) : (encodeLabels ls).length < p + n := by
  induction h with
  | plain _ _ => omega
  | pointed _ _ _ _ before ih =>
      rw [encodeLabels_append, List.length_append]
      omega

theorem NameAt.fits (h : NameAt buf p ls n) : p + n ≤ buf.length := by
  cases h with
  | plain stands _ =>
      have hle := stands.length_le (by simp)
      rwa [List.length_append] at hle
  | pointed stands _ _ _ _ =>
      have hle := stands.length_le (by simp [pointer])
      rwa [List.length_append] at hle

/-! ## Pointers -/

/-- Both loops know a pointer by its first byte. -/
theorem pointer_masks (ht : t < 2 ^ 14) :
    UInt8.ofNat (192 + t / 256) &&& 0x80 ≠ 0 ∧ UInt8.ofNat (192 + t / 256) &&& 80 ≠ 0 := by
  have hall : ∀ i : Fin 64, UInt8.ofNat (192 + i) &&& 0x80 ≠ 0 ∧ UInt8.ofNat (192 + i) &&& 80 ≠ 0 := by
    decide
  exact hall ⟨t / 256, by omega⟩

/-- Labels and a pointer, behind other labels. -/
theorem resumes_pointed (hls : Bytes.At buf p (encodeLabels ls ++ pointer t))
    (hlabels : ∀ l ∈ ls, IsLabel l) (ht : t < 256) (hms : Resumes buf t ms n) (hn : 0 < n)
    (hbefore : t + n ≤ p) : Resumes buf p (ls ++ ms) ((encodeLabels ls).length + 2) := by
  intro w m hpm hout
  obtain ⟨hls, hhigh, hlow, -⟩ := Bytes.at_append.mp hls
  rw [afterDot_append, List.length_append] at hout
  have hturns := labels_turns (m := m) hls hlabels hpm (show w.length + _ ≤ _ by omega)
  have hjump := decodeTurn_pointer (w := w ++ afterDot ls)
    (m := max m (p + (encodeLabels ls).length)) hhigh (pointer_masks (by omega)).1 hlow
  have htarget : (UInt8.ofNat t).toNat = t := by
    rw [UInt8.toNat_ofNat']
    omega
  rw [htarget] at hjump
  obtain ⟨q, hq⟩ := hms (w ++ afterDot ls)
    (max (max m (p + (encodeLabels ls).length)) (p + (encodeLabels ls).length + 1)) (by omega)
    (by rw [List.length_append]; omega)
  have hmax : max (max (max m (p + (encodeLabels ls).length)) (p + (encodeLabels ls).length + 1))
      (t + n - 1) = max m (p + ((encodeLabels ls).length + 2) - 1) := by omega
  rw [hmax, List.append_assoc] at hq
  rw [afterDot_append]
  exact ⟨q, Ends.of_turns hturns (Ends.of_turns (Turns.single hjump) hq)⟩

theorem jumpTurn_pointer (hp : Bytes.At buf p (pointer t)) (ht : t < 2 ^ 14) :
    jumpTurn buf (p, m) = .ok (.again (t % 256, max m (p + 1))) := by
  obtain ⟨hhigh, hlow, -⟩ := hp
  have htarget : (UInt8.ofNat t).toNat = t % 256 := UInt8.toNat_ofNat'
  simp only [jumpTurn, Bytes.index_eq_ok.mpr hhigh, ok_bind, if_pos (pointer_masks ht).2,
    Bytes.index_eq_ok.mpr hlow, htarget]

/-- A pointer at the start of a name leads to its low byte. -/
theorem starts_pointer (hp : Bytes.At buf p (pointer t)) (ht : t < 2 ^ 14)
    (hms : Starts buf (t % 256) ms n) (hn : 0 < n) (hbefore : t % 256 + n ≤ p) :
    Starts buf p ms 2 := by
  intro m hpm hlength
  obtain ⟨pos, hjump, hlabels⟩ := hms (max m (p + 1)) (by omega) hlength
  have hmax : max (max m (p + 1)) (t % 256 + n - 1) = max m (p + 2 - 1) := by omega
  rw [hmax] at hlabels
  exact ⟨pos, Ends.of_turns (Turns.single (jumpTurn_pointer hp ht)) hjump, hlabels⟩

/-! ## Names in the first 256 bytes -/

/-- The names that stand there are read behind other labels. -/
theorem NameAt.resumes (h : NameAt buf p ls n) (hp : p ≤ 256) : Resumes buf p ls n := by
  induction h with
  | plain stands labels => exact resumes_plain stands labels
  | pointed stands labels _ target before ih =>
      have hpos := target.pos
      exact resumes_pointed stands labels (by omega) (ih (by omega)) hpos before

/-- Labels, the first of which passes the mask, and a pointer below 256. -/
theorem starts_pointed (stands : Bytes.At buf p (encodeLabels (l :: ls) ++ pointer t))
    (labels : ∀ l' ∈ l :: ls, IsLabel l') (hmask : UInt8.ofNat l.length &&& 80 = 0) (ht : t < 256)
    (target : NameAt buf t ms n) (before : t + n ≤ p) :
    Starts buf p (l :: (ls ++ ms)) ((encodeLabels (l :: ls)).length + 2) := by
  rw [encodeLabels_cons, List.append_assoc, Bytes.at_append] at stands
  have hrest := resumes_pointed stands.2 (fun l' hl' => labels l' (by simp [hl'])) ht
    (target.resumes (by omega)) target.pos (by omega)
  have hstart := starts_label stands.1 (labels l (by simp)) hmask (by omega) hrest
  have hn : l.length + 1 + ((encodeLabels ls).length + 2) = (encodeLabels (l :: ls)).length + 2 := by
    rw [encodeLabels_cons, List.length_append, length_encodeLabel]
    omega
  rwa [hn] at hstart

/-- Labels and a pointer below 256, if the first label's length passes the mask. -/
theorem starts_compressed (stands : Bytes.At buf p (encodeLabels ls ++ pointer t))
    (labels : ∀ l ∈ ls, IsLabel l) (ht : t < 256) (target : NameAt buf t ms n) (before : t + n ≤ p)
    {rest : List Bytes} (hfirst : ls ++ ms = l :: rest) (hmask : UInt8.ofNat l.length &&& 80 = 0)
    (hms : ms = l :: rest → Starts buf t ms n) :
    Starts buf p (ls ++ ms) ((encodeLabels ls).length + 2) := by
  cases ls with
  | nil =>
      have hlow : t % 256 = t := Nat.mod_eq_of_lt ht
      exact starts_pointer stands (by omega) (hlow.symm ▸ hms hfirst) target.pos (by omega)
  | cons l' ls =>
      obtain ⟨rfl, -⟩ := List.cons.inj hfirst
      exact starts_pointed stands labels hmask ht target before

theorem NameAt.starts (h : NameAt buf p ls n) (hp : p ≤ 256) {rest : List Bytes}
    (hfirst : ls = l :: rest) (hmask : UInt8.ofNat l.length &&& 80 = 0) : Starts buf p ls n := by
  induction h with
  | plain stands labels =>
      subst hfirst
      exact starts_plain stands labels hmask
  | pointed stands labels _ target before ih =>
      have hpos := target.pos
      exact starts_compressed stands labels (by omega) target before hfirst hmask
        fun hms => ih (by omega) hms

end

/-! ## Which compressed names are decoded -/

/-- At `p` there stand the labels `ls` and a pointer to `t`, where a name with the
labels `ms` stands that ends before `p`. -/
structure Compressed (buf : Bytes) (p : Nat) (ls : List Bytes) (t : Nat) (ms : List Bytes) :
    Prop where
  labels : ∀ l ∈ ls, IsLabel l
  stands : buf.At p (encodeLabels ls ++ pointer t)
  offset : t < 2 ^ 14
  target : ∃ n, NameAt buf t ms n ∧ t + n ≤ p

/-- Such a name is decoded, and the bytes up to its first pointer are counted. -/
def DecodesCompressed (buf : Bytes) (p : Nat) (ls ms : List Bytes) : Prop :=
  Ends (fun fuel => decodeDomain fuel buf p) (.ok (joinDots (ls ++ ms), (encodeLabels ls).length + 2))

theorem Compressed.nameAt {buf : Bytes} {p t : Nat} {ls ms : List Bytes}
    (h : Compressed buf p ls t ms) : NameAt buf p (ls ++ ms) ((encodeLabels ls).length + 2) := by
  obtain ⟨n, target, before⟩ := h.target
  exact .pointed h.stands h.labels h.offset target before

theorem Compressed.decodes {buf : Bytes} {p t : Nat} {ls ms rest : List Bytes} {l : Bytes}
    (h : Compressed buf p ls t ms) (ht : t < 256) (hfirst : ls ++ ms = l :: rest)
    (hmask : UInt8.ofNat l.length &&& 80 = 0) : DecodesCompressed buf p ls ms := by
  obtain ⟨n, target, before⟩ := h.target
  have hname := h.nameAt
  have hstarts := starts_compressed h.stands h.labels ht target before hfirst hmask fun hms =>
    target.starts (by omega) hms hmask
  refine decodeDomain_of_starts hstarts (by omega) ?_
  have hlt := hname.length_lt
  have hfits := hname.fits
  rw [hfirst] at hlt ⊢
  have htext := length_joinDots l rest
  omega

/-! ### Where decoding goes wrong -/

/-- A label of `n` times the byte `b`. -/
theorem isLabel_replicate {n : Nat} (hn : 0 < n) (hn' : n ≤ 63) {b : UInt8} (hb : b ≠ 0) :
    IsLabel (List.replicate n b) where
  pos := by simpa using hn
  short := by simpa using hn'
  nonzero h := hb (List.eq_of_mem_replicate h).symm

theorem isLabel_single {b : UInt8} (hb : b ≠ 0) : IsLabel [b] :=
  isLabel_replicate (n := 1) (by decide) (by decide) hb

theorem areLabels_singleton {l : Bytes} (h : IsLabel l) : ∀ l' ∈ [l], IsLabel l' := by
  intro l' hl'
  rwa [List.mem_singleton.mp hl']

/-- Behind the root name, to which a pointer leads, the decoder reads on. -/
theorem not_decodes_root {t : Nat} (ht : t < 256) :
    ∃ buf p, Compressed buf p [] t [] ∧ ¬ DecodesCompressed buf p [] [] := by
  let buf : Bytes := List.replicate t 0 ++ ([0] ++ ([1, 97, 0] ++ pointer t))
  have hroot : buf.At t [0] := Bytes.at_of_split _ _ rfl List.length_replicate
  have hnext : buf.At (t + 1) (encodeLabels [[97]] ++ [0]) :=
    Bytes.at_of_split (List.replicate t 0 ++ [0]) (pointer t)
      (by simp [buf, encodeLabels, encodeLabel]) (by simp)
  have hpointer : buf.At (t + 4) (pointer t) :=
    Bytes.at_of_split (List.replicate t 0 ++ ([0] ++ [1, 97, 0])) [] (by simp [buf]) (by simp)
  refine ⟨buf, t + 4, ⟨by simp, hpointer, by omega, 1, .plain hroot (by simp), by omega⟩, ?_⟩
  intro hdecodes
  have hjump : Ends (fun fuel => loop (jumpTurn buf) fuel (t + 4, t + 4))
      (.ok (t % 256, max (t + 4) (t + 4 + 1))) := by
    refine Ends.of_turns (Turns.single (jumpTurn_pointer hpointer (by omega))) (Ends.loop_stop ?_)
    rw [Nat.mod_eq_of_lt ht]
    simp only [jumpTurn, Bytes.index_eq_ok.mpr hroot.1, ok_bind]
    rfl
  have hresumes := resumes_plain hnext (areLabels_singleton (isLabel_single (by decide)))
  obtain ⟨q, hq⟩ := hresumes [] (max (t + 4) (t + 4 + 1)) (by omega) (by simp [buf, afterDot]; omega)
  have hlabels := decodeLabels_ends (t % 256, max (t + 4) (t + 4 + 1))
    (by rw [Nat.mod_eq_of_lt ht]; exact hroot.1) (by rw [Nat.mod_eq_of_lt ht]; exact hq)
  have heq := hdecodes.unique (hjump.bind (hlabels.bind (Ends.const _)))
  simp [joinDots, afterDot] at heq

/-- A first label whose length does not pass the mask is not decoded. -/
theorem not_decodes_masked {t n : Nat} (ht : t < 256) (hn : 0 < n) (hn' : n ≤ 63)
    (hmask : UInt8.ofNat n &&& 80 ≠ 0) :
    ∃ buf p, Compressed buf p [List.replicate n 97] t [] ∧
      ¬ DecodesCompressed buf p [List.replicate n 97] [] := by
  have hlabel : IsLabel (List.replicate n 97) := isLabel_replicate hn hn' (by decide)
  obtain ⟨zeros, hlen, hzeros⟩ := exists_zeros 257
  have hmistaken := decodeDomain_mistaken hlen hzeros hlabel
    (by rwa [List.length_replicate]) (pointer t)
  have hstands : Bytes.At (zeros ++ (encodeLabel (List.replicate n 97) ++ pointer t))
      257 (encodeLabels [List.replicate n 97] ++ pointer t) :=
    Bytes.at_of_split _ [] (by simp) hlen
  have hroot : Bytes.At (zeros ++ (encodeLabel (List.replicate n 97) ++ pointer t)) t [0] := by
    refine ⟨?_, trivial⟩
    rw [List.getElem?_append_left (by omega), hzeros t (by omega)]
  refine ⟨_, 257, ⟨areLabels_singleton hlabel, hstands, by omega, 1, .plain hroot (by simp),
    by omega⟩, ?_⟩
  intro hdecodes
  have heq := congrArg Prod.fst (Except.ok.inj (hdecodes.unique hmistaken))
  have htext : joinDots [List.replicate n 97] = List.replicate n 97 := by simp [joinDots]
  rw [List.append_nil, htext] at heq
  exact absurd heq (List.length_pos_iff.mp hlabel.pos)

/-- An offset from 256 on is taken for its low byte. -/
theorem not_decodes_far {t : Nat} (ht : 256 ≤ t) (ht' : t < 2 ^ 14) {ms : List Bytes}
    (hms : ∀ l ∈ ms, IsLabel l) (htext : joinDots ms ≠ [97]) :
    ∃ buf p, Compressed buf p [] t ms ∧ ¬ DecodesCompressed buf p [] ms := by
  let low : Bytes := List.replicate (t % 256) 0
  let gap : Bytes := List.replicate (t - t % 256 - 3) 0
  let buf : Bytes := low ++ ([1, 97, 0] ++ (gap ++ (encodeLabels ms ++ [0] ++ pointer t)))
  have hgap : t % 256 + 3 + (t - t % 256 - 3) = t := by omega
  have hlow : buf.At (t % 256) (encodeLabels [[97]] ++ [0]) := Bytes.at_of_split _ _ rfl List.length_replicate
  have hname : buf.At t (encodeLabels ms ++ [0]) :=
    Bytes.at_of_split (low ++ ([1, 97, 0] ++ gap)) (pointer t) (by simp [buf])
      (by simp [low, gap]; omega)
  have hpointer : buf.At (t + (encodeLabels ms).length + 1) (pointer t) :=
    Bytes.at_of_split (low ++ ([1, 97, 0] ++ (gap ++ (encodeLabels ms ++ [0])))) []
      (by simp [buf]) (by simp [low, gap]; omega)
  have hstarts := starts_plain hlow (areLabels_singleton (isLabel_single (by decide))) (by decide)
  have hdecoded := decodeDomain_of_starts (starts_pointer hpointer ht' hstarts (by simp)
    (by simp [encodeLabels, encodeLabel]; omega)) (by simp) (by simp [joinDots, buf]; omega)
  refine ⟨buf, _, ⟨by simp, hpointer, ht', _, .plain hname hms, by omega⟩, ?_⟩
  intro hdecodes
  have heq := congrArg Prod.fst (Except.ok.inj (hdecodes.unique hdecoded))
  exact htext heq

/-- **Which compressed names are decoded.**  Take all compressed names whose first
pointer leads to `t` and whose first label has the length `first`, if there is one:
they are decoded, whatever message they stand in, exactly if `t` is below 256, there
is a first label, and it has at most 15, or from 32 to 47 bytes. -/
theorem decodeDomain_compressed_iff (t : Nat) (ht : t < 2 ^ 14) (first : Option Nat)
    (hfirst : ∀ n, first = some n → 0 < n ∧ n ≤ 63) :
    (∀ buf p ls ms, Compressed buf p ls t ms → (ls ++ ms).head?.map List.length = first →
        DecodesCompressed buf p ls ms) ↔
      t < 256 ∧ ∃ n, first = some n ∧ (n < 16 ∨ (32 ≤ n ∧ n < 48)) := by
  constructor
  · intro hdecodes
    by_cases hlow : t < 256
    · cases first with
      | none =>
          obtain ⟨buf, p, hname, hnot⟩ := not_decodes_root hlow
          exact absurd (hdecodes buf p [] [] hname rfl) hnot
      | some n =>
          obtain ⟨hn, hn'⟩ := hfirst n rfl
          refine ⟨hlow, n, rfl, (mask_iff hn').mp ?_⟩
          by_contra hmask
          obtain ⟨buf, p, hname, hnot⟩ := not_decodes_masked hlow hn hn' hmask
          exact hnot (hdecodes buf p _ [] hname (by simp))
    · have hfar : ∀ ms : List Bytes, (∀ l ∈ ms, IsLabel l) → joinDots ms ≠ [97] →
          ms.head?.map List.length ≠ first := fun ms hms htext hlength => by
        obtain ⟨buf, p, hname, hnot⟩ := not_decodes_far (by omega) ht hms htext
        exact hnot (hdecodes buf p [] ms hname hlength)
      cases first with
      | none => exact absurd rfl (hfar [] (by simp) (by simp [joinDots]))
      | some n =>
          obtain ⟨hn, hn'⟩ := hfirst n rfl
          refine absurd (by simp) (hfar [List.replicate n 98]
            (areLabels_singleton (isLabel_replicate hn hn' (by decide))) fun heq => ?_)
          have hmem : (97 : UInt8) ∈ joinDots [List.replicate n 98] := by simp [heq]
          simp [joinDots] at hmem
  · rintro ⟨hlow, n, rfl, hn⟩ buf p ls ms hname hlength
    cases hcons : ls ++ ms with
    | nil => simp [hcons] at hlength
    | cons l rest =>
        obtain rfl : l.length = n := by simpa [hcons] using hlength
        exact hname.decodes hlow hcons ((mask_iff (hfirst _ rfl).2).mpr hn)

/-- `"b"` and a pointer back to `"a"`. -/
theorem decodeDomain_backward : DecodesCompressed [1, 97, 0, 1, 98, 192, 0] 3 [[98]] [[97]] := by
  have hlabel : ∀ b : UInt8, b ≠ 0 → ∀ l ∈ [[b]], IsLabel l := by
    intro b hb
    exact areLabels_singleton (isLabel_single hb)
  have hname : Compressed [1, 97, 0, 1, 98, 192, 0] 3 [[98]] 0 [[97]] :=
    ⟨hlabel 98 (by decide), ⟨rfl, rfl, rfl, rfl, trivial⟩, by decide, 3,
      .plain ⟨rfl, rfl, rfl, trivial⟩ (hlabel 97 (by decide)), by decide⟩
  refine (decodeDomain_compressed_iff 0 (by decide) (some 1) ?_).mpr ⟨by decide, 1, rfl, by decide⟩
    _ _ _ _ hname rfl
  rintro n ⟨rfl⟩
  decide

/-- The name `"b"` at offset 256, and a pointer to it. -/
def farMessage : Bytes := List.replicate 256 0 ++ ([1, 98, 0] ++ pointer 256)

/-- The pointer is followed to offset 0, where there is no text. -/
theorem decodeDomain_far :
    Compressed farMessage 259 [] 256 [[98]] ∧ ¬ DecodesCompressed farMessage 259 [] [[98]] := by
  have hname : farMessage.At 256 (encodeLabels [[98]] ++ [0]) :=
    Bytes.at_of_split _ _ rfl List.length_replicate
  have hpointer : farMessage.At 259 (pointer 256) :=
    Bytes.at_of_split (List.replicate 256 0 ++ [1, 98, 0]) []
      (by rw [farMessage, List.append_nil, List.append_assoc])
      (by rw [List.length_append, List.length_replicate]; rfl)
  have hlabel : ∀ l ∈ ([[98]] : List Bytes), IsLabel l :=
    areLabels_singleton (isLabel_single (by decide))
  refine ⟨⟨by simp, hpointer, by decide, 3, .plain hname hlabel, by decide⟩, ?_⟩
  intro hdecodes
  have hzero : ∀ i, i < 256 → farMessage[i]? = some 0 := fun i hi => by
    rw [farMessage, List.getElem?_append_left (by rwa [List.length_replicate]),
      List.getElem?_replicate, if_pos hi]
  obtain ⟨hjump, hlabels⟩ := starts_zeros (m := 260) (hzero 0 (by decide)) (hzero 1 (by decide))
  have hjumps := Ends.of_turns (Turns.single (jumpTurn_pointer (m := 259) hpointer (by decide))) hjump
  have heq := hdecodes.unique (hjumps.bind (hlabels.bind (Ends.const _)))
  simp [joinDots] at heq

end Nyctomek.Dns

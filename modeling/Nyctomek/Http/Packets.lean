/-
# `Http.Packets` — streams in packets

A stream is cut into packets of given sizes.  `streamInPackets_eq` reads the parser's
answers off one run over the bytes: `done` is false for every packet but the last if
no other packet opens in a state that is `done`, and true for the last if the run ends
in one.

    sizes      3            1      2
    opens      t  f  f      t      t  f
-/
import Mathlib.Algebra.Ring.Nat
import Nyctomek.Http.Segments

namespace Nyctomek.Http

open Prog

variable {parse : Bytes → Int}

/-! ## Packets -/

/-- The sizes of the packets in which a number of bytes arrive. -/
structure Packets (total : Nat) where
  sizes : List Nat
  pos : ∀ k ∈ sizes, 0 < k
  sum_eq : sizes.sum = total

/-- The packets. -/
def cut : List Nat → Bytes → List Bytes
  | [], _ => []
  | k :: ks, bytes => bytes.take k :: cut ks (bytes.drop k)

/-- Of every byte, whether it opens a packet. -/
def opens (sizes : List Nat) : List Bool :=
  sizes.flatMap fun k => true :: List.replicate (k - 1) false

/-- `done` as it should be: false for every packet but the last. -/
def framed (packets : Nat) : List Bool := List.replicate (packets - 1) false ++ [true]

/-- The last byte leads to a state that is `done`, and no other packet opens in one. -/
def Framed (parse : Bytes → Int) (z : Scan) (t : List Tagged) : Prop :=
  (z.run parse t).state.done = true ∧ Undone parse (z.run parse (t.take 1)) (t.drop 1)

theorem length_opens {sizes : List Nat} (hpos : ∀ k ∈ sizes, 0 < k) :
    (opens sizes).length = sizes.sum := by
  induction sizes with
  | nil => rfl
  | cons k ks ih =>
      obtain ⟨hk, hks⟩ := List.forall_mem_cons.mp hpos
      rw [opens, List.flatMap_cons, List.length_append, List.length_cons, List.length_replicate,
        ← opens, ih hks, List.sum_cons]
      omega

theorem zip_replicate_false (bytes : Bytes) :
    (List.replicate bytes.length false).zip bytes = inside bytes := by
  induction bytes with
  | nil => rfl
  | cons b bytes ih => rw [List.length_cons, List.replicate_succ, List.zip_cons_cons, ih, inside_cons]

/-- The first packet of a stream, and the others. -/
theorem zip_opens_cons {k : Nat} {ks : List Nat} {bytes : Bytes} (hk : 0 < k)
    (hle : k ≤ bytes.length) : (opens (k :: ks)).zip bytes
      = tagged (bytes.take k) ++ (opens ks).zip (bytes.drop k) := by
  have hlen : (true :: List.replicate (k - 1) false).length = (bytes.take k).length := by
    rw [List.length_cons, List.length_replicate, List.length_take]
    omega
  have hsplit : (opens (k :: ks)).zip bytes
      = ((true :: List.replicate (k - 1) false) ++ opens ks).zip (bytes.take k ++ bytes.drop k) := by
    rw [List.take_append_drop]
    rfl
  rw [hsplit, List.zip_append hlen]
  congr 1
  cases hp : bytes.take k with
  | nil =>
      rw [hp] at hlen
      cases hlen
  | cons b bs =>
      have hbs : k - 1 = bs.length := by
        rw [hp] at hlen
        simpa using hlen
      rw [List.zip_cons_cons, hbs, zip_replicate_false, tagged]

theorem exists_zip_opens (k : Nat) (ks : List Nat) {bytes : Bytes} (h : 0 < bytes.length) :
    ∃ b t, (opens (k :: ks)).zip bytes = (true, b) :: t := by
  obtain ⟨b, bs, rfl⟩ := List.exists_cons_of_length_pos h
  exact ⟨b, _, rfl⟩

theorem undone_cons {z : Scan} {x : Tagged} {t : List Tagged} (hx : x.1 = true) :
    Undone parse z (x :: t) ↔ z.state.done = false ∧ Undone parse (z.feed parse x) t := by
  rw [Undone]
  simp [hx]

/-- Behind the first packet it matters in what state the others open. -/
theorem framed_tagged {z : Scan} {b : UInt8} {bs : Bytes} {t : List Tagged} :
    Framed parse z (tagged (b :: bs) ++ t) ↔
      ((z.run parse (tagged (b :: bs))).run parse t).state.done = true ∧
        Undone parse (z.run parse (tagged (b :: bs))) t := by
  have hinside : Unopened (inside bs) := by
    intro x hx
    obtain ⟨_, -, rfl⟩ := List.mem_map.mp hx
    rfl
  have hundone : Undone parse (z.feed parse (true, b)) (inside bs ++ t)
      ↔ Undone parse (z.run parse (tagged (b :: bs))) t := by
    rw [undone_append]
    exact and_iff_right (hinside.undone _)
  rw [Framed, ← run_append, ← hundone]
  rfl

/-- **A stream of packets, byte by byte.** -/
theorem streamInPackets_eq (parse : Bytes → Int) {sizes : List Nat} {bytes : Bytes} (z : Scan)
    (hpos : ∀ k ∈ sizes, 0 < k) (hlen : bytes.length = sizes.sum) (hne : sizes ≠ []) :
    ∃ dones, streamInPackets parse (cut sizes bytes) z.state
        = .ok (dones, (z.run parse ((opens sizes).zip bytes)).state) ∧
      (dones = framed sizes.length ↔ Framed parse z ((opens sizes).zip bytes)) := by
  induction sizes generalizing bytes z with
  | nil => exact absurd rfl hne
  | cons k ks ih =>
      obtain ⟨hk, hks⟩ := List.forall_mem_cons.mp hpos
      rw [List.sum_cons] at hlen
      have hle : k ≤ bytes.length := by omega
      obtain ⟨b, bs, hp⟩ : ∃ b bs, bytes.take k = b :: bs := by
        apply List.exists_cons_of_ne_nil
        apply List.ne_nil_of_length_pos
        rw [List.length_take]
        omega
      have hpacket := streamInHTTPMessage_eq parse z (List.cons_ne_nil b bs)
      rw [zip_opens_cons hk hle, cut, streamInPackets, hp, hpacket, ok_bind, run_append,
        framed_tagged]
      show ∃ dones, (streamInPackets parse (cut ks (bytes.drop k))
          (z.run parse (tagged (b :: bs))).state >>= _) = _ ∧ _
      have hdrop : (bytes.drop k).length = ks.sum := by
        rw [List.length_drop]
        omega
      generalize hz : z.run parse (tagged (b :: bs)) = z₁
      cases ks with
      | nil =>
          refine ⟨[z₁.state.done], rfl, ?_⟩
          simp [framed, opens, Undone]
      | cons k' ks =>
          obtain ⟨dones, hrun, hdones⟩ := ih z₁ hks hdrop (List.cons_ne_nil k' ks)
          refine ⟨z₁.state.done :: dones, ?_, ?_⟩
          · rw [hrun]
            rfl
          · have hframed : framed (k :: k' :: ks).length = false :: framed (k' :: ks).length := rfl
            have hrest : 0 < (bytes.drop k).length := by
              have hk' := hks k' List.mem_cons_self
              rw [hdrop, List.sum_cons]
              omega
            obtain ⟨b', t, hopen⟩ := exists_zip_opens k' ks hrest
            rw [hframed, List.cons.injEq, hdones, hopen, undone_cons rfl, Framed]
            exact and_left_comm

end Nyctomek.Http

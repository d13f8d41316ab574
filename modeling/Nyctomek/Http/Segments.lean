/-
# `Http.Segments` — what the parts of a message do

A run over a message is put together from runs over its parts.  Of each part two
things matter: the state behind it, and whether a packet opened inside it in a state
that was `done` (`Undone` says that none did).

    part                       state behind it                    `Undone`
    bytes that end no line     they join the line                 if not `done`, or no packet opens
    a line                     `State.complete`, unless its LF    likewise
                               opens a packet (then: forgotten)
    content                    counted                            always
-/
import Nyctomek.Http.Bytewise

namespace Nyctomek.Http

open Prog

variable {parse : Bytes → Int}

/-! ## Packets that open too late -/

/-- No packet opens in a state that is `done`. -/
def Undone (parse : Bytes → Int) : Scan → List Tagged → Prop
  | _, [] => True
  | z, x :: t => (x.1 = true → z.state.done = false) ∧ Undone parse (z.feed parse x) t

/-- No packet opens at one of the bytes. -/
def Unopened (t : List Tagged) : Prop := ∀ x ∈ t, x.1 = false

theorem unopened_append {t t' : List Tagged} :
    Unopened (t ++ t') ↔ Unopened t ∧ Unopened t' :=
  List.forall_mem_append

theorem undone_append {z : Scan} {t t' : List Tagged} :
    Undone parse z (t ++ t') ↔ Undone parse z t ∧ Undone parse (z.run parse t) t' := by
  induction t generalizing z with
  | nil => simp [Undone]
  | cons x t ih => rw [List.cons_append, Undone, Undone, ih, run_cons, and_assoc]

theorem Unopened.undone {t : List Tagged} (h : Unopened t) (z : Scan) : Undone parse z t := by
  induction t generalizing z with
  | nil => trivial
  | cons x t ih =>
      obtain ⟨hx, ht⟩ := List.forall_mem_cons.mp h
      refine ⟨?_, ih ht _⟩
      intro hopen
      rw [hx] at hopen
      cases hopen

/-! ## Bytes that end no line -/

section
variable {s : State} {t : List Tagged}

theorem undone_quiet (hs : s.streams = false) (ht : Quiet s.httpLine (t.map Prod.snd)) :
    Undone parse ⟨s, false⟩ t ↔ (s.done = true → Unopened t) := by
  induction t generalizing s with
  | nil => simp [Undone, Unopened]
  | cons x t ih =>
      obtain ⟨hx, ht⟩ := ht
      have hrest := ih (s := { s with httpLine := s.httpLine ++ [x.2] }) hs ht
      rw [done_httpLine] at hrest
      rw [Undone, feed_quiet hs hx, hrest]
      cases hdone : s.done with
      | true => simp [Unopened]
      | false => simp

/-- A run over the rest of a line: the last byte's own flag decides. -/
theorem run_rest {q : Bytes} {f : Bool} (hs : s.streams = false) (ht : t.map Prod.snd = q)
    (hq : Quiet s.httpLine q) (hlast : (s.httpLine ++ q).getLast? = some CR) :
    Scan.run parse ⟨s, false⟩ (t ++ [(f, LF)])
      = if f && !(s.complete parse (s.httpLine ++ q ++ [LF])).streams
        then ⟨{ s with httpLine := [] }, false⟩
        else ⟨s.complete parse (s.httpLine ++ q ++ [LF]),
          (s.complete parse (s.httpLine ++ q ++ [LF])).streams⟩ := by
  subst ht
  have hsuf : CRLF_DELIMETER <:+ (s.httpLine ++ t.map Prod.snd) ++ [LF] :=
    crlf_suffix_concat.mpr ⟨hlast, rfl⟩
  rw [run_append, run_quiet hs hq, run_cons, run_nil,
    feed_complete (s := { s with httpLine := s.httpLine ++ t.map Prod.snd }) hs hsuf]
  rfl

theorem undone_rest {q : Bytes} {f : Bool} (hs : s.streams = false) (ht : t.map Prod.snd = q)
    (hq : Quiet s.httpLine q) :
    Undone parse ⟨s, false⟩ (t ++ [(f, LF)])
      ↔ (s.done = true → Unopened (t ++ [(f, LF)])) := by
  subst ht
  rw [undone_append, undone_quiet hs hq, run_quiet hs hq, unopened_append]
  cases hdone : s.done with
  | true => simp [Undone, Unopened, hdone]
  | false => simp [Undone, hdone]

end

/-! ## Content -/

/-- **Content** is counted, whatever the packets, up to the length announced. -/
theorem run_streaming (parse : Bytes → Int) {z : Scan} {t : List Tagged} (hz : z.streaming = true)
    (hnull : z.state.receivedNullLine = true) (hpos : 0 ≤ z.state.receivedContentLength)
    (hle : z.state.receivedContentLength + t.length ≤ z.state.contentLength) :
    ∃ line, z.run parse t = ⟨⟨line, z.state.contentLength,
        z.state.receivedContentLength + t.length, true⟩, true⟩ ∧
      line.getLast? = (z.state.httpLine ++ t.map Prod.snd).getLast? ∧ Undone parse z t := by
  induction t generalizing z with
  | nil =>
      refine ⟨z.state.httpLine, ?_, by simp, trivial⟩
      obtain ⟨s, streaming⟩ := z
      cases hz
      simp [← hnull]
  | cons x t ih =>
      rw [List.length_cons, Nat.cast_add, Nat.cast_one] at hle
      have hlt : z.state.receivedContentLength < z.state.contentLength := by omega
      have hstreams : z.state.streams = true := by
        simp only [State.streams, hnull, Bool.true_and, Bool.and_eq_true, bne_iff_ne,
          decide_eq_true_eq]
        omega
      have hfeed : z.feed parse x = ⟨⟨(if x.1 then [] else z.state.httpLine) ++ [x.2],
          z.state.contentLength, z.state.receivedContentLength + 1, true⟩, true⟩ := by
        rw [Scan.feed, if_pos (by rw [hstreams, hz]; exact ite_self _)]
      obtain ⟨line, hrun, hlast, hundone⟩ := ih (z := z.feed parse x) (by rw [hfeed])
        (by rw [hfeed]) (by simp only [hfeed]; omega) (by simp only [hfeed]; omega)
      refine ⟨line, ?_, ?_, ?_, hundone⟩
      · rw [run_cons, hrun, hfeed]
        simp only [List.length_cons, Nat.cast_add, Nat.cast_one]
        rw [Int.add_assoc, Int.add_comm 1]
      · rw [hlast, hfeed]
        simp [List.getLast?_append, List.getLast?_cons]
      · intro _
        simp only [State.done, hnull, Bool.true_and, beq_eq_false_iff_ne]
        exact Int.ne_of_lt hlt

end Nyctomek.Http

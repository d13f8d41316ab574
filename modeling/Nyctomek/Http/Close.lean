/-
# `Http.Close` — a server that closes its connection

The request loop breaks at a receive without bytes; the response loop hands the empty
packet on, and `packet[0]` is out of range if the line read so far ends in a CR.
`runHTTPProxyLoop_ok_iff` says for which runs this is so: the byte before the close is a
CR, and no body is being received.
-/
import Nyctomek.Http.Bytewise

namespace Nyctomek.Http

open Prog

variable {parse : Bytes → Int}

/-! ## The states of the two loops -/

/-- The response loop waits: behind some packets from the server, behind all the bytes that
have been received from both sides, in a state. -/
inductive Reached (parse : Bytes → Int) (client : List Bytes) : List Bytes → Bytes → State → Prop
  | request {sent : List Bytes} {s : State} :
      requestLoop parse client State.initial = .ok (sent, s) →
      Reached parse client [] sent.flatten s
  | response {before : List Bytes} {received packet : Bytes} {s s' : State} :
      Reached parse client before received s → streamInHTTPMessage parse packet s = .ok (s', false) →
      Reached parse client (before ++ [packet]) (received ++ packet) s'

/-- A CR is the last byte of the line exactly if it is the last one received; except where a
body is read. -/
def EndsAlike (s : State) (received : Bytes) : Prop :=
  s.streams = true ∨ (s.httpLine.getLast? = some CR ↔ received.getLast? = some CR)

theorem endsAlike_initial : EndsAlike State.initial [] := .inr (by simp [State.initial])

theorem feed_getLast (z : Scan) (x : Tagged) :
    (z.feed parse x).state.httpLine.getLast? = some CR ↔ x.2 = CR := by
  by_cases hcontent : (if x.1 then z.state.streams else z.streaming) = true
  · rw [Scan.feed, if_pos hcontent]
    simp
  · rw [Scan.feed, if_neg hcontent]
    by_cases hsuf : CRLF_DELIMETER <:+ z.state.httpLine ++ [x.2]
    · -- the line that ends here ends in an LF
      have hlf : x.2 ≠ CR := by
        rw [(crlf_suffix_concat.mp hsuf).2]
        decide
      rw [if_pos hsuf]
      simp only
      split
      · simp [hlf]
      · simp [State.complete, hlf]
    · rw [if_neg hsuf]
      simp

theorem run_getLast (z : Scan) {t : List Tagged} (ht : t ≠ []) :
    (z.run parse t).state.httpLine.getLast? = some CR ↔ (t.map Prod.snd).getLast? = some CR := by
  obtain ⟨t, x, rfl⟩ := List.eq_nil_or_concat t |>.resolve_left ht
  rw [List.concat_eq_append, run_append, run_cons, run_nil, feed_getLast]
  simp

/-- A packet with bytes never goes wrong. -/
theorem message_of_ne_nil (parse : Bytes → Int) (s : State) {packet : Bytes} (h : packet ≠ []) :
    ∃ r, streamInHTTPMessage parse packet s = .ok r ∧
      (r.1.httpLine.getLast? = some CR ↔ packet.getLast? = some CR) := by
  obtain ⟨b, bs, rfl⟩ := List.exists_cons_of_ne_nil h
  refine ⟨_, streamInHTTPMessage_eq parse ⟨s, false⟩ h, ?_⟩
  have hlast := @run_getLast parse ⟨s, false⟩ _ (List.cons_ne_nil (true, b) (inside bs))
  rw [List.map_cons, map_snd_inside] at hlast
  exact hlast

/-- A packet without bytes goes wrong behind a CR. -/
theorem message_nil (parse : Bytes → Int) (s : State) :
    (s.streams = true ∧ ∃ s', streamInHTTPMessage parse [] s = .ok (s', false) ∧ s'.streams = true) ∨
      (s.streams = false ∧ s.httpLine.getLast? = some CR ∧
        ∃ e, streamInHTTPMessage parse [] s = .error e) ∨
      (s.streams = false ∧ s.httpLine.getLast? ≠ some CR ∧
        streamInHTTPMessage parse [] s = .ok (s, s.done)) := by
  rw [streamInHTTPMessage]
  cases hs : s.streams with
  | true =>
      refine .inl ⟨rfl, ⟨[], s.contentLength, s.receivedContentLength, true⟩, ?_, ?_⟩
      · have hlt : s.receivedContentLength < s.contentLength := by
          simp only [State.streams, Bool.and_eq_true, decide_eq_true_eq] at hs
          exact hs.2
        simp [streamInHTTPContent, Int.ne_of_gt hlt]
      · simp only [State.streams, Bool.and_eq_true] at hs ⊢
        exact ⟨⟨trivial, hs.1.2⟩, hs.2⟩
  | false =>
      right
      rw [if_neg Bool.false_ne_true]
      by_cases hlast : s.httpLine.getLast? = some CR
      · rw [if_pos hlast]
        exact .inl ⟨rfl, hlast, _, rfl⟩
      · rw [if_neg hlast, streamInLines_nil]
        exact .inr ⟨rfl, hlast, rfl⟩

/-! ## The invariant -/

/-- The request loop ends, and in a state that ends like what has been received. -/
theorem requestLoop_ok (parse : Bytes → Int) (messages : List Bytes) {s : State} {received : Bytes}
    (h : EndsAlike s received) : ∃ sent s', requestLoop parse messages s = .ok (sent, s') ∧
      EndsAlike s' (received ++ sent.flatten) := by
  induction messages generalizing s received with
  | nil => exact ⟨[], s, rfl, by rwa [List.flatten_nil, List.append_nil]⟩
  | cons message messages ih =>
      rw [requestLoop]
      by_cases hnil : message.length = 0
      · rw [if_pos hnil]
        exact ⟨[], s, rfl, by rwa [List.flatten_nil, List.append_nil]⟩
      · have hne : message ≠ [] := fun h => hnil (by rw [h]; rfl)
        obtain ⟨⟨s₁, d⟩, hmessage, hlast⟩ := message_of_ne_nil parse s hne
        have halike : EndsAlike s₁ (received ++ message) := by
          refine .inr (hlast.trans ?_)
          rw [List.getLast?_append_of_ne_nil _ hne]
        rw [if_neg hnil, hmessage, ok_bind]
        cases d with
        | true => exact ⟨[message], s₁, rfl, by rwa [List.flatten_singleton]⟩
        | false =>
            obtain ⟨sent, s', hloop, hsent⟩ := ih halike
            rw [if_neg Bool.false_ne_true, hloop]
            exact ⟨message :: sent, s', rfl, by rwa [List.flatten_cons, ← List.append_assoc]⟩

/-- **In every state reached** the line ends like what has been received. -/
theorem Reached.endsAlike {client before : List Bytes} {received : Bytes} {s : State}
    (h : Reached parse client before received s) : EndsAlike s received := by
  induction h with
  | request hloop =>
      obtain ⟨sent, s', hloop', halike⟩ := requestLoop_ok parse client endsAlike_initial
      obtain ⟨rfl, rfl⟩ := Prod.mk.inj (Except.ok.inj (hloop.symm.trans hloop'))
      exact halike
  | @response before received packet s s' _ hmessage ih =>
      by_cases hnil : packet = []
      · subst hnil
        rw [List.append_nil]
        rcases message_nil parse s with ⟨-, s₁, hok, hstreams⟩ | ⟨-, -, e, herror⟩ | ⟨-, -, hok⟩
        · obtain ⟨rfl, -⟩ := Prod.mk.inj (Except.ok.inj (hok.symm.trans hmessage))
          exact .inl hstreams
        · rw [herror] at hmessage
          cases hmessage
        · obtain ⟨rfl, -⟩ := Prod.mk.inj (Except.ok.inj (hok.symm.trans hmessage))
          exact ih
      · obtain ⟨r, hok, hlast⟩ := message_of_ne_nil parse s hnil
        rw [hok] at hmessage
        cases Except.ok.inj hmessage
        refine .inr (hlast.trans ?_)
        rw [List.getLast?_append_of_ne_nil _ hnil]

/-! ## Runs -/

/-- What goes wrong in a state that is reached goes wrong in the proxy. -/
theorem Reached.error {client before : List Bytes} {received : Bytes} {s : State}
    (h : Reached parse client before received s) {rest : List Bytes} {e : Panic}
    (herror : responseLoop parse rest s = .error e) :
    runHTTPProxyLoop parse client (before ++ rest) = .error e := by
  induction h generalizing rest with
  | request hloop =>
      rw [runHTTPProxyLoop, hloop, ok_bind, List.nil_append, herror]
      rfl
  | @response before received packet s s' _ hmessage ih =>
      rw [List.append_assoc, List.singleton_append]
      refine ih ?_
      rw [responseLoop, hmessage, ok_bind, if_neg Bool.false_ne_true, herror]
      rfl

/-- A receive without bytes is no harm: a body is being received, or the last byte was no CR. -/
def HarmlessClose (s : State) (received : Bytes) : Prop :=
  s.streams = true ∨ received.getLast? ≠ some CR

/-- With harmless closes the response loop goes on. -/
theorem responseLoop_ok {client server rest before : List Bytes} {received : Bytes} {s : State}
    (h : Reached parse client before received s) (hserver : server = before ++ rest)
    (hclose : ∀ before after received s, server = before ++ [] :: after →
      Reached parse client before received s → HarmlessClose s received) :
    ∃ r, responseLoop parse rest s = .ok r := by
  induction rest generalizing before received s with
  | nil => exact ⟨([], s), rfl⟩
  | cons packet rest ih =>
      have hmessage : ∃ r, streamInHTTPMessage parse packet s = .ok r := by
        by_cases hnil : packet = []
        · subst hnil
          rcases message_nil parse s with ⟨-, s', hok, -⟩ | ⟨hs, hlast, -⟩ | ⟨-, -, hok⟩
          · exact ⟨_, hok⟩
          · -- the line ends in a CR, and so does what has been received
            have hbyte := (h.endsAlike.resolve_left (by simp [hs])).mp hlast
            rcases hclose before rest received s hserver h with hstreams | hne
            · rw [hs] at hstreams
              cases hstreams
            · exact absurd hbyte hne
          · exact ⟨_, hok⟩
        · obtain ⟨r, hok, -⟩ := message_of_ne_nil parse s hnil
          exact ⟨r, hok⟩
      obtain ⟨⟨s', d⟩, hok⟩ := hmessage
      rw [responseLoop, hok, ok_bind]
      cases d with
      | true => exact ⟨_, rfl⟩
      | false =>
          obtain ⟨r, hloop⟩ := ih (h.response hok) (by rw [hserver]; simp)
          rw [if_neg Bool.false_ne_true, hloop]
          exact ⟨_, rfl⟩

/-- **`packet[0]` is in range** in all the calls of a run exactly if every receive without
bytes that the response loop comes to is harmless. -/
theorem runHTTPProxyLoop_ok_iff (parse : Bytes → Int) (client server : List Bytes) :
    (∃ e, runHTTPProxyLoop parse client server = .ok e) ↔
      ∀ before after received s, server = before ++ [] :: after →
        Reached parse client before received s → HarmlessClose s received := by
  constructor
  · rintro ⟨e, hok⟩ before after received s rfl h
    by_cases hs : s.streams = true
    · exact .inl hs
    · refine .inr ?_
      intro hbyte
      have hlast := (h.endsAlike.resolve_left hs).mpr hbyte
      rcases message_nil parse s with ⟨hstreams, -⟩ | ⟨-, -, e', herror⟩ | ⟨-, hne, -⟩
      · exact hs hstreams
      · have hloop : responseLoop parse ([] :: after) s = .error e' := by
          rw [responseLoop, herror]
          rfl
        have hrun := h.error hloop
        rw [hok] at hrun
        cases hrun
      · exact hne hlast
  · intro hclose
    obtain ⟨sent, s, hrequest, -⟩ := requestLoop_ok parse client endsAlike_initial
    obtain ⟨r, hloop⟩ := responseLoop_ok (.request hrequest) rfl hclose
    rw [runHTTPProxyLoop, hrequest, ok_bind, hloop]
    exact ⟨_, rfl⟩

/-- A client that sends nothing, and a server that closes behind a CR. -/
theorem runHTTPProxyLoop_close : ¬∃ e, runHTTPProxyLoop (fun _ => 0) [[]] [[72, CR], []] = .ok e := by
  rintro ⟨e, hok⟩
  have hfirst : streamInHTTPMessage (fun _ => 0) [72, CR] State.initial
      = .ok (⟨[72, CR], 0, 0, false⟩, false) :=
    streamInHTTPMessage_eq (fun _ => 0) ⟨State.initial, false⟩ (List.cons_ne_nil 72 [CR])
  have herror : responseLoop (fun _ => 0) [[72, CR], []] State.initial
      = .error (.indexOutOfRange 0 0) := by
    rw [responseLoop, hfirst]
    rfl
  have hrun : runHTTPProxyLoop (fun _ => 0) [[]] [[72, CR], []] = .error (.indexOutOfRange 0 0) := by
    rw [runHTTPProxyLoop]
    show (responseLoop (fun _ => 0) [[72, CR], []] State.initial >>= _) = _
    rw [herror]
    rfl
  rw [hrun] at hok
  cases hok

end Nyctomek.Http

/-
# `Http.Sessions` — `httpProxyServer` among its clients

Every client gets a connection of its own to the destination, and `runHTTPProxyLoop` serves the
two: the request goes to the destination, packet by packet, and then the response to the client.

    accept     connect     recv, send …        recv, send …        close, close
    client     destination request → destination   response → client

A `Session` is what has passed between one client and its destination.  The finished ones are
runs of `runHTTPProxyLoop`, each by itself, whatever the others have sent in between.
-/
import Nyctomek.Http.Basic
import Nyctomek.Http.Packets
import Nyctomek.Http.Servers

namespace Nyctomek.Http

open Prog Prog.Sockets

/-! ## `httpProxyServer` -/

/-- What is to be done next, with the variables that are needed for it. -/
inductive Proxy where
  | accept
  | connect (client : Nat)
  | request (client destination : Nat) (s : State)
  | forward (client destination : Nat) (message : Bytes) (s : State)
  | response (client destination : Nat) (s : State)
  | reply (client destination : Nat) (message : Bytes) (s : State)
  | closeDestination (client destination : Nat)
  | closeClient (client : Nat)
  | panicked
  deriving DecidableEq, Repr

section
variable (parseContentLength : Bytes → Int)

/-- A message of the request has been sent on. -/
def afterForward (client destination : Nat) (message : Bytes) (s : State) : Proxy :=
  match streamInHTTPMessage parseContentLength message s with
  | .error _ => .panicked
  | .ok (s', done) =>
      if done then .response client destination s' else .request client destination s'

/-- A message of the response has been sent on. -/
def afterReply (client destination : Nat) (message : Bytes) (s : State) : Proxy :=
  match streamInHTTPMessage parseContentLength message s with
  | .error _ => .panicked
  | .ok (s', done) =>
      if done then .closeDestination client destination else .response client destination s'

/-- `httpProxyServer`, with `runHTTPProxyLoop`. -/
def httpProxyServer : Proxy → Act Proxy
  | .accept => .accept .connect
  | .connect client => .connect fun destination => .request client destination State.initial
  | .request client destination s => .recv client fun message =>
      if message = [] then .response client destination s
      else .forward client destination message s
  | .forward client destination message s =>
      .send destination message (afterForward parseContentLength client destination message s)
  | .response client destination s => .recv destination fun message =>
      .reply client destination message s
  | .reply client destination message s =>
      .send client message (afterReply parseContentLength client destination message s)
  | .closeDestination client destination => .close destination (.closeClient client)
  | .closeClient client => .close client .accept
  | .panicked => .exit

end

section
variable {parse : Bytes → Int}

/-! ## Packets that do not end a message -/

/-- Packets taken one after the other, none of which is `done`. -/
inductive Goes (parse : Bytes → Int) (s : State) : List Bytes → State → Prop
  | nil : Goes parse s [] s
  | concat {packets : List Bytes} {packet : Bytes} {s₁ s₂ : State} : Goes parse s packets s₁ →
      streamInHTTPMessage parse packet s₁ = .ok (s₂, false) →
      Goes parse s (packets ++ [packet]) s₂

theorem Goes.requestLoop {s s' : State} {packets : List Bytes} (h : Goes parse s packets s')
    (hpackets : ∀ packet ∈ packets, packet ≠ []) (rest : List Bytes) :
    requestLoop parse (packets ++ rest) s =
      requestLoop parse rest s' >>= fun r => .ok (packets ++ r.1, r.2) := by
  induction h generalizing rest with
  | nil =>
      cases hrest : Http.requestLoop parse rest s with
      | error e => rw [List.nil_append, hrest]; rfl
      | ok r => rw [List.nil_append, hrest]; rfl
  | @concat packets packet s₁ s₂ _ hpacket ih =>
      obtain ⟨hfront, hlast⟩ := List.forall_mem_append.mp hpackets
      have hne := List.forall_mem_singleton.mp hlast
      rw [List.append_assoc, List.singleton_append, ih hfront, Http.requestLoop,
        if_neg (fun hlen => hne (List.eq_nil_of_length_eq_zero hlen)), hpacket, ok_bind,
        if_neg Bool.false_ne_true]
      cases Http.requestLoop parse rest s₂ with
      | error e => rfl
      | ok r =>
          simp only [ok_bind, List.append_assoc, List.singleton_append]

theorem Goes.responseLoop {s s' : State} {packets : List Bytes} (h : Goes parse s packets s')
    (rest : List Bytes) :
    responseLoop parse (packets ++ rest) s = responseLoop parse rest s' >>= fun r =>
      .ok (packets.map (Prod.mk · false) ++ r.1, r.2) := by
  induction h generalizing rest with
  | nil =>
      cases hrest : Http.responseLoop parse rest s with
      | error e => rw [List.nil_append, hrest]; rfl
      | ok r => rw [List.nil_append, hrest]; rfl
  | @concat packets packet s₁ s₂ _ hpacket ih =>
      rw [List.append_assoc, List.singleton_append, ih, Http.responseLoop, hpacket, ok_bind,
        if_neg Bool.false_ne_true]
      cases Http.responseLoop parse rest s₂ with
      | error e => rfl
      | ok r =>
          simp only [ok_bind, List.map_append, List.append_assoc]
          rfl

/-! ## Sessions -/

/-- What has passed between a client and its destination. -/
structure Session where
  client : Nat
  destination : Nat
  /-- The packets that have been received from the client … -/
  request : List Bytes
  /-- … and those from the destination. -/
  response : List Bytes
  deriving DecidableEq, Repr

/-- What has been received from either has been sent to the other, but for what is in hand. -/
structure Relayed (w : World Proxy) (x : Session) (toDestination toClient : Bytes) : Prop where
  request : w.received x.client = x.request.flatten
  forwarded : w.sent x.destination ++ toDestination = x.request.flatten
  response : w.received x.destination = x.response.flatten
  replied : w.sent x.client ++ toClient = x.response.flatten

/-- A run of `runHTTPProxyLoop` that has taken all the packets, and ended with the last. -/
def Session.Finished (parse : Bytes → Int) (x : Session) : Prop :=
  runHTTPProxyLoop parse x.request x.response
    = .ok ⟨x.request, x.response.zip (framed x.response.length)⟩

def Session.Complete (parse : Bytes → Int) (w : World Proxy) (x : Session) : Prop :=
  Relayed w x [] [] ∧ x.Finished parse

/-- The request loop has been left. -/
def Asked (parse : Bytes → Int) (request : List Bytes) (s : State) : Prop :=
  requestLoop parse request State.initial = .ok (request, s)

/-- Where the loops are in a session, and what is in hand. -/
def Proxy.At (parse : Bytes → Int) (x : Session) (toDestination toClient : Bytes) : Proxy → Prop
  | .accept => False
  | .connect _ => False
  | .request client destination s => x.client = client ∧ x.destination = destination ∧
      toDestination = [] ∧ toClient = [] ∧ x.response = [] ∧ (∀ packet ∈ x.request, packet ≠ []) ∧
      Goes parse State.initial x.request s
  | .forward client destination message s => x.client = client ∧ x.destination = destination ∧
      toDestination = message ∧ toClient = [] ∧ x.response = [] ∧ ∃ front,
        x.request = front ++ [message] ∧ (∀ packet ∈ x.request, packet ≠ []) ∧
        Goes parse State.initial front s
  | .response client destination s => x.client = client ∧ x.destination = destination ∧
      toDestination = [] ∧ toClient = [] ∧ ∃ s₀, Asked parse x.request s₀ ∧
        Goes parse s₀ x.response s
  | .reply client destination message s => x.client = client ∧ x.destination = destination ∧
      toDestination = [] ∧ toClient = message ∧ ∃ s₀ front, x.response = front ++ [message] ∧
        Asked parse x.request s₀ ∧ Goes parse s₀ front s
  | .closeDestination client destination => x.client = client ∧ x.destination = destination ∧
      toDestination = [] ∧ toClient = [] ∧ x.Finished parse
  | .closeClient client => x.client = client ∧ toDestination = [] ∧ toClient = [] ∧
      x.Finished parse
  | .panicked => True

theorem Asked.of_goes {request : List Bytes} {s : State} (h : Goes parse State.initial request s)
    (hrequest : ∀ packet ∈ request, packet ≠ []) : Asked parse request s := by
  have hloop := h.requestLoop hrequest []
  rw [List.append_nil] at hloop
  rw [Asked, hloop, requestLoop, ok_bind, List.append_nil]

theorem Asked.concat {front : List Bytes} {message : Bytes} {s s' : State}
    (h : Goes parse State.initial front s)
    (hrequest : ∀ packet ∈ front ++ [message], packet ≠ [])
    (hmessage : streamInHTTPMessage parse message s = .ok (s', true)) :
    Asked parse (front ++ [message]) s' := by
  obtain ⟨hfront, hlast⟩ := List.forall_mem_append.mp hrequest
  have hne := List.forall_mem_singleton.mp hlast
  rw [Asked, h.requestLoop hfront, requestLoop,
    if_neg (fun hlen => hne (List.eq_nil_of_length_eq_zero hlen)), hmessage, ok_bind,
    if_pos rfl, ok_bind]

/-- The session ends with the packet that is `done`. -/
theorem Session.Finished.of_done {x : Session} {front : List Bytes} {message : Bytes}
    {s₀ s s' : State} (hresponse : x.response = front ++ [message]) (hasked : Asked parse x.request s₀)
    (hgoes : Goes parse s₀ front s)
    (hmessage : streamInHTTPMessage parse message s = .ok (s', true)) : x.Finished parse := by
  have hframed : (front ++ [message]).zip (framed (front ++ [message]).length)
      = front.map (Prod.mk · false) ++ [(message, true)] := by
    have hlen : (front ++ [message]).length - 1 = front.length := by
      rw [List.length_append, List.length_singleton, Nat.add_sub_cancel]
    rw [framed, hlen, List.zip_append List.length_replicate.symm, ← List.map_const',
      ← List.map_prod_left_eq_zip]
    rfl
  rw [Session.Finished, runHTTPProxyLoop, hasked, ok_bind, hresponse, hgoes.responseLoop,
    responseLoop, hmessage, ok_bind, if_pos rfl, ok_bind, ok_bind, hframed]

/-! ## What passes -/

variable {w w' : World Proxy} {x : Session} {a b bytes : Bytes}

theorem Relayed.congr (h : Relayed w x a b)
    (hreceived : ∀ fd, fd = x.client ∨ fd = x.destination → w'.received fd = w.received fd)
    (hsent : ∀ fd, fd = x.client ∨ fd = x.destination → w'.sent fd = w.sent fd) :
    Relayed w' x a b := by
  constructor
  · rw [hreceived _ (.inl rfl)]
    exact h.request
  · rw [hsent _ (.inr rfl)]
    exact h.forwarded
  · rw [hreceived _ (.inr rfl)]
    exact h.response
  · rw [hsent _ (.inl rfl)]
    exact h.replied

/-- Nothing has been sent that has not been received. -/
theorem Relayed.sent_isPrefix (h : Relayed w x a b) :
    w.sent x.destination <+: w.received x.client ∧
      w.sent x.client <+: w.received x.destination := by
  rw [h.request, h.response, ← h.forwarded, ← h.replied]
  exact ⟨List.prefix_append _ _, List.prefix_append _ _⟩

/-- A packet of the request arrives … -/
theorem Relayed.request_concat (h : Relayed w x [] b) (hne : x.client ≠ x.destination)
    (hreceived : w'.received
      = Function.update w.received x.client (w.received x.client ++ bytes))
    (hsent : w'.sent = w.sent) :
    Relayed w' { x with request := x.request ++ [bytes] } bytes b := by
  constructor
  · show w'.received x.client = (x.request ++ [bytes]).flatten
    rw [hreceived, Function.update_self, h.request, List.flatten_append, List.flatten_singleton]
  · show w'.sent x.destination ++ bytes = (x.request ++ [bytes]).flatten
    rw [hsent, List.flatten_append, List.flatten_singleton, ← h.forwarded, List.append_nil]
  · show w'.received x.destination = x.response.flatten
    rw [hreceived, Function.update_of_ne hne.symm, h.response]
  · show w'.sent x.client ++ b = x.response.flatten
    rw [hsent, h.replied]

/-- … or one of the response. -/
theorem Relayed.response_concat (h : Relayed w x a []) (hne : x.client ≠ x.destination)
    (hreceived : w'.received
      = Function.update w.received x.destination (w.received x.destination ++ bytes))
    (hsent : w'.sent = w.sent) :
    Relayed w' { x with response := x.response ++ [bytes] } a bytes := by
  constructor
  · show w'.received x.client = x.request.flatten
    rw [hreceived, Function.update_of_ne hne, h.request]
  · show w'.sent x.destination ++ a = x.request.flatten
    rw [hsent, h.forwarded]
  · show w'.received x.destination = (x.response ++ [bytes]).flatten
    rw [hreceived, Function.update_self, h.response, List.flatten_append, List.flatten_singleton]
  · show w'.sent x.client ++ bytes = (x.response ++ [bytes]).flatten
    rw [hsent, List.flatten_append, List.flatten_singleton, ← h.replied, List.append_nil]

/-- What is in hand is sent to the destination … -/
theorem Relayed.forward (h : Relayed w x a b) (hne : x.client ≠ x.destination)
    (hreceived : w'.received = w.received)
    (hsent : w'.sent = Function.update w.sent x.destination (w.sent x.destination ++ a)) :
    Relayed w' x [] b := by
  constructor
  · rw [hreceived, h.request]
  · rw [hsent, Function.update_self, List.append_nil, h.forwarded]
  · rw [hreceived, h.response]
  · rw [hsent, Function.update_of_ne hne, h.replied]

/-- … or to the client. -/
theorem Relayed.reply (h : Relayed w x a b) (hne : x.client ≠ x.destination)
    (hreceived : w'.received = w.received)
    (hsent : w'.sent = Function.update w.sent x.client (w.sent x.client ++ b)) :
    Relayed w' x a [] := by
  constructor
  · rw [hreceived, h.request]
  · rw [hsent, Function.update_of_ne hne.symm, h.forwarded]
  · rw [hreceived, h.response]
  · rw [hsent, Function.update_self, List.append_nil, h.replied]

/-! ## The sessions of a server -/

/-- The sessions so far; who is in none of them has been sent nothing. -/
structure Kept (w : World Proxy) (sessions : List Session) (waiting : List Nat) : Prop where
  accepted : w.accepted = sessions.map Session.client ++ waiting
  nodup : (sessions.map Session.destination).Nodup
  lt : ∀ d ∈ sessions.map Session.destination, d < w.opened
  apart : ∀ d ∈ sessions.map Session.destination, d ∉ w.accepted ++ w.backlog
  silent : ∀ fd, fd ∉ sessions.map Session.client → fd ∉ sessions.map Session.destination →
    w.received fd = [] ∧ w.sent fd = []

/-- No session is going on, and at most one client waits for its connection. -/
def Idle (parse : Bytes → Int) (w : World Proxy) : Prop :=
  ∃ past waiting, Kept w past waiting ∧ waiting.length ≤ 1 ∧ (∀ y ∈ past, y.Complete parse w) ∧
    ∀ s, w.server = some s → (waiting = [] ∧ s = .accept) ∨ ∃ c, waiting = [c] ∧ s = .connect c

/-- The last session is going on. -/
def Busy (parse : Bytes → Int) (w : World Proxy) : Prop :=
  ∃ past x a b, Kept w (past ++ [x]) [] ∧ (∀ y ∈ past, y.Complete parse w) ∧ Relayed w x a b ∧
    ∀ s, w.server = some s → s.At parse x a b

theorem Kept.aside {sessions : List Session} {waiting : List Nat} (h : Kept w sessions waiting)
    (haside : Aside w w') : Kept w' sessions waiting := by
  obtain ⟨hreceived, hsent, -, haccepted, -, hopened, hbacklog⟩ := haside
  refine ⟨haccepted.trans h.accepted, h.nodup, fun d hd => Nat.lt_of_lt_of_le (h.lt d hd) hopened,
    ?_, ?_⟩
  · intro d hd hmem
    rw [haccepted] at hmem
    rcases List.mem_append.mp hmem with hmem | hmem
    · exact h.apart d hd (List.mem_append_left _ hmem)
    · rcases hbacklog d hmem with hmem | hle
      · exact h.apart d hd (List.mem_append_right _ hmem)
      · exact Nat.lt_irrefl _ (Nat.lt_of_lt_of_le (h.lt d hd) hle)
  · rw [hreceived, hsent]
    exact h.silent

theorem Session.Complete.congr {y : Session} (h : y.Complete parse w)
    (hreceived : ∀ fd, fd = y.client ∨ fd = y.destination → w'.received fd = w.received fd)
    (hsent : ∀ fd, fd = y.client ∨ fd = y.destination → w'.sent fd = w.sent fd) :
    y.Complete parse w' :=
  ⟨h.1.congr hreceived hsent, h.2⟩

theorem Idle.aside (h : Idle parse w) (haside : Aside w w') : Idle parse w' := by
  obtain ⟨past, waiting, hkept, hlength, hpast, hstate⟩ := h
  refine ⟨past, waiting, hkept.aside haside, hlength, ?_, haside.server ▸ hstate⟩
  exact fun y hy => (hpast y hy).congr (fun fd _ => congrFun haside.received fd)
    fun fd _ => congrFun haside.sent fd

theorem Busy.aside (h : Busy parse w) (haside : Aside w w') : Busy parse w' := by
  obtain ⟨past, x, a, b, hkept, hpast, hx, hstate⟩ := h
  refine ⟨past, x, a, b, hkept.aside haside, ?_, ?_, haside.server ▸ hstate⟩
  · exact fun y hy => (hpast y hy).congr (fun fd _ => congrFun haside.received fd)
      fun fd _ => congrFun haside.sent fd
  · exact hx.congr (fun fd _ => congrFun haside.received fd) fun fd _ => congrFun haside.sent fd

theorem Kept.ended {sessions : List Session} {waiting : List Nat} (h : Kept w sessions waiting) :
    Kept { w with server := none } sessions waiting :=
  ⟨h.accepted, h.nodup, h.lt, h.apart, h.silent⟩

/-- The process has ended. -/
theorem Idle.ended (h : Idle parse w) : Idle parse { w with server := none } := by
  obtain ⟨past, waiting, hkept, hlength, hpast, -⟩ := h
  exact ⟨past, waiting, hkept.ended, hlength,
    fun y hy => (hpast y hy).congr (fun _ _ => rfl) fun _ _ => rfl, fun s hs => nomatch hs⟩

theorem Busy.ended (h : Busy parse w) : Busy parse { w with server := none } := by
  obtain ⟨past, x, a, b, hkept, hpast, hx, -⟩ := h
  exact ⟨past, x, a, b, hkept.ended,
    fun y hy => (hpast y hy).congr (fun _ _ => rfl) fun _ _ => rfl,
    hx.congr (fun _ _ => rfl) fun _ _ => rfl, fun s hs => nomatch hs⟩

section
variable {past : List Session}

theorem Kept.client_ne {sessions : List Session} {waiting : List Nat} {c d : Nat}
    (h : Kept w sessions waiting) (hc : c ∈ w.accepted)
    (hd : d ∈ sessions.map Session.destination) : c ≠ d := by
  rintro rfl
  exact h.apart c hd (List.mem_append_left _ hc)

theorem Kept.client_ne_destination (h : Kept w (past ++ [x]) []) :
    x.client ≠ x.destination := by
  apply h.client_ne
  · rw [h.accepted, List.append_nil]
    exact List.mem_map_of_mem List.mem_concat_self
  · exact List.mem_map_of_mem List.mem_concat_self

/-- The descriptors of the other sessions are others. -/
theorem Kept.past_apart (h : Kept w (past ++ [x]) []) (hgiven : Given w) {y : Session}
    (hy : y ∈ past) {fd : Nat} (hfd : fd = y.client ∨ fd = y.destination) :
    fd ≠ x.client ∧ fd ≠ x.destination := by
  have hmem : y ∈ past ++ [x] := List.mem_append_left _ hy
  have haccepted : ∀ z ∈ past ++ [x], z.client ∈ w.accepted := by
    intro z hz
    rw [h.accepted, List.append_nil]
    exact List.mem_map_of_mem hz
  rcases hfd with rfl | rfl
  · constructor
    · intro hsame
      have hfront : w.accepted = past.map Session.client ++ [x.client] := by
        rw [h.accepted, List.append_nil, List.map_append]
        rfl
      exact hgiven.not_mem_front hfront (hsame ▸ List.mem_map_of_mem hy)
    · exact h.client_ne (haccepted y hmem) (List.mem_map_of_mem List.mem_concat_self)
  · constructor
    · exact (h.client_ne (haccepted x List.mem_concat_self) (List.mem_map_of_mem hmem)).symm
    · intro hsame
      have hnodup := h.nodup
      rw [List.map_append] at hnodup
      exact (List.nodup_append.mp hnodup).2.2 _ (List.mem_map_of_mem hy) _
        (List.mem_map_of_mem (List.mem_singleton_self x)) hsame

theorem Kept.distinct {sessions : List Session} {waiting : List Nat}
    (h : Kept w sessions waiting) (hgiven : Given w) :
    (sessions.map Session.client ++ sessions.map Session.destination).Nodup := by
  have hnodup := (List.nodup_append.mp hgiven.nodup).1
  rw [h.accepted] at hnodup
  refine List.nodup_append.mpr ⟨(List.nodup_append.mp hnodup).1, h.nodup, ?_⟩
  intro c hc d hd
  apply h.client_ne _ hd
  rw [h.accepted]
  exact List.mem_append_left _ hc

/-- What is to be shown of a call that concerns the session. -/
theorem Busy.goOn (x' : Session) {a' b' : Bytes} {s' : Proxy} (hkept : Kept w (past ++ [x]) [])
    (hpast : ∀ y ∈ past, y.Complete parse w) (hgiven : Given w) (hsame : Same w w')
    (helse : ∀ fd, fd ≠ x.client → fd ≠ x.destination →
      w'.received fd = w.received fd ∧ w'.sent fd = w.sent fd)
    (hclient : x'.client = x.client) (hdestination : x'.destination = x.destination)
    (hx : Relayed w' x' a' b') (hserver : w'.server = some s') (hat : s'.At parse x' a' b') :
    Busy parse w' := by
  have hclients : (past ++ [x']).map Session.client = (past ++ [x]).map Session.client := by
    rw [List.map_append, List.map_append, List.map_singleton, List.map_singleton, hclient]
  have hdestinations : (past ++ [x']).map Session.destination
      = (past ++ [x]).map Session.destination := by
    rw [List.map_append, List.map_append, List.map_singleton, List.map_singleton, hdestination]
  refine ⟨past, x', a', b', ?_, ?_, hx, ?_⟩
  · constructor
    · rw [hsame.accepted, hclients]
      exact hkept.accepted
    · rw [hdestinations]
      exact hkept.nodup
    · rw [hdestinations, hsame.opened]
      exact hkept.lt
    · rw [hdestinations, hsame.accepted, hsame.backlog]
      exact hkept.apart
    · rw [hclients, hdestinations]
      intro fd hnotClient hnotDestination
      have hne : fd ≠ x.client ∧ fd ≠ x.destination :=
        ⟨fun hfd => hnotClient (hfd ▸ List.mem_map_of_mem List.mem_concat_self),
          fun hfd => hnotDestination (hfd ▸ List.mem_map_of_mem List.mem_concat_self)⟩
      rw [(helse fd hne.1 hne.2).1, (helse fd hne.1 hne.2).2]
      exact hkept.silent fd hnotClient hnotDestination
  · intro y hy
    refine (hpast y hy).congr ?_ ?_
    · intro fd hfd
      obtain ⟨hc, hd⟩ := hkept.past_apart hgiven hy hfd
      exact (helse fd hc hd).1
    · intro fd hfd
      obtain ⟨hc, hd⟩ := hkept.past_apart hgiven hy hfd
      exact (helse fd hc hd).2
  · intro s hs
    obtain rfl := Option.some.inj (hserver.symm.trans hs)
    exact hat

end

/-! ## What the server does -/

theorem Proxy.At.afterForward {front : List Bytes} {message : Bytes} {s : State}
    (hresponse : x.response = []) (hrequest : x.request = front ++ [message])
    (hpackets : ∀ packet ∈ x.request, packet ≠ []) (hgoes : Goes parse State.initial front s) :
    (afterForward parse x.client x.destination message s).At parse x [] [] := by
  rw [Http.afterForward]
  rcases hmessage : streamInHTTPMessage parse message s with _ | ⟨s', d⟩
  · trivial
  · cases d with
    | true =>
        refine ⟨rfl, rfl, rfl, rfl, s', ?_, ?_⟩
        · rw [hrequest] at hpackets ⊢
          exact Asked.concat hgoes hpackets hmessage
        · rw [hresponse]
          exact .nil
    | false =>
        refine ⟨rfl, rfl, rfl, rfl, hresponse, hpackets, ?_⟩
        rw [hrequest]
        exact hgoes.concat hmessage

theorem Proxy.At.afterReply {front : List Bytes} {message : Bytes} {s₀ s : State}
    (hresponse : x.response = front ++ [message]) (hasked : Asked parse x.request s₀)
    (hgoes : Goes parse s₀ front s) :
    (afterReply parse x.client x.destination message s).At parse x [] [] := by
  rw [Http.afterReply]
  rcases hmessage : streamInHTTPMessage parse message s with _ | ⟨s', d⟩
  · trivial
  · cases d with
    | true => exact ⟨rfl, rfl, rfl, rfl, .of_done hresponse hasked hgoes hmessage⟩
    | false =>
        refine ⟨rfl, rfl, rfl, rfl, s₀, hasked, ?_⟩
        rw [hresponse]
        exact hgoes.concat hmessage

/-- A client is accepted, or its connection made. -/
theorem Idle.call {s : Proxy} (h : Idle parse w) (hgiven : Given w) (hs : w.server = some s)
    (hcall : Call MSG_BUFFER_SIZE w (httpProxyServer parse s) w') :
    Idle parse w' ∨ Busy parse w' := by
  obtain ⟨past, waiting, hkept, -, hpast, hstate⟩ := h
  rcases hstate s hs with ⟨rfl, rfl⟩ | ⟨c, rfl, rfl⟩
  · simp only [httpProxyServer] at hcall
    cases hcall with
    | @accept next fd rest hbacklog =>
        have haccepted := hkept.accepted
        rw [List.append_nil] at haccepted
        refine .inl ⟨past, [fd], ⟨?_, hkept.nodup, hkept.lt, ?_, hkept.silent⟩, Nat.le_refl 1, ?_, ?_⟩
        · exact congrArg (· ++ [fd]) haccepted
        · intro d hd hmem
          apply hkept.apart d hd
          rw [hbacklog]
          rwa [List.append_assoc, List.singleton_append] at hmem
        · exact fun y hy => (hpast y hy).congr (fun _ _ => rfl) fun _ _ => rfl
        · rintro s ⟨⟩
          exact .inr ⟨fd, rfl, rfl⟩
  · simp only [httpProxyServer] at hcall
    cases hcall with
    | connect =>
        have hnew : w.opened ∉ w.accepted ++ w.backlog :=
          fun hmem => Nat.lt_irrefl _ (hgiven.lt _ hmem)
        have hc : c ∈ w.accepted := by
          rw [hkept.accepted]
          exact List.mem_concat_self
        have hclient := hkept.silent c (hgiven.not_mem_front hkept.accepted)
          fun hd => hkept.client_ne hc hd rfl
        have hdestination := hkept.silent w.opened
          (fun hold => hnew (List.mem_append_left _ (hkept.accepted ▸ List.mem_append_left _ hold)))
          fun hd => Nat.lt_irrefl _ (hkept.lt _ hd)
        refine .inr ⟨past, ⟨c, w.opened, [], []⟩, [], [], ⟨?_, ?_, ?_, ?_, ?_⟩, ?_, ?_, ?_⟩
        · rw [List.map_append, List.append_nil]
          exact hkept.accepted
        · rw [List.map_append]
          refine List.nodup_append.mpr ⟨hkept.nodup, List.pairwise_singleton _ _, ?_⟩
          rintro d hd _ hlast rfl
          obtain rfl := List.mem_singleton.mp hlast
          exact Nat.lt_irrefl _ (hkept.lt _ hd)
        · rw [List.map_append]
          refine List.forall_mem_append.mpr ⟨fun d hd => Nat.lt_succ_of_lt (hkept.lt d hd), ?_⟩
          exact List.forall_mem_singleton.mpr (Nat.lt_succ_self _)
        · rw [List.map_append]
          exact List.forall_mem_append.mpr ⟨hkept.apart, List.forall_mem_singleton.mpr hnew⟩
        · intro fd hnotClient hnotDestination
          rw [List.map_append] at hnotClient hnotDestination
          exact hkept.silent fd (fun hmem => hnotClient (List.mem_append_left _ hmem))
            fun hmem => hnotDestination (List.mem_append_left _ hmem)
        · exact fun y hy => (hpast y hy).congr (fun _ _ => rfl) fun _ _ => rfl
        · exact ⟨hclient.1, by rw [List.append_nil]; exact hdestination.2, hdestination.1,
            by rw [List.append_nil]; exact hclient.2⟩
        · rintro s ⟨⟩
          exact ⟨rfl, rfl, rfl, rfl, rfl, List.forall_mem_nil _, .nil⟩

/-- **A call in a session.** -/
theorem Busy.call {s : Proxy} (h : Busy parse w) (hgiven : Given w) (hs : w.server = some s)
    (hcall : Call MSG_BUFFER_SIZE w (httpProxyServer parse s) w') :
    Idle parse w' ∨ Busy parse w' := by
  obtain ⟨past, x, a, b, hkept, hpast, hx, hstate⟩ := h
  have hat := hstate s hs
  have hne := hkept.client_ne_destination
  cases s with
  | accept => exact absurd hat id
  | connect client => exact absurd hat id
  | request client destination s =>
      obtain ⟨rfl, rfl, rfl, rfl, hresponse, hpackets, hgoes⟩ := hat
      obtain ⟨bytes, hserver, hsame, hsent, hreceived, -, -⟩ :=
        Call.recv_cases (show Call _ w (.recv x.client _) w' from hcall)
      have helse : ∀ fd, fd ≠ x.client → fd ≠ x.destination →
          w'.received fd = w.received fd ∧ w'.sent fd = w.sent fd := by
        intro fd hfd _
        rw [hreceived, hsent, Function.update_of_ne hfd]
        exact ⟨rfl, rfl⟩
      by_cases hbytes : bytes = []
      · rw [if_pos hbytes] at hserver
        rw [hbytes, List.append_nil, Function.update_eq_self] at hreceived
        refine .inr (Busy.goOn x hkept hpast hgiven hsame helse rfl rfl (hx.congr
          (fun fd _ => congrFun hreceived fd) fun fd _ => congrFun hsent fd) hserver ?_)
        refine ⟨rfl, rfl, rfl, rfl, s, .of_goes hgoes hpackets, ?_⟩
        rw [hresponse]
        exact .nil
      · rw [if_neg hbytes] at hserver
        refine .inr (Busy.goOn { x with request := x.request ++ [bytes] } hkept hpast hgiven hsame
          helse rfl rfl (hx.request_concat hne hreceived hsent) hserver ?_)
        refine ⟨rfl, rfl, rfl, rfl, hresponse, x.request, rfl, ?_, hgoes⟩
        exact List.forall_mem_append.mpr ⟨hpackets, List.forall_mem_singleton.mpr hbytes⟩
  | forward client destination message s =>
      obtain ⟨rfl, rfl, rfl, rfl, hresponse, front, hrequest, hpackets, hgoes⟩ := hat
      obtain ⟨hserver, hsame, hreceived, hsent, -⟩ :=
        Call.send_cases (show Call _ w (.send x.destination a _) w' from hcall)
      refine .inr (Busy.goOn x hkept hpast hgiven hsame ?_ rfl rfl (hx.forward hne hreceived hsent)
        hserver (.afterForward hresponse hrequest hpackets hgoes))
      intro fd _ hfd
      rw [hreceived, hsent, Function.update_of_ne hfd]
      exact ⟨rfl, rfl⟩
  | response client destination s =>
      obtain ⟨rfl, rfl, rfl, rfl, s₀, hasked, hgoes⟩ := hat
      obtain ⟨bytes, hserver, hsame, hsent, hreceived, -, -⟩ :=
        Call.recv_cases (show Call _ w (.recv x.destination _) w' from hcall)
      refine .inr (Busy.goOn { x with response := x.response ++ [bytes] } hkept hpast hgiven hsame
        ?_ rfl rfl (hx.response_concat hne hreceived hsent) hserver
        ⟨rfl, rfl, rfl, rfl, s₀, x.response, rfl, hasked, hgoes⟩)
      intro fd _ hfd
      rw [hreceived, hsent, Function.update_of_ne hfd]
      exact ⟨rfl, rfl⟩
  | reply client destination message s =>
      obtain ⟨rfl, rfl, rfl, rfl, s₀, front, hresponse, hasked, hgoes⟩ := hat
      obtain ⟨hserver, hsame, hreceived, hsent, -⟩ :=
        Call.send_cases (show Call _ w (.send x.client b _) w' from hcall)
      refine .inr (Busy.goOn x hkept hpast hgiven hsame ?_ rfl rfl (hx.reply hne hreceived hsent)
        hserver (.afterReply hresponse hasked hgoes))
      intro fd hfd _
      rw [hreceived, hsent, Function.update_of_ne hfd]
      exact ⟨rfl, rfl⟩
  | closeDestination client destination =>
      obtain ⟨rfl, rfl, rfl, rfl, hfinished⟩ := hat
      obtain ⟨hserver, hsame, hreceived, hsent, -⟩ :=
        Call.close_cases (show Call _ w (.close x.destination _) w' from hcall)
      exact .inr (Busy.goOn x hkept hpast hgiven hsame
        (fun fd _ _ => ⟨congrFun hreceived fd, congrFun hsent fd⟩) rfl rfl (hx.congr
          (fun fd _ => congrFun hreceived fd) fun fd _ => congrFun hsent fd) hserver
        ⟨rfl, rfl, rfl, hfinished⟩)
  | closeClient client =>
      obtain ⟨rfl, rfl, rfl, hfinished⟩ := hat
      obtain ⟨hserver, hsame, hreceived, hsent, -⟩ :=
        Call.close_cases (show Call _ w (.close x.client _) w' from hcall)
      refine .inl ⟨past ++ [x], [], ⟨?_, hkept.nodup, ?_, ?_, ?_⟩, Nat.zero_le 1, ?_, ?_⟩
      · exact hsame.accepted.trans hkept.accepted
      · rw [hsame.opened]
        exact hkept.lt
      · rw [hsame.accepted, hsame.backlog]
        exact hkept.apart
      · rw [hreceived, hsent]
        exact hkept.silent
      · intro y hy
        refine Session.Complete.congr (w := w) ?_ (fun fd _ => congrFun hreceived fd)
          fun fd _ => congrFun hsent fd
        rcases List.mem_append.mp hy with hy | hy
        · exact hpast y hy
        · rw [List.mem_singleton.mp hy]
          exact ⟨hx, hfinished⟩
      · intro s hs
        exact .inl ⟨rfl, Option.some.inj (hs.symm.trans hserver)⟩
  | panicked =>
      simp only [httpProxyServer] at hcall
      cases hcall with
      | exit => exact .inr (Busy.ended ⟨past, x, a, b, hkept, hpast, hx, hstate⟩)

/-- **Isolation**: whatever the clients and their destinations do and in whatever order, the
server comes from session to session, each with a connection of its own at either end.  Each
but the last is a run of `runHTTPProxyLoop` on what has been received from the two, and each of
them has been sent what has been received from the other; in the last, nothing has been sent that has not been received from the
other; and nobody else has been sent anything. -/
theorem sessions_safe (h : Reachable (httpProxyServer parse) MSG_BUFFER_SIZE .accept w) :
    ∃ sessions : List Session,
      (sessions.map Session.client ++ sessions.map Session.destination).Nodup ∧
      (∃ waiting, w.accepted = sessions.map Session.client ++ waiting ∧ waiting.length ≤ 1) ∧
      (∀ fd, fd ∉ sessions.map Session.client → fd ∉ sessions.map Session.destination →
        w.sent fd = []) ∧
      (∀ x ∈ sessions.dropLast, x.Complete parse w) ∧
      (∀ x ∈ sessions.getLast?, w.sent x.destination <+: w.received x.client ∧
        w.sent x.client <+: w.received x.destination) ∧
      (w.server = some .accept →
        w.accepted = sessions.map Session.client ∧ ∀ x ∈ sessions, x.Complete parse w) := by
  have hserves : Given w ∧ (Idle parse w ∨ Busy parse w) := by
    refine Reachable.invariant (I := fun w => Idle parse w ∨ Busy parse w) ?_ ?_ ?_ ?_ h
    · refine .inl ⟨[], [], ⟨rfl, List.nodup_nil, List.forall_mem_nil _, List.forall_mem_nil _,
        fun _ _ _ => ⟨rfl, rfl⟩⟩, Nat.zero_le 1, List.forall_mem_nil _, ?_⟩
      exact fun s hs => .inl ⟨rfl, (Option.some.inj hs).symm⟩
    · exact fun w w' _ hI haside => hI.imp (·.aside haside) (·.aside haside)
    · exact fun w w' s hgiven hI hs hcall =>
        hI.elim (·.call hgiven hs hcall) (·.call hgiven hs hcall)
    · exact fun w hI => hI.imp (·.ended) (·.ended)
  obtain ⟨hgiven, ⟨past, waiting, hkept, hlength, hpast, hstate⟩ |
    ⟨past, x, a, b, hkept, hpast, hx, hstate⟩⟩ := hserves
  · refine ⟨past, hkept.distinct hgiven, ⟨waiting, hkept.accepted, hlength⟩,
      fun fd hc hd => (hkept.silent fd hc hd).2, fun y hy => hpast y (List.mem_of_mem_dropLast hy),
      ?_, ?_⟩
    · intro y hy
      exact (hpast y (List.mem_of_getLast? hy)).1.sent_isPrefix
    · intro hs
      rcases hstate _ hs with ⟨rfl, -⟩ | ⟨c, -, hc⟩
      · exact ⟨hkept.accepted.trans (List.append_nil _), hpast⟩
      · cases hc
  · refine ⟨past ++ [x], hkept.distinct hgiven, ⟨[], hkept.accepted, Nat.zero_le 1⟩,
      fun fd hc hd => (hkept.silent fd hc hd).2, ?_, ?_, fun hs => absurd (hstate _ hs) id⟩
    · rw [List.dropLast_concat]
      exact hpast
    · rw [List.getLast?_concat]
      rintro y ⟨⟩
      exact hx.sent_isPrefix

/-- A client has a connection to the destination. -/
def connectedOne : World Proxy := ⟨fun _ => .new, 2, [], [0], some (.request 0 1 State.initial)⟩

/-- It has sent a byte, which has been sent on. -/
def passedOne : World Proxy :=
  ((((connectedOne.modify 0 fun c => { c with arrived := c.arrived ++ [71] }).modify 0 fun c =>
    { c with received := c.received ++ [71], arrived := [] }).goOn
      (.forward 0 1 [71] State.initial)).modify 1 fun c => { c with sent := c.sent ++ [71] }).goOn
        (afterForward (fun _ => 0) 0 1 [71] State.initial)

theorem reachable_passedOne :
    Reachable (httpProxyServer fun _ => 0) MSG_BUFFER_SIZE .accept passedOne := by
  have hconnected : Reachable (httpProxyServer fun _ => 0) MSG_BUFFER_SIZE .accept connectedOne :=
    ((Relation.ReflTransGen.refl.tail .dial).tail (.call rfl (.accept rfl))).tail
      (.call rfl .connect)
  have harrived := hconnected.tail (@Step.arrive _ _ _ _ 0 [71] (by decide) rfl)
  have hreceived := harrived.tail (.call rfl (@Call.recv _ _ _ 0 _ [71] [] rfl (by decide)
    (by decide)))
  exact hreceived.tail (.call rfl .send)

theorem sessions_safe_passedOne : passedOne.sent 1 = [71] ∧ ∃ sessions : List Session,
    (∃ waiting, [0] = sessions.map Session.client ++ waiting ∧ waiting.length ≤ 1) ∧
    ∀ x ∈ sessions.getLast?, passedOne.sent x.destination <+: passedOne.received x.client := by
  obtain ⟨sessions, -, hwaiting, -, -, hlast, -⟩ := sessions_safe reachable_passedOne
  exact ⟨rfl, sessions, hwaiting, fun x hx => (hlast x hx).1⟩

end

end Nyctomek.Http

/-
# `Http.Servers` — the servers of `http-prework/main.go` among their clients

`forwardingServer` has one connection to its destination, and serves its clients one after the
other, each to its end.  `echoServer` reads once from a client, answers and goes on; from one
that sends nothing and shuts down it returns.

    forwarding    accept, then recv and send in turn, then close
    echo          accept, recv, send, close

The clients do what they like in between; what holds is independent of that.
-/
import Nyctomek.Http.Basic
import Nyctomek.Prog.Sockets

namespace Nyctomek.Http

open Prog Prog.Sockets

def MSG_BUFFER_SIZE : Nat := 1024

/-! ## `forwardingServer` -/

/-- What is to be done next, with the variables that are needed for it. -/
inductive Forward where
  | connect
  | accept (destination : Nat)
  | recv (destination client : Nat)
  | send (destination client : Nat) (message : Bytes)
  | close (destination client : Nat)
  deriving DecidableEq, Repr

/-- `forwardingServer`, with `runForwardingLoop`. -/
def forwardingServer : Forward → Act Forward
  | .connect => .connect .accept
  | .accept destination => .accept (.recv destination)
  | .recv destination client => .recv client fun message =>
      if message = [] then .close destination client else .send destination client message
  | .send destination client message => .send destination message (.recv destination client)
  | .close destination client => .close client (.accept destination)

/-- What has been received and is still to be sent. -/
def Forward.inHand : Forward → Bytes
  | .send _ _ message => message
  | _ => []

section
variable {w w' : World Forward} {d c : Nat} {message : Bytes}

/-- Everything that the accepted clients have sent, in the order in which they were accepted. -/
def forwarded (w : World Forward) : Bytes := w.accepted.flatMap w.received

/-- What is known of the clients in each state. -/
def Forward.Knows (w : World Forward) (d : Nat) : Forward → Prop
  | .connect => False
  | .accept destination => destination = d ∧ ∀ fd ∈ w.accepted, w.Ended fd
  | .recv destination client => destination = d ∧ ∃ front, w.accepted = front ++ [client] ∧
      ∀ fd ∈ front, w.Ended fd
  | .send destination client _ => destination = d ∧ ∃ front, w.accepted = front ++ [client] ∧
      ∀ fd ∈ front, w.Ended fd
  | .close destination client => destination = d ∧ ∃ front, w.accepted = front ++ [client] ∧
      ∀ fd ∈ w.accepted, w.Ended fd

/-- The connection to the destination is `d`. -/
structure Forwards (w : World Forward) (d : Nat) : Prop where
  lt : d < w.opened
  not_mem : d ∉ w.accepted ++ w.backlog
  others : ∀ fd, fd ≠ d → w.sent fd = []
  unread : ∀ fd, fd ∉ w.accepted → w.received fd = []
  ended : ∀ fd ∈ w.accepted.dropLast, w.Ended fd
  sent : w.sent d <+: forwarded w
  state : ∀ s, w.server = some s → s.Knows w d ∧ w.sent d ++ s.inHand = forwarded w

/-- There is no connection to the destination yet. -/
structure Unconnected (w : World Forward) : Prop where
  accepted : w.accepted = []
  sent : ∀ fd, w.sent fd = []
  received : ∀ fd, w.received fd = []
  state : ∀ s, w.server = some s → s = .connect

theorem Forward.Knows.mono {s : Forward} (haccepted : w'.accepted = w.accepted)
    (hended : ∀ fd, w.Ended fd → w'.Ended fd) (h : s.Knows w d) : s.Knows w' d := by
  cases s with
  | connect => exact h
  | accept destination =>
      refine ⟨h.1, ?_⟩
      rw [haccepted]
      exact fun fd hfd => hended fd (h.2 fd hfd)
  | recv destination client =>
      obtain ⟨hd, front, hfront, hall⟩ := h
      exact ⟨hd, front, haccepted.trans hfront, fun fd hfd => hended fd (hall fd hfd)⟩
  | send destination client message =>
      obtain ⟨hd, front, hfront, hall⟩ := h
      exact ⟨hd, front, haccepted.trans hfront, fun fd hfd => hended fd (hall fd hfd)⟩
  | close destination client =>
      obtain ⟨hd, front, hfront, hall⟩ := h
      refine ⟨hd, front, haccepted.trans hfront, ?_⟩
      rw [haccepted]
      exact fun fd hfd => hended fd (hall fd hfd)

theorem forwarded_congr (haccepted : w'.accepted = w.accepted)
    (hreceived : w'.received = w.received) : forwarded w' = forwarded w := by
  rw [forwarded, forwarded, haccepted, hreceived]

/-- Aside of the peers. -/
theorem Forwards.aside (h : Forwards w d) (haside : Aside w w') : Forwards w' d := by
  obtain ⟨hreceived, hsent, hended, haccepted, hserver, hopened, hbacklog⟩ := haside
  have hforwarded := forwarded_congr haccepted hreceived
  refine ⟨Nat.lt_of_lt_of_le h.lt hopened, ?_, ?_, ?_, ?_, ?_, ?_⟩
  · rw [haccepted]
    intro hmem
    rcases List.mem_append.mp hmem with hmem | hmem
    · exact h.not_mem (List.mem_append_left _ hmem)
    · rcases hbacklog d hmem with hmem | hle
      · exact h.not_mem (List.mem_append_right _ hmem)
      · exact Nat.lt_irrefl _ (Nat.lt_of_lt_of_le h.lt hle)
  · rw [hsent]
    exact h.others
  · rw [haccepted, hreceived]
    exact h.unread
  · rw [haccepted]
    exact fun fd hfd => hended fd (h.ended fd hfd)
  · rw [hsent, hforwarded]
    exact h.sent
  · rw [hserver, hsent, hforwarded]
    exact fun s hs => ⟨(h.state s hs).1.mono haccepted hended, (h.state s hs).2⟩

/-- More bytes from the last client. -/
theorem flatMap_update_last {g : Nat → Bytes} {front : List Nat} {bytes : Bytes} (h : c ∉ front) :
    (front ++ [c]).flatMap (Function.update g c (g c ++ bytes))
      = (front ++ [c]).flatMap g ++ bytes := by
  have hfront : front.flatMap (Function.update g c (g c ++ bytes)) = front.flatMap g := by
    apply List.flatMap_congr
    intro fd hfd
    apply Function.update_of_ne
    rintro rfl
    exact h hfd
  rw [List.flatMap_append, List.flatMap_append, hfront, List.flatMap_singleton,
    List.flatMap_singleton, Function.update_self, List.append_assoc]

theorem dropLast_concat' {front : List Nat} (h : w.accepted = front ++ [c]) :
    w.accepted.dropLast = front := by
  rw [h, List.dropLast_concat]

/-- What is to be shown of a call that leaves the descriptors as they are. -/
theorem Forwards.goOn (h : Forwards w d) (hsame : Same w w')
    (hothers : ∀ fd, fd ≠ d → w'.sent fd = w.sent fd)
    (hunread : ∀ fd, fd ∉ w.accepted → w'.received fd = w.received fd)
    (hended : ∀ fd ∈ w.accepted.dropLast, w'.Ended fd) {s' : Forward}
    (hserver : w'.server = some s') (hknows : s'.Knows w' d)
    (hsent : w'.sent d ++ s'.inHand = forwarded w') : Forwards w' d := by
  refine ⟨hsame.opened ▸ h.lt, ?_, ?_, ?_, ?_, ?_, ?_⟩
  · rw [hsame.accepted, hsame.backlog]
    exact h.not_mem
  · exact fun fd hfd => (hothers fd hfd).trans (h.others fd hfd)
  · rw [hsame.accepted]
    exact fun fd hfd => (hunread fd hfd).trans (h.unread fd hfd)
  · rw [hsame.accepted]
    exact hended
  · rw [← hsent]
    exact List.prefix_append _ _
  · intro s hs
    obtain rfl := Option.some.inj (hserver.symm.trans hs)
    exact ⟨hknows, hsent⟩

theorem Forwards.accept {fd : Nat} {rest : List Nat} (h : Forwards w d) (hgiven : Given w)
    (hall : ∀ fd ∈ w.accepted, w.Ended fd) (hsent : w.sent d = forwarded w)
    (hbacklog : w.backlog = fd :: rest) :
    Forwards { w with
      backlog := rest, accepted := w.accepted ++ [fd], server := some (.recv d fd) } d := by
  have hnew := hgiven.not_mem_accepted hbacklog
  have hforwarded : (w.accepted ++ [fd]).flatMap w.received = forwarded w := by
    rw [List.flatMap_append, List.flatMap_singleton, h.unread fd hnew, List.append_nil]
    rfl
  refine ⟨h.lt, ?_, h.others, ?_, ?_, ?_, ?_⟩
  · intro hmem'
    apply h.not_mem
    rwa [List.append_assoc, List.singleton_append, ← hbacklog] at hmem'
  · exact fun fd' hfd' => h.unread fd' fun hold => hfd' (List.mem_append_left _ hold)
  · show ∀ fd' ∈ (w.accepted ++ [fd]).dropLast, _
    rw [List.dropLast_concat]
    exact hall
  · show w.sent d <+: (w.accepted ++ [fd]).flatMap w.received
    rw [hforwarded]
    exact h.sent
  · rintro s ⟨⟩
    refine ⟨⟨rfl, w.accepted, rfl, hall⟩, ?_⟩
    show w.sent d ++ [] = (w.accepted ++ [fd]).flatMap w.received
    rw [List.append_nil, hforwarded, hsent]

theorem Forwards.recv {front : List Nat} (h : Forwards w d) (hgiven : Given w)
    (hfront : w.accepted = front ++ [c]) (hall : ∀ fd ∈ front, w.Ended fd)
    (hsent : w.sent d = forwarded w) (hcall : Call MSG_BUFFER_SIZE w (.recv c fun message =>
      if message = [] then .close d c else .send d c message) w') : Forwards w' d := by
  obtain ⟨bytes, hserver, hsame, hsent', hreceived, hended, hnil⟩ := hcall.recv_cases
  have hnot := hgiven.not_mem_front hfront
  have hall' : ∀ fd ∈ front, w'.Ended fd := by
    intro fd hfd
    refine hended fd ?_ (hall fd hfd)
    rintro rfl
    exact hnot hfd
  have hforwarded : forwarded w' = forwarded w ++ bytes := by
    rw [forwarded, forwarded, hsame.accepted, hreceived, hfront]
    exact flatMap_update_last hnot
  refine h.goOn hsame (fun fd _ => congrFun hsent' fd) ?_ ?_ hserver ?_ ?_
  · intro fd hfd
    rw [hreceived]
    apply Function.update_of_ne
    rintro rfl
    exact hfd (hfront ▸ List.mem_append_right _ (List.mem_singleton_self _))
  · rw [dropLast_concat' hfront]
    exact hall'
  · by_cases hbytes : bytes = []
    · rw [if_pos hbytes]
      refine ⟨rfl, front, hsame.accepted.trans hfront, ?_⟩
      rw [hsame.accepted, hfront]
      intro fd hfd
      rcases List.mem_append.mp hfd with hfd | hfd
      · exact hall' fd hfd
      · rw [List.mem_singleton.mp hfd]
        exact hnil hbytes
    · rw [if_neg hbytes]
      exact ⟨rfl, front, hsame.accepted.trans hfront, hall'⟩
  · rw [hsent', hforwarded, hsent]
    by_cases hbytes : bytes = []
    · rw [if_pos hbytes, hbytes]
      rfl
    · rw [if_neg hbytes]
      rfl

/-- **A call.** -/
theorem Forwards.call {s : Forward} (h : Forwards w d) (hgiven : Given w)
    (hs : w.server = some s) (hcall : Call MSG_BUFFER_SIZE w (forwardingServer s) w') :
    Forwards w' d := by
  obtain ⟨hknows, hsent⟩ := h.state s hs
  cases s with
  | connect => exact absurd hknows id
  | accept destination =>
      obtain ⟨rfl, hall⟩ := hknows
      simp only [forwardingServer] at hcall
      cases hcall with
      | accept hbacklog =>
          exact h.accept hgiven hall ((List.append_nil _).symm.trans hsent) hbacklog
  | recv destination client =>
      obtain ⟨rfl, front, hfront, hall⟩ := hknows
      exact h.recv hgiven hfront hall ((List.append_nil _).symm.trans hsent) hcall
  | send destination client message =>
      obtain ⟨rfl, front, hfront, hall⟩ := hknows
      obtain ⟨hserver, hsame, hreceived, hsent', hended⟩ :=
        Call.send_cases (show Call _ w (.send destination message _) w' from hcall)
      refine h.goOn hsame ?_ (fun fd _ => congrFun hreceived fd)
        (fun fd hfd => hended fd (h.ended fd hfd)) hserver
        ⟨rfl, front, hsame.accepted.trans hfront, fun fd hfd => hended fd (hall fd hfd)⟩ ?_
      · intro fd hfd
        rw [hsent', Function.update_of_ne hfd]
      · rw [hsent', Function.update_self, forwarded_congr hsame.accepted hreceived]
        exact (List.append_nil _).trans hsent
  | close destination client =>
      obtain ⟨rfl, front, hfront, hall⟩ := hknows
      obtain ⟨hserver, hsame, hreceived, hsent', hended⟩ :=
        Call.close_cases (show Call _ w (.close client _) w' from hcall)
      refine h.goOn hsame (fun fd _ => congrFun hsent' fd) (fun fd _ => congrFun hreceived fd)
        (fun fd hfd => hended fd (h.ended fd hfd)) hserver ⟨rfl, ?_⟩ ?_
      · rw [hsame.accepted]
        exact fun fd hfd => hended fd (hall fd hfd)
      · rw [hsent', forwarded_congr hsame.accepted hreceived]
        exact hsent

theorem Unconnected.aside (h : Unconnected w) (haside : Aside w w') : Unconnected w' := by
  constructor
  · exact haside.accepted.trans h.accepted
  · rw [haside.sent]
    exact h.sent
  · rw [haside.received]
    exact h.received
  · rw [haside.server]
    exact h.state

/-- The call that connects. -/
theorem Unconnected.call {s : Forward} (h : Unconnected w) (hgiven : Given w)
    (hs : w.server = some s) (hcall : Call MSG_BUFFER_SIZE w (forwardingServer s) w') :
    Forwards w' w.opened := by
  obtain rfl := h.state s hs
  simp only [forwardingServer] at hcall
  cases hcall with
  | connect =>
      have hforwarded : w.accepted.flatMap w.received = [] := by
        rw [h.accepted]
        rfl
      refine ⟨Nat.lt_succ_self _, fun hmem => Nat.lt_irrefl _ (hgiven.lt _ hmem),
        fun fd _ => h.sent fd, fun fd _ => h.received fd, ?_, ?_, ?_⟩
      · show ∀ fd ∈ w.accepted.dropLast, _
        rw [h.accepted]
        exact List.forall_mem_nil _
      · show w.sent w.opened <+: _
        rw [h.sent]
        exact List.nil_prefix
      · rintro s ⟨⟩
        refine ⟨⟨rfl, ?_⟩, ?_⟩
        · show ∀ fd ∈ w.accepted, _
          rw [h.accepted]
          exact List.forall_mem_nil _
        · show w.sent w.opened ++ [] = w.accepted.flatMap w.received
          rw [h.sent, hforwarded]
          rfl

/-- **The server at any time.** -/
theorem forwards_of_reachable (h : Reachable forwardingServer MSG_BUFFER_SIZE .connect w) :
    Given w ∧ (Unconnected w ∨ ∃ d, Forwards w d) := by
  refine Reachable.invariant (I := fun w => Unconnected w ∨ ∃ d, Forwards w d) ?_ ?_ ?_ ?_ h
  · exact .inl ⟨rfl, fun _ => rfl, fun _ => rfl, fun s hs => (Option.some.inj hs).symm⟩
  · rintro w w' - (hnone | ⟨d, hd⟩) haside
    · exact .inl (hnone.aside haside)
    · exact .inr ⟨d, hd.aside haside⟩
  · rintro w w' s hgiven (hnone | ⟨d, hd⟩) hs hcall
    · exact .inr ⟨_, hnone.call hgiven hs hcall⟩
    · exact .inr ⟨d, hd.call hgiven hs hcall⟩
  · rintro w (⟨haccepted, hsent, hreceived, -⟩ | ⟨d, hlt, hnot, hothers, hunread, hended, hsent, -⟩)
    · exact .inl ⟨haccepted, hsent, hreceived, fun s hs => nomatch hs⟩
    · exact .inr ⟨d, hlt, hnot, hothers, hunread, hended, hsent, fun s hs => nomatch hs⟩

/-- All clients but the last have been received from to their ends. -/
theorem Forwards.forwarded_isPrefix (h : Forwards w d) :
    forwarded w <+: w.accepted.flatMap w.stream := by
  have hended := h.ended
  unfold forwarded
  rcases List.eq_nil_or_concat' w.accepted with hnil | ⟨front, last, hlast⟩
  · rw [hnil]
    exact List.prefix_rfl
  · rw [hlast, List.dropLast_concat] at hended
    have hfront : front.flatMap w.received = front.flatMap w.stream :=
      List.flatMap_congr fun fd hfd => (World.Ended.stream_eq (hended fd hfd)).symm
    rw [hlast, List.flatMap_append, List.flatMap_append, hfront, List.flatMap_singleton,
      List.flatMap_singleton]
    exact (List.prefix_append_right_inj _).mpr (received_prefix_stream w last)

/-- **Forwarding**: whatever the clients do and in whatever order, the destination is sent, and
nobody else is sent anything, what the clients send, one behind the other as they were accepted:
nothing is lost, doubled or mixed up.  All of those before the last have shut down; when the
next one is waited for, so has that, and the destination has everything. -/
theorem forwarding_safe (h : Reachable forwardingServer MSG_BUFFER_SIZE .connect w) :
    ∃ d, d ∉ w.accepted ++ w.backlog ∧ (∀ fd, fd ≠ d → w.sent fd = []) ∧
      w.sent d <+: w.accepted.flatMap w.stream ∧ (∀ fd ∈ w.accepted.dropLast, w.Ended fd) ∧
      ∀ destination, w.server = some (.accept destination) →
        (∀ fd ∈ w.accepted, w.Ended fd) ∧ w.sent d = w.accepted.flatMap w.stream := by
  obtain ⟨hgiven, hnone | ⟨d, hd⟩⟩ := forwards_of_reachable h
  · refine ⟨w.opened, fun hmem => Nat.lt_irrefl _ (hgiven.lt _ hmem), fun fd _ => hnone.sent fd,
      ?_, ?_, ?_⟩
    · rw [hnone.sent]
      exact List.nil_prefix
    · rw [hnone.accepted]
      exact List.forall_mem_nil _
    · intro destination hs
      cases hnone.state _ hs
  · refine ⟨d, hd.not_mem, hd.others, hd.sent.trans hd.forwarded_isPrefix, hd.ended, ?_⟩
    intro destination hs
    obtain ⟨⟨-, hall⟩, hsent⟩ := hd.state _ hs
    refine ⟨hall, ?_⟩
    rw [← List.flatMap_congr fun fd hfd => (World.Ended.stream_eq (hall fd hfd)).symm]
    exact (List.append_nil _).symm.trans hsent

/-- A client has been accepted. -/
def acceptedOne : World Forward := ⟨fun _ => .new, 2, [], [1], some (.recv 0 1)⟩

/-- It has sent a byte, which has been sent on. -/
def relayedOne : World Forward :=
  ((((acceptedOne.modify 1 fun c => { c with arrived := c.arrived ++ [71] }).modify 1 fun c =>
    { c with received := c.received ++ [71], arrived := [] }).goOn (.send 0 1 [71])).modify 0
      fun c => { c with sent := c.sent ++ [71] }).goOn (.recv 0 1)

theorem reachable_relayedOne : Reachable forwardingServer MSG_BUFFER_SIZE .connect relayedOne := by
  have haccepted : Reachable forwardingServer MSG_BUFFER_SIZE .connect acceptedOne :=
    ((Relation.ReflTransGen.refl.tail (.call rfl .connect)).tail .dial).tail
      (.call rfl (.accept rfl))
  have harrived := haccepted.tail (@Step.arrive _ _ _ _ 1 [71] (by decide) rfl)
  have hreceived := harrived.tail (.call rfl (@Call.recv _ _ _ 1 _ [71] [] rfl (by decide)
    (by decide)))
  exact hreceived.tail (.call rfl .send)

theorem forwarding_safe_relayedOne : relayedOne.sent 0 = [71] ∧
    ∃ d, d ∉ relayedOne.accepted ++ relayedOne.backlog ∧ relayedOne.sent d <+: [71] := by
  obtain ⟨d, hd, -, hprefix, -⟩ := forwarding_safe reachable_relayedOne
  exact ⟨rfl, d, hd, hprefix⟩

end

/-! ## `echoServer` -/

/-- What every client is answered. -/
def echo : Bytes :=
  ascii "HTTP/1.1 200 OK\r\nContent-Length: 93\r\n\r\n" ++
  ascii "<!DOCTYPE html><html><body style='background-color:green;'><h1>runEchoLoop</h1>" ++
  ascii "</body></html>"

inductive Echo where
  | accept
  | recv (client : Nat)
  | send (client : Nat)
  | close (client : Nat)
  /-- Nothing has been received: what is left is to close, and to return. -/
  | leave (client : Nat)
  | returned
  deriving DecidableEq, Repr

def echoServer : Echo → Act Echo
  | .accept => .accept .recv
  | .recv client => .recv client fun message =>
      if message = [] then .leave client else .send client
  | .send client => .send client echo (.close client)
  | .close client => .close client .accept
  | .leave client => .close client .returned
  | .returned => .exit

section
variable {w w' : World Echo} {c : Nat}

/-- A client has been heard and answered. -/
def Answered (w : World Echo) (fd : Nat) : Prop := w.received fd ≠ [] ∧ w.sent fd = echo

/-- A client has shut down without a word, and is not answered. -/
def Mute (w : World Echo) (fd : Nat) : Prop := w.Ended fd ∧ w.received fd = [] ∧ w.sent fd = []

/-- What is known of the client that is served, the last one. -/
def Echo.Knows (w : World Echo) (fd : Nat) : Echo → Prop
  | .accept => Answered w fd
  | .recv client => client = fd ∧ w.received fd = [] ∧ w.sent fd = []
  | .send client => client = fd ∧ w.received fd ≠ [] ∧ w.sent fd = []
  | .close client => client = fd ∧ Answered w fd
  | .leave client => client = fd ∧ Mute w fd
  | .returned => Mute w fd

/-- All clients before the last have been answered, and nobody that has not been accepted. -/
structure Echoes (w : World Echo) : Prop where
  others : ∀ fd, fd ∉ w.accepted → w.received fd = [] ∧ w.sent fd = []
  front : ∀ fd ∈ w.accepted.dropLast, Answered w fd
  last : ∀ fd ∈ w.accepted.getLast?, w.sent fd = [] ∨ w.sent fd = echo
  state : ∀ s, w.server = some s →
    (w.accepted = [] ∧ s = .accept) ∨ ∃ fd, w.accepted.getLast? = some fd ∧ s.Knows w fd

theorem Echo.Knows.mono {s : Echo} {fd : Nat} (hreceived : w'.received = w.received)
    (hsent : w'.sent = w.sent) (hended : w.Ended fd → w'.Ended fd) (h : s.Knows w fd) :
    s.Knows w' fd := by
  have hanswered : Answered w fd → Answered w' fd := by
    rw [Answered, Answered, hreceived, hsent]
    exact id
  have hmute : Mute w fd → Mute w' fd := by
    rw [Mute, Mute, hreceived, hsent]
    exact And.imp_left hended
  cases s with
  | accept => exact hanswered h
  | recv client =>
      rw [Echo.Knows, hreceived, hsent]
      exact h
  | send client =>
      rw [Echo.Knows, hreceived, hsent]
      exact h
  | close client => exact ⟨h.1, hanswered h.2⟩
  | leave client => exact ⟨h.1, hmute h.2⟩
  | returned => exact hmute h

theorem Echoes.aside (h : Echoes w) (haside : Aside w w') : Echoes w' := by
  obtain ⟨hreceived, hsent, hended, haccepted, hserver, -, -⟩ := haside
  constructor
  · rw [haccepted, hreceived, hsent]
    exact h.others
  · unfold Answered
    rw [haccepted, hreceived, hsent]
    exact h.front
  · rw [haccepted, hsent]
    exact h.last
  · rw [haccepted, hserver]
    intro s hs
    rcases h.state s hs with hnone | ⟨fd, hlast, hknows⟩
    · exact .inl hnone
    · exact .inr ⟨fd, hlast, hknows.mono hreceived hsent (hended fd)⟩

/-- What is to be shown of a call that concerns the last client. -/
theorem Echoes.goOn (h : Echoes w) (hgiven : Given w) (hlast : w.accepted.getLast? = some c)
    (hsame : Same w w') (helse : ∀ fd, fd ≠ c →
      w'.received fd = w.received fd ∧ w'.sent fd = w.sent fd)
    (hsent : w'.sent c = [] ∨ w'.sent c = echo) {s' : Echo} (hserver : w'.server = some s')
    (hknows : s'.Knows w' c) : Echoes w' := by
  have hfront := List.dropLast_append_getLast? c hlast
  constructor
  · rw [hsame.accepted]
    intro fd hfd
    have hne : fd ≠ c := by
      rintro rfl
      exact hfd (List.mem_of_getLast? hlast)
    rw [(helse fd hne).1, (helse fd hne).2]
    exact h.others fd hfd
  · rw [hsame.accepted]
    intro fd hfd
    have hne : fd ≠ c := by
      rintro rfl
      exact hgiven.not_mem_front hfront.symm hfd
    rw [Answered, (helse fd hne).1, (helse fd hne).2]
    exact h.front fd hfd
  · rw [hsame.accepted, hlast]
    rintro fd ⟨⟩
    exact hsent
  · intro s hs
    obtain rfl := Option.some.inj (hserver.symm.trans hs)
    exact .inr ⟨c, hsame.accepted ▸ hlast, hknows⟩

theorem Echoes.accept {fd : Nat} {rest : List Nat} (h : Echoes w) (hgiven : Given w)
    (hall : ∀ fd ∈ w.accepted, Answered w fd) (hbacklog : w.backlog = fd :: rest) :
    Echoes { w with
      backlog := rest, accepted := w.accepted ++ [fd], server := some (.recv fd) } := by
  obtain ⟨hreceived, hsent⟩ := h.others fd (hgiven.not_mem_accepted hbacklog)
  constructor
  · exact fun fd' hfd' => h.others fd' fun hold => hfd' (List.mem_append_left _ hold)
  · show ∀ fd' ∈ (w.accepted ++ [fd]).dropLast, _
    rw [List.dropLast_concat]
    exact hall
  · show ∀ fd' ∈ (w.accepted ++ [fd]).getLast?, _
    rw [List.getLast?_concat]
    rintro fd' ⟨⟩
    exact .inl hsent
  · rintro s ⟨⟩
    exact .inr ⟨fd, List.getLast?_concat, rfl, hreceived, hsent⟩

/-- **A call.** -/
theorem Echoes.call {s : Echo} (h : Echoes w) (hgiven : Given w) (hs : w.server = some s)
    (hcall : Call MSG_BUFFER_SIZE w (echoServer s) w') : Echoes w' := by
  rcases h.state s hs with ⟨haccepted, rfl⟩ | ⟨fd, hlast, hknows⟩
  · simp only [echoServer] at hcall
    cases hcall with
    | accept hbacklog =>
        refine h.accept hgiven ?_ hbacklog
        rw [haccepted]
        exact List.forall_mem_nil _
  · cases s with
    | accept =>
        simp only [echoServer] at hcall
        cases hcall with
        | accept hbacklog =>
            refine h.accept hgiven ?_ hbacklog
            rw [← List.dropLast_append_getLast? fd hlast]
            exact List.forall_mem_append.mpr ⟨h.front, List.forall_mem_singleton.mpr hknows⟩
    | recv client =>
        obtain ⟨rfl, hreceived, hsent⟩ := hknows
        obtain ⟨bytes, hserver, hsame, hsent', hreceived', -, hnil⟩ :=
          Call.recv_cases (show Call _ w (.recv client _) w' from hcall)
        have hheard : w'.received client = bytes := by
          rw [hreceived', Function.update_self, hreceived, List.nil_append]
        have hunsent : w'.sent client = [] := by rw [hsent', hsent]
        refine h.goOn hgiven hlast hsame ?_ (.inl hunsent) hserver ?_
        · intro fd' hne
          rw [hreceived', hsent', Function.update_of_ne hne]
          exact ⟨rfl, rfl⟩
        · by_cases hbytes : bytes = []
          · rw [if_pos hbytes]
            exact ⟨rfl, hnil hbytes, hheard.trans hbytes, hunsent⟩
          · rw [if_neg hbytes]
            exact ⟨rfl, hheard ▸ hbytes, hunsent⟩
    | send client =>
        obtain ⟨rfl, hreceived, hsent⟩ := hknows
        obtain ⟨hserver, hsame, hreceived', hsent', -⟩ :=
          Call.send_cases (show Call _ w (.send client echo _) w' from hcall)
        have hechoed : w'.sent client = echo := by
          rw [hsent', Function.update_self, hsent, List.nil_append]
        refine h.goOn hgiven hlast hsame ?_ (.inr hechoed) hserver
          ⟨rfl, hreceived' ▸ hreceived, hechoed⟩
        intro fd' hne
        rw [hreceived', hsent', Function.update_of_ne hne]
        exact ⟨rfl, rfl⟩
    | close client =>
        obtain ⟨rfl, hanswered⟩ := hknows
        obtain ⟨hserver, hsame, hreceived', hsent', -⟩ :=
          Call.close_cases (show Call _ w (.close client _) w' from hcall)
        refine h.goOn hgiven hlast hsame (fun fd' _ => ⟨congrFun hreceived' fd', congrFun hsent' fd'⟩)
          (.inr ?_) hserver ?_
        · rw [hsent']
          exact hanswered.2
        · rw [Echo.Knows, Answered, hreceived', hsent']
          exact hanswered
    | leave client =>
        obtain ⟨rfl, hended, hreceived, hsent⟩ := hknows
        obtain ⟨hserver, hsame, hreceived', hsent', hended'⟩ :=
          Call.close_cases (show Call _ w (.close client _) w' from hcall)
        refine h.goOn hgiven hlast hsame (fun fd' _ => ⟨congrFun hreceived' fd', congrFun hsent' fd'⟩)
          (.inl ?_) hserver ⟨hended' client hended, ?_, ?_⟩
        · rw [hsent', hsent]
        · rw [hreceived', hreceived]
        · rw [hsent', hsent]
    | returned =>
        simp only [echoServer] at hcall
        cases hcall with
        | exit => exact ⟨h.others, h.front, h.last, fun s hs => nomatch hs⟩

theorem echoes_of_reachable (h : Reachable echoServer MSG_BUFFER_SIZE .accept w) :
    Given w ∧ Echoes w := by
  refine Reachable.invariant ?_ ?_ ?_ ?_ h
  · exact ⟨fun _ _ => ⟨rfl, rfl⟩, List.forall_mem_nil _, (fun _ hfd => nomatch hfd),
      fun s hs => .inl ⟨rfl, (Option.some.inj hs).symm⟩⟩
  · exact fun w w' _ hI haside => hI.aside haside
  · exact fun w w' s hgiven hI hs hcall => hI.call hgiven hs hcall
  · exact fun w hI => ⟨hI.others, hI.front, hI.last, fun s hs => nomatch hs⟩

/-- **Answering**: every client before the last has been heard and has been sent the answer once,
the last has been sent nothing or the answer, and nobody else anything.  The server returns
only from a client that has shut down without a word. -/
theorem echo_safe (h : Reachable echoServer MSG_BUFFER_SIZE .accept w) :
    (∀ fd, fd ∉ w.accepted → w.sent fd = []) ∧
    (∀ fd ∈ w.accepted.dropLast, w.received fd ≠ [] ∧ w.sent fd = echo) ∧
    (∀ fd ∈ w.accepted.getLast?, w.sent fd = [] ∨ w.sent fd = echo) ∧
    (w.server = some .returned → ∃ fd, w.accepted.getLast? = some fd ∧
      (w.conns fd).shut = true ∧ w.stream fd = [] ∧ w.sent fd = []) := by
  obtain ⟨-, hechoes⟩ := echoes_of_reachable h
  refine ⟨fun fd hfd => (hechoes.others fd hfd).2, hechoes.front, hechoes.last, ?_⟩
  intro hs
  rcases hechoes.state _ hs with ⟨-, hne⟩ | ⟨fd, hlast, hended, hreceived, hsent⟩
  · cases hne
  · exact ⟨fd, hlast, hended.2, hended.stream_eq.trans hreceived, hsent⟩

/-- A client has been accepted and has sent a byte, which has been received. -/
def heardOne : World Echo :=
  (((⟨fun _ => .new, 1, [], [0], some (.recv 0)⟩ : World Echo).modify 0 fun c =>
    { c with arrived := c.arrived ++ [71] }).modify 0 fun c =>
      { c with received := c.received ++ [71], arrived := [] }).goOn (.send 0)

/-- It has been answered, and the next one has been accepted. -/
def answeredOne : World Echo :=
  let w := ((heardOne.modify 0 fun c => { c with sent := c.sent ++ echo }).goOn (.close 0)).modify 0
    fun c => { c with closed := true }
  { w with opened := 2, accepted := [0, 1], server := some (.recv 1) }

theorem reachable_answeredOne : Reachable echoServer MSG_BUFFER_SIZE .accept answeredOne := by
  have haccepted : Reachable echoServer MSG_BUFFER_SIZE .accept
      ⟨fun _ => .new, 1, [], [0], some (.recv 0)⟩ :=
    (Relation.ReflTransGen.refl.tail .dial).tail (.call rfl (.accept rfl))
  have harrived := haccepted.tail (@Step.arrive _ _ _ _ 0 [71] (by decide) rfl)
  have hheard : Reachable echoServer MSG_BUFFER_SIZE .accept heardOne :=
    harrived.tail (.call rfl (@Call.recv _ _ _ 0 _ [71] [] rfl (by decide) (by decide)))
  have hanswered := (hheard.tail (.call rfl .send)).tail (.call rfl .close)
  exact (hanswered.tail .dial).tail (.call rfl (.accept rfl))

theorem echo_safe_answeredOne : answeredOne.accepted.dropLast = [0] ∧
    ∀ fd ∈ answeredOne.accepted.dropLast,
      answeredOne.received fd ≠ [] ∧ answeredOne.sent fd = echo :=
  ⟨rfl, (echo_safe reachable_answeredOne).2.1⟩

end

end Nyctomek.Http

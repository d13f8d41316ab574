/-
# `Http.Waiting` — what the servers come to when they are left alone

Nothing that has been sent is left lying: if nobody sends, dials or shuts down any more, the
calls of a server come to an end, and then it waits for somebody who has nothing to be heard.
`echoServer` may also have returned, from the first client without a word, and those who have
dialed behind it are never served.

    forwarding    waits to accept, with nobody in the backlog, or to receive; or to send, if
                  the destination does not read
    echo          to accept or to receive, or has returned
-/
import Nyctomek.Http.Servers

namespace Nyctomek.Http

open Prog Prog.Sockets

/-! ## `forwardingServer` -/

/-- How many calls there are before the next one that waits. -/
def Forward.rank : Forward → Nat
  | .accept _ => 0
  | .connect => 1
  | .close _ _ => 1
  | .recv _ _ => 2
  | .send _ _ _ => 3

theorem Forward.rank_lt (s : Forward) : s.rank < 4 := by
  cases s <;> simp [rank]

theorem forwardingServer_descends (s : Forward) :
    (forwardingServer s).Descends Forward.rank s.rank := by
  cases s with
  | connect => exact fun _ => Nat.zero_lt_one
  | accept destination => exact trivial
  | recv destination client => exact Nat.lt_succ_self 1
  | send destination client message => exact Nat.lt_succ_self 2
  | close destination client => exact Nat.zero_lt_one

/-- The destination has been sent everything that the accepted clients have sent.  The server
waits for the last of them, which has not shut down, or for somebody new when all have been
accepted.  If the destination does not read, it may also have some of it, and the server wait to
send more. -/
def Delivered (reads : Nat → Prop) (w w' : World Forward) : Prop :=
  w'.accepted ++ w'.backlog = w.accepted ++ w.backlog ∧ ∃ d,
    w'.sent d = w'.accepted.flatMap w.stream ∧
      (w'.server = some (.accept d) ∧ w'.backlog = [] ∨
        ∃ c, w'.server = some (.recv d c) ∧ w'.accepted.getLast? = some c ∧
          (w.conns c).shut = false) ∨
    ¬reads d ∧ ∃ c message, w'.server = some (.send d c message) ∧
      w'.sent d ++ message <+: w'.accepted.flatMap w.stream

section
variable {w w' : World Forward} {reads : Nat → Prop}

/-- Nothing that the accepted clients have sent is still to be received. -/
theorem forwarded_eq (h : ∀ fd ∈ w.accepted, (w.conns fd).arrived = []) :
    forwarded w = w.accepted.flatMap w.stream := by
  refine List.flatMap_congr fun fd hfd => ?_
  rw [World.stream, Conn.stream, h fd hfd, List.append_nil]
  rfl

theorem Forwards.receives {d c : Nat} {s : Forward} {next : Bytes → Forward} (h : Forwards w d)
    (hs : w.server = some s) (hcode : forwardingServer s = .recv c next) :
    s = .recv d c ∧ ∃ front, w.accepted = front ++ [c] ∧ ∀ fd ∈ front, w.Ended fd := by
  obtain ⟨hknows, -⟩ := h.state s hs
  cases s with
  | connect => cases hcode
  | accept destination => cases hcode
  | send destination client message => cases hcode
  | close destination client => cases hcode
  | recv destination client =>
      obtain ⟨rfl, hfront⟩ := hknows
      obtain ⟨rfl, -⟩ := Act.recv.inj hcode
      exact ⟨rfl, hfront⟩

theorem Forwards.accepts {d : Nat} {s : Forward} {next : Nat → Forward} (h : Forwards w d)
    (hs : w.server = some s) (hcode : forwardingServer s = .accept next) :
    s = .accept d ∧ ∀ fd ∈ w.accepted, w.Ended fd := by
  obtain ⟨hknows, -⟩ := h.state s hs
  cases s with
  | connect => cases hcode
  | recv destination client => cases hcode
  | send destination client message => cases hcode
  | close destination client => cases hcode
  | accept destination =>
      obtain ⟨rfl, hall⟩ := hknows
      exact ⟨rfl, hall⟩

theorem Forwards.sends {d fd : Nat} {bytes : Bytes} {s next : Forward} (h : Forwards w d)
    (hs : w.server = some s) (hcode : forwardingServer s = .send fd bytes next) :
    fd = d ∧ ∃ c, s = .send d c bytes ∧ w.sent d ++ bytes = forwarded w := by
  obtain ⟨hknows, hsent⟩ := h.state s hs
  cases s with
  | connect => cases hcode
  | accept destination => cases hcode
  | recv destination client => cases hcode
  | close destination client => cases hcode
  | send destination client message =>
      obtain ⟨rfl, -⟩ := hknows
      obtain ⟨rfl, rfl, -⟩ := Act.send.inj hcode
      exact ⟨rfl, client, rfl, hsent⟩

/-- A server that is stuck has delivered everything, if the destination reads. -/
theorem delivered_of_stuck (h : Reachable forwardingServer MSG_BUFFER_SIZE .connect w')
    (halive : w'.server ≠ none) (halone : Alone w w')
    (hstuck : Stuck forwardingServer MSG_BUFFER_SIZE reads w') : Delivered reads w w' := by
  obtain ⟨s, hs⟩ := Option.ne_none_iff_exists'.mp halive
  obtain ⟨-, hnone | ⟨d, hd⟩⟩ := forwards_of_reachable h
  · -- it could still connect
    obtain rfl := hnone.state s hs
    rcases hstuck.cases (by decide) hs with
      ⟨_, hcode, -⟩ | ⟨_, _, hcode, -⟩ | ⟨_, _, _, hcode, -⟩
    all_goals cases hcode
  · obtain ⟨-, hsent⟩ := hd.state s hs
    refine ⟨halone.queue, d, ?_⟩
    rw [← halone.stream]
    rcases hstuck.cases (by decide) hs with ⟨next, hcode, hbacklog⟩ |
      ⟨c, next, hcode, harrived, hshut⟩ | ⟨fd, message, next, hcode, hreads⟩
    · obtain ⟨rfl, hall⟩ := hd.accepts hs hcode
      refine .inl ⟨?_, .inl ⟨hs, hbacklog⟩⟩
      rw [← forwarded_eq fun fd hfd => (hall fd hfd).1, ← hsent]
      exact (List.append_nil _).symm
    · obtain ⟨rfl, front, hfront, hall⟩ := hd.receives hs hcode
      refine .inl ⟨?_, .inr ⟨c, hs, ?_, ?_⟩⟩
      · have hreceived : ∀ fd ∈ w'.accepted, (w'.conns fd).arrived = [] := by
          rw [hfront]
          exact List.forall_mem_append.mpr
            ⟨fun fd hfd => (hall fd hfd).1, List.forall_mem_singleton.mpr harrived⟩
        rw [← forwarded_eq hreceived, ← hsent]
        exact (List.append_nil _).symm
      · rw [hfront, List.getLast?_concat]
      · rw [← halone.shut, hshut]
    · obtain ⟨rfl, c, rfl, hinHand⟩ := hd.sends hs hcode
      exact .inr ⟨hreads, c, message, hs, hinHand ▸ hd.forwarded_isPrefix⟩

/-- **Delivery**: if nobody does anything more, the server comes to wait, and the destination has
then everything from all who have dialed, up to the first who has not shut down, if it reads what
it is sent. -/
theorem forwarding_rests (reads : Nat → Prop)
    (h : Reachable forwardingServer MSG_BUFFER_SIZE .connect w) (halive : w.server ≠ none) :
    Rests forwardingServer MSG_BUFFER_SIZE reads (Delivered reads w) w := by
  refine .of_descends (I := fun w' => Reachable forwardingServer MSG_BUFFER_SIZE .connect w' ∧
    w'.server ≠ none ∧ Alone w w') Forward.rank_lt forwardingServer_descends ?_ ?_ ?_ ?_ ?_
  · exact ⟨h, halive, .refl w⟩
  · rintro w₁ w₂ ⟨hreach, -, halone⟩ hcalls
    refine ⟨hreach.calls hcalls, ?_, halone.trans hcalls.alone⟩
    obtain ⟨s, -, hcall⟩ := hcalls
    exact hcall.server_ne_none (by cases s <;> rintro ⟨⟩)
  · exact fun w' hI => (forwards_of_reachable hI.1).1
  · rintro w' s fd next ⟨hreach, -, -⟩ hs hcode
    obtain ⟨-, hnone | ⟨d, hd⟩⟩ := forwards_of_reachable hreach
    · obtain rfl := hnone.state s hs
      cases hcode
    · obtain ⟨-, front, hfront, -⟩ := hd.receives hs hcode
      rw [hfront]
      exact List.mem_append_right _ (List.mem_singleton_self fd)
  · rintro w' ⟨hreach, halive, halone⟩ hstuck
    exact delivered_of_stuck hreach halive halone hstuck

/-- One more byte has arrived. -/
def arrivedOne : World Forward :=
  relayedOne.modify 1 fun c => { c with arrived := c.arrived ++ [72] }

theorem forwarding_rests_arrivedOne : Rests forwardingServer MSG_BUFFER_SIZE (fun fd => fd = 0)
    (Delivered (fun fd => fd = 0) arrivedOne) arrivedOne :=
  forwarding_rests _ (reachable_relayedOne.tail (@Step.arrive _ _ _ _ 1 [72] (by decide) rfl))
    (Option.some_ne_none _)

end

/-! ## `echoServer` -/

/-- How many calls there are before the next one that waits. -/
def Echo.rank : Echo → Nat
  | .accept => 0
  | .returned => 1
  | .close _ => 1
  | .leave _ => 2
  | .send _ => 2
  | .recv _ => 3

theorem Echo.rank_lt (s : Echo) : s.rank < 4 := by
  cases s <;> simp [rank]

theorem echoServer_descends (s : Echo) : (echoServer s).Descends Echo.rank s.rank := by
  cases s with
  | accept => exact trivial
  | recv client => exact Nat.lt_succ_self 2
  | send client => exact Nat.lt_succ_self 1
  | close client => exact Nat.zero_lt_one
  | leave client => exact Nat.lt_succ_self 1
  | returned => exact Nat.zero_lt_one

/-- Everybody before the last client has been answered.  The server waits for somebody new, and
has answered all; or for the last client, who has said nothing so far; or it has returned from
the last client, who has shut down without a word. -/
def Heard (w w' : World Echo) : Prop :=
  w'.accepted ++ w'.backlog = w.accepted ++ w.backlog ∧
    (∀ fd ∈ w'.accepted.dropLast, w'.sent fd = echo) ∧
    (w'.server = some .accept ∧ w'.backlog = [] ∧ (∀ fd ∈ w'.accepted, w'.sent fd = echo) ∨
      ∃ c, w'.accepted.getLast? = some c ∧ w.stream c = [] ∧
        (w'.server = some (.recv c) ∧ (w.conns c).shut = false ∨
          w'.server = none ∧ (w.conns c).shut = true))

section
variable {w w' : World Echo}

/-- The last client is mute if the server has returned. -/
def Returned (w : World Echo) : Prop :=
  w.server = none → ∃ c, w.accepted.getLast? = some c ∧ Mute w c

theorem Echoes.receives {c : Nat} {s : Echo} {next : Bytes → Echo} (h : Echoes w)
    (hs : w.server = some s) (hcode : echoServer s = .recv c next) :
    s = .recv c ∧ w.accepted.getLast? = some c ∧ w.received c = [] := by
  rcases h.state s hs with ⟨-, rfl⟩ | ⟨fd, hlast, hknows⟩
  · cases hcode
  · cases s with
    | accept => cases hcode
    | send client => cases hcode
    | close client => cases hcode
    | leave client => cases hcode
    | returned => cases hcode
    | recv client =>
        obtain ⟨rfl, hreceived, -⟩ := hknows
        obtain ⟨rfl, -⟩ := Act.recv.inj hcode
        exact ⟨rfl, hlast, hreceived⟩

theorem Echoes.accepts {s : Echo} {next : Nat → Echo} (h : Echoes w) (hs : w.server = some s)
    (hcode : echoServer s = .accept next) : s = .accept ∧ ∀ fd ∈ w.accepted, w.sent fd = echo := by
  have haccept : s = .accept := by
    cases s with
    | accept => rfl
    | recv client => cases hcode
    | send client => cases hcode
    | close client => cases hcode
    | leave client => cases hcode
    | returned => cases hcode
  subst haccept
  refine ⟨rfl, ?_⟩
  rcases h.state _ hs with ⟨haccepted, -⟩ | ⟨c, hlast, hanswered⟩
  · rw [haccepted]
    exact List.forall_mem_nil _
  · rw [← List.dropLast_append_getLast? c hlast]
    exact List.forall_mem_append.mpr
      ⟨fun fd hfd => (h.front fd hfd).2, List.forall_mem_singleton.mpr hanswered.2⟩

theorem heard_of_stuck (h : Reachable echoServer MSG_BUFFER_SIZE .accept w')
    (hreturned : Returned w') (halone : Alone w w')
    (hstuck : Stuck echoServer MSG_BUFFER_SIZE (fun _ => True) w') : Heard w w' := by
  obtain ⟨-, hechoes⟩ := echoes_of_reachable h
  refine ⟨halone.queue, fun fd hfd => (hechoes.front fd hfd).2, ?_⟩
  rw [← halone.stream]
  cases hs : w'.server with
  | none =>
      obtain ⟨c, hlast, hended, hreceived, -⟩ := hreturned hs
      refine .inr ⟨c, hlast, hended.stream_eq.trans hreceived, .inr ⟨rfl, ?_⟩⟩
      rw [← halone.shut, hended.2]
  | some s =>
      rcases hstuck.cases (by decide) hs with ⟨next, hcode, hbacklog⟩ |
        ⟨c, next, hcode, harrived, hshut⟩ | ⟨-, -, -, -, hreads⟩
      · obtain ⟨rfl, hall⟩ := hechoes.accepts hs hcode
        exact .inl ⟨rfl, hbacklog, hall⟩
      · obtain ⟨rfl, hlast, hreceived⟩ := hechoes.receives hs hcode
        refine .inr ⟨c, hlast, ?_, .inl ⟨rfl, ?_⟩⟩
        · rw [World.stream, Conn.stream, harrived, List.append_nil]
          exact hreceived
        · rw [← halone.shut, hshut]
      · exact absurd trivial hreads

theorem Returned.calls (h : Reachable echoServer MSG_BUFFER_SIZE .accept w)
    (hcalls : Calls echoServer MSG_BUFFER_SIZE w w') : Returned w' := by
  intro hnone
  obtain ⟨s, hs, hcall⟩ := hcalls
  have hreturned : s = .returned := by
    by_contra hne
    exact hcall.server_ne_none (by cases s <;> first | exact absurd rfl hne | rintro ⟨⟩) hnone
  subst hreturned
  rcases (echoes_of_reachable h).2.state _ hs with ⟨-, hne⟩ | ⟨c, hlast, hmute⟩
  · cases hne
  · cases hcall with
    | exit => exact ⟨c, hlast, hmute⟩

/-- **Answers to all**: if nobody does anything more, the server comes to wait, all that have
dialed having been answered up to the first who has said nothing yet, or it returns from the
first who has shut down without a word.  The answer fits into the buffer of a new connection,
whether it is read or not. -/
theorem echo_rests (h : Reachable echoServer MSG_BUFFER_SIZE .accept w)
    (halive : w.server ≠ none) :
    Rests echoServer MSG_BUFFER_SIZE (fun _ => True) (Heard w) w := by
  refine .of_descends (I := fun w' => Reachable echoServer MSG_BUFFER_SIZE .accept w' ∧
    Returned w' ∧ Alone w w') Echo.rank_lt echoServer_descends ?_ ?_ ?_ ?_ ?_
  · exact ⟨h, fun hnone => absurd hnone halive, .refl w⟩
  · rintro w₁ w₂ ⟨hreach, -, halone⟩ hcalls
    exact ⟨hreach.calls hcalls, .calls hreach hcalls, halone.trans hcalls.alone⟩
  · exact fun w' hI => (echoes_of_reachable hI.1).1
  · rintro w' s fd next ⟨hreach, -, -⟩ hs hcode
    obtain ⟨-, hechoes⟩ := echoes_of_reachable hreach
    exact List.mem_of_getLast? (hechoes.receives hs hcode).2.1
  · rintro w' ⟨hreach, hreturned, halone⟩ hstuck
    exact heard_of_stuck hreach hreturned halone hstuck

theorem echo_rests_answeredOne :
    Rests echoServer MSG_BUFFER_SIZE (fun _ => True) (Heard answeredOne) answeredOne :=
  echo_rests reachable_answeredOne (Option.some_ne_none _)

end

end Nyctomek.Http

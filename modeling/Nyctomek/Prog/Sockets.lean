/-
# `Prog.Sockets` — a server process among its peers

A server on stream sockets makes one system call after the other: `Act` is the next one, with
the state behind it.  Everything else is up to the peers, who dial in, send and shut down as
they like, between any two calls; a call waits until it can be made.

    accept     the connection that was dialed first
    recv       some of the bytes that have arrived, as many as the buffer has room for;
               no bytes when the peer has shut down and all has been received
    send       all of the bytes; from a peer that does not read it may not come back
    fatal      any call can fail, which ends the process

A descriptor belongs to one connection: numbers are not given again.

`Reachable.invariant` is the rule for what holds at any time; `Rests.of_descends` the one for
what a server comes to when its peers do nothing more.
-/
import Mathlib.Algebra.BigOperators.Group.List.Basic
import Mathlib.Logic.Function.Basic
import Mathlib.Logic.Relation
import Nyctomek.Prog.Bytes

namespace Prog.Sockets

/-- A connection, as the server has it. -/
structure Conn where
  /-- What the server has received … -/
  received : Bytes
  /-- … and what the peer has sent besides. -/
  arrived : Bytes
  sent : Bytes
  /-- The peer sends no more. -/
  shut : Bool
  closed : Bool
  deriving DecidableEq, Repr

def Conn.new : Conn := ⟨[], [], [], false, false⟩

/-- Everything that the peer has sent. -/
def Conn.stream (c : Conn) : Bytes := c.received ++ c.arrived

/-- A system call, and the state behind it. -/
inductive Act (σ : Type) where
  | accept (next : Nat → σ)
  | connect (next : Nat → σ)
  | recv (fd : Nat) (next : Bytes → σ)
  | send (fd : Nat) (bytes : Bytes) (next : σ)
  | close (fd : Nat) (next : σ)
  | exit

structure World (σ : Type) where
  conns : Nat → Conn
  /-- The next descriptor. -/
  opened : Nat
  backlog : List Nat
  /-- Which connections have been accepted, the first one first. -/
  accepted : List Nat
  /-- The state of the server; `none` when its process has ended. -/
  server : Option σ

variable {σ : Type}

namespace World

def received (w : World σ) (fd : Nat) : Bytes := (w.conns fd).received

def sent (w : World σ) (fd : Nat) : Bytes := (w.conns fd).sent

def stream (w : World σ) (fd : Nat) : Bytes := (w.conns fd).stream

/-- The peer has shut down, and all that it has sent has been received. -/
def Ended (w : World σ) (fd : Nat) : Prop := (w.conns fd).arrived = [] ∧ (w.conns fd).shut = true

end World

/-- Before the first call. -/
def World.start (s : σ) : World σ := ⟨fun _ => .new, 0, [], [], some s⟩

/-- One connection changes. -/
def World.modify (w : World σ) (fd : Nat) (f : Conn → Conn) : World σ :=
  { w with conns := Function.update w.conns fd (f (w.conns fd)) }

/-- The process goes on with a state. -/
def World.goOn (w : World σ) (s : σ) : World σ := { w with server := some s }

/-- What a call does, when it can be made. -/
inductive Call (size : Nat) (w : World σ) : Act σ → World σ → Prop
  | accept {next : Nat → σ} {fd : Nat} {rest : List Nat} : w.backlog = fd :: rest →
      Call size w (.accept next)
        { w with backlog := rest, accepted := w.accepted ++ [fd], server := some (next fd) }
  | connect {next : Nat → σ} :
      Call size w (.connect next) { w with opened := w.opened + 1, server := some (next w.opened) }
  | recv {fd : Nat} {next : Bytes → σ} {bytes rest : Bytes} :
      (w.conns fd).arrived = bytes ++ rest → bytes ≠ [] → bytes.length ≤ size →
      Call size w (.recv fd next) ((w.modify fd fun c =>
        { c with received := c.received ++ bytes, arrived := rest }).goOn (next bytes))
  | eof {fd : Nat} {next : Bytes → σ} : (w.conns fd).arrived = [] → (w.conns fd).shut = true →
      Call size w (.recv fd next) (w.goOn (next []))
  | send {fd : Nat} {bytes : Bytes} {next : σ} :
      Call size w (.send fd bytes next) ((w.modify fd fun c =>
        { c with sent := c.sent ++ bytes }).goOn next)
  | close {fd : Nat} {next : σ} :
      Call size w (.close fd next) ((w.modify fd fun c => { c with closed := true }).goOn next)
  | exit : Call size w .exit { w with server := none }

/-- One step: of a peer, or of the server with the program `code`. -/
inductive Step (code : σ → Act σ) (size : Nat) (w : World σ) : World σ → Prop
  | dial : Step code size w { w with opened := w.opened + 1, backlog := w.backlog ++ [w.opened] }
  | arrive {fd : Nat} (bytes : Bytes) : fd < w.opened → (w.conns fd).shut = false →
      Step code size w (w.modify fd fun c => { c with arrived := c.arrived ++ bytes })
  | shut {fd : Nat} : fd < w.opened →
      Step code size w (w.modify fd fun c => { c with shut := true })
  | call {s : σ} {w' : World σ} : w.server = some s → Call size w (code s) w' →
      Step code size w w'
  | fatal : Step code size w { w with server := none }

/-- The worlds that a server with the initial state `s` comes to. -/
def Reachable (code : σ → Act σ) (size : Nat) (s : σ) (w : World σ) : Prop :=
  Relation.ReflTransGen (Step code size) (World.start s) w

/-! ## What the peers do -/

/-- The peers have done something: nothing that has been received, sent or accepted changes, and
nothing that the process has in hand. -/
structure Aside (w w' : World σ) : Prop where
  received : w'.received = w.received
  sent : w'.sent = w.sent
  ended : ∀ fd, w.Ended fd → w'.Ended fd
  accepted : w'.accepted = w.accepted
  server : w'.server = w.server
  opened : w.opened ≤ w'.opened
  backlog : ∀ fd ∈ w'.backlog, fd ∈ w.backlog ∨ w.opened ≤ fd

section
variable {code : σ → Act σ} {size : Nat} {s : σ} {w w' : World σ} {fd fd' : Nat} {f : Conn → Conn}

@[simp] theorem conns_modify_self : (w.modify fd f).conns fd = f (w.conns fd) :=
  Function.update_self fd _ _

theorem conns_modify_ne (h : fd' ≠ fd) : (w.modify fd f).conns fd' = w.conns fd' :=
  Function.update_of_ne h _ _

@[simp] theorem received_goOn : (w.goOn s).received = w.received := rfl

@[simp] theorem sent_goOn : (w.goOn s).sent = w.sent := rfl

@[simp] theorem ended_goOn : (w.goOn s).Ended fd ↔ w.Ended fd := Iff.rfl

theorem received_modify : (w.modify fd f).received
    = Function.update w.received fd (f (w.conns fd)).received :=
  Function.comp_update Conn.received w.conns fd _

theorem sent_modify : (w.modify fd f).sent = Function.update w.sent fd (f (w.conns fd)).sent :=
  Function.comp_update Conn.sent w.conns fd _

theorem ended_modify_ne (h : fd' ≠ fd) : (w.modify fd f).Ended fd' ↔ w.Ended fd' := by
  rw [World.Ended, World.Ended, conns_modify_ne h]

/-- Everything of a peer that has ended is received. -/
theorem World.Ended.stream_eq (h : w.Ended fd) : w.stream fd = w.received fd := by
  rw [World.stream, Conn.stream, h.1, List.append_nil]
  rfl

theorem received_prefix_stream (w : World σ) (fd : Nat) : w.received fd <+: w.stream fd :=
  List.prefix_append _ _

/-! ## What the calls do -/

/-- Between two calls the descriptors have not changed. -/
structure Same (w w' : World σ) : Prop where
  opened : w'.opened = w.opened
  backlog : w'.backlog = w.backlog
  accepted : w'.accepted = w.accepted

theorem Call.recv_cases {next : Bytes → σ} (h : Call size w (.recv fd next) w') :
    ∃ bytes, w'.server = some (next bytes) ∧ Same w w' ∧ w'.sent = w.sent ∧
      w'.received = Function.update w.received fd (w.received fd ++ bytes) ∧
      (∀ fd', fd' ≠ fd → w.Ended fd' → w'.Ended fd') ∧ (bytes = [] → w'.Ended fd) := by
  cases h with
  | @recv _ _ bytes rest harrived hne hle =>
      refine ⟨bytes, rfl, ⟨rfl, rfl, rfl⟩, ?_, ?_, ?_, fun hnil => absurd hnil hne⟩
      · rw [sent_goOn, sent_modify]
        exact Function.update_eq_self fd _
      · rw [received_goOn, received_modify]
        rfl
      · intro fd' hfd' hended
        rw [ended_goOn, ended_modify_ne hfd']
        exact hended
  | eof harrived hshut =>
      refine ⟨[], rfl, ⟨rfl, rfl, rfl⟩, rfl, ?_, fun _ _ => id, fun _ => ⟨harrived, hshut⟩⟩
      rw [List.append_nil, Function.update_eq_self]
      rfl

/-- A change of what is neither received nor to be received. -/
theorem outgoing_modify (fd : Nat) (hreceived : ∀ c, (f c).received = c.received)
    (harrived : ∀ c, (f c).arrived = c.arrived) (hshut : ∀ c, (f c).shut = c.shut) :
    (w.modify fd f).received = w.received ∧ ∀ fd', w.Ended fd' → (w.modify fd f).Ended fd' := by
  constructor
  · rw [received_modify, hreceived]
    exact Function.update_eq_self fd _
  · intro fd' hended
    by_cases hsame : fd' = fd
    · subst hsame
      rw [World.Ended, conns_modify_self, harrived, hshut]
      exact hended
    · exact (ended_modify_ne hsame).mpr hended

theorem Call.send_cases {bytes : Bytes} {next : σ} (h : Call size w (.send fd bytes next) w') :
    w'.server = some next ∧ Same w w' ∧ w'.received = w.received ∧
      w'.sent = Function.update w.sent fd (w.sent fd ++ bytes) ∧
      ∀ fd', w.Ended fd' → w'.Ended fd' := by
  cases h with
  | send =>
      obtain ⟨hreceived, hended⟩ := outgoing_modify (w := w)
        (f := fun c => { c with sent := c.sent ++ bytes }) fd (fun _ => rfl) (fun _ => rfl) fun _ => rfl
      refine ⟨rfl, ⟨rfl, rfl, rfl⟩, hreceived, ?_, hended⟩
      rw [sent_goOn, sent_modify]
      rfl

theorem Call.close_cases {next : σ} (h : Call size w (.close fd next) w') :
    w'.server = some next ∧ Same w w' ∧ w'.received = w.received ∧ w'.sent = w.sent ∧
      ∀ fd', w.Ended fd' → w'.Ended fd' := by
  cases h with
  | close =>
      obtain ⟨hreceived, hended⟩ := outgoing_modify (w := w)
        (f := fun c => { c with closed := true }) fd (fun _ => rfl) (fun _ => rfl) fun _ => rfl
      refine ⟨rfl, ⟨rfl, rfl, rfl⟩, hreceived, ?_, hended⟩
      rw [sent_goOn, sent_modify]
      exact Function.update_eq_self fd _

/-- The descriptors in use have been given, each once. -/
structure Given (w : World σ) : Prop where
  lt : ∀ fd ∈ w.accepted ++ w.backlog, fd < w.opened
  nodup : (w.accepted ++ w.backlog).Nodup

theorem Given.start (s : σ) : Given (World.start s) :=
  ⟨List.forall_mem_nil _, List.nodup_nil⟩

/-- Everything that a step does to the descriptors. -/
theorem Given.step (h : Given w) (hstep : Step code size w w') : Given w' := by
  obtain ⟨hlt, hnodup⟩ := h
  cases hstep with
  | dial =>
      have hfresh : w.opened ∉ w.accepted ++ w.backlog := fun hmem => Nat.lt_irrefl _ (hlt _ hmem)
      constructor
      · intro fd hfd
        rw [← List.append_assoc, List.mem_append, List.mem_singleton] at hfd
        rcases hfd with hfd | rfl
        · exact Nat.lt_succ_of_lt (hlt fd hfd)
        · exact Nat.lt_succ_self _
      · show (w.accepted ++ (w.backlog ++ [w.opened])).Nodup
        rw [← List.append_assoc]
        refine List.nodup_append.mpr ⟨hnodup, List.pairwise_singleton _ _, ?_⟩
        rintro fd hfd _ hlast rfl
        exact hfresh (List.mem_singleton.mp hlast ▸ hfd)
  | arrive bytes hfd hshut => exact ⟨hlt, hnodup⟩
  | shut hfd => exact ⟨hlt, hnodup⟩
  | fatal => exact ⟨hlt, hnodup⟩
  | call hs hcall =>
      generalize code _ = act at hcall
      cases hcall with
      | @accept next fd rest hbacklog =>
          rw [hbacklog] at hlt hnodup
          have hsame : w.accepted ++ [fd] ++ rest = w.accepted ++ fd :: rest := by
            rw [List.append_assoc, List.singleton_append]
          exact ⟨fun fd' hfd' => hlt fd' (hsame ▸ hfd'), hsame.symm ▸ hnodup⟩
      | connect => exact ⟨fun fd hfd => Nat.lt_succ_of_lt (hlt fd hfd), hnodup⟩
      | recv => exact ⟨hlt, hnodup⟩
      | eof => exact ⟨hlt, hnodup⟩
      | send => exact ⟨hlt, hnodup⟩
      | close => exact ⟨hlt, hnodup⟩
      | exit => exact ⟨hlt, hnodup⟩

/-- A connection that waits has not been accepted. -/
theorem Given.not_mem_accepted {rest : List Nat} (h : Given w) (hbacklog : w.backlog = fd :: rest) :
    fd ∉ w.accepted := by
  have hmem : fd ∈ w.backlog := hbacklog ▸ List.mem_cons_self
  intro hold
  exact (List.nodup_append.mp h.nodup).2.2 fd hold fd hmem rfl

/-- The connection that has been accepted last has not been accepted before. -/
theorem Given.not_mem_front {front : List Nat} (h : Given w) (hfront : w.accepted = front ++ [fd]) :
    fd ∉ front := by
  have hnodup := (List.nodup_append.mp h.nodup).1
  rw [hfront] at hnodup
  intro hmem
  exact (List.nodup_append.mp hnodup).2.2 fd hmem fd (List.mem_singleton_self fd) rfl

/-! ## Runs -/

/-- Everything that a step can be. -/
theorem Step.cases (h : Step code size w w') : Aside w w' ∨
    (∃ s, w.server = some s ∧ Call size w (code s) w') ∨ w' = { w with server := none } := by
  cases h with
  | dial =>
      refine .inl ⟨rfl, rfl, fun _ => id, rfl, rfl, Nat.le_succ _, ?_⟩
      intro fd hfd
      rcases List.mem_append.mp hfd with hfd | hfd
      · exact .inl hfd
      · exact .inr (Nat.le_of_eq (List.mem_singleton.mp hfd).symm)
  | @arrive fd bytes hfd hshut =>
      refine .inl ⟨received_modify.trans (Function.update_eq_self fd _),
        sent_modify.trans (Function.update_eq_self fd _), ?_, rfl, rfl, Nat.le_refl _,
        fun _ => .inl⟩
      rintro fd' ⟨harrived, hshut'⟩
      by_cases hsame : fd' = fd
      · subst hsame
        rw [hshut] at hshut'
        cases hshut'
      · exact (ended_modify_ne hsame).mpr ⟨harrived, hshut'⟩
  | @shut fd hfd =>
      refine .inl ⟨received_modify.trans (Function.update_eq_self fd _),
        sent_modify.trans (Function.update_eq_self fd _), ?_, rfl, rfl, Nat.le_refl _,
        fun _ => .inl⟩
      rintro fd' ⟨harrived, hshut'⟩
      by_cases hsame : fd' = fd
      · subst hsame
        rw [World.Ended, conns_modify_self]
        exact ⟨harrived, rfl⟩
      · exact (ended_modify_ne hsame).mpr ⟨harrived, hshut'⟩
  | call hs hcall => exact .inr (.inl ⟨_, hs, hcall⟩)
  | fatal => exact .inr (.inr rfl)

/-- **Invariants**: what holds at the start, aside of the peers and from call to call, and when
the process ends, holds of every reachable world. -/
theorem Reachable.invariant {I : World σ → Prop} (hstart : I (World.start s))
    (haside : ∀ w w', Given w → I w → Aside w w' → I w')
    (hcall : ∀ w w' s, Given w → I w → w.server = some s → Call size w (code s) w' → I w')
    (hfatal : ∀ w, I w → I { w with server := none }) (h : Reachable code size s w) :
    Given w ∧ I w := by
  induction h with
  | refl => exact ⟨.start s, hstart⟩
  | tail _ hstep ih =>
      obtain ⟨hgiven, hI⟩ := ih
      refine ⟨hgiven.step hstep, ?_⟩
      rcases hstep.cases with hpeer | ⟨s, hs, hserver⟩ | rfl
      · exact haside _ _ hgiven hI hpeer
      · exact hcall _ _ s hgiven hI hs hserver
      · exact hfatal _ hI

end

/-! ## A server that is left alone -/

/-- The server makes its next call. -/
def Calls (code : σ → Act σ) (size : Nat) (w w' : World σ) : Prop :=
  ∃ s, w.server = some s ∧ Call size w (code s) w'

/-- The next call is a `send` to a peer that does not read, which may not come to its end. -/
def Unread (code : σ → Act σ) (reads : Nat → Prop) (w : World σ) : Prop :=
  ∃ s fd bytes next, w.server = some s ∧ code s = .send fd bytes next ∧ ¬reads fd

/-- No call can be made, or none need be. -/
def Stuck (code : σ → Act σ) (size : Nat) (reads : Nat → Prop) (w : World σ) : Prop :=
  (∀ w', ¬Calls code size w w') ∨ Unread code reads w

/-- If the peers do nothing more, but for `reads` those that read what they are sent, the server
comes to wait, or to its end, and in no other worlds than those with `Q`. -/
structure Rests (code : σ → Act σ) (size : Nat) (reads : Nat → Prop) (Q : World σ → Prop)
    (w : World σ) : Prop where
  ends : Acc (fun w' w => Calls code size w w') w
  settled : ∀ w', Relation.ReflTransGen (Calls code size) w w' → Stuck code size reads w' → Q w'

/-- Everything that is still to be received from those that have dialed. -/
def World.pending (w : World σ) : Nat :=
  ((w.accepted ++ w.backlog).flatMap fun fd => (w.conns fd).arrived).length

section
variable {code : σ → Act σ} {size : Nat} {w w' : World σ} {Q I : World σ → Prop} {fd : Nat}
  {f : Conn → Conn} {reads : Nat → Prop}

/-- **Variants**: an invariant of the calls, a number that every call makes smaller, and what is
known where the server is stuck. -/
theorem Rests.of_variant (μ : World σ → Nat) (hI : I w)
    (hcall : ∀ w w', I w → Calls code size w w' → I w' ∧ μ w' < μ w)
    (hstuck : ∀ w, I w → Stuck code size reads w → Q w) : Rests code size reads Q w := by
  constructor
  · induction hμ : μ w using Nat.strongRecOn generalizing w with
    | ind n ih =>
        refine ⟨_, fun w' hw' => ?_⟩
        obtain ⟨hI', hlt⟩ := hcall w w' hI hw'
        exact ih _ (hμ ▸ hlt) hI' rfl
  · intro w' hrun
    have hI' : I w' := by
      induction hrun with
      | refl => exact hI
      | tail _ hlast ih => exact (hcall _ _ ih hlast).1
    exact hstuck w' hI'

/-- A server that is stuck waits for a connection or for bytes, or for somebody to read. -/
theorem Stuck.cases {s : σ} (hsize : 0 < size) (hs : w.server = some s)
    (h : Stuck code size reads w) : (∃ next, code s = .accept next ∧ w.backlog = []) ∨
      (∃ fd next, code s = .recv fd next ∧ (w.conns fd).arrived = [] ∧
        (w.conns fd).shut = false) ∨
      ∃ fd bytes next, code s = .send fd bytes next ∧ ¬reads fd := by
  rcases h with hnone | ⟨s', fd, bytes, next, hs', hcode, hreads⟩
  swap
  · obtain rfl := Option.some.inj (hs.symm.trans hs')
    exact .inr (.inr ⟨fd, bytes, next, hcode, hreads⟩)
  replace hnone : ∀ w', ¬Call size w (code s) w' := fun w' hcall => hnone w' ⟨s, hs, hcall⟩
  generalize code s = act at hnone ⊢
  cases act with
  | accept next =>
      cases hbacklog : w.backlog with
      | nil => exact .inl ⟨next, rfl, rfl⟩
      | cons fd rest => exact absurd (.accept hbacklog) (hnone _)
  | recv fd next =>
      have harrived : (w.conns fd).arrived = [] := by
        by_contra hne
        refine hnone _ (.recv (List.take_append_drop size _).symm ?_ (List.length_take_le _ _))
        rw [Ne, List.take_eq_nil_iff]
        rintro (hzero | hnil)
        · exact absurd hzero (Nat.pos_iff_ne_zero.mp hsize)
        · exact hne hnil
      cases hshut : (w.conns fd).shut with
      | true => exact absurd (.eof harrived hshut) (hnone _)
      | false => exact .inr (.inl ⟨fd, next, rfl, harrived, hshut⟩)
  | connect next => exact absurd .connect (hnone _)
  | send fd bytes next => exact absurd .send (hnone _)
  | close fd next => exact absurd .close (hnone _)
  | exit => exact absurd .exit (hnone _)

/-! ### What a server without peers keeps -/

/-- Nothing but the server has done something. -/
structure Alone (w w' : World σ) : Prop where
  queue : w'.accepted ++ w'.backlog = w.accepted ++ w.backlog
  stream : w'.stream = w.stream
  shut : ∀ fd, (w'.conns fd).shut = (w.conns fd).shut

theorem stream_goOn (w : World σ) (s : σ) : (w.goOn s).stream = w.stream := rfl

theorem stream_modify (h : (f (w.conns fd)).stream = (w.conns fd).stream) :
    (w.modify fd f).stream = w.stream := by
  have hstream : (w.modify fd f).stream
      = Function.update w.stream fd (f (w.conns fd)).stream :=
    Function.comp_update Conn.stream w.conns fd _
  rw [hstream, h]
  exact Function.update_eq_self fd _

theorem shut_modify (h : ∀ c, (f c).shut = c.shut) (fd' : Nat) :
    ((w.modify fd f).conns fd').shut = (w.conns fd').shut := by
  by_cases hsame : fd' = fd
  · rw [hsame, conns_modify_self, h]
  · rw [conns_modify_ne hsame]

theorem alone_goOn_modify (s : σ) (hstream : (f (w.conns fd)).stream = (w.conns fd).stream)
    (hshut : ∀ c, (f c).shut = c.shut) : Alone w ((w.modify fd f).goOn s) :=
  ⟨rfl, (stream_goOn _ _).trans (stream_modify hstream), shut_modify hshut⟩

theorem Calls.alone (h : Calls code size w w') : Alone w w' := by
  obtain ⟨s, -, hcall⟩ := h
  generalize code s = act at hcall
  cases hcall with
  | @accept next fd rest hbacklog =>
      refine ⟨?_, rfl, fun _ => rfl⟩
      rw [hbacklog]
      exact List.append_assoc _ _ _
  | connect => exact ⟨rfl, rfl, fun _ => rfl⟩
  | @recv fd next bytes rest harrived _ _ =>
      refine alone_goOn_modify _ ?_ fun _ => rfl
      rw [Conn.stream, Conn.stream, harrived, List.append_assoc]
  | eof => exact ⟨rfl, rfl, fun _ => rfl⟩
  | send => exact alone_goOn_modify _ rfl fun _ => rfl
  | close => exact alone_goOn_modify _ rfl fun _ => rfl
  | exit => exact ⟨rfl, rfl, fun _ => rfl⟩

theorem Call.server_ne_none {act : Act σ} (h : Call size w act w') (hact : act ≠ .exit) :
    w'.server ≠ none := by
  cases h with
  | exit => exact absurd rfl hact
  | accept | connect | recv | eof | send | close => exact Option.some_ne_none _

theorem Alone.refl (w : World σ) : Alone w w := ⟨rfl, rfl, fun _ => rfl⟩

theorem Alone.trans {w'' : World σ} (h : Alone w w') (h' : Alone w' w'') : Alone w w'' :=
  ⟨h'.queue.trans h.queue, h'.stream.trans h.stream, fun fd => (h'.shut fd).trans (h.shut fd)⟩

theorem Reachable.calls {s : σ} (h : Reachable code size s w) (h' : Calls code size w w') :
    Reachable code size s w' := by
  obtain ⟨s', hs, hcall⟩ := h'
  exact h.tail (.call hs hcall)

/-! ### A number that becomes smaller -/

/-- Between the bytes that are received and the connections that are accepted each call has a
state of lower rank behind it. -/
def Act.Descends (rank : σ → Nat) (n : Nat) : Act σ → Prop
  | .accept _ => True
  | .connect next => ∀ fd, rank (next fd) < n
  | .recv _ next => rank (next []) < n
  | .send _ _ next => rank next < n
  | .close _ next => rank next < n
  | .exit => 0 < n

/-- What is left for the server to do, if no rank is more than `k`. -/
def World.load (k : Nat) (rank : σ → Nat) (w : World σ) : Nat :=
  k * (w.pending + w.backlog.length) + w.server.elim 0 rank

theorem pending_congr (hqueue : w'.accepted ++ w'.backlog = w.accepted ++ w.backlog)
    (harrived : ∀ fd, (w'.conns fd).arrived = (w.conns fd).arrived) : w'.pending = w.pending := by
  rw [World.pending, World.pending, hqueue]
  simp only [harrived]

theorem arrived_modify (h : ∀ c, (f c).arrived = c.arrived) (fd' : Nat) :
    ((w.modify fd f).conns fd').arrived = (w.conns fd').arrived := by
  by_cases hsame : fd' = fd
  · rw [hsame, conns_modify_self, h]
  · rw [conns_modify_ne hsame]

theorem pending_modify (hgiven : Given w) (hfd : fd ∈ w.accepted ++ w.backlog) :
    (w.modify fd f).pending + (w.conns fd).arrived.length
      = w.pending + (f (w.conns fd)).arrived.length := by
  have hothers : (((w.accepted ++ w.backlog).erase fd).map fun fd' =>
      ((w.modify fd f).conns fd').arrived.length)
        = ((w.accepted ++ w.backlog).erase fd).map fun fd' => (w.conns fd').arrived.length := by
    refine List.map_congr_left ?_
    intro fd' hfd'
    rw [conns_modify_ne]
    rintro rfl
    exact hgiven.nodup.not_mem_erase hfd'
  have hsum := List.sum_map_erase (fun fd' => (w.conns fd').arrived.length) hfd
  have hsum' := List.sum_map_erase (fun fd' => ((w.modify fd f).conns fd').arrived.length) hfd
  rw [conns_modify_self, hothers] at hsum'
  have hpending : (w.modify fd f).pending = (f (w.conns fd)).arrived.length
      + (((w.accepted ++ w.backlog).erase fd).map fun fd' => (w.conns fd').arrived.length).sum :=
    List.length_flatMap.trans hsum'.symm
  have hpending' : w.pending = (w.conns fd).arrived.length
      + (((w.accepted ++ w.backlog).erase fd).map fun fd' => (w.conns fd').arrived.length).sum :=
    List.length_flatMap.trans hsum.symm
  omega

@[simp] theorem backlog_modify : (w.modify fd f).backlog = w.backlog := rfl

theorem load_goOn (k : Nat) (rank : σ → Nat) (s : σ) :
    (w.goOn s).load k rank = k * (w.pending + w.backlog.length) + rank s := rfl

/-- A call that receives nothing. -/
theorem load_goOn_modify {k : Nat} {rank : σ → Nat} {s s' : σ} (hs : w.server = some s)
    (harrived : ∀ c, (f c).arrived = c.arrived) (hrank : rank s' < rank s) :
    ((w.modify fd f).goOn s').load k rank < w.load k rank := by
  have hpending : (w.modify fd f).pending = w.pending := pending_congr rfl (arrived_modify harrived)
  rw [load_goOn, hpending, backlog_modify, World.load, hs]
  exact Nat.add_lt_add_left hrank _

theorem Calls.load_lt {k : Nat} {rank : σ → Nat} (hgiven : Given w)
    (hrank : ∀ s, rank s < k) (hdescends : ∀ s, (code s).Descends rank (rank s))
    (hreads : ∀ s fd next, w.server = some s → code s = .recv fd next → fd ∈ w.accepted)
    (h : Calls code size w w') : w'.load k rank < w.load k rank := by
  obtain ⟨s, hs, hcall⟩ := h
  have hdesc := hdescends s
  have hreads := hreads s
  have hload : w.load k rank = k * (w.pending + w.backlog.length) + rank s := by
    rw [World.load, hs]
    rfl
  generalize hact : code s = act at hcall hdesc
  cases hcall with
  | @accept next fd rest hbacklog =>
      have hpending : World.pending { w with
          backlog := rest, accepted := w.accepted ++ [fd], server := some (next fd) } = w.pending := by
        refine pending_congr ?_ fun _ => rfl
        rw [hbacklog]
        exact List.append_assoc _ _ _
      have hnext := hrank (next fd)
      rw [hload, hbacklog, List.length_cons, ← Nat.add_assoc, Nat.mul_succ, World.load, hpending]
      show k * (w.pending + rest.length) + rank (next fd) < _
      omega
  | connect =>
      rw [hload]
      exact Nat.add_lt_add_left (hdesc _) _
  | @recv fd next bytes rest harrived hne _ =>
      have hmem := List.mem_append_left w.backlog (hreads fd next hs hact)
      have hfewer : _ + (w.conns fd).arrived.length = w.pending + rest.length :=
        pending_modify (f := fun c =>
          { c with received := c.received ++ bytes, arrived := rest }) hgiven hmem
      rw [harrived, List.length_append] at hfewer
      have hpos := List.length_pos_iff.mpr hne
      have hnext := hrank (next bytes)
      rw [load_goOn, hload, backlog_modify]
      generalize World.pending (w.modify fd _) = pending at hfewer ⊢
      have hmul : k * (pending + 1 + w.backlog.length) ≤ k * (w.pending + w.backlog.length) :=
        Nat.mul_le_mul_left k (by omega)
      rw [Nat.add_right_comm, Nat.mul_succ] at hmul
      omega
  | eof =>
      rw [hload, load_goOn]
      exact Nat.add_lt_add_left hdesc _
  | send => exact load_goOn_modify hs (fun _ => rfl) hdesc
  | close => exact load_goOn_modify hs (fun _ => rfl) hdesc
  | exit =>
      rw [hload]
      exact Nat.add_lt_add_left hdesc _

/-- **A server that receives from accepted connections only** comes to wait or to its end when
it is left alone, if the ranks of its states descend. -/
theorem Rests.of_descends {k : Nat} {rank : σ → Nat}
    (hrank : ∀ s, rank s < k) (hdescends : ∀ s, (code s).Descends rank (rank s)) (hI : I w)
    (hcall : ∀ w w', I w → Calls code size w w' → I w') (hgiven : ∀ w, I w → Given w)
    (hreads : ∀ w s fd next, I w → w.server = some s → code s = .recv fd next → fd ∈ w.accepted)
    (hstuck : ∀ w, I w → Stuck code size reads w → Q w) : Rests code size reads Q w := by
  refine .of_variant (World.load k rank) hI ?_ hstuck
  intro w w' hI hcalls
  exact ⟨hcall w w' hI hcalls, hcalls.load_lt (hgiven w hI) hrank hdescends (hreads w · · · hI)⟩

end

end Prog.Sockets

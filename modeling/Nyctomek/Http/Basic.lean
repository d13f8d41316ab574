/-
# `Http.Basic` — message framing in `http-prework/main.go`

The proxy follows a message through the packets in which it arrives: lines up to
an empty one, then as many bytes as a `Content-Length` line has announced.  What it
has to remember between two packets is a `State`.

    httpLine                 the line read so far (behind the header: the last packet)
    contentLength            what a header line has announced, 0 before
    receivedContentLength    how much of that has arrived
    receivedNullLine         whether the last complete line was the empty one

`parseContentLength` is `fmt.Sscanf`, which this model takes as a parameter.
-/
import Mathlib.Algebra.Ring.Int.Defs
import Nyctomek.Prog.GoSlice
import Nyctomek.Prog.Search

namespace Nyctomek.Http

open Prog

def CR : UInt8 := 13
def LF : UInt8 := 10

def CRLF_DELIMETER : Bytes := [CR, LF]

structure State where
  httpLine : Bytes
  contentLength : Int
  receivedContentLength : Int
  receivedNullLine : Bool
  deriving DecidableEq, Repr

/-- The values before the first packet. -/
def State.initial : State := ⟨[], 0, 0, false⟩

/-- The condition under which the bytes to come are content. -/
def State.streams (s : State) : Bool :=
  s.receivedNullLine && s.contentLength != 0
    && decide (s.receivedContentLength < s.contentLength)

/-- `receivedNullLine && (receivedContentLength == contentLength)`. -/
def State.done (s : State) : Bool :=
  s.receivedNullLine && s.receivedContentLength == s.contentLength

/-! ## One packet -/

section
variable (parseContentLength : Bytes → Int)

def processCompleteHTTPLine (httpLine : Bytes) (contentLength : Int) : Int × Bool :=
  let receivedNullLine := httpLine == CRLF_DELIMETER
  if contentLength = 0 then (parseContentLength httpLine, receivedNullLine)
  else (contentLength, receivedNullLine)

/-- A complete line taken into account, and the next one begun. -/
def State.complete (s : State) (httpLine : Bytes) : State :=
  let line := processCompleteHTTPLine parseContentLength httpLine s.contentLength
  ⟨[], line.1, s.receivedContentLength, line.2⟩

def streamInHTTPContent (packet : Bytes) (contentLength receivedContentLength : Int) :
    State × Bool :=
  let receivedContentLength := receivedContentLength + packet.length
  (⟨packet, contentLength, receivedContentLength, true⟩, contentLength == receivedContentLength)

/-- Where the bytes end that the loop takes from a packet. -/
def copyEndPos (packet : Bytes) : Nat :=
  match find CRLF_DELIMETER packet with
  | none => packet.length
  | some i => i + CRLF_DELIMETER.length

theorem copyEndPos_pos {packet : Bytes} (h : 0 < packet.length) : 0 < copyEndPos packet := by
  rw [copyEndPos]
  split
  · exact h
  · exact Nat.lt_of_lt_of_le (by decide : 0 < 2) (Nat.le_add_left 2 _)

/-- The loop `for len(packet) > 0`, and the return behind it. -/
def streamInLines (packet : Bytes) (s : State) : State × Bool :=
  if h : 0 < packet.length then
    have := copyEndPos_pos h
    let currentHttpLine := s.httpLine ++ packet.take (copyEndPos packet)
    let s' := if CRLF_DELIMETER <:+ currentHttpLine
      then s.complete parseContentLength currentHttpLine else { s with httpLine := currentHttpLine }
    if s'.streams then
      streamInHTTPContent (packet.drop (copyEndPos packet)) s'.contentLength s'.receivedContentLength
    else streamInLines (packet.drop (copyEndPos packet)) s'
  else (s, s.done)
termination_by packet.length
decreasing_by
  rw [List.length_drop]
  omega

theorem streamInLines_nil (s : State) : streamInLines parseContentLength [] s = (s, s.done) := by
  rw [streamInLines, dif_neg (by simp)]

/-- The turn of the loop that takes `taken` from a packet and leaves `rest`. -/
theorem streamInLines_turn {packet taken rest : Bytes} {s s' : State} (hpacket : packet ≠ [])
    (htaken : packet.take (copyEndPos packet) = taken)
    (hrest : packet.drop (copyEndPos packet) = rest)
    (hs' : (if CRLF_DELIMETER <:+ s.httpLine ++ taken
      then s.complete parseContentLength (s.httpLine ++ taken)
      else { s with httpLine := s.httpLine ++ taken }) = s') :
    streamInLines parseContentLength packet s
      = if s'.streams then streamInHTTPContent rest s'.contentLength s'.receivedContentLength
        else streamInLines parseContentLength rest s' := by
  subst htaken hrest hs'
  rw [streamInLines, dif_pos (List.length_pos_of_ne_nil hpacket)]

/-- `streamInHTTPMessage`: the state behind the packet and `done`.  In the special case
`contentLength` and `receivedNullLine` are new variables; the state that the loop goes on
from still has the old ones. -/
def streamInHTTPMessage (packet : Bytes) (s : State) : Except Panic (State × Bool) :=
  if s.streams then
    .ok (streamInHTTPContent packet s.contentLength s.receivedContentLength)
  else if s.httpLine.getLast? = some CR then do
    let first ← packet.index 0
    if first = LF then
      let s' := s.complete parseContentLength (s.httpLine ++ [first])
      if s'.streams then
        .ok (streamInHTTPContent (packet.drop 1) s'.contentLength s'.receivedContentLength)
      else .ok (streamInLines parseContentLength (packet.drop 1) { s with httpLine := [] })
    else .ok (streamInLines parseContentLength packet s)
  else .ok (streamInLines parseContentLength packet s)

/-- Packets fed one after the other, each from the state behind the last: the values of
`done`, and the state in the end. -/
def streamInPackets : List Bytes → State → Except Panic (List Bool × State)
  | [], s => .ok ([], s)
  | packet :: packets, s => do
      let r ← streamInHTTPMessage parseContentLength packet s
      let rest ← streamInPackets packets r.1
      .ok (r.2 :: rest.1, rest.2)

/-! ## The proxy -/

/-- The loop over the client's packets: what has been sent on, and the state in the end.
A receive without bytes, which is also what a closed connection gives, breaks it. -/
def requestLoop : List Bytes → State → Except Panic (List Bytes × State)
  | [], s => .ok ([], s)
  | message :: messages, s =>
      if message.length = 0 then .ok ([], s)
      else do
        let r ← streamInHTTPMessage parseContentLength message s
        if r.2 then .ok ([message], r.1)
        else do
          let rest ← requestLoop messages r.1
          .ok (message :: rest.1, rest.2)

/-- The loop over the server's packets: what has been sent on, with the value of `done`
behind it, and the state in the end; without a further packet it waits. -/
def responseLoop : List Bytes → State → Except Panic (List (Bytes × Bool) × State)
  | [], s => .ok ([], s)
  | message :: messages, s => do
      let r ← streamInHTTPMessage parseContentLength message s
      if r.2 then .ok ([(message, true)], r.1)
      else do
        let rest ← responseLoop messages r.1
        .ok ((message, false) :: rest.1, rest.2)

/-- What a client and a server have been sent. -/
structure Exchange where
  toServer : List Bytes
  toClient : List (Bytes × Bool)
  deriving DecidableEq, Repr

/-- The values of `done` in the response loop. -/
def Exchange.responseDone (e : Exchange) : List Bool := e.toClient.map Prod.snd

/-- `runHTTPProxyLoop` on the packets that a client and a server send. -/
def runHTTPProxyLoop (client server : List Bytes) : Except Panic Exchange := do
  let request ← requestLoop parseContentLength client State.initial
  let response ← responseLoop parseContentLength server request.2
  .ok ⟨request.1, response.1⟩

end

end Nyctomek.Http

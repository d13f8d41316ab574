/-
# `KvStore.Sessions` — one process of the store after another

`mainLoop` reads its lines from standard input until one of them is `quit()`; the only other way
out is `SIGINT`.  At the end of the input `std::getline` fails and leaves the line as it is, and
the loop goes on.

    rest of the input       what `getline` stores        the stream then
    `line` newline …        `line`                       good
    without a newline       all of it                    at its end
    at its end              nothing: the last line stays

What a process prints is that of a store that never stops (`Answered`), if the entries that its
predecessors have left in the file are taken back, and none of them has been interrupted while a
`set` wrote them.
-/
import Nyctomek.KvStore.Interrupt
import Nyctomek.Prog.Loop
import Nyctomek.Prog.Refinement

namespace Nyctomek.KvStore

open Prog

/-! ## Standard input -/

structure Stdin where
  rest : Bytes
  good : Bool
  deriving DecidableEq, Repr

/-- `std::getline(std::cin, input)`: the line, and the stream. -/
def Stdin.getline (cin : Stdin) (input : Bytes) : Bytes × Stdin :=
  let line := cin.rest.takeWhile (· != newline)
  if cin.good = false then (input, cin)
  else if line.length = cin.rest.length then (line, ⟨[], false⟩)
  else (line, ⟨cin.rest.drop (line.length + 1), true⟩)

/-- The lines of an input, the last one without a newline. -/
abbrev linesOf (contents : Bytes) : List Bytes := contents.splitOn newline

/-- The first line of an input, and the others. -/
theorem linesOf_cases (contents : Bytes) : (newline ∉ contents ∧ linesOf contents = [contents]) ∨
    ∃ line rest, contents = line ++ newline :: rest ∧ newline ∉ line ∧
      linesOf contents = line :: linesOf rest := by
  by_cases h : newline ∈ contents
  · obtain ⟨line, rest, rfl, hline⟩ := List.eq_append_cons_of_mem h
    exact .inr ⟨line, rest, rfl, hline, List.splitOn_append_cons_self_of_not_mem hline rest⟩
  · exact .inl ⟨h, List.splitOn_eq_singleton h⟩

theorem getline_line {line : Bytes} (h : newline ∉ line) (rest input : Bytes) :
    (⟨line ++ newline :: rest, true⟩ : Stdin).getline input = (line, ⟨rest, true⟩) := by
  have hlen : line.length ≠ (line ++ newline :: rest).length := by
    rw [List.length_append, List.length_cons]
    omega
  have hdrop : (line ++ newline :: rest).drop (line.length + 1) = rest := by
    rw [List.append_cons, List.drop_left' (by rw [List.length_append, List.length_singleton])]
  simp only [Stdin.getline, takeWhile_append_of_notMem h, Bool.true_eq_false, if_false, hlen, hdrop]

theorem getline_last {contents : Bytes} (h : newline ∉ contents) (input : Bytes) :
    (⟨contents, true⟩ : Stdin).getline input = (contents, ⟨[], false⟩) := by
  have hline : contents.takeWhile (· != newline) = contents := by
    rw [List.takeWhile_eq_self_iff]
    intro b hb
    rw [bne_iff_ne]
    rintro rfl
    exact h hb
  simp only [Stdin.getline, hline, Bool.true_eq_false, if_false, if_true]

theorem getline_end (rest input : Bytes) :
    (⟨rest, false⟩ : Stdin).getline input = (input, ⟨rest, false⟩) := by
  rw [Stdin.getline, if_pos rfl]

/-! ## The loop -/

/-- In which order a loop over a hash map meets the entries. -/
structure Order where
  entries : Map → Entries
  enumerates : ∀ (m : Map) (es : Entries), Enumerates es m → Enumerates (entries m) m

/-- `exit(0)`. -/
inductive Exit where
  | exit
  deriving DecidableEq, Repr

def prompt : Bytes := ascii "\n> "

def usage : Bytes :=
  ascii "Usage:\n\nGet value by key: get [key]\nSet value by key: set [key]=[value]\nQuit:quit()\n"

/-- What is printed behind a command. -/
def report (command : Command) (status : Bool) (value : Option Bytes) : Bytes :=
  match command.d_commandType with
  | .GET => ascii "\n" ++ (if status then ascii "'" ++ value.getD [] ++ ascii "'"
      else ascii "Key '" ++ command.d_key ++ ascii "' not found.") ++ ascii "\n"
  | .SET => []

/-- What is printed in a turn of the loop for a line of input, and what it leaves. -/
def respond (order : Order) (input : Bytes) (s : State) : Except Exit (Bytes × State) :=
  match handleInput input with
  | .exit => .error .exit
  | .invalid => .ok (ascii "\nInvalid input.\n\n" ++ usage, s)
  | .valid command =>
      let entries := order.entries (assign s.kvStore command.d_key command.d_value)
      let r := processCommand entries command s
      .ok (report command r.1.1 r.1.2, r.2)

/-- The values of the loop's variables, the text printed so far, and the number of turns. -/
structure Console where
  cin : Stdin
  input : Bytes
  store : State
  cout : Bytes
  turns : Nat

/-- A turn of the loop, the order in which it meets the entries being that of `orders`. -/
def turn (orders : Nat → Order) (c : Console) : Except Empty (Turn Console (Bytes × State)) :=
  let line := c.cin.getline c.input
  match respond (orders c.turns) line.1 c.store with
  | .error .exit => .ok (.stop (c.cout ++ prompt, c.store))
  | .ok (text, store) => .ok (.again ⟨line.2, line.1, store, c.cout ++ prompt ++ text, c.turns + 1⟩)

/-- What a process begins with. -/
def State.begin (dataFile : Option Bytes) : State := ⟨initializeFromDataStore dataFile, dataFile⟩

/-- `mainLoop`, with some contents of the data file and of standard input. -/
def mainLoop (orders : Nat → Order) (dataFile : Option Bytes) (contents : Bytes) (fuel : Nat) :
    Exec Empty (Bytes × State) :=
  loop (turn orders) fuel ⟨⟨contents, true⟩, [], .begin dataFile, [], 0⟩

/-- What is printed for some lines up to `quit()`, and what is left; `answer` is what there is to
be printed in a turn. -/
def talk {σ : Type} (answer : Nat → Bytes → σ → Except Exit (Bytes × σ)) :
    Nat → List Bytes → σ → Bytes × σ
  | _, [], s => (prompt, s)
  | turns, line :: lines, s =>
      match answer turns line s with
      | .error .exit => (prompt, s)
      | .ok (text, s') => (talk answer (turns + 1) lines s').map (prompt ++ text ++ ·) id

section
variable {σ : Type} {answer : Nat → Bytes → σ → Except Exit (Bytes × σ)} {turns : Nat}
  {line text : Bytes} {lines : List Bytes} {s s' : σ}

theorem talk_exit (h : answer turns line s = .error .exit) :
    talk answer turns (line :: lines) s = (prompt, s) := by
  rw [talk, h]

theorem talk_again (h : answer turns line s = .ok (text, s')) : talk answer turns (line :: lines) s
    = (talk answer (turns + 1) lines s').map (prompt ++ text ++ ·) id := by
  rw [talk, h]

end

/-- What the loop prints for some lines. -/
abbrev respondAll (orders : Nat → Order) : Nat → List Bytes → State → Bytes × State :=
  talk fun turns => respond (orders turns)

section
variable {orders : Nat → Order} {c : Console} {line text : Bytes} {cin : Stdin} {s s' : State}

theorem turn_exit (hline : c.cin.getline c.input = (line, cin))
    (h : respond (orders c.turns) line c.store = .error .exit) :
    turn orders c = .ok (.stop (c.cout ++ prompt, c.store)) := by
  simp only [turn, hline, h]

theorem turn_again (hline : c.cin.getline c.input = (line, cin))
    (h : respond (orders c.turns) line c.store = .ok (text, s)) :
    turn orders c
      = .ok (.again ⟨cin, line, s, c.cout ++ prompt ++ text, c.turns + 1⟩) := by
  simp only [turn, hline, h]

/-- `quit()`, and nothing else, is the end. -/
theorem respond_exit_iff (order : Order) (line : Bytes) (s : State) :
    respond order line s = .error .exit ↔ line = ascii "quit()" := by
  constructor
  · intro h
    by_contra hne
    unfold respond at h
    split at h
    · rename_i hinput
      exact handleInput_ne_exit hne hinput
    · cases h
    · cases h
  · rintro rfl
    have hinput : handleInput (ascii "quit()") = .exit := if_pos rfl
    rw [respond, hinput]

theorem respond_cases (order : Order) (line : Bytes) (s : State) :
    (line = ascii "quit()" ∧ respond order line s = .error .exit) ∨
      (line ≠ ascii "quit()" ∧ ∃ text s', respond order line s = .ok (text, s')) := by
  by_cases h : line = ascii "quit()"
  · exact .inl ⟨h, (respond_exit_iff order line s).mpr h⟩
  · refine .inr ⟨h, ?_⟩
    cases hr : respond order line s with
    | error e =>
        cases e
        exact absurd ((respond_exit_iff order line s).mp hr) h
    | ok r => exact ⟨r.1, r.2, rfl⟩

/-- **With** `quit()` in what is left of the input the loop ends, and has printed what there is
to be printed up to there. -/
theorem ends_of_quit (orders : Nat → Order) (contents input cout : Bytes) (turns : Nat) (s : State)
    (h : ascii "quit()" ∈ linesOf contents) :
    Ends (fun n => loop (turn orders) n ⟨⟨contents, true⟩, input, s, cout, turns⟩)
      (.ok ((respondAll orders turns (linesOf contents) s).map (cout ++ ·) id)) := by
  generalize hlines : linesOf contents = lines at h ⊢
  induction lines generalizing contents input cout turns s with
  | nil => exact absurd h List.not_mem_nil
  | cons line lines ih =>
      rcases linesOf_cases contents with ⟨hnewline, hone⟩ | ⟨line', rest, rfl, hnewline, hmore⟩
      · obtain ⟨rfl, rfl⟩ := List.cons.inj (hlines.symm.trans hone)
        have hexit := (respond_exit_iff (orders turns) line s).mpr (List.mem_singleton.mp h).symm
        rw [respondAll, talk_exit hexit]
        exact Ends.loop_stop (turn_exit (getline_last hnewline input) hexit)
      · obtain ⟨rfl, rfl⟩ := List.cons.inj (hlines.symm.trans hmore)
        have hline := getline_line hnewline rest input
        rcases respond_cases (orders turns) line s with ⟨-, hexit⟩ | ⟨hne, text, s', hok⟩
        · rw [respondAll, talk_exit hexit]
          exact Ends.loop_stop (turn_exit hline hexit)
        · have hrest := (List.mem_cons.mp h).resolve_left (Ne.symm hne)
          have hend := ih rest line (cout ++ prompt ++ text) (turns + 1) s' rfl hrest
          rw [respondAll, talk_again hok]
          have hsame : ((respondAll orders (turns + 1) (linesOf rest) s').map
              (prompt ++ text ++ ·) id).map (cout ++ ·) id
              = (respondAll orders (turns + 1) (linesOf rest) s').map
                (cout ++ prompt ++ text ++ ·) id := by
            simp only [Prod.map, List.append_assoc, id]
          rw [hsame]
          exact Ends.of_turns (.single (turn_again hline hok)) hend

/-- **Without** it every turn goes on, and at the end of the input the last line is answered over
and over. -/
theorem not_ends_of_quit {r : Except Empty (Bytes × State)} (contents input cout : Bytes)
    (turns : Nat) (s : State) (h : ascii "quit()" ∉ linesOf contents) :
    ¬ Ends (fun n => loop (turn orders) n ⟨⟨contents, true⟩, input, s, cout, turns⟩) r := by
  refine not_ends_of_again (I := fun c => (c.cin.good = true ∧ ascii "quit()" ∉ linesOf c.cin.rest) ∨
    (c.cin.good = false ∧ c.input ≠ ascii "quit()")) ?_ (.inl ⟨rfl, h⟩) r
  rintro ⟨⟨contents, good⟩, input, s, cout, turns⟩ (⟨hgood, hquit⟩ | ⟨hgood, hinput⟩)
  · obtain rfl : good = true := hgood
    rcases linesOf_cases contents with ⟨hnewline, hone⟩ | ⟨line, rest, rfl, hnewline, hmore⟩
    · have hne : contents ≠ ascii "quit()" := by
        rintro rfl
        exact hquit (hone ▸ List.mem_singleton_self _)
      obtain ⟨-, text, s', hok⟩ := (respond_cases (orders turns) contents s).resolve_left
        fun hexit => hne hexit.1
      exact ⟨_, turn_again (getline_last hnewline input) hok, .inr ⟨rfl, hne⟩⟩
    · rw [hmore, List.mem_cons, not_or] at hquit
      obtain ⟨-, text, s', hok⟩ := (respond_cases (orders turns) line s).resolve_left
        fun hexit => hquit.1 hexit.1.symm
      exact ⟨_, turn_again (getline_line hnewline rest input) hok, .inl ⟨rfl, hquit.2⟩⟩
  · obtain rfl : good = false := hgood
    obtain ⟨-, text, s', hok⟩ := (respond_cases (orders turns) input s).resolve_left
      fun hexit => hinput hexit.1
    exact ⟨_, turn_again (getline_end contents input) hok, .inr ⟨rfl, hinput⟩⟩

/-- **The end of a process**: `mainLoop` ends exactly if one of the lines of its input is
`quit()`, and has then printed the answers to those before. -/
theorem mainLoop_ends_iff (orders : Nat → Order) (dataFile : Option Bytes) (contents : Bytes)
    (r : Except Empty (Bytes × State)) : Ends (mainLoop orders dataFile contents) r ↔
      ascii "quit()" ∈ linesOf contents ∧
        r = .ok (respondAll orders 0 (linesOf contents) (.begin dataFile)) := by
  by_cases hquit : ascii "quit()" ∈ linesOf contents
  · have hend := ends_of_quit orders contents [] [] 0 (.begin dataFile) hquit
    constructor
    · exact fun h => ⟨hquit, h.unique hend⟩
    · rintro ⟨-, rfl⟩
      exact hend
  · exact ⟨fun h => absurd h (not_ends_of_quit contents [] [] 0 _ hquit),
      fun h => absurd h.1 hquit⟩

end

/-! ## A store that never stops -/

/-- What is printed for a line of input, and the map behind it. -/
def answer (input : Bytes) (m : Map) : Except Exit (Bytes × Map) :=
  match handleInput input with
  | .exit => .error .exit
  | .invalid => .ok (ascii "\nInvalid input.\n\n" ++ usage, m)
  | .valid command =>
      match command.d_commandType with
      | .GET => .ok (report command (m command.d_key).isSome (m command.d_key), m)
      | .SET => .ok ([], assign m command.d_key command.d_value)

abbrev answerAll : List Bytes → Map → Bytes × Map := talk (fun _ => answer) 0

/-- Between the commands the store has the map, and the data file its entries. -/
def Remembers (s : State) (m : Map) : Prop := Saved s ∧ s.kvStore = m

/-- **A line.** -/
theorem alike_answer (order : Order) {line : Bytes} {s : State} {m : Map} (h : Remembers s m)
    (hline : newline ∉ line) : Alike Remembers (respond order line s) (answer line m) := by
  obtain ⟨hsaved, rfl⟩ := h
  cases hinput : handleInput line with
  | exit =>
      rw [respond, answer, hinput]
      exact .error Exit.exit
  | invalid =>
      rw [respond, answer, hinput]
      exact .ok _ ⟨hsaved, rfl⟩
  | valid command =>
      obtain ⟨es, hes, -⟩ := hsaved.file
      have hentries := order.enumerates _ _ (hes.assign command.d_key command.d_value)
      have hinput' : handleInput (⟨line, hline⟩ : Line).bytes = .valid command := hinput
      have hnext := hsaved.processCommand hinput' fun _ => hentries
      rw [respond, answer, hinput]
      cases hcommand : command.d_commandType with
      | GET =>
          cases hvalue : s.kvStore command.d_key with
          | none =>
              simp only [processCommand, hcommand, hvalue]
              exact .ok _ ⟨hsaved, rfl⟩
          | some value =>
              simp only [processCommand, hcommand, hvalue]
              exact .ok _ ⟨hsaved, rfl⟩
      | SET =>
          rw [processCommand_set hcommand] at hnext
          simp only [processCommand, hcommand, report]
          exact .ok _ ⟨hnext, rfl⟩

/-- **A process.** -/
theorem talk_alike (orders : Nat → Order) (turns turns' : Nat) {lines : List Bytes} {s : State}
    {m : Map} (h : Remembers s m) (hlines : ∀ line ∈ lines, newline ∉ line) :
    (respondAll orders turns lines s).1 = (talk (fun _ => answer) turns' lines m).1 ∧
      Remembers (respondAll orders turns lines s).2 (talk (fun _ => answer) turns' lines m).2 := by
  induction lines generalizing turns turns' s m with
  | nil => exact ⟨rfl, h⟩
  | cons line lines ih =>
      obtain ⟨hline, hrest⟩ := List.forall_mem_cons.mp hlines
      have halike := alike_answer (orders turns) h hline
      generalize hs : respond (orders turns) line s = x at halike
      generalize hm : answer line m = y at halike
      cases halike with
      | error e =>
          cases e
          rw [respondAll, talk_exit hs, talk_exit hm]
          exact ⟨rfl, h⟩
      | ok text hnext =>
          obtain ⟨hsame, hmap⟩ := ih (turns + 1) (turns' + 1) hnext hrest
          rw [respondAll, talk_again hs, talk_again hm]
          exact ⟨congrArg (prompt ++ text ++ ·) hsame, hmap⟩

/-! ## The first turns -/

/-- The lines that `getline` stores in the first turns. -/
def storedLines : Nat → Stdin → Bytes → List Bytes
  | 0, _, _ => []
  | n + 1, cin, input =>
      let next := cin.getline input
      next.1 :: storedLines n next.2 next.1

theorem newline_notMem_getline {input : Bytes} (h : newline ∉ input) (cin : Stdin) :
    newline ∉ (cin.getline input).1 := by
  have hline : newline ∉ cin.rest.takeWhile (· != newline) := by
    intro hmem
    have := List.mem_takeWhile_imp hmem
    simp at this
  simp only [Stdin.getline]
  split
  · exact h
  · split
    · exact hline
    · exact hline

theorem notMem_of_mem_storedLines {n : Nat} {cin : Stdin} {input line : Bytes}
    (hinput : newline ∉ input) (h : line ∈ storedLines n cin input) : newline ∉ line := by
  induction n generalizing cin input with
  | zero => cases h
  | succ n ih =>
      rcases List.mem_cons.mp h with rfl | hrest
      · exact newline_notMem_getline hinput cin
      · exact ih (newline_notMem_getline hinput cin) hrest

section
variable {orders : Nat → Order} {c c' : Console} {n : Nat}

/-- A turn that is not the last. -/
theorem turn_eq_again (h : turn orders c = .ok (.again c')) : ∃ text s,
    respond (orders c.turns) (c.cin.getline c.input).1 c.store = .ok (text, s) ∧
      c' = ⟨(c.cin.getline c.input).2, (c.cin.getline c.input).1, s, c.cout ++ prompt ++ text,
        c.turns + 1⟩ := by
  rcases respond_cases (orders c.turns) (c.cin.getline c.input).1 c.store with
    ⟨-, hexit⟩ | ⟨-, text, s, hok⟩
  · rw [turn_exit rfl hexit] at h
    cases Except.ok.inj h
  · rw [turn_again rfl hok] at h
    exact ⟨text, s, hok, (Turn.again.inj (Except.ok.inj h)).symm⟩

theorem storedLines_after (h : after (turn orders) n c = .ok (.again c')) :
    storedLines (n + 1) c.cin c.input
      = storedLines n c.cin c.input ++ [(c'.cin.getline c'.input).1] := by
  induction n generalizing c with
  | zero =>
      obtain rfl := Turn.again.inj (Except.ok.inj h)
      rfl
  | succ n ih =>
      obtain ⟨c₁, hfirst, hrest⟩ := again_of_after h
      obtain ⟨text, s, -, rfl⟩ := turn_eq_again hfirst
      exact congrArg ((c.cin.getline c.input).1 :: ·) (ih hrest)

/-- What the first turns have printed stands before what is printed for further lines. -/
theorem respondAll_after (h : after (turn orders) n c = .ok (.again c')) :
    ∃ texts, c'.cout = c.cout ++ texts ∧ ∀ lines,
      respondAll orders c.turns (storedLines n c.cin c.input ++ lines) c.store
        = (respondAll orders c'.turns lines c'.store).map (texts ++ ·) id := by
  induction n generalizing c with
  | zero =>
      obtain rfl := Turn.again.inj (Except.ok.inj h)
      exact ⟨[], (List.append_nil _).symm, fun _ => rfl⟩
  | succ n ih =>
      obtain ⟨c₁, hfirst, hrest⟩ := again_of_after h
      obtain ⟨text, s, hok, rfl⟩ := turn_eq_again hfirst
      obtain ⟨texts, hcout, hlines⟩ := ih hrest
      refine ⟨prompt ++ text ++ texts, by simp only [hcout, List.append_assoc], ?_⟩
      intro lines
      refine (talk_again hok).trans
        ((congrArg (Prod.map (prompt ++ text ++ ·) id) (hlines lines)).trans ?_)
      simp only [Prod.map, List.append_assoc, id]

end

/-! ## One process after another -/

/-- How a process ends: by `quit()`, or by `SIGINT`, which comes after some turns and finds the
next one after some of the steps of its `set`. -/
inductive Ending where
  | quit
  | signal (turns steps : Nat)
  deriving DecidableEq, Repr

/-- The contents of standard input, and the end. -/
structure Session where
  contents : Bytes
  ending : Ending
  deriving DecidableEq, Repr

/-- What a turn leaves that does not come to its end. -/
def interruptedTurn (order : Order) (input : Bytes) (s : State) (steps : Nat) : State :=
  match handleInput input with
  | .valid ⟨.SET, k, v⟩ => interrupted s k v (order.entries (assign s.kvStore k v)) steps
  | _ => s

/-- What a turn prints if it comes to its end. -/
def shown {σ : Type} : Except Exit (Bytes × σ) → Bytes
  | .error .exit => prompt
  | .ok (text, _) => prompt ++ text

/-- Processes that are started one after the other, each with the data file that the last one has
left, and what they print.  They meet the maps' entries in any orders. -/
inductive Processes : Option Bytes → List Session → List Bytes → Prop
  | nil (dataFile : Option Bytes) : Processes dataFile [] []
  | quit {orders : Nat → Order} {dataFile : Option Bytes} {contents cout : Bytes} {s : State}
      {sessions : List Session} {couts : List Bytes} :
      Ends (mainLoop orders dataFile contents) (.ok (cout, s)) →
      Processes s.dataFile sessions couts →
      Processes dataFile (⟨contents, .quit⟩ :: sessions) (cout :: couts)
  | signal {orders : Nat → Order} {dataFile : Option Bytes} {contents part : Bytes} {c : Console}
      {turns steps : Nat} {sessions : List Session} {couts : List Bytes} :
      after (turn orders) turns ⟨⟨contents, true⟩, [], .begin dataFile, [], 0⟩ = .ok (.again c) →
      part <+: shown (respond (orders c.turns) (c.cin.getline c.input).1 c.store) →
      Processes (interruptedTurn (orders c.turns) (c.cin.getline c.input).1 c.store steps).dataFile
        sessions couts →
      Processes dataFile (⟨contents, .signal turns steps⟩ :: sessions) ((c.cout ++ part) :: couts)

/-! ### The same sessions with a store that never stops -/

/-- The lines of the first turns. -/
def Session.given (session : Session) (turns : Nat) : List Bytes :=
  storedLines turns ⟨session.contents, true⟩ []

/-- The lines behind which the data file is left: from the truncation on, that of the
interrupted turn is one of them. -/
def Session.lines (session : Session) : List Bytes :=
  match session.ending with
  | .quit => linesOf session.contents
  | .signal turns steps => session.given (if steps < 2 then turns else turns + 1)

def Session.memory (session : Session) (m : Map) : Map := (answerAll session.lines m).2

/-- What is printed in a session: everything, or everything of the turns before the `SIGINT` and
perhaps a part of the next. -/
def Session.Prints (session : Session) (m : Map) (cout : Bytes) : Prop :=
  match session.ending with
  | .quit => cout = (answerAll session.lines m).1
  | .signal turns _ => ∃ texts, (answerAll (session.given turns) m).1 = texts ++ prompt ∧
      texts <+: cout ∧ cout <+: (answerAll (session.given (turns + 1)) m).1

/-- The `SIGINT` comes when the data file has been truncated, and not all the lines of the map
have been written. -/
def Session.Torn (session : Session) (m : Map) : Prop :=
  match session.ending with
  | .quit => False
  | .signal turns steps => ∃ line k v entries,
      (session.given (turns + 1)).getLast? = some line ∧ handleInput line = .valid ⟨.SET, k, v⟩ ∧
      Enumerates entries (assign (answerAll (session.given turns) m).2 k v) ∧
      2 ≤ steps ∧ steps < entries.length + 2

/-- What a store prints in one session after the other. -/
inductive Answered : Map → List Session → List Bytes → Prop
  | nil (m : Map) : Answered m [] []
  | cons {m : Map} {session : Session} {cout : Bytes} {sessions : List Session}
      {couts : List Bytes} : session.Prints m cout → Answered (session.memory m) sessions couts →
      Answered m (session :: sessions) (cout :: couts)

/-- No session but the last ends while the entries are written, or with an entry that does not
fit. -/
inductive Kept : Map → List Session → Prop
  | nil (m : Map) : Kept m []
  | last (m : Map) (session : Session) : Kept m [session]
  | cons {m : Map} {session : Session} {sessions : List Session} : ¬ session.Torn m →
      (∀ k v, session.memory m k = some v → Fits k v) → Kept (session.memory m) sessions →
      Kept m (session :: sessions)

/-! ### What a process leaves -/

theorem notMem_of_mem_linesOf {contents line : Bytes} (h : line ∈ linesOf contents) :
    newline ∉ line := by
  generalize hlines : linesOf contents = lines at h
  induction lines generalizing contents with
  | nil => cases h
  | cons first lines ih =>
      rcases linesOf_cases contents with ⟨hnewline, hone⟩ | ⟨line', rest, rfl, hnewline, hmore⟩
      · obtain ⟨rfl, rfl⟩ := List.cons.inj (hlines.symm.trans hone)
        rwa [List.mem_singleton.mp h]
      · obtain ⟨rfl, rfl⟩ := List.cons.inj (hlines.symm.trans hmore)
        rcases List.mem_cons.mp h with rfl | hrest
        · exact hnewline
        · exact ih rfl hrest

/-- What a process starts with and what the last one has left. -/
theorem Saved.begin {s : State} (h : Saved s) (hfits : ∀ k v, s.kvStore k = some v → Fits k v) :
    Remembers (.begin s.dataFile) s.kvStore := by
  have hreload := h.reload_eq hfits
  refine ⟨⟨?_, ?_⟩, hreload⟩
  · rw [State.begin, hreload]
    exact h.legal
  · rw [State.begin, hreload]
    exact h.file

section
variable {orders : Nat → Order} {turns steps : Nat} {line : Bytes} {s : State}

/-- A `set` is interrupted, or the turn leaves the store as it is. -/
theorem interruptedTurn_cases (orders : Nat → Order) (turns steps : Nat) (line : Bytes)
    (s : State) : (∃ k v, handleInput line = .valid ⟨.SET, k, v⟩) ∨
      interruptedTurn (orders turns) line s steps = s ∧
        (respondAll orders turns [line] s).2 = s := by
  cases hinput : handleInput line with
  | exit =>
      have hexit : respond (orders turns) line s = .error .exit := by rw [respond, hinput]
      exact .inr ⟨by rw [interruptedTurn, hinput], congrArg Prod.snd (talk_exit hexit)⟩
  | invalid =>
      have hok : respond (orders turns) line s
          = .ok (ascii "\nInvalid input.\n\n" ++ usage, s) := by
        rw [respond, hinput]
      exact .inr ⟨by rw [interruptedTurn, hinput], congrArg Prod.snd (talk_again hok)⟩
  | valid command =>
      obtain ⟨commandType, k, v⟩ := command
      cases commandType with
      | SET => exact .inl ⟨k, v, rfl⟩
      | GET =>
          have hok : respond (orders turns) line s
              = .ok (report ⟨.GET, k, v⟩ (s.kvStore k).isSome (s.kvStore k), s) := by
            rw [respond, hinput]
            cases hvalue : s.kvStore k with
            | none => simp only [processCommand, hvalue, Option.isSome_none]
            | some value => simp only [processCommand, hvalue, Option.isSome_some]
          exact .inr ⟨by rw [interruptedTurn, hinput], congrArg Prod.snd (talk_again hok)⟩

/-- **An interrupted turn** leaves the data file of the turns before, or that of the whole turn, if
it does not come between the truncation and the last line. -/
theorem dataFile_interruptedTurn (hs : Saved s)
    (hwhole : ∀ k v entries, handleInput line = .valid ⟨.SET, k, v⟩ →
      Enumerates entries (assign s.kvStore k v) → 2 ≤ steps → entries.length + 2 ≤ steps) :
    (interruptedTurn (orders turns) line s steps).dataFile
      = (if steps < 2 then s else (respondAll orders turns [line] s).2).dataFile := by
  rcases interruptedTurn_cases orders turns steps line s with ⟨k, v, hinput⟩ | ⟨hleft, hturn⟩
  · obtain ⟨es, hes, -⟩ := hs.file
    have hentries := (orders turns).enumerates _ _ (hes.assign k v)
    have hok : respond (orders turns) line s = .ok ([], (processCommand
        ((orders turns).entries (assign s.kvStore k v)) ⟨.SET, k, v⟩ s).2) := by
      rw [respond, hinput]
      rfl
    have hturn : (respondAll orders turns [line] s).2 = (processCommand
        ((orders turns).entries (assign s.kvStore k v)) ⟨.SET, k, v⟩ s).2 :=
      congrArg Prod.snd (talk_again hok)
    simp only [interruptedTurn, hinput]
    by_cases hsteps : steps < 2
    · rw [if_pos hsteps, dataFile_interrupted_of_lt hsteps]
    · rw [if_neg hsteps, hturn,
        interrupted_of_written (hwhole k v _ hinput hentries (Nat.not_lt.mp hsteps))]
  · rw [hleft, hturn, ite_self]

end

theorem shown_talk {σ : Type} (answer : Nat → Bytes → σ → Except Exit (Bytes × σ)) (turns : Nat)
    (line : Bytes) (s : σ) : shown (answer turns line s) <+: (talk answer turns [line] s).1 := by
  cases h : answer turns line s with
  | error e =>
      cases e
      rw [talk_exit h]
      exact List.prefix_refl _
  | ok r =>
      have hok : answer turns line s = .ok (r.1, r.2) := h
      rw [talk_again hok]
      exact List.prefix_append _ _

/-- What a process prints that is ended by `SIGINT`, and what it leaves. -/
theorem remembers_signal {orders : Nat → Order} {dataFile : Option Bytes} {contents part : Bytes}
    {c : Console} {turns steps : Nat} {m : Map}
    (hafter : after (turn orders) turns ⟨⟨contents, true⟩, [], .begin dataFile, [], 0⟩
      = .ok (.again c))
    (hpart : part <+: shown (respond (orders c.turns) (c.cin.getline c.input).1 c.store))
    (hbegin : Remembers (.begin dataFile) m) :
    let session : Session := ⟨contents, .signal turns steps⟩
    session.Prints m (c.cout ++ part) ∧ (¬ session.Torn m → ∃ s,
      (interruptedTurn (orders c.turns) (c.cin.getline c.input).1 c.store steps).dataFile
        = s.dataFile ∧ Remembers s (session.memory m)) := by
  intro session
  obtain ⟨texts, hcout, hlines⟩ := respondAll_after hafter
  have hnext := storedLines_after hafter
  have hgiven : ∀ n, ∀ line ∈ session.given n, newline ∉ line :=
    fun n line => notMem_of_mem_storedLines List.not_mem_nil
  obtain ⟨hsame, hstore⟩ := talk_alike orders 0 0 hbegin (hgiven turns)
  obtain ⟨hsame', hstore'⟩ := talk_alike orders 0 0 hbegin (hgiven (turns + 1))
  have hdone : respondAll orders 0 (session.given turns) (.begin dataFile)
      = (texts ++ prompt, c.store) := by
    have h := hlines []
    rwa [List.append_nil] at h
  have hturn : respondAll orders 0 (session.given (turns + 1)) (.begin dataFile)
      = (respondAll orders c.turns [(c.cin.getline c.input).1] c.store).map (texts ++ ·) id := by
    rw [Session.given, hnext]
    exact hlines _
  rw [hdone] at hsame hstore
  rw [hturn] at hsame' hstore'
  refine ⟨⟨texts, hsame.symm, ?_, ?_⟩, fun hwhole => ?_⟩
  · rw [hcout, List.nil_append]
    exact List.prefix_append _ _
  · rw [← hsame', hcout, List.nil_append]
    have hshown := shown_talk (fun turns => respond (orders turns)) c.turns
      (c.cin.getline c.input).1 c.store
    exact (List.prefix_append_right_inj texts).mpr (hpart.trans hshown)
  · refine ⟨_, dataFile_interruptedTurn hstore.1 ?_, ?_⟩
    · intro k v entries hinput hentries hsteps
      by_contra hlt
      rw [hstore.2] at hentries
      refine hwhole ⟨_, k, v, entries, ?_, hinput, hentries, hsteps, Nat.not_le.mp hlt⟩
      rw [Session.given, hnext, List.getLast?_concat]
    · have hmemory : session.memory m
          = (answerAll (session.given (if steps < 2 then turns else turns + 1)) m).2 := rfl
      rw [hmemory]
      by_cases hsteps : steps < 2
      · rw [if_pos hsteps, if_pos hsteps]
        exact hstore
      · rw [if_neg hsteps, if_neg hsteps]
        exact hstore'

/-- The same with `quit()`. -/
theorem remembers_quit {orders : Nat → Order} {dataFile : Option Bytes} {contents cout : Bytes}
    {s : State} {m : Map} (hend : Ends (mainLoop orders dataFile contents) (.ok (cout, s)))
    (hbegin : Remembers (.begin dataFile) m) :
    let session : Session := ⟨contents, .quit⟩
    session.Prints m cout ∧ Remembers s (session.memory m) := by
  intro session
  obtain ⟨hsame, hstore⟩ := talk_alike orders 0 0 hbegin fun _ => notMem_of_mem_linesOf
  rw [← Except.ok.inj ((mainLoop_ends_iff orders dataFile contents _).mp hend).2] at hsame hstore
  exact ⟨hsame, hstore⟩

/-- From one process to the next. -/
theorem Processes.answered {dataFile : Option Bytes} {m : Map} {sessions : List Session}
    {couts : List Bytes} (h : Processes dataFile sessions couts)
    (hbegin : Remembers (.begin dataFile) m) (hkept : Kept m sessions) :
    Answered m sessions couts := by
  induction h generalizing m with
  | nil dataFile => exact .nil m
  | quit hend hrest ih =>
      obtain ⟨hprints, hsaved, hmap⟩ := remembers_quit hend hbegin
      refine .cons hprints ?_
      cases hkept with
      | last =>
          cases hrest
          exact .nil _
      | cons _ hfits hkept =>
          refine ih ?_ hkept
          rw [← hmap] at hfits ⊢
          exact hsaved.begin hfits
  | signal hafter hpart hrest ih =>
      obtain ⟨hprints, hleft⟩ := remembers_signal hafter hpart hbegin
      refine .cons hprints ?_
      cases hkept with
      | last =>
          cases hrest
          exact .nil _
      | cons hwhole hfits hkept =>
          obtain ⟨s, hfile, hsaved, hmap⟩ := hleft hwhole
          refine ih ?_ hkept
          rw [← hmap] at hfits ⊢
          rw [hfile]
          exact hsaved.begin hfits

/-- **Persistence**: the processes print what a store would that never stops, whatever orders
the entries come in and however each of the processes ends, if none is torn and the entries of the
maps at their ends fit. -/
theorem processes_persistent {sessions : List Session} {couts : List Bytes}
    (h : Processes none sessions couts) (hkept : Kept (fun _ => none) sessions) :
    Answered (fun _ => none) sessions couts :=
  h.answered ⟨saved_start, rfl⟩ hkept

/-! ### Two processes -/

theorem nonempty_order : Nonempty Order := by
  classical
  refine ⟨⟨fun m => if h : ∃ es, Enumerates es m then h.choose else [], ?_⟩⟩
  intro m es hes
  have h : ∃ es, Enumerates es m := ⟨es, hes⟩
  rw [dif_pos h]
  exact h.choose_spec

/-- The loop goes on as long as there is no `quit()`. -/
theorem exists_after (orders : Nat → Order) (n : Nat) (c : Console)
    (h : ascii "quit()" ∉ storedLines n c.cin c.input) :
    ∃ c', after (turn orders) n c = .ok (.again c') := by
  induction n generalizing c with
  | zero => exact ⟨c, rfl⟩
  | succ n ih =>
      obtain ⟨hline, hrest⟩ := not_or.mp (h ∘ List.mem_cons.mpr)
      obtain ⟨-, text, s, hok⟩ := (respond_cases (orders c.turns) (c.cin.getline c.input).1
        c.store).resolve_left fun hexit => hline hexit.1.symm
      rw [after, turn_again rfl hok]
      exact ih _ hrest

/-- The input lets the process come to where it ends. -/
def Session.Possible (session : Session) : Prop :=
  match session.ending with
  | .quit => ascii "quit()" ∈ session.lines
  | .signal turns _ => ascii "quit()" ∉ session.given turns

theorem exists_processes (dataFile : Option Bytes) (sessions : List Session)
    (h : ∀ session ∈ sessions, session.Possible) : ∃ couts, Processes dataFile sessions couts := by
  obtain ⟨order⟩ := nonempty_order
  induction sessions generalizing dataFile with
  | nil => exact ⟨[], .nil dataFile⟩
  | cons session sessions ih =>
      obtain ⟨hpossible, hrest⟩ := List.forall_mem_cons.mp h
      obtain ⟨contents, ending⟩ := session
      cases ending with
      | quit =>
          have hend := (mainLoop_ends_iff (fun _ => order) dataFile contents _).mpr ⟨hpossible, rfl⟩
          obtain ⟨couts, hcouts⟩ := ih _ hrest
          exact ⟨_, .quit hend hcouts⟩
      | signal turns steps =>
          obtain ⟨c, hafter⟩ := exists_after (fun _ => order) turns
            ⟨⟨contents, true⟩, [], .begin dataFile, [], 0⟩ hpossible
          obtain ⟨couts, hcouts⟩ := ih _ hrest
          exact ⟨_, .signal hafter List.nil_prefix hcouts⟩

/-- `SIGINT` comes before the second `set` truncates the file. -/
def setTwo : Session := ⟨ascii "set a=1\nset b=2\n", .signal 1 1⟩
def getOne : Session := ⟨ascii "get a\nquit()\n", .quit⟩

theorem memory_setTwo :
    setTwo.memory (fun _ => none) = assign (fun _ => none) (ascii "a") (ascii "1") := by
  have hlines : setTwo.lines = [ascii "set a=1"] := by decide
  have hset : handleInput (ascii "set a=1") = .valid ⟨.SET, ascii "a", ascii "1"⟩ := by decide
  have hanswer : answer (ascii "set a=1") (fun _ => none)
      = .ok ([], assign (fun _ => none) (ascii "a") (ascii "1")) := by
    rw [answer, hset]
  rw [Session.memory, hlines]
  exact congrArg Prod.snd (talk_again hanswer)

theorem kept_two : Kept (fun _ => none) [setTwo, getOne] := by
  refine .cons ?_ ?_ (.last _ _)
  · rintro ⟨line, k, v, entries, -, -, -, hsteps, -⟩
    omega
  · intro k v hkv
    rw [memory_setTwo] at hkv
    have hmem : (k, v) ∈ [(ascii "a", ascii "1")] := mem_of_ofEntries hkv
    obtain ⟨rfl, rfl⟩ := Prod.mk.inj (List.mem_singleton.mp hmem)
    exact ⟨by decide, by decide, by decide⟩

theorem processes_persistent_two : ∃ couts, Processes none [setTwo, getOne] couts ∧
    Answered (fun _ => none) [setTwo, getOne] couts := by
  have hset : setTwo.Possible := show ascii "quit()" ∉ setTwo.given 1 by decide
  have hget : getOne.Possible := show ascii "quit()" ∈ getOne.lines by decide
  obtain ⟨couts, h⟩ := exists_processes none [setTwo, getOne] (by simp [hset, hget])
  exact ⟨couts, h, processes_persistent h kept_two⟩

end Nyctomek.KvStore

/-
# `KvStore.Reload` — what a new process reads back

The writer puts any bytes into a line that the input filter lets through; the reader
takes back a line that is short and has no NUL.  One that is too long ends the
reading, and with it goes every line behind it.

    Fits k v      |k| + |v| + 1 < 1024, and no NUL in either
-/
import Mathlib.Data.List.TakeWhile
import Nyctomek.KvStore.Grammar

namespace Nyctomek.KvStore

open Prog

variable {k v rest : Bytes} {entries : Entries} {m : Map} {s s' : State} {line : Line}
  {lines : List Line}

/-! ## One line -/

/-- The line without its newline. -/
def content (kv : Bytes × Bytes) : Bytes := kv.1 ++ comma :: kv.2

/-- The line goes into the buffer. -/
def Short (kv : Bytes × Bytes) : Prop := kv.1.length + kv.2.length ≤ MAX_LINE_LENGTH - 2

instance (kv : Bytes × Bytes) : Decidable (Short kv) :=
  inferInstanceAs (Decidable (_ ≤ _))

/-- The entry is taken back. -/
structure Fits (k v : Bytes) : Prop where
  short : Short (k, v)
  key : nul ∉ k
  value : nul ∉ v

theorem newline_notMem_content {kv : Bytes × Bytes} (hk : newline ∉ kv.1) (hv : newline ∉ kv.2) :
    newline ∉ content kv := by
  simp only [content, List.mem_append, List.mem_cons, not_or]
  exact ⟨hk, by decide, hv⟩

theorem takeWhile_append_of_notMem {c : UInt8} {line : Bytes} (h : c ∉ line) (rest : Bytes) :
    (line ++ c :: rest).takeWhile (· != c) = line := by
  rw [List.takeWhile_append_of_pos, List.takeWhile_cons_of_neg (by simp), List.append_nil]
  intro b hb
  simp only [bne_iff_ne]
  rintro rfl
  exact h hb

/-- What `getline` finds where a record begins. -/
theorem getline_record {kv : Bytes × Bytes} (hk : newline ∉ kv.1) (hv : newline ∉ kv.2) :
    getline (record kv ++ rest)
      = if MAX_LINE_LENGTH ≤ (content kv).length then none else some (content kv, rest) := by
  have hrecord : record kv ++ rest = content kv ++ newline :: rest := by
    simp [record, content]
  have hline := takeWhile_append_of_notMem (newline_notMem_content hk hv) rest
  have hne : content kv ++ newline :: rest ≠ [] := by simp
  simp only [getline, hrecord, hline, hne, false_or]
  congr
  simp

theorem length_content (kv : Bytes × Bytes) :
    (content kv).length = kv.1.length + kv.2.length + 1 := by
  simp only [content, List.length_append, List.length_cons]
  omega

theorem getline_of_short {kv : Bytes × Bytes} (hk : newline ∉ kv.1) (hv : newline ∉ kv.2)
    (h : Short kv) : getline (record kv ++ rest) = some (content kv, rest) := by
  simp only [Short, MAX_LINE_LENGTH] at h
  rw [getline_record hk hv, if_neg]
  rw [length_content, MAX_LINE_LENGTH]
  omega

theorem getline_of_not_short {kv : Bytes × Bytes} (hk : newline ∉ kv.1) (hv : newline ∉ kv.2)
    (h : ¬ Short kv) : getline (record kv ++ rest) = none := by
  simp only [Short, MAX_LINE_LENGTH] at h
  rw [getline_record hk hv, if_pos]
  rw [length_content, MAX_LINE_LENGTH]
  omega

/-- Without a NUL the line is taken apart as it was put together. -/
theorem parse_content (hcomma : comma ∉ k) (hk : nul ∉ k) (hv : nul ∉ v) :
    parse (cString (content (k, v))) = (k, v) := by
  have hnul : nul ∉ content (k, v) := by
    simp only [content, List.mem_append, List.mem_cons, not_or]
    exact ⟨hk, by decide, hv⟩
  have hstring : cString (content (k, v)) = content (k, v) := by
    rw [cString, List.takeWhile_eq_self_iff]
    intro b hb
    simp only [bne_iff_ne]
    rintro rfl
    exact hnul hb
  rw [hstring, parse, content, findIdx?_append_cons hcomma]
  simp

/-- A C string has no NUL in it, and neither have its key and value. -/
theorem nul_notMem_parse (line : Bytes) :
    nul ∉ (parse (cString line)).1 ∧ nul ∉ (parse (cString line)).2 := by
  have hstring : nul ∉ cString line := by
    intro hmem
    have := List.mem_takeWhile_imp hmem
    simp at this
  unfold parse
  split
  · exact ⟨fun h => hstring (List.mem_of_mem_take h), fun h => hstring (List.mem_of_mem_drop h)⟩
  · exact ⟨hstring, hstring⟩

/-! ## The whole file -/

/-- Entries that stay within their lines. -/
def OneLine (entries : Entries) : Prop := ∀ kv ∈ entries, newline ∉ kv.1 ∧ newline ∉ kv.2

/-- **What is read** are the lines up to the first that is too long. -/
theorem readLines_fileOf (h : OneLine entries) : readLines m (fileOf entries)
    = assignAll m ((entries.takeWhile fun kv => Short kv).map fun kv => parse (cString (content kv))) := by
  induction entries generalizing m with
  | nil => exact readLines_of_none rfl
  | cons kv entries ih =>
      obtain ⟨hk, hv⟩ := h kv (by simp)
      by_cases hshort : Short kv
      · have hline : getline (fileOf (kv :: entries)) = some (content kv, fileOf entries) :=
          getline_of_short hk hv hshort
        rw [readLines_of_some hline, ih fun e he => h e (List.mem_cons_of_mem _ he),
          List.takeWhile_cons_of_pos (by simpa using hshort)]
        rfl
      · have hline : getline (fileOf (kv :: entries)) = none := getline_of_not_short hk hv hshort
        rw [readLines_of_none hline, List.takeWhile_cons_of_neg (by simpa using hshort)]
        rfl

/-- All lines that fit are taken back. -/
theorem readLines_of_fits (h : OneLine entries) (hcomma : ∀ kv ∈ entries, comma ∉ kv.1)
    (hfits : ∀ kv ∈ entries, Fits kv.1 kv.2) : readLines m (fileOf entries) = assignAll m entries := by
  have hshort : entries.takeWhile (fun kv => Short kv) = entries := by
    rw [List.takeWhile_eq_self_iff]
    intro kv hkv
    exact decide_eq_true (hfits kv hkv).short
  have hparse : entries.map (fun kv => parse (cString (content kv))) = entries := by
    refine (List.map_congr_left ?_).trans (List.map_id entries)
    intro kv hkv
    exact parse_content (hcomma kv hkv) (hfits kv hkv).key (hfits kv hkv).value
  rw [readLines_fileOf h, hshort, hparse]

/-! ## Runs -/

/-- What the input filter leaves of a key and a value. -/
structure Legal (k v : Bytes) : Prop where
  comma : comma ∉ k
  key : newline ∉ k
  value : newline ∉ v

/-- What is accepted goes into one line of the file, the key before the first comma. -/
theorem legal_of_handleInput {command : Command} (h : handleInput line.bytes = .valid command) :
    Legal command.d_key command.d_value := by
  have hline := line.noNewline
  have hcommand := isCommand_of_handleInput h
  generalize line.bytes = input at hline hcommand
  cases hcommand with
  | get hkey =>
      rw [List.mem_append, not_or] at hline
      exact ⟨hkey.2.2, hline.2, List.not_mem_nil⟩
  | set hkey hvalue =>
      simp only [List.mem_append, List.mem_cons, not_or] at hline
      exact ⟨hkey.2.2, hline.1.2, hline.2.2⟩

/-- The accepted `set` commands of the lines up to `quit()`. -/
def assignments : List Line → Entries
  | [] => []
  | line :: lines =>
      match handleInput line.bytes with
      | .exit => []
      | .invalid => assignments lines
      | .valid command =>
          if command.d_commandType = .SET then (command.d_key, command.d_value) :: assignments lines
          else assignments lines

/-- What holds between the commands: the data file has the entries of the map, and
each of them is one line. -/
structure Saved (s : State) : Prop where
  legal : ∀ k v, s.kvStore k = some v → Legal k v
  file : ∃ entries, Enumerates entries s.kvStore ∧
    (s.dataFile = some (fileOf entries) ∨ s.dataFile = none ∧ entries = [])

theorem saved_start : Saved start where
  legal := by
    intro k v h
    cases h
  file := ⟨[], ⟨by simp, by simp [start]⟩, .inr ⟨rfl, rfl⟩⟩

theorem processCommand_get {command : Command} (h : command.d_commandType = .GET) :
    (processCommand entries command s).2 = s := by
  simp only [processCommand, h]
  cases s.kvStore command.d_key <;> rfl

theorem processCommand_set {command : Command} (h : command.d_commandType = .SET) :
    (processCommand entries command s).2
      = ⟨assign s.kvStore command.d_key command.d_value, some (fileOf entries)⟩ := by
  simp only [processCommand, h]

theorem legal_assign (hs : ∀ k v, s.kvStore k = some v → Legal k v) (hlegal : Legal k v) :
    ∀ k' v', assign s.kvStore k v k' = some v' → Legal k' v' := by
  intro k' v' h
  by_cases hk : k' = k
  · subst hk
    rw [assign_self] at h
    obtain rfl := Option.some.inj h
    exact hlegal
  · rw [assign_of_ne hk] at h
    exact hs k' v' h

theorem Saved.processCommand {command : Command} (hs : Saved s)
    (hinput : handleInput line.bytes = .valid command)
    (hentries : command.d_commandType = .SET →
      Enumerates entries (assign s.kvStore command.d_key command.d_value)) :
    Saved (processCommand entries command s).2 := by
  cases hcommand : command.d_commandType with
  | GET =>
      rw [processCommand_get hcommand]
      exact hs
  | SET =>
      rw [processCommand_set hcommand]
      exact ⟨legal_assign hs.legal (legal_of_handleInput hinput),
        entries, hentries hcommand, .inl rfl⟩

/-- **Every run** leaves the file of the map, and the map of the accepted commands. -/
theorem Runs.saved (hrun : Runs s lines s') (hs : Saved s) :
    Saved s' ∧ s'.kvStore = assignAll s.kvStore (assignments lines) := by
  induction hrun with
  | done s => exact ⟨hs, rfl⟩
  | exit hinput => exact ⟨hs, by simp [assignments, hinput, assignAll]⟩
  | invalid hinput _ ih =>
      obtain ⟨hsaved, hmap⟩ := ih hs
      exact ⟨hsaved, by rw [hmap]; simp [assignments, hinput]⟩
  | @command s s' line lines command entries hinput hentries _ ih =>
      obtain ⟨hsaved, hmap⟩ := ih (hs.processCommand hinput hentries)
      refine ⟨hsaved, ?_⟩
      rw [hmap, assignments, hinput]
      cases hcommand : command.d_commandType with
      | GET => simp [processCommand_get hcommand, hcommand]
      | SET => simp [processCommand_set hcommand, hcommand, assignAll]

/-! ## The round trip -/

theorem Saved.reload (hs : Saved s) :
    ∃ entries, Enumerates entries s.kvStore ∧ OneLine entries ∧ (∀ kv ∈ entries, comma ∉ kv.1) ∧
      initializeFromDataStore s.dataFile = readLines (fun _ => none) (fileOf entries) := by
  obtain ⟨entries, hentries, hfile⟩ := hs.file
  have hlegal : ∀ kv ∈ entries, Legal kv.1 kv.2 :=
    fun kv hkv => hs.legal kv.1 kv.2 ((hentries.mem kv.1 kv.2).mp hkv)
  refine ⟨entries, hentries, fun kv hkv => ⟨(hlegal kv hkv).key, (hlegal kv hkv).value⟩,
    fun kv hkv => (hlegal kv hkv).comma, ?_⟩
  rcases hfile with hfile | ⟨hfile, rfl⟩
  · rw [hfile]
    rfl
  · rw [hfile]
    exact (readLines_of_none rfl).symm

theorem Saved.reload_eq (hs : Saved s) (hfits : ∀ k v, s.kvStore k = some v → Fits k v) :
    initializeFromDataStore s.dataFile = s.kvStore := by
  obtain ⟨entries, hentries, hline, hcomma, hread⟩ := hs.reload
  rw [hread, readLines_of_fits hline hcomma]
  · exact hentries.ofEntries_eq
  · exact fun kv hkv => hfits kv.1 kv.2 ((hentries.mem kv.1 kv.2).mp hkv)

/-- An entry that is taken back fits. -/
theorem Saved.fits_of_reload (hs : Saved s) (h : initializeFromDataStore s.dataFile = s.kvStore) :
    ∀ k v, s.kvStore k = some v → Fits k v := by
  obtain ⟨entries, hentries, hline, hcomma, hread⟩ := hs.reload
  rw [hread, readLines_fileOf hline] at h
  -- every entry of the map has come through the buffer as some line
  have hcame : ∀ k v, s.kvStore k = some v →
      ∃ kv ∈ entries, Short kv ∧ parse (cString (content kv)) = (k, v) := by
    intro k v hkv
    rw [← h] at hkv
    obtain ⟨kv, hmem, hparse⟩ := List.mem_map.mp (mem_of_ofEntries hkv)
    have hshort := List.mem_takeWhile_imp hmem
    exact ⟨kv, (List.takeWhile_sublist _).subset hmem, of_decide_eq_true hshort, hparse⟩
  have hnul : ∀ k v, s.kvStore k = some v → nul ∉ k ∧ nul ∉ v := by
    intro k v hkv
    obtain ⟨kv, -, -, hparse⟩ := hcame k v hkv
    have hparts := nul_notMem_parse (content kv)
    rwa [hparse] at hparts
  intro k v hkv
  obtain ⟨⟨k', v'⟩, hmem, hshort, hparse⟩ := hcame k v hkv
  obtain ⟨hk', hv'⟩ := hnul k' v' ((hentries.mem k' v').mp hmem)
  rw [parse_content (hcomma _ hmem) hk' hv'] at hparse
  obtain ⟨rfl, rfl⟩ := Prod.mk.inj hparse
  exact ⟨hshort, hk', hv'⟩

/-- **What comes back.**  A new process has the map that the accepted commands made exactly
if each of its entries fits. -/
theorem reload_iff (hrun : Runs start lines s) :
    initializeFromDataStore s.dataFile = s.kvStore ↔
      ∀ k v, ofEntries (assignments lines) k = some v → Fits k v := by
  obtain ⟨hsaved, hmap⟩ := hrun.saved saved_start
  have hmap' : s.kvStore = ofEntries (assignments lines) := hmap
  rw [← hmap']
  exact ⟨hsaved.fits_of_reload, hsaved.reload_eq⟩

/-! ### Lines with a `set` -/

/-- What the input filter lets through. -/
structure Acceptable (k v : Bytes) : Prop where
  key : containsIllegalChars k = false
  value : containsIllegalChars v = false
  noNewline : newline ∉ k ∧ newline ∉ v

/-- `set k=v`. -/
def setLine (k v : Bytes) (h : Acceptable k v) : Line where
  bytes := ascii "set " ++ k ++ equals :: v
  noNewline := by
    have hset : newline ∉ ascii "set " := by decide
    have hequals : newline ≠ equals := by decide
    simp [hset, hequals, h.noNewline]

theorem handleInput_setLine (h : Acceptable k v) :
    handleInput (setLine k v h).bytes = .valid ⟨.SET, k, v⟩ :=
  handleInput_set (containsIllegalChars_iff.mp h.key) (containsIllegalChars_iff.mp h.value)

theorem assignments_setLine (h : Acceptable k v) :
    assignments (setLine k v h :: lines) = (k, v) :: assignments lines := by
  simp [assignments, handleInput_setLine h]

/-- A run that begins with a `set`. -/
theorem Runs.setLine (h : Acceptable k v) (hentries : Enumerates entries (assign s.kvStore k v))
    (hrest : Runs ⟨assign s.kvStore k v, some (fileOf entries)⟩ lines s') :
    Runs s (setLine k v h :: lines) s' :=
  .command (handleInput_setLine h) (fun _ => hentries) hrest

theorem runs_setLine (h : Acceptable k v) : Runs start [setLine k v h]
    ⟨assign (fun _ => none) k v, some (fileOf [(k, v)])⟩ := by
  have hsingle : Enumerates [(k, v)] (ofEntries [(k, v)]) := enumerates_ofEntries (by simp)
  exact .setLine h hsingle (.done _)

/-- `set a=1`, `set b=2` and `set a=3`: the second value of `a` is read back, and the entries in
another order. -/
theorem reload_iff_three : initializeFromDataStore (some (ascii "b,2\na,3\n"))
    = assign (ofEntries [(ascii "a", ascii "1"), (ascii "b", ascii "2")]) (ascii "a") (ascii "3") := by
  have ha : Acceptable (ascii "a") (ascii "1") := ⟨by decide, by decide, by decide⟩
  have hb : Acceptable (ascii "b") (ascii "2") := ⟨by decide, by decide, by decide⟩
  have ha' : Acceptable (ascii "a") (ascii "3") := ⟨by decide, by decide, by decide⟩
  have htwo : Enumerates [(ascii "a", ascii "1"), (ascii "b", ascii "2")]
      (ofEntries [(ascii "a", ascii "1"), (ascii "b", ascii "2")]) :=
    enumerates_ofEntries (by decide)
  have hthree : Enumerates [(ascii "b", ascii "2"), (ascii "a", ascii "3")]
      (assign (ofEntries [(ascii "a", ascii "1"), (ascii "b", ascii "2")]) (ascii "a") (ascii "3")) :=
    htwo.assign (ascii "a") (ascii "3")
  have hone : Enumerates [(ascii "a", ascii "1")] (ofEntries [(ascii "a", ascii "1")]) :=
    enumerates_ofEntries (by decide)
  refine (reload_iff (.setLine ha hone (.setLine hb htwo (.setLine ha' hthree (.done _))))).mpr ?_
  intro k v hkv
  rw [assignments_setLine, assignments_setLine, assignments_setLine] at hkv
  have hmem : (k, v) ∈ [(ascii "a", ascii "1"), (ascii "b", ascii "2"), (ascii "a", ascii "3")] :=
    mem_of_ofEntries hkv
  have hfits : ∀ kv ∈ [(ascii "a", ascii "1"), (ascii "b", ascii "2"), (ascii "a", ascii "3")],
      Fits kv.1 kv.2 := by
    have hone : Fits (ascii "a") (ascii "1") := ⟨by decide, by decide, by decide⟩
    have htwo : Fits (ascii "b") (ascii "2") := ⟨by decide, by decide, by decide⟩
    have hthree : Fits (ascii "a") (ascii "3") := ⟨by decide, by decide, by decide⟩
    simp [hone, htwo, hthree]
  exact hfits (k, v) hmem

/-- A single entry that does not fit is lost. -/
theorem not_reload_of_not_fits (h : Acceptable k v) (hfits : ¬ Fits k v) :
    ∃ lines s, Runs start lines s ∧ initializeFromDataStore s.dataFile ≠ s.kvStore := by
  refine ⟨_, _, runs_setLine h, ?_⟩
  intro hreload
  have hset : (assign (fun _ => none) k v : Map) k = some v := assign_self
  exact hfits (((runs_setLine h).saved saved_start).1.fits_of_reload hreload k v hset)

theorem acceptable_replicate (n : Nat) : Acceptable [107] (List.replicate n 120) where
  key := by decide
  value := by simp [containsIllegalChars, space, equals, comma, List.mem_replicate]
  noNewline := by simp [newline, List.mem_replicate]

/-- `set k=xx…x`, with 1022 bytes in the value. -/
theorem not_reload_long : ∃ lines s, Runs start lines s ∧
    initializeFromDataStore s.dataFile ≠ s.kvStore := by
  refine not_reload_of_not_fits (acceptable_replicate 1022) ?_
  intro hfits
  have hshort := hfits.short
  simp only [Short, MAX_LINE_LENGTH, List.length_replicate, List.length_singleton] at hshort
  omega

end Nyctomek.KvStore

/-
# `KvStore.Grammar` — the lines that `handleInput` accepts

    get <key>            a key: any bytes but ' ', '=' and ','
    set <key>=<value>    a value: likewise

Either may be empty.  The search for the first '=' is over the whole line, and the
filter looks for it once more in both parts.
-/
import Nyctomek.KvStore.Basic

namespace Nyctomek.KvStore

open Prog

variable {input key value : Bytes} {commandType : CommandType} {command : Command}

/-- A key or a value. -/
def IsToken (token : Bytes) : Prop := space ∉ token ∧ equals ∉ token ∧ comma ∉ token

/-- A line, and the command that it is. -/
inductive IsCommand : Bytes → Command → Prop
  | get {key : Bytes} : IsToken key → IsCommand (ascii "get " ++ key) ⟨.GET, key, []⟩
  | set {key value : Bytes} : IsToken key → IsToken value →
      IsCommand (ascii "set " ++ key ++ equals :: value) ⟨.SET, key, value⟩

/-! ## The filter -/

theorem containsIllegalChars_iff {token : Bytes} :
    containsIllegalChars token = false ↔ IsToken token := by
  simp only [containsIllegalChars, List.any_cons, List.any_nil, Bool.or_false, Bool.or_eq_false_iff,
    List.contains_eq_mem, decide_eq_false_iff_not, IsToken]

theorem isToken_nil : IsToken [] := by
  simp [IsToken]

theorem checked_of_isToken (hkey : IsToken key) (hvalue : IsToken value) :
    checked commandType key value = .valid ⟨commandType, key, value⟩ := by
  rw [checked, containsIllegalChars_iff.mpr hkey, containsIllegalChars_iff.mpr hvalue]
  rfl

theorem isToken_of_checked (h : checked commandType key value = .valid command) :
    IsToken key ∧ IsToken value ∧ command = ⟨commandType, key, value⟩ := by
  unfold checked at h
  split at h
  · cases h
  · rename_i hlegal
    simp only [Bool.or_eq_true, not_or, Bool.not_eq_true, containsIllegalChars_iff] at hlegal
    exact ⟨hlegal.1, hlegal.2, (Input.valid.inj h).symm⟩

theorem checked_ne_exit : checked commandType key value ≠ .exit := by
  unfold checked
  split <;> simp

/-! ## A line of the grammar -/

theorem handleInput_get (hkey : IsToken key) :
    handleInput (ascii "get " ++ key) = .valid ⟨.GET, key, []⟩ := by
  have hget : ascii "get " = [103, 101, 116, 32] := rfl
  have hquit : ascii "quit()" = [113, 117, 105, 116, 40, 41] := rfl
  simp [handleInput, hget, hquit, checked_of_isToken hkey isToken_nil]

theorem handleInput_set (hkey : IsToken key) (hvalue : IsToken value) :
    handleInput (ascii "set " ++ key ++ equals :: value) = .valid ⟨.SET, key, value⟩ := by
  have hset : ascii "set " = [115, 101, 116, 32] := rfl
  have hget : ascii "get " = [103, 101, 116, 32] := rfl
  have hquit : ascii "quit()" = [113, 117, 105, 116, 40, 41] := rfl
  have hequals : equals ∉ ascii "set " ++ key := by
    rw [List.mem_append, not_or]
    exact ⟨by decide, hkey.2.1⟩
  have hlen : (ascii "set " ++ key ++ [equals]).length = (ascii "set " ++ key).length + 1 :=
    List.length_append
  have hrest : (ascii "set " ++ key ++ equals :: value).drop ((ascii "set " ++ key).length + 1)
      = value := by
    rw [List.append_cons, ← hlen, List.drop_left]
  simp only [handleInput, findIdx?_append_cons hequals, hrest]
  simp [hset, hget, hquit, checked_of_isToken hkey hvalue]

theorem handleInput_of_isCommand (h : IsCommand input command) :
    handleInput input = .valid command := by
  cases h with
  | get hkey => exact handleInput_get hkey
  | set hkey hvalue => exact handleInput_set hkey hvalue

/-! ## An accepted line -/

/-- The first '=' is behind the four bytes of `set `. -/
theorem keyEnd_ge {keyEnd : Nat} (hset : ascii "set " <+: input)
    (h : input.findIdx? (· == equals) = some keyEnd) : 4 ≤ keyEnd := by
  obtain ⟨rest, rfl⟩ := hset
  have hnone : (ascii "set ").findIdx? (· == equals) = none := by decide
  rw [List.findIdx?_append, hnone, Option.none_or, Option.map_eq_some_iff] at h
  obtain ⟨i, -, rfl⟩ := h
  exact Nat.le_add_left 4 i

theorem isCommand_of_handleInput (h : handleInput input = .valid command) :
    IsCommand input command := by
  unfold handleInput at h
  split at h
  · cases h
  · split at h
    · rename_i hget
      obtain ⟨key, rfl⟩ := hget
      obtain ⟨hkey, -, rfl⟩ := isToken_of_checked h
      exact .get hkey
    · split at h
      · rename_i hset
        split at h
        · rename_i keyEnd hfind
          have hkeyEnd := keyEnd_ge hset hfind
          obtain ⟨hinput, -⟩ := eq_append_cons_of_findIdx? hfind
          obtain ⟨hkey, hvalue, rfl⟩ := isToken_of_checked h
          -- what is before the '=' is `set ` and the key
          obtain ⟨rest, rfl⟩ := hset
          have htake : (ascii "set " ++ rest).take keyEnd
              = ascii "set " ++ ((ascii "set " ++ rest).drop 4).take (keyEnd - 4) := by
            rw [List.take_append, List.take_of_length_le hkeyEnd]
            rfl
          rw [htake] at hinput
          have hcommand := IsCommand.set hkey hvalue
          rwa [← hinput] at hcommand
        · cases h
      · cases h

theorem handleInput_ne_exit (h : input ≠ ascii "quit()") : handleInput input ≠ .exit := by
  unfold handleInput
  rw [if_neg h]
  split
  · exact checked_ne_exit
  · split
    · split
      · exact checked_ne_exit
      · simp
    · simp

/-- **The grammar** is what is accepted, with the command it stands for; any other line is
invalid. -/
theorem handleInput_grammar (h : input ≠ ascii "quit()") :
    (∀ command, handleInput input = .valid command ↔ IsCommand input command)
      ∧ (handleInput input = .invalid ↔ ∀ command, ¬ IsCommand input command) := by
  have hiff : ∀ command, handleInput input = .valid command ↔ IsCommand input command :=
    fun command => ⟨isCommand_of_handleInput, handleInput_of_isCommand⟩
  refine ⟨hiff, ?_⟩
  constructor
  · intro hinvalid command hcommand
    rw [(hiff command).mpr hcommand] at hinvalid
    cases hinvalid
  · intro hnone
    cases hinput : handleInput input with
    | exit => exact absurd hinput (handleInput_ne_exit h)
    | invalid => rfl
    | valid command => exact absurd ((hiff command).mp hinput) (hnone command)

/-- `set =`, an empty key and an empty value. -/
theorem handleInput_grammar_empty : handleInput (ascii "set =") = .valid ⟨.SET, [], []⟩ :=
  ((handleInput_grammar (by decide)).1 _).mpr (.set isToken_nil isToken_nil)

end Nyctomek.KvStore

/-
# `KvStore.Interrupt` — a `set` that does not come to its end

The file is rewritten in place: truncated, and then filled again line by line, each
line flushed.  `SIGINT` ends the process wherever it is, so the file that is left is
the old one, or has some of the lines of the new one.

    update      kvStore[key] = value              the file is the old one
    truncate    std::ios::trunc                   the file is empty
    write       dataFile << … << std::endl        one more line
    close
-/
import Nyctomek.KvStore.Reload

namespace Nyctomek.KvStore

open Prog

inductive SetStep where
  | update (k v : Bytes)
  | truncate
  | write (kv : Bytes × Bytes)
  | close
  deriving DecidableEq, Repr

/-- What a step leaves. -/
def SetStep.apply (s : State) : SetStep → State
  | update k v => { s with kvStore := assign s.kvStore k v }
  | truncate => { s with dataFile := some [] }
  | write kv => { s with dataFile := s.dataFile.map (· ++ record kv) }
  | close => s

/-- The steps of a `set` that meets the map in the order of `entries`. -/
def setSteps (k v : Bytes) (entries : Entries) : List SetStep :=
  .update k v :: .truncate :: (entries.map .write ++ [.close])

/-- What is left when the process ends after `n` of the steps. -/
def interrupted (s : State) (k v : Bytes) (entries : Entries) (n : Nat) : State :=
  ((setSteps k v entries).take n).foldl SetStep.apply s

variable {k v : Bytes} {entries : Entries} {s : State} {lines : List Line}

theorem foldl_write (s : State) (contents : Bytes) (entries : Entries) :
    (entries.map SetStep.write).foldl SetStep.apply { s with dataFile := some contents }
      = { s with dataFile := some (contents ++ fileOf entries) } := by
  induction entries generalizing contents with
  | nil => simp [fileOf]
  | cons kv entries ih =>
      rw [List.map_cons, List.foldl_cons]
      refine (ih (contents ++ record kv)).trans ?_
      simp [fileOf]

theorem foldl_close (s : State) (n : Nat) :
    ([SetStep.close].take n).foldl SetStep.apply s = s := by
  cases n with
  | zero => rfl
  | succ n =>
      rw [List.take_of_length_le (by simp)]
      rfl

/-- After the truncation the file has the lines that have been written. -/
theorem interrupted_eq (s : State) (k v : Bytes) (entries : Entries) (j : Nat) :
    interrupted s k v entries (j + 2)
      = ⟨assign s.kvStore k v, some (fileOf (entries.take j))⟩ := by
  have hwritten := foldl_write { s with kvStore := assign s.kvStore k v } [] (entries.take j)
  rw [interrupted, setSteps, List.take_succ_cons, List.take_succ_cons, List.foldl_cons,
    List.foldl_cons, List.take_append, ← List.map_take, List.foldl_append, foldl_close]
  exact hwritten

theorem dataFile_interrupted (s : State) (k v : Bytes) (entries : Entries) (j : Nat) :
    (interrupted s k v entries (j + 2)).dataFile = some (fileOf (entries.take j)) := by
  rw [interrupted_eq]

/-- With the last line written the `set` of `processCommand` is done. -/
theorem interrupted_of_written {n : Nat} (h : entries.length + 2 ≤ n) :
    interrupted s k v entries n = (processCommand entries ⟨.SET, k, v⟩ s).2 := by
  obtain ⟨j, rfl⟩ : ∃ j, n = j + 2 := ⟨n - 2, by omega⟩
  rw [interrupted_eq, List.take_of_length_le (by omega), processCommand_set rfl]

theorem dataFile_interrupted_of_lt {n : Nat} (h : n < 2) :
    (interrupted s k v entries n).dataFile = s.dataFile := by
  match n with
  | 0 => rfl
  | 1 => rfl
  | n + 2 => omega

/-- **What an interrupted `set` leaves.**  Before the truncation that is the old map, and
after it the part of the new one whose lines have been written; with all of them, the
new map. -/
theorem reload_interrupted (hrun : Runs start lines s) {line : Line}
    (hinput : handleInput line.bytes = .valid ⟨.SET, k, v⟩)
    (hentries : Enumerates entries (assign s.kvStore k v))
    (hold : ∀ k v, s.kvStore k = some v → Fits k v)
    (hnew : ∀ kv ∈ entries, Fits kv.1 kv.2) (n : Nat) :
    initializeFromDataStore (interrupted s k v entries n).dataFile =
        (if n < 2 then s.kvStore else ofEntries (entries.take (n - 2))) ∧
      ofEntries entries = assign s.kvStore k v := by
  obtain ⟨hsaved, -⟩ := hrun.saved saved_start
  refine ⟨?_, hentries.ofEntries_eq⟩
  by_cases hn : n < 2
  · rw [dataFile_interrupted_of_lt hn, if_pos hn]
    exact hsaved.reload_eq hold
  · obtain ⟨j, rfl⟩ : ∃ j, n = j + 2 := ⟨n - 2, by omega⟩
    rw [dataFile_interrupted, if_neg hn, Nat.add_sub_cancel]
    have hlegal := legal_assign hsaved.legal (legal_of_handleInput hinput)
    have hall : ∀ kv ∈ entries.take j, Legal kv.1 kv.2 :=
      fun kv hkv => hlegal _ _ ((hentries.mem _ _).mp (List.mem_of_mem_take hkv))
    refine readLines_of_fits (fun kv hkv => ⟨(hall kv hkv).key, (hall kv hkv).value⟩)
      (fun kv hkv => (hall kv hkv).comma) ?_
    exact fun kv hkv => hnew kv (List.mem_of_mem_take hkv)

/-! ### `set a=1`, and then `set b=2` -/

theorem fits_letters : ∀ kv ∈ [(ascii "a", ascii "1"), (ascii "b", ascii "2")], Fits kv.1 kv.2 := by
  have ha : Fits (ascii "a") (ascii "1") := ⟨by decide, by decide, by decide⟩
  have hb : Fits (ascii "b") (ascii "2") := ⟨by decide, by decide, by decide⟩
  simp [ha, hb]

/-- The map after the first command. -/
def firstMap : Map := assign (fun _ => none) (ascii "a") (ascii "1")

theorem runs_first : Runs start [⟨ascii "set a=1", by decide⟩]
    ⟨firstMap, some (fileOf [(ascii "a", ascii "1")])⟩ :=
  runs_setLine (k := ascii "a") (v := ascii "1") ⟨by decide, by decide, by decide⟩

theorem enumerates_second : Enumerates [(ascii "a", ascii "1"), (ascii "b", ascii "2")]
    (assign firstMap (ascii "b") (ascii "2")) :=
  enumerates_ofEntries (by decide)

theorem fits_first : ∀ k v, firstMap k = some v → Fits k v := by
  intro k v hkv
  have hmem : (k, v) ∈ [(ascii "a", ascii "1")] := mem_of_ofEntries hkv
  exact fits_letters (k, v) (List.mem_cons.mpr (.inl (List.mem_singleton.mp hmem)))

/-- With one line of two written the other entry is missing. -/
theorem reload_interrupted_half :
    initializeFromDataStore (interrupted ⟨firstMap, some (fileOf [(ascii "a", ascii "1")])⟩
      (ascii "b") (ascii "2") [(ascii "a", ascii "1"), (ascii "b", ascii "2")] 3).dataFile
      = ofEntries [(ascii "a", ascii "1")] := by
  have hinput : handleInput (Line.mk (ascii "set b=2") (by decide)).bytes
      = .valid ⟨.SET, ascii "b", ascii "2"⟩ := by decide
  exact (reload_interrupted runs_first hinput enumerates_second fits_first fits_letters 3).1

/-- Between the truncation and the first line everything is lost. -/
theorem not_atomic : ∃ (lines : List Line) (s : State) (line : Line) (k v : Bytes)
    (entries : Entries) (n : Nat), Runs start lines s ∧
      handleInput line.bytes = .valid ⟨.SET, k, v⟩ ∧ Enumerates entries (assign s.kvStore k v) ∧
      (∀ k v, s.kvStore k = some v → Fits k v) ∧ (∀ kv ∈ entries, Fits kv.1 kv.2) ∧
      initializeFromDataStore (interrupted s k v entries n).dataFile ≠ s.kvStore ∧
      initializeFromDataStore (interrupted s k v entries n).dataFile ≠ assign s.kvStore k v := by
  have hempty : ∀ s k v entries,
      initializeFromDataStore (interrupted s k v entries 2).dataFile = fun _ => none := by
    intro s k v entries
    rw [dataFile_interrupted s k v entries 0]
    exact readLines_of_none rfl
  have hset : firstMap (ascii "a") = some (ascii "1") := assign_self
  have hset' : assign firstMap (ascii "b") (ascii "2") (ascii "b") = some (ascii "2") := assign_self
  refine ⟨_, _, ⟨ascii "set b=2", by decide⟩, ascii "b", ascii "2", _, 2, runs_first, by decide,
    enumerates_second, fits_first, fits_letters, ?_, ?_⟩
  · rw [hempty]
    intro hmap
    exact absurd ((congrFun hmap (ascii "a")).trans hset) (by simp)
  · rw [hempty]
    intro hmap
    exact absurd ((congrFun hmap (ascii "b")).trans hset') (by simp)

end Nyctomek.KvStore

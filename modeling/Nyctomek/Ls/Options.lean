/-
# `Ls.Options` — the options of the command line

`parseOptionalArguments` takes arguments off the front as long as they look like options, and
sets a flag for every letter that it knows.

    -la       the letters `l` and `a`
    --        the letter `-`, which is unknown; no end of the options
    - and -␣  an operand
-/
import Nyctomek.Ls.Directories

namespace Nyctomek.Ls

open Prog

def DASH_d : UInt32 := 0x00000008

def dash : UInt8 := 45

/-- The byte of an ASCII character. -/
def byte (c : Char) : UInt8 := UInt8.ofNat c.toNat

def isspace (c : UInt8) : Bool := c == space || (9 ≤ c && c ≤ 13)

/-- The cases of the switch over the letters. -/
def optionCases : List (UInt8 × UInt32) :=
  [(byte '1', DASH_1), (byte 'A', DASH_A), (byte 'a', DASH_a), (byte 'C', DASH_C),
    (byte 'd', DASH_d), (byte 'l', DASH_l), (byte 'R', DASH_R), (byte 'r', DASH_r),
    (byte 'S', DASH_S), (byte 't', DASH_t), (byte 'T', DASH_T)]

/-- The flag of a letter; `none` is the default case. -/
def optionFlag (arg : UInt8) : Option UInt32 :=
  (optionCases.find? fun c => c.1 == arg).map Prod.snd

/-- The flags, and the letters that have been reported as unknown. -/
structure Options where
  flags : UInt32
  unknown : List UInt8
  deriving DecidableEq, Repr

/-- The body of the loop over the letters. -/
def parseLetter (s : Options) (arg : UInt8) : Options :=
  match optionFlag arg with
  | some flag => { s with flags := s.flags ||| flag }
  | none => { s with unknown := s.unknown ++ [arg] }

/-- `arg[0] == '-' && arg[1] != '\0' && !isspace(arg[1])`; there is no NUL in an argument. -/
def isOption : Bytes → Bool
  | first :: second :: _ => first == dash && !isspace second
  | _ => false

/-- The loop over the arguments: the options, and the arguments that are left. -/
def parseArguments : List Bytes → Options → Options × List Bytes
  | [], s => (s, [])
  | arg :: argv, s =>
      if isOption arg then parseArguments argv (arg.tail.foldl parseLetter s)
      else (s, arg :: argv)

def parseOptionalArguments (argv : List Bytes) : Options × List Bytes := parseArguments argv ⟨0, []⟩

/-- The letters of the options at the front. -/
def letters (argv : List Bytes) : Bytes := (argv.takeWhile isOption).flatMap List.tail

theorem parseArguments_eq (argv : List Bytes) (s : Options) :
    parseArguments argv s = ((letters argv).foldl parseLetter s, argv.dropWhile isOption) := by
  induction argv generalizing s with
  | nil => rfl
  | cons arg argv ih =>
      rw [parseArguments]
      by_cases h : isOption arg = true
      · rw [if_pos h, ih, letters, letters, List.takeWhile_cons_of_pos h, List.flatMap_cons,
          List.foldl_append, List.dropWhile_cons_of_pos h]
      · rw [if_neg h, letters, List.takeWhile_cons_of_neg h, List.dropWhile_cons_of_neg h]
        rfl

/-! ## Flags -/

section
variable {c d : UInt8} {f g a b : UInt32} {s : Options}

theorem mem_optionCases (h : optionFlag c = some f) : (c, f) ∈ optionCases := by
  obtain ⟨⟨c', f'⟩, hfind, rfl⟩ := Option.map_eq_some_iff.mp h
  have hsame := List.find?_some hfind
  obtain rfl : c' = c := eq_of_beq hsame
  exact List.mem_of_find?_eq_some hfind

/-- Different letters have different bits. -/
theorem and_flag_iff (hc : optionFlag c = some f) (hd : optionFlag d = some g) :
    g &&& f ≠ 0 ↔ c = d := by
  have hcases : (optionCases.all fun p => optionCases.all fun q =>
      (q.2 &&& p.2 != 0) == (p.1 == q.1)) = true := by
    decide
  have hpair := List.all_eq_true.mp (List.all_eq_true.mp hcases _ (mem_optionCases hc)) _
    (mem_optionCases hd)
  rw [beq_iff_eq, Bool.eq_iff_iff, bne_iff_ne, beq_iff_eq] at hpair
  exact hpair

theorem or_and_ne_zero : (a ||| b) &&& f ≠ 0 ↔ a &&& f ≠ 0 ∨ b &&& f ≠ 0 := by
  have hdistrib : (a ||| b) &&& f = (a &&& f) ||| (b &&& f) :=
    UInt32.toBitVec_inj.mp BitVec.and_or_distrib_right
  rw [hdistrib, ne_eq, UInt32.or_eq_zero_iff, not_and_or]

theorem flags_foldl_iff (hc : optionFlag c = some f) (bytes : Bytes) :
    (bytes.foldl parseLetter s).flags &&& f ≠ 0 ↔ s.flags &&& f ≠ 0 ∨ c ∈ bytes := by
  induction bytes generalizing s with
  | nil => simp
  | cons d bytes ih =>
      rw [List.foldl_cons, ih, List.mem_cons, ← or_assoc]
      refine or_congr_left ?_
      rw [parseLetter]
      cases hd : optionFlag d with
      | some g => rw [or_and_ne_zero, and_flag_iff hc hd]
      | none =>
          have hne : c ≠ d := by
            rintro rfl
            rw [hc] at hd
            cases hd
          simp [hne]

/-- The flags, bit by bit. -/
theorem getLsbD_foldl (bytes : Bytes) (i : Nat) :
    (bytes.foldl parseLetter s).flags.toBitVec.getLsbD i = (s.flags.toBitVec.getLsbD i ||
      bytes.any fun c => ((optionFlag c).getD 0).toBitVec.getLsbD i) := by
  induction bytes generalizing s with
  | nil => simp
  | cons d bytes ih =>
      rw [List.foldl_cons, ih, List.any_cons, ← Bool.or_assoc]
      congr 1
      rw [parseLetter]
      cases optionFlag d with
      | some g => rw [UInt32.toBitVec_or, BitVec.getLsbD_or, Option.getD_some]
      | none => simp

theorem flags_congr {bytes bytes' : Bytes} (h : ∀ c, c ∈ bytes ↔ c ∈ bytes') :
    (bytes.foldl parseLetter s).flags = (bytes'.foldl parseLetter s).flags := by
  apply UInt32.toBitVec_inj.mp
  apply BitVec.eq_of_getLsbD_eq
  intro i _
  rw [getLsbD_foldl, getLsbD_foldl]
  congr 1
  rw [Bool.eq_iff_iff, List.any_eq_true, List.any_eq_true]
  exact exists_congr fun c => and_congr_left' (h c)

theorem unknown_foldl (bytes : Bytes) : (bytes.foldl parseLetter s).unknown
    = s.unknown ++ bytes.filter fun c => (optionFlag c).isNone := by
  induction bytes generalizing s with
  | nil => simp
  | cons d bytes ih =>
      rw [List.foldl_cons, ih, parseLetter]
      cases hd : optionFlag d with
      | some g => rw [List.filter_cons_of_neg (by simp [hd])]
      | none => rw [List.filter_cons_of_pos (by simp [hd]), List.append_assoc, List.singleton_append]

end

/-- **The options**: a flag is set exactly if its letter is in one of the options at the front,
every other letter is reported, in order, and the operands are what is left.  How the letters are
grouped, in which order they come and how often makes no difference to the flags. -/
theorem parseOptionalArguments_iff (argv : List Bytes) :
    (∀ c flag, optionFlag c = some flag → ((parseOptionalArguments argv).1.flags &&& flag ≠ 0 ↔
      ∃ arg ∈ argv.takeWhile isOption, c ∈ arg.tail)) ∧
    (parseOptionalArguments argv).1.unknown
      = ((argv.takeWhile isOption).flatMap List.tail).filter (fun c => (optionFlag c).isNone) ∧
    (parseOptionalArguments argv).2 = argv.dropWhile isOption ∧
    ∀ argv', (∀ c, c ∈ letters argv ↔ c ∈ letters argv') →
      (parseOptionalArguments argv').1.flags = (parseOptionalArguments argv).1.flags := by
  simp only [parseOptionalArguments, parseArguments_eq]
  refine ⟨?_, ?_, trivial, fun argv' h => (flags_congr h).symm⟩
  · intro c flag hflag
    rw [flags_foldl_iff hflag, letters, List.mem_flatMap]
    simp
  · rw [unknown_foldl, List.nil_append, letters]

/-- `ls -la -x -1a - -R` -/
example : parseOptionalArguments [ascii "-la", ascii "-x", ascii "-1a", ascii "-", ascii "-R"]
    = (⟨DASH_l ||| DASH_a ||| DASH_1, ascii "x"⟩, [ascii "-", ascii "-R"]) := by decide

end Nyctomek.Ls

/-
# `Vm.Halting` — how long a run can take

Nothing a run changes has room for much: three registers, and cell 0 of the memory.  Two
states of a run with the same bytes there are the same state, from which it goes on as it
has before.

    stateCount       256⁴ states, whatever the image
    compute_within   a run ends exactly if it has ended after as many turns
-/
import Mathlib.Data.Fintype.Prod
import Nyctomek.Prog.Hops
import Nyctomek.Vm.Fetch

namespace Nyctomek.Vm

open Prog

/-- The number of states that a run can be in. -/
def stateCount : Nat := 256 ^ 4

/-- A byte among 256. -/
def byteKey (v : UInt8) : Fin 256 := ⟨v.toNat, v.toNat_lt⟩

/-- The registers and cell 0. -/
def State.key (s : State) : Fin 256 × Fin 256 × Fin 256 × Fin 256 :=
  (byteKey (s.registers.get 0), byteKey (s.registers.get 1), byteKey (s.registers.get 2),
    byteKey (s.memory.headD 0))

theorem byteKey_inj {v w : UInt8} (h : byteKey v = byteKey w) : v = w :=
  UInt8.toNat_inj.mp (Fin.mk.inj h)

/-- Images that agree in the first cell, too, are the same. -/
theorem SameImage.eq_of_headD {memory first second : Bytes} (h : SameImage memory first)
    (h' : SameImage memory second) (hhead : first.headD 0 = second.headD 0) : first = second := by
  have hlen : first.length = second.length := h.length.trans h'.length.symm
  apply List.ext_getElem?
  intro a
  by_cases ha : a = 0
  · subst ha
    cases first with
    | nil =>
        rw [List.eq_nil_of_length_eq_zero hlen.symm]
    | cons v first =>
        cases second with
        | nil => cases hlen
        | cons w second => exact congrArg some hhead
  · rw [h.cell ha, h'.cell ha]

/-- The key tells the states of a run apart. -/
theorem State.eq_of_key {memory : Bytes} {s s' : State} (h : SameImage memory s.memory)
    (h' : SameImage memory s'.memory) (hkey : s.key = s'.key) : s = s' := by
  simp only [State.key, Prod.mk.injEq] at hkey
  obtain ⟨hpc, hr1, hr2, hcell⟩ := hkey
  have hregisters : s.registers = s'.registers := by
    apply Vector.ext
    intro i hi
    match i, hi with
    | 0, _ => exact byteKey_inj hpc
    | 1, _ => exact byteKey_inj hr1
    | 2, _ => exact byteKey_inj hr2
  have hmemory : s.memory = s'.memory := h.eq_of_headD h' (byteKey_inj hcell)
  cases s
  cases s'
  simp only at hregisters hmemory
  rw [hregisters, hmemory]

theorem card_key : Fintype.card (Fin 256 × Fin 256 × Fin 256 × Fin 256) = stateCount := by
  simp only [Fintype.card_prod, Fintype.card_fin, stateCount]
  rfl

/-- **Halting is decided** after `stateCount` turns: whatever the image, a run that ends at all
has ended by then, in the same way. -/
theorem compute_within (memory : Bytes) (r : Except Stop Bytes) :
    Ends (fun fuel => compute fuel memory) r ↔ compute stateCount memory = done r := by
  constructor
  · intro h
    rw [← card_key]
    refine loop_within State.key (I := fun s => SameImage memory s.memory) ?_
      (fun s s' => State.eq_of_key) (.refl memory) h
    intro s s' hs hturn
    exact hs.trans (sameImage_of_turns (.single hturn))
  · exact (loop_mono computeTurn (initial memory)).ends

end Nyctomek.Vm

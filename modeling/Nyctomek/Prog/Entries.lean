/-
# `Prog.Entries` — maps and the lists of their entries

A map is a function to `Option`; a hash map is one whose entries come in some
order.  `Enumerates entries m` says that `entries` has every entry of `m` once, in
an order that nothing else is known about.
-/
import Mathlib.Data.List.Basic
import Mathlib.Data.List.Nodup
import Mathlib.Logic.Function.Basic

namespace Prog

variable {κ ν : Type} [DecidableEq κ]

/-- `m[k] = v`. -/
def assign (m : κ → Option ν) (k : κ) (v : ν) : κ → Option ν := Function.update m k (some v)

/-- The entries, assigned one after the other. -/
def assignAll (m : κ → Option ν) : List (κ × ν) → κ → Option ν
  | [] => m
  | e :: rest => assignAll (assign m e.1 e.2) rest

/-- The map that has the entries, the last one for a key counting. -/
def ofEntries (entries : List (κ × ν)) : κ → Option ν := assignAll (fun _ => none) entries

/-- `entries` are the entries of `m`. -/
structure Enumerates (entries : List (κ × ν)) (m : κ → Option ν) : Prop where
  nodup : (entries.map Prod.fst).Nodup
  mem : ∀ k v, (k, v) ∈ entries ↔ m k = some v

variable {m : κ → Option ν} {entries : List (κ × ν)} {k k' : κ} {v : ν}

@[simp] theorem assign_self : assign m k v k = some v := Function.update_self ..

theorem assign_of_ne (h : k' ≠ k) : assign m k v k' = m k' := Function.update_of_ne h ..

/-- Other keys are left alone. -/
theorem assignAll_of_notMem (h : k ∉ entries.map Prod.fst) : assignAll m entries k = m k := by
  induction entries generalizing m with
  | nil => rfl
  | cons e rest ih =>
      rw [List.map_cons, List.mem_cons, not_or] at h
      exact (ih h.2).trans (assign_of_ne h.1)

/-- Of keys that come once the entry counts. -/
theorem assignAll_of_mem (hnodup : (entries.map Prod.fst).Nodup) (h : (k, v) ∈ entries) :
    assignAll m entries k = some v := by
  induction entries generalizing m with
  | nil => simp at h
  | cons e rest ih =>
      rw [List.map_cons, List.nodup_cons] at hnodup
      rcases List.mem_cons.mp h with rfl | hrest
      · exact (assignAll_of_notMem hnodup.1).trans assign_self
      · exact ih hnodup.2 hrest

/-- What has been assigned is an entry, or was there before. -/
theorem mem_of_assignAll (h : assignAll m entries k = some v) : (k, v) ∈ entries ∨ m k = some v := by
  induction entries generalizing m with
  | nil => exact .inr h
  | cons e rest ih =>
      rcases ih h with hmem | hm
      · exact .inl (List.mem_cons_of_mem _ hmem)
      · by_cases hk : k = e.1
        · subst hk
          rw [assign_self] at hm
          obtain rfl := Option.some.inj hm
          exact .inl List.mem_cons_self
        · rw [assign_of_ne hk] at hm
          exact .inr hm

theorem mem_of_ofEntries (h : ofEntries entries k = some v) : (k, v) ∈ entries :=
  (mem_of_assignAll h).resolve_right (by simp)

/-- **A map is what its entries make**, in whatever order. -/
theorem Enumerates.ofEntries_eq (h : Enumerates entries m) : ofEntries entries = m := by
  funext k
  cases hk : m k with
  | some v => exact assignAll_of_mem h.nodup ((h.mem k v).mpr hk)
  | none =>
      refine assignAll_of_notMem ?_
      intro hmem
      obtain ⟨⟨k', v⟩, he, rfl⟩ := List.mem_map.mp hmem
      rw [(h.mem _ v).mp he] at hk
      cases hk

omit [DecidableEq κ] in
/-- The entries of a map come in different orders only. -/
theorem Enumerates.perm {entries' : List (κ × ν)} (h : Enumerates entries m)
    (h' : Enumerates entries' m) : entries.Perm entries' := by
  refine (List.perm_ext_iff_of_nodup (List.Nodup.of_map Prod.fst h.nodup)
    (List.Nodup.of_map Prod.fst h'.nodup)).mpr ?_
  rintro ⟨k, v⟩
  exact (h.mem k v).trans (h'.mem k v).symm

omit [DecidableEq κ] in
theorem Enumerates.of_perm {entries' : List (κ × ν)} (h : Enumerates entries m)
    (hperm : entries.Perm entries') : Enumerates entries' m :=
  ⟨(hperm.map Prod.fst).nodup_iff.mp h.nodup,
    fun k v => hperm.mem_iff.symm.trans (h.mem k v)⟩

/-- A map with entries has entries when one more is assigned. -/
theorem Enumerates.assign (h : Enumerates entries m) (k : κ) (v : ν) :
    Enumerates ((entries.filter fun e => e.1 ≠ k) ++ [(k, v)]) (assign m k v) := by
  constructor
  · rw [List.map_append, List.nodup_append]
    refine ⟨h.nodup.sublist (List.filter_sublist.map Prod.fst), List.pairwise_singleton _ _, ?_⟩
    rintro k' hk' _ hlast rfl
    obtain ⟨e, he, rfl⟩ := List.mem_map.mp hk'
    exact of_decide_eq_true (List.mem_filter.mp he).2 (List.mem_singleton.mp hlast)
  · intro k' v'
    rw [List.mem_append, List.mem_filter, List.mem_singleton, decide_eq_true_eq]
    by_cases hk : k' = k
    · subst hk
      rw [assign_self]
      constructor
      · rintro (⟨-, hne⟩ | hlast)
        · exact absurd rfl hne
        · rw [(Prod.mk.inj hlast).2]
      · intro hv
        exact .inr (congrArg (Prod.mk k') (Option.some.inj hv).symm)
    · rw [assign_of_ne hk, ← h.mem k' v']
      constructor
      · rintro (⟨hmem, -⟩ | hlast)
        · exact hmem
        · exact absurd (Prod.mk.inj hlast).1 hk
      · exact fun hmem => .inl ⟨hmem, hk⟩

/-- A list is its groups, one behind the other. -/
theorem flatMap_filter_perm {α : Type} (key : α → κ) {ks : List κ} (hks : ks.Nodup) {xs : List α}
    (h : ∀ x ∈ xs, key x ∈ ks) : (ks.flatMap fun k => xs.filter fun x => key x = k).Perm xs := by
  induction ks generalizing xs with
  | nil =>
      rw [List.eq_nil_iff_forall_not_mem.mpr fun x hx => List.not_mem_nil (h x hx)]
      exact .refl _
  | cons k ks ih =>
      obtain ⟨hk, hks⟩ := List.nodup_cons.mp hks
      have hrest : ∀ k' ∈ ks, (xs.filter fun x => key x = k')
          = (xs.filter fun x => !decide (key x = k)).filter fun x => key x = k' := by
        intro k' hk'
        rw [List.filter_filter]
        refine List.filter_congr ?_
        intro x _
        have hne : k' ≠ k := fun heq => hk (heq ▸ hk')
        by_cases hx : key x = k' <;> simp [hx, hne]
      rw [List.flatMap_cons, List.flatMap_congr hrest]
      refine .trans (.append_left _ (ih hks ?_)) (List.filter_append_perm _ xs)
      intro x hx
      obtain ⟨hmem, hne⟩ := List.mem_filter.mp hx
      exact (List.mem_cons.mp (h x hmem)).resolve_left (by simpa using hne)

/-- Entries with different keys are those of a map. -/
theorem enumerates_ofEntries (h : (entries.map Prod.fst).Nodup) :
    Enumerates entries (ofEntries entries) :=
  ⟨h, fun _ _ => ⟨assignAll_of_mem h, mem_of_ofEntries⟩⟩

end Prog

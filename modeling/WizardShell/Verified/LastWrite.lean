import Mathlib.Data.Finset.Card
import Mathlib.Data.Finset.Dedup
import Mathlib.Data.List.Induction
import Mathlib.Logic.Function.Basic

/-!
# The map a sequence of writes leaves

Writes to keys, performed in order from the empty map: a key holds the value
of its last write, and the number of keys that hold one is the number of
distinct keys written.
-/

namespace WizardShell.Verified

open Function

variable {K V : Type} [DecidableEq K]

/-- The map after the writes `ops`. -/
def lastWrite (ops : List (K × V)) : K → Option V :=
  ops.foldl (fun m op => update m op.1 (some op.2)) fun _ => none

@[simp] theorem lastWrite_nil : lastWrite ([] : List (K × V)) = fun _ => none := rfl

theorem lastWrite_snoc (ops : List (K × V)) (op : K × V) :
    lastWrite (ops ++ [op]) = update (lastWrite ops) op.1 (some op.2) := by
  simp [lastWrite]

/-- A key without a later write keeps its value. -/
theorem lastWrite_append {ops post : List (K × V)} {k : K}
    (h : k ∉ post.map Prod.fst) :
    lastWrite (ops ++ post) k = lastWrite ops k := by
  induction post using List.reverseRecOn with
  | nil => simp
  | append_singleton post op ih =>
      simp only [List.map_append, List.mem_append, not_or, List.map_cons,
        List.map_nil, List.mem_singleton] at h
      rw [← List.append_assoc, lastWrite_snoc, update_of_ne h.2]
      exact ih h.1

/-- The last write of a key is the value it holds. -/
theorem lastWrite_of_last {pre post : List (K × V)} {k : K} {v : V}
    (h : k ∉ post.map Prod.fst) :
    lastWrite (pre ++ (k, v) :: post) k = some v := by
  rw [List.append_cons, lastWrite_append h, lastWrite_snoc, update_self]

/-- A key holds nothing exactly when it was never written. -/
theorem lastWrite_eq_none {ops : List (K × V)} {k : K} :
    lastWrite ops k = none ↔ k ∉ ops.map Prod.fst := by
  induction ops using List.reverseRecOn with
  | nil => simp
  | append_singleton ops op ih =>
      rw [lastWrite_snoc]
      by_cases hk : k = op.1
      · subst hk
        simp
      · rw [update_of_ne hk, ih]
        simp [hk]

/-- What a key holds was written to it. -/
theorem mem_of_lastWrite {ops : List (K × V)} {k : K} {v : V} (h : lastWrite ops k = some v) :
    ∃ op ∈ ops, op.2 = v := by
  induction ops using List.reverseRecOn with
  | nil => cases h
  | append_singleton ops op ih =>
      rw [lastWrite_snoc] at h
      by_cases hk : k = op.1
      · subst hk
        rw [update_self, Option.some.injEq] at h
        exact ⟨op, by simp, h⟩
      · rw [update_of_ne hk] at h
        obtain ⟨op', hop', hv⟩ := ih h
        exact ⟨op', List.mem_append_left _ hop', hv⟩

/-- Keys written once each hold what was written to them. -/
theorem lastWrite_eq_some_of_nodup {ops : List (K × V)} (h : (ops.map Prod.fst).Nodup)
    {k : K} {v : V} : lastWrite ops k = some v ↔ (k, v) ∈ ops := by
  induction ops using List.reverseRecOn with
  | nil => simp
  | append_singleton ops op ih =>
      rw [List.map_append, List.nodup_append] at h
      obtain ⟨hops, _, hapart⟩ := h
      have hnew : op.1 ∉ ops.map Prod.fst := fun hmem => hapart _ hmem _ (by simp) rfl
      rw [lastWrite_snoc, List.mem_append, List.mem_singleton]
      by_cases hk : k = op.1
      · subst hk
        rw [update_self, Option.some.injEq]
        constructor
        · rintro rfl
          exact .inr rfl
        · rintro (hmem | heq)
          · exact absurd (List.mem_map_of_mem hmem) hnew
          · exact (congrArg Prod.snd heq).symm
      · rw [update_of_ne hk, ih hops]
        constructor
        · exact .inl
        · rintro (hmem | heq)
          · exact hmem
          · exact absurd (congrArg Prod.fst heq) hk

/-- A map over the values written. -/
theorem lastWrite_map {W : Type} (f : V → W) (ops : List (K × V)) (k : K) :
    lastWrite (ops.map fun op => (op.1, f op.2)) k = (lastWrite ops k).map f := by
  induction ops using List.reverseRecOn with
  | nil => rfl
  | append_singleton ops op ih =>
      rw [List.map_append, List.map_singleton, lastWrite_snoc, lastWrite_snoc]
      by_cases hk : k = op.1
      · subst hk
        rw [update_self, update_self, Option.map_some]
      · rw [update_of_ne hk, update_of_ne hk, ih]

/-- The number of distinct keys written. -/
def distinctKeys (ops : List (K × V)) : Nat := (ops.map Prod.fst).toFinset.card

/-- A write of a new key, and only such a write, adds one. -/
theorem distinctKeys_snoc (ops : List (K × V)) (op : K × V) :
    distinctKeys (ops ++ [op]) =
      distinctKeys ops + if lastWrite ops op.1 = none then 1 else 0 := by
  have hset : ((ops ++ [op]).map Prod.fst).toFinset =
      insert op.1 (ops.map Prod.fst).toFinset := by
    rw [List.map_append, List.toFinset_append, Finset.union_comm]
    rfl
  unfold distinctKeys
  rw [hset]
  by_cases hmem : op.1 ∈ ops.map Prod.fst
  · have hne : lastWrite ops op.1 ≠ none := fun h => lastWrite_eq_none.mp h hmem
    rw [Finset.card_insert_of_mem (List.mem_toFinset.mpr hmem), if_neg hne,
      Nat.add_zero]
  · have hnot : op.1 ∉ (ops.map Prod.fst).toFinset := by
      rwa [List.mem_toFinset]
    rw [Finset.card_insert_of_notMem hnot, if_pos (lastWrite_eq_none.mpr hmem)]

end WizardShell.Verified

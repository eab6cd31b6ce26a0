import Mathlib.Data.List.Induction

/-!
# Runs of a system that takes one operation after another

A system is a step relation `step s op t`: operation `op` may take state `s`
to state `t`.  A run is a list of operations, each taken from the state the
one before it left.  The induction rules below are stated once, for an
invariant that may also speak about the operations performed so far.
-/

namespace WizardShell.Verified

variable {σ ι : Type*}

/-- `Run step s ops t`: performing `ops` in order leads from `s` to `t`. -/
inductive Run (step : σ → ι → σ → Prop) (s : σ) : List ι → σ → Prop
  | start : Run step s [] s
  | next {ops : List ι} {t u : σ} {op : ι} :
      Run step s ops t → step t op u → Run step s (ops ++ [op]) u

namespace Run

variable {step : σ → ι → σ → Prop} {s t u : σ} {op : ι} {ops xs ys : List ι}

/-- The empty run stays where it is. -/
theorem nil_iff : Run step s [] t ↔ t = s := by
  constructor
  · intro h
    generalize hops : ([] : List ι) = ops at h
    cases h with
    | start => rfl
    | next _ _ => simp at hops
  · rintro rfl
    exact .start

/-- The last operation of a run is one step from the state before it. -/
theorem snoc_iff :
    Run step s (ops ++ [op]) u ↔ ∃ t, Run step s ops t ∧ step t op u := by
  constructor
  · intro h
    generalize hops : ops ++ [op] = all at h
    cases h with
    | start => simp at hops
    | next hrun hstep =>
        obtain ⟨rfl, hop⟩ := List.append_inj' hops rfl
        cases hop
        exact ⟨_, hrun, hstep⟩
  · rintro ⟨t, hrun, hstep⟩
    exact .next hrun hstep

/-- A run can be cut at any point. -/
theorem append_iff :
    Run step s (xs ++ ys) u ↔ ∃ t, Run step s xs t ∧ Run step t ys u := by
  induction ys using List.reverseRecOn generalizing u with
  | nil => simp [nil_iff]
  | append_singleton ys op ih =>
      rw [← List.append_assoc, snoc_iff]
      constructor
      · rintro ⟨v, hv, hstep⟩
        obtain ⟨t, hxs, hys⟩ := ih.mp hv
        exact ⟨t, hxs, .next hys hstep⟩
      · rintro ⟨t, hxs, hys⟩
        obtain ⟨v, hys, hstep⟩ := snoc_iff.mp hys
        exact ⟨v, ih.mpr ⟨t, hxs, hys⟩, hstep⟩

/-- A run of one operation is one step. -/
theorem singleton_iff : Run step s [op] u ↔ step s op u := by
  rw [← List.nil_append [op], snoc_iff]
  simp [nil_iff]

/-- The first operation of a run is one step to the state the rest starts at. -/
theorem cons_iff :
    Run step s (op :: ops) u ↔ ∃ t, step s op t ∧ Run step t ops u := by
  rw [← List.singleton_append, append_iff]
  simp [singleton_iff]

/-- An invariant of the operations so far and the state, true at the start
and kept by every step, is true at the end of every run. -/
theorem invariant {Inv : List ι → σ → Prop} (hstart : Inv [] s)
    (hstep : ∀ ops t op u, Inv ops t → step t op u → Inv (ops ++ [op]) u)
    (hrun : Run step s ops t) : Inv ops t := by
  induction hrun with
  | start => exact hstart
  | next _ hnext ih => exact hstep _ _ _ _ ih hnext

/-- If moreover every state of the invariant can take every operation, a run
over any list of operations exists. -/
theorem exists_run {Inv : List ι → σ → Prop} (hstart : Inv [] s)
    (hstep : ∀ ops t op u, Inv ops t → step t op u → Inv (ops ++ [op]) u)
    (hlive : ∀ ops t op, Inv ops t → ∃ u, step t op u) (ops : List ι) :
    ∃ t, Run step s ops t ∧ Inv ops t := by
  induction ops using List.reverseRecOn with
  | nil => exact ⟨s, .start, hstart⟩
  | append_singleton ops op ih =>
      obtain ⟨t, hrun, hinv⟩ := ih
      obtain ⟨u, hu⟩ := hlive ops t op hinv
      exact ⟨u, .next hrun hu, hstep _ _ _ _ hinv hu⟩

/-- A deterministic system has one end for each list of operations. -/
theorem unique (hdet : ∀ s op t u, step s op t → step s op u → t = u)
    (ht : Run step s ops t) (hu : Run step s ops u) : t = u := by
  induction ops using List.reverseRecOn generalizing t u with
  | nil => rw [nil_iff.mp ht, nil_iff.mp hu]
  | append_singleton ops op ih =>
      obtain ⟨t', hrunt, hstept⟩ := snoc_iff.mp ht
      obtain ⟨u', hrunu, hstepu⟩ := snoc_iff.mp hu
      rw [ih hrunt hrunu] at hstept
      exact hdet _ _ _ _ hstept hstepu

/-- Where each step is matched by a step of another system, so is each run. -/
theorem simulates {τ : Type*} {step' : τ → ι → τ → Prop} {R : σ → τ → Prop} {a : τ}
    (hstart : R s a)
    (hstep : ∀ t a op u, R t a → step t op u → ∃ b, step' a op b ∧ R u b)
    (hrun : Run step s ops t) : ∃ b, Run step' a ops b ∧ R t b := by
  induction hrun with
  | start => exact ⟨a, .start, hstart⟩
  | next _ hnext ih =>
      obtain ⟨b, hrunb, hb⟩ := ih
      obtain ⟨c, hc, hrel⟩ := hstep _ _ _ _ hb hnext
      exact ⟨c, .next hrunb hc, hrel⟩

/-- Every step taken on the way through `ops` has the property. -/
def EveryStep (step : σ → ι → σ → Prop) (s : σ) (ops : List ι) (P : σ → ι → σ → Prop) :
    Prop :=
  ∀ pre op post u v, ops = pre ++ op :: post → Run step s pre u → step u op v → P u op v

namespace EveryStep

variable {P C : σ → ι → σ → Prop} {Inv : σ → Prop}

/-- A property of the steps that keeps an invariant brings it to every state. -/
theorem invariant (hall : EveryStep step s ops P) (hstart : Inv s)
    (hkeep : ∀ u op v, Inv u → step u op v → P u op v → Inv v) :
    ∀ pre post u, ops = pre ++ post → Run step s pre u → Inv u := by
  intro pre
  induction pre using List.reverseRecOn with
  | nil =>
      intro post u _ hrun
      rw [nil_iff.mp hrun]
      exact hstart
  | append_singleton pre op ih =>
      intro post u hops hrun
      obtain ⟨t, hpre, hstep⟩ := snoc_iff.mp hrun
      rw [List.append_assoc, List.singleton_append] at hops
      exact hkeep t op u (ih _ t hops hpre) hstep (hall pre op post t u hops hpre hstep)

/-- A property of the steps that keeps an invariant, and under the invariant comes
down to a condition, comes down to it over whole runs. -/
theorem iff_of_step (hstart : Inv s)
    (hiff : ∀ u op v, Inv u → step u op v → (P u op v ↔ C u op v))
    (hkeep : ∀ u op v, Inv u → step u op v → P u op v → Inv v) :
    EveryStep step s ops P ↔ EveryStep step s ops C := by
  constructor
  · intro hall pre op post u v hops hrun hstep
    have hinv : Inv u := hall.invariant hstart hkeep pre _ u hops hrun
    exact (hiff u op v hinv hstep).mp (hall pre op post u v hops hrun hstep)
  · intro hall pre op post u v hops hrun hstep
    have hinv : Inv u := hall.invariant hstart
      (fun u op v hu hstep hc => hkeep u op v hu hstep ((hiff u op v hu hstep).mpr hc))
      pre _ u hops hrun
    exact (hiff u op v hinv hstep).mpr (hall pre op post u v hops hrun hstep)

end EveryStep

/-- Every state reached on the way through `ops`, by the operations that led to
it, has the property. -/
def EveryReached (step : σ → ι → σ → Prop) (s : σ) (ops : List ι)
    (P : List ι → σ → Prop) : Prop :=
  ∀ pre post t, ops = pre ++ post → Run step s pre t → P pre t

/-- When a step keeps the property exactly under a condition, every state
reached has it exactly when every step taken meets the condition. -/
theorem EveryReached.iff_of_step {P : List ι → σ → Prop} {C : List ι → ι → Prop}
    (hstart : P [] s)
    (hstep : ∀ pre t op u, Run step s pre t → P pre t → step t op u →
      (P (pre ++ [op]) u ↔ C pre op)) :
    EveryReached step s ops P ↔
      ∀ pre op post t u, ops = pre ++ op :: post → Run step s pre t → step t op u →
        C pre op := by
  constructor
  · intro hall pre op post t u hops hrun hnext
    have hbefore : P pre t := hall pre (op :: post) t hops hrun
    have hafter : P (pre ++ [op]) u := by
      apply hall (pre ++ [op]) post u _ (.next hrun hnext)
      rw [hops, List.append_assoc, List.singleton_append]
    exact (hstep pre t op u hrun hbefore hnext).mp hafter
  · intro hall pre
    induction pre using List.reverseRecOn with
    | nil =>
        intro post t _ hrun
        rw [nil_iff.mp hrun]
        exact hstart
    | append_singleton pre op ih =>
        intro post u hops hrun
        obtain ⟨t, hpre, hnext⟩ := snoc_iff.mp hrun
        rw [List.append_assoc, List.singleton_append] at hops
        have hbefore : P pre t := ih (op :: post) t hops hpre
        exact (hstep pre t op u hpre hbefore hnext).mpr (hall pre op post t u hops hpre hnext)

end Run

end WizardShell.Verified

import Mathlib.Data.List.Induction

/-!
# Code that takes one input after another

A step function takes a state and an input to the next state, or fails.  A run
takes the inputs in order (`runAll`), up to the first failure.

What holds of whole runs comes from what holds of one step: that no input fails in
a given way (`runAll_ne_error_iff`), that every state reached has a property
(`everyState_iff`), and that a run follows another one that goes through
(`runAll_simulates`).
-/

namespace WizardShell.Verified

variable {σ τ ι ε : Type}

/-- The state after the inputs. -/
def runAll (step : σ → ι → Except ε σ) (s : σ) : List ι → Except ε σ
  | [] => .ok s
  | op :: ops =>
      match step s op with
      | .ok t => runAll step t ops
      | .error e => .error e

/-- Every input finds a state in which it meets the condition. -/
def EveryInput (step : σ → ι → Except ε σ) (s : σ) (ops : List ι) (C : σ → ι → Prop) :
    Prop :=
  ∀ pre op post t, ops = pre ++ op :: post → runAll step s pre = .ok t → C t op

/-- The run goes through, by states that have the property. -/
def EveryState (step : σ → ι → Except ε σ) (s : σ) (ops : List ι) (P : σ → Prop) : Prop :=
  ∀ pre post, ops = pre ++ post → ∃ t, runAll step s pre = .ok t ∧ P t

variable {step : σ → ι → Except ε σ} {s t : σ} {op : ι} {ops xs ys : List ι}

@[simp] theorem runAll_nil (step : σ → ι → Except ε σ) (s : σ) :
    runAll step s [] = .ok s := rfl

theorem runAll_cons_ok (h : step s op = .ok t) :
    runAll step s (op :: ops) = runAll step t ops := by
  rw [runAll, h]

theorem runAll_cons_error {e : ε} (h : step s op = .error e) :
    runAll step s (op :: ops) = .error e := by
  rw [runAll, h]

/-- A run can be cut at any point. -/
theorem runAll_append_ok (h : runAll step s xs = .ok t) :
    runAll step s (xs ++ ys) = runAll step t ys := by
  induction xs generalizing s with
  | nil =>
      cases h
      rfl
  | cons op xs ih =>
      cases hstep : step s op with
      | ok u =>
          rw [runAll_cons_ok hstep] at h
          rw [List.cons_append, runAll_cons_ok hstep]
          exact ih h
      | error e =>
          rw [runAll_cons_error hstep] at h
          cases h

/-- What a run that goes through passes on the way. -/
theorem exists_of_runAll_append (h : runAll step s (xs ++ ys) = .ok t) :
    ∃ u, runAll step s xs = .ok u ∧ runAll step u ys = .ok t := by
  induction xs generalizing s with
  | nil => exact ⟨s, rfl, h⟩
  | cons op xs ih =>
      cases hstep : step s op with
      | ok u =>
          rw [List.cons_append, runAll_cons_ok hstep] at h
          rw [runAll_cons_ok hstep]
          exact ih h
      | error e =>
          rw [List.cons_append, runAll_cons_error hstep] at h
          cases h

/-! ## Inputs and states of a run, one step at a time -/

theorem everyInput_nil {C : σ → ι → Prop} : EveryInput step s [] C := by
  intro pre op post t hops
  simp at hops

theorem everyInput_cons {C : σ → ι → Prop} :
    EveryInput step s (op :: ops) C ↔
      C s op ∧ ∀ t, step s op = .ok t → EveryInput step t ops C := by
  constructor
  · intro h
    refine ⟨h [] op ops s rfl rfl, fun t hstep pre op' post u hops hrun => ?_⟩
    apply h (op :: pre) op' post u (by rw [hops]; rfl)
    rw [runAll_cons_ok hstep]
    exact hrun
  · rintro ⟨hhead, htail⟩ pre op' post u hops hrun
    cases pre with
    | nil =>
        cases hrun
        obtain ⟨rfl, _⟩ := List.cons.inj hops
        exact hhead
    | cons x pre =>
        obtain ⟨rfl, hrest⟩ := List.cons.inj hops
        cases hstep : step s op with
        | ok t =>
            rw [runAll_cons_ok hstep] at hrun
            exact htail t hstep pre op' post u hrest hrun
        | error e =>
            rw [runAll_cons_error hstep] at hrun
            cases hrun

theorem everyState_nil {P : σ → Prop} : EveryState step s [] P ↔ P s := by
  constructor
  · intro h
    obtain ⟨t, hrun, ht⟩ := h [] [] rfl
    cases hrun
    exact ht
  · intro h pre post hops
    obtain ⟨rfl, _⟩ := List.append_eq_nil_iff.mp hops.symm
    exact ⟨s, rfl, h⟩

theorem everyState_cons {P : σ → Prop} :
    EveryState step s (op :: ops) P ↔
      P s ∧ ∃ t, step s op = .ok t ∧ EveryState step t ops P := by
  constructor
  · intro h
    obtain ⟨u, hu, hP⟩ := h [] (op :: ops) rfl
    cases hu
    refine ⟨hP, ?_⟩
    cases hstep : step s op with
    | ok t =>
        refine ⟨t, rfl, fun pre post hops => ?_⟩
        obtain ⟨u, hu, hPu⟩ := h (op :: pre) post (by rw [hops]; rfl)
        rw [runAll_cons_ok hstep] at hu
        exact ⟨u, hu, hPu⟩
    | error e =>
        obtain ⟨u, hu, _⟩ := h [op] ops rfl
        rw [runAll_cons_error hstep] at hu
        cases hu
  · rintro ⟨hP, t, hstep, hrest⟩ pre post hops
    cases pre with
    | nil => exact ⟨s, rfl, hP⟩
    | cons x pre =>
        obtain ⟨rfl, hops'⟩ := List.cons.inj hops
        obtain ⟨u, hu, hPu⟩ := hrest pre post hops'
        exact ⟨u, by rw [runAll_cons_ok hstep]; exact hu, hPu⟩

theorem EveryState.start {P : σ → Prop} (h : EveryState step s ops P) : P s := by
  obtain ⟨t, hrun, ht⟩ := h [] ops rfl
  cases hrun
  exact ht

/-! ## What holds of runs -/

section Invariant

variable (Inv : σ → Prop)

/-- When a run does not fail in the way `e`, given when a step does not. -/
theorem runAll_ne_error_iff {e : ε} {C : σ → ι → Prop}
    (hkeep : ∀ s op t, Inv s → step s op = .ok t → Inv t)
    (hstep : ∀ s op, Inv s → (step s op ≠ .error e ↔ C s op)) (hstart : Inv s) :
    runAll step s ops ≠ .error e ↔ EveryInput step s ops C := by
  induction ops generalizing s with
  | nil => exact iff_of_true (by simp) everyInput_nil
  | cons op ops ih =>
      rw [everyInput_cons, ← hstep s op hstart]
      cases hop : step s op with
      | ok t =>
          rw [runAll_cons_ok hop, ih (hkeep s op t hstart hop)]
          simp
      | error e' =>
          rw [runAll_cons_error hop]
          simp

/-- When a run goes through by states with the property, given when a step leads
to one. -/
theorem everyState_iff {P : σ → Prop} {C : σ → ι → Prop}
    (hkeep : ∀ s op t, op ∈ ops → Inv s → step s op = .ok t → P t → Inv t)
    (hstep : ∀ s op, op ∈ ops → Inv s → ((∃ t, step s op = .ok t ∧ P t) ↔ C s op))
    (hstart : Inv s) (hP : P s) :
    EveryState step s ops P ↔ EveryInput step s ops C := by
  induction ops generalizing s with
  | nil => exact iff_of_true (everyState_nil.mpr hP) everyInput_nil
  | cons op ops ih =>
      have hhead : op ∈ op :: ops := List.mem_cons_self
      have htail : ∀ t, step s op = .ok t → P t →
          (EveryState step t ops P ↔ EveryInput step t ops C) := fun t hop ht =>
        ih (fun s op' t hmem => hkeep s op' t (List.mem_cons_of_mem op hmem))
          (fun s op' hmem => hstep s op' (List.mem_cons_of_mem op hmem))
          (hkeep s op t hhead hstart hop ht) ht
      rw [everyState_cons, everyInput_cons, ← hstep s op hhead hstart]
      constructor
      · rintro ⟨_, t, hop, hrest⟩
        have ht := hrest.start
        refine ⟨⟨t, hop, ht⟩, fun u hu => ?_⟩
        rw [hop] at hu
        cases hu
        exact (htail t hop ht).mp hrest
      · rintro ⟨⟨t, hop, ht⟩, hrest⟩
        exact ⟨hP, t, hop, (htail t hop ht).mpr (hrest t hop)⟩

end Invariant

/-- A run follows another one that goes through, when each step does. -/
theorem runAll_simulates {step' : τ → ι → Except ε τ} {R : σ → τ → Prop}
    (hstep : ∀ s s' op t', R s s' → step' s' op = .ok t' →
      ∃ t, step s op = .ok t ∧ R t t')
    {s' t' : τ} (hR : R s s') (h : runAll step' s' ops = .ok t') :
    ∃ t, runAll step s ops = .ok t ∧ R t t' := by
  induction ops generalizing s s' with
  | nil =>
      cases h
      exact ⟨s, rfl, hR⟩
  | cons op ops ih =>
      cases hop : step' s' op with
      | ok u' =>
          rw [runAll_cons_ok hop] at h
          obtain ⟨u, hu, hRu⟩ := hstep s s' op u' hR hop
          obtain ⟨t, ht, hRt⟩ := ih hRu h
          exact ⟨t, by rw [runAll_cons_ok hu]; exact ht, hRt⟩
      | error e =>
          rw [runAll_cons_error hop] at h
          cases h

end WizardShell.Verified

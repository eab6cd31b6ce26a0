import Mathlib.Data.List.Forall2

/-!
# Outcomes of code that may loop or leave defined behaviour

A C function with an unbounded loop is modelled with a *fuel* argument: the
number of turns each of its loops may take.  Running it gives one of three
outcomes: it returned, it performed an access the language leaves undefined,
or the fuel was used up.  The function terminates when some fuel gives one of
the first two.

The monad threads the two abnormal outcomes, so a model is written in `do`
notation in the order of the source.
-/

namespace WizardShell.Verified

universe u v

/-- What running a piece of code with a bounded number of loop turns gives. -/
inductive Outcome (α : Type u) where
  /-- The code returned this value. -/
  | ret (a : α)
  /-- The code performed an access whose behaviour is undefined. -/
  | undefined
  /-- Some loop needed more turns than it was given. -/
  | outOfFuel
  deriving DecidableEq, Repr

namespace Outcome

variable {α : Type u} {β : Type v}

/-- Sequencing: only a returned value is handed on. -/
def bind (x : Outcome α) (f : α → Outcome β) : Outcome β :=
  match x with
  | ret a => f a
  | undefined => undefined
  | outOfFuel => outOfFuel

instance : Monad Outcome where
  pure := ret
  bind := bind

@[simp] theorem pure_eq (a : α) : (pure a : Outcome α) = ret a := rfl

@[simp] theorem ret_bind {β : Type u} (a : α) (f : α → Outcome β) :
    (ret a >>= f) = f a := rfl

@[simp] theorem undefined_bind {β : Type u} (f : α → Outcome β) :
    ((undefined : Outcome α) >>= f) = undefined := rfl

@[simp] theorem outOfFuel_bind {β : Type u} (f : α → Outcome β) :
    ((outOfFuel : Outcome α) >>= f) = outOfFuel := rfl

instance : LawfulMonad Outcome :=
  LawfulMonad.mk' Outcome
    (by intro α x; cases x <;> rfl)
    (by intro α β a f; rfl)
    (by intro α β γ x f g; cases x <;> rfl)

@[simp] theorem bind_ret (x : Outcome α) : (x >>= ret) = x := by
  cases x <;> rfl

/-- A sequence returns exactly when both of its parts do. -/
theorem bind_eq_ret {β : Type u} {x : Outcome α} {f : α → Outcome β} {b : β} :
    (x >>= f) = ret b ↔ ∃ a, x = ret a ∧ f a = ret b := by
  cases x with
  | ret a => simp
  | undefined => simp
  | outOfFuel => simp

/-- A sequence runs out of fuel in its first or in its second part. -/
theorem bind_eq_outOfFuel {β : Type u} {x : Outcome α} {f : α → Outcome β} :
    (x >>= f) = outOfFuel ↔ x = outOfFuel ∨ ∃ a, x = ret a ∧ f a = outOfFuel := by
  cases x with
  | ret a => simp
  | undefined => simp
  | outOfFuel => simp

/-- The code returns, and what it returns has the property. -/
def Yields (x : Outcome α) (P : α → Prop) : Prop := ∃ a, x = ret a ∧ P a

@[simp] theorem yields_ret {a : α} {P : α → Prop} : (ret a).Yields P ↔ P a := by
  simp [Yields]

theorem Yields.of_ret {x : Outcome α} {P : α → Prop} {b : α} (h : x.Yields P)
    (hret : x = ret b) : P b := by
  rwa [hret, yields_ret] at h

/-- A sequence yields what its second part does on what the first one yields. -/
theorem Yields.bind {β : Type u} {x : Outcome α} {f : α → Outcome β} {P : α → Prop}
    {Q : β → Prop} (hx : x.Yields P) (hf : ∀ a, P a → (f a).Yields Q) :
    (x >>= f).Yields Q := by
  obtain ⟨a, rfl, ha⟩ := hx
  exact hf a ha

/-- Code for the elements of a list, one after another, returns exactly when it returns
for each of them. -/
theorem mapM_eq_ret {β : Type u} {f : α → Outcome β} {as : List α} {bs : List β} :
    as.mapM f = ret bs ↔ List.Forall₂ (fun a b => f a = ret b) as bs := by
  induction as generalizing bs with
  | nil =>
      rw [List.mapM_nil, List.forall₂_nil_left_iff, pure_eq, ret.injEq, eq_comm]
  | cons a as ih =>
      rw [List.mapM_cons, bind_eq_ret]
      constructor
      · rintro ⟨b, hb, hrest⟩
        obtain ⟨cs, hcs, heq⟩ := bind_eq_ret.mp hrest
        cases heq
        exact .cons hb (ih.mp hcs)
      · intro h
        cases h with
        | cons hb hrest => exact ⟨_, hb, bind_eq_ret.mpr ⟨_, ih.mpr hrest, rfl⟩⟩

/-- The value of an outcome that returned. -/
def value? : Outcome α → Option α
  | ret a => some a
  | _ => none

@[simp] theorem value?_ret (a : α) : (ret a).value? = some a := rfl

/-- Code run with fuel terminates: some fuel does not run out. -/
def Terminates (run : Nat → Outcome α) : Prop :=
  ∃ fuel, run fuel ≠ outOfFuel

/-- Code run with fuel returns this value for some fuel. -/
def Returns (run : Nat → Outcome α) (a : α) : Prop :=
  ∃ fuel, run fuel = ret a

end Outcome

end WizardShell.Verified

import WizardShell.Ports.Redirection

/-!
# The command of an accepted line

`execute` runs the first token that is no operator and does not follow one.
`first_nonredirect` looks for it without a test for the end of the tokens, so
the line has to have such a token: the scan of `execute` does not see to that.

`findsCommand_iff`: an accepted line has one exactly when it is not made of
redirections alone, of which there are three kinds.
-/

namespace WizardShell.Ports

open WizardShell.Verified

/-- `first_nonredirect(tokens, "\0")` returns, before it comes to the NULL, a token
of the list that is no operator and does not follow one. -/
def FindsCommand (tokens : List CString) : Prop :=
  ∃ pre tok post, firstNonredirect tokens .empty = .ret tok ∧ tokens = pre ++ tok :: post ∧
    isNotRedirect tok = true ∧ ∀ prev ∈ pre.getLast?, isNotRedirect prev = true

/-- Lines without a command: one redirection, two of them, or two operators of which
the second is taken for the file of the first. -/
inductive OnlyRedirections : List CString → Prop where
  | one {op file : CString} (hop : isNotRedirect op = false)
      (hfile : isNotRedirect file = true) : OnlyRedirections [op, file]
  | two {op file op' file' : CString} (hop : isNotRedirect op = false)
      (hfile : isNotRedirect file = true) (hop' : isNotRedirect op' = false)
      (hfile' : isNotRedirect file' = true) : OnlyRedirections [op, file, op', file']
  | chained {op op' file : CString} (hop : isNotRedirect op = false)
      (hop' : isNotRedirect op' = false) (hfile : isNotRedirect file = true) :
      OnlyRedirections [op, op', file]

/-- The number of operators among the tokens. -/
def operators (tokens : List CString) : Nat := tokens.countP fun tok => !isNotRedirect tok

section Operators

variable {tok prev : CString} {rest tokens : List CString}

theorem operators_op (h : isNotRedirect tok = false) :
    operators (tok :: rest) = operators rest + 1 := by
  rw [operators, List.countP_cons_of_pos (by simp [h])]
  rfl

theorem operators_word (h : isNotRedirect tok = true) :
    operators (tok :: rest) = operators rest := by
  rw [operators, List.countP_cons_of_neg (by simp [h])]
  rfl

/-- Where no operator is left, a word is next. -/
theorem isNotRedirect_of_operators (h : operators (tok :: rest) = 0) :
    isNotRedirect tok = true := by
  cases htok : isNotRedirect tok with
  | true => rfl
  | false =>
      rw [operators_op htok] at h
      omega

theorem operators_eq (tokens : List CString) :
    operators tokens = tokens.count tokIn + (tokens.count tokOut + tokens.count tokAppend) := by
  induction tokens with
  | nil => rfl
  | cons tok rest ih =>
      have hinout : tokIn ≠ tokOut := by decide
      have hinapp : tokIn ≠ tokAppend := by decide
      have houtapp : tokOut ≠ tokAppend := by decide
      simp only [List.count_cons, beq_iff_eq]
      by_cases hin : tok = tokIn
      · subst hin
        rw [operators_op (by decide), ih, if_pos rfl, if_neg hinout, if_neg hinapp]
        omega
      by_cases hout : tok = tokOut
      · subst hout
        rw [operators_op (by decide), ih, if_pos rfl, if_neg hin, if_neg houtapp]
        omega
      by_cases happend : tok = tokAppend
      · subst happend
        rw [operators_op (by decide), ih, if_pos rfl, if_neg hin, if_neg hout]
        omega
      · rw [operators_word (by simp [isNotRedirect, hin, hout, happend]), ih, if_neg hin,
          if_neg hout, if_neg happend]
        omega

theorem WellRedirected.operators_le (h : WellRedirected tokens) : operators tokens ≤ 2 := by
  have hin := h.input
  have hout := h.output
  rw [operators_eq]
  omega

/-- The last of the tokens is no operator, so something stands behind one. -/
theorem exists_behind (hlast : ∀ t ∈ (tok :: rest).getLast?, isNotRedirect t = true)
    (htok : isNotRedirect tok = false) : ∃ next rest', rest = next :: rest' := by
  cases rest with
  | nil =>
      rw [hlast tok rfl] at htok
      cases htok
  | cons next rest' => exact ⟨next, rest', rfl⟩

end Operators

section Search

variable {tok prev : CString} {rest : List CString}

theorem firstNonredirect_found (htok : isNotRedirect tok = true)
    (hprev : isNotRedirect prev = true) : firstNonredirect (tok :: rest) prev = .ret tok := by
  simp [firstNonredirect, htok, hprev]

theorem firstNonredirect_op (htok : isNotRedirect tok = false) :
    firstNonredirect (tok :: rest) prev = firstNonredirect rest tok := by
  simp [firstNonredirect, htok]

theorem firstNonredirect_file (hprev : isNotRedirect prev = false) :
    firstNonredirect (tok :: rest) prev = firstNonredirect rest tok := by
  simp [firstNonredirect, hprev]

/-- What is found is no operator, and neither is what stands in front of it. -/
theorem firstNonredirect_spec {tokens : List CString}
    (h : firstNonredirect tokens prev = .ret tok) :
    ∃ pre post, tokens = pre ++ tok :: post ∧ isNotRedirect tok = true ∧
      isNotRedirect (pre.getLast?.getD prev) = true := by
  induction tokens generalizing prev with
  | nil => cases h
  | cons t rest ih =>
      rw [firstNonredirect] at h
      by_cases hfound : (isNotRedirect t && isNotRedirect prev) = true
      · rw [if_pos hfound] at h
        cases h
        rw [Bool.and_eq_true] at hfound
        exact ⟨[], rest, rfl, hfound.1, hfound.2⟩
      · rw [if_neg hfound] at h
        obtain ⟨pre, post, rfl, htok, hbefore⟩ := ih h
        refine ⟨t :: pre, post, rfl, htok, ?_⟩
        rw [List.getLast?_cons]
        exact hbefore

theorem findsCommand_of_ret {tokens : List CString}
    (h : firstNonredirect tokens .empty = .ret tok) : FindsCommand tokens := by
  obtain ⟨pre, post, hsplit, htok, hbefore⟩ := firstNonredirect_spec h
  refine ⟨pre, tok, post, h, hsplit, htok, fun p hp => ?_⟩
  have hlast : pre.getLast? = some p := hp
  rw [hlast] at hbefore
  exact hbefore

end Search

/-- A line of redirections alone sends the search past the NULL. -/
theorem OnlyRedirections.not_findsCommand {tokens : List CString} (h : OnlyRedirections tokens) :
    ¬ FindsCommand tokens := by
  rintro ⟨pre, tok, post, hret, _⟩
  cases h with
  | one hop hfile =>
      rw [firstNonredirect_op hop, firstNonredirect_file hop] at hret
      cases hret
  | two hop hfile hop' hfile' =>
      rw [firstNonredirect_op hop, firstNonredirect_file hop, firstNonredirect_op hop',
        firstNonredirect_file hop'] at hret
      cases hret
  | chained hop hop' hfile =>
      rw [firstNonredirect_op hop, firstNonredirect_op hop', firstNonredirect_file hop'] at hret
      cases hret

/-- With two operators at most and none of them last, every other line has a command. -/
theorem WellRedirected.findsCommand {tokens : List CString} (h : WellRedirected tokens)
    (hne : tokens ≠ []) (honly : ¬ OnlyRedirections tokens) : FindsCommand tokens := by
  have hops := h.operators_le
  have hlast := h.last
  obtain ⟨t₁, rest₁, rfl⟩ := List.exists_cons_of_ne_nil hne
  cases h₁ : isNotRedirect t₁ with
  | true => exact findsCommand_of_ret (firstNonredirect_found h₁ isNotRedirect_empty)
  | false =>
  obtain ⟨t₂, rest₂, rfl⟩ := exists_behind hlast h₁
  rw [List.getLast?_cons_cons] at hlast
  rw [operators_op h₁] at hops
  cases h₂ : isNotRedirect t₂ with
  | true =>
      rw [operators_word h₂] at hops
      cases rest₂ with
      | nil => exact absurd (.one h₁ h₂) honly
      | cons t₃ rest₃ =>
      rw [List.getLast?_cons_cons] at hlast
      have hfirst : firstNonredirect (t₁ :: t₂ :: t₃ :: rest₃) .empty =
          firstNonredirect (t₃ :: rest₃) t₂ := by
        rw [firstNonredirect_op h₁, firstNonredirect_file h₁]
      cases h₃ : isNotRedirect t₃ with
      | true => exact findsCommand_of_ret (hfirst.trans (firstNonredirect_found h₃ h₂))
      | false =>
      -- The second redirection: only words follow it.
      obtain ⟨t₄, rest₄, rfl⟩ := exists_behind hlast h₃
      rw [operators_op h₃] at hops
      have h₄ := isNotRedirect_of_operators (by omega : operators (t₄ :: rest₄) = 0)
      rw [operators_word h₄] at hops
      cases rest₄ with
      | nil => exact absurd (.two h₁ h₂ h₃ h₄) honly
      | cons t₅ rest₅ =>
      rw [firstNonredirect_op h₃, firstNonredirect_file h₃] at hfirst
      have h₅ := isNotRedirect_of_operators (by omega : operators (t₅ :: rest₅) = 0)
      exact findsCommand_of_ret (hfirst.trans (firstNonredirect_found h₅ h₄))
  | false =>
      -- An operator is the operand of the first: only words follow.
      obtain ⟨t₃, rest₃, rfl⟩ := exists_behind hlast h₂
      rw [operators_op h₂] at hops
      have h₃ := isNotRedirect_of_operators (by omega : operators (t₃ :: rest₃) = 0)
      rw [operators_word h₃] at hops
      cases rest₃ with
      | nil => exact absurd (.chained h₁ h₂ h₃) honly
      | cons t₄ rest₄ =>
      have hfirst : firstNonredirect (t₁ :: t₂ :: t₃ :: t₄ :: rest₄) .empty =
          firstNonredirect (t₄ :: rest₄) t₃ := by
        rw [firstNonredirect_op h₁, firstNonredirect_op h₂, firstNonredirect_file h₂]
      have h₄ := isNotRedirect_of_operators (by omega : operators (t₄ :: rest₄) = 0)
      exact findsCommand_of_ret (hfirst.trans (firstNonredirect_found h₄ h₃))

/-- `< f` is accepted, and has no command. -/
theorem not_findsCommand_input :
    Accepted [tokIn, .lit ['f']] ∧ ¬ FindsCommand [tokIn, .lit ['f']] := by
  constructor
  · exact ⟨{ input := .lit ['f'], output := .empty, isOutputDouble := false }, by rfl⟩
  · exact OnlyRedirections.not_findsCommand (.one (by decide) (by decide))

/-- **When an accepted line has a command**: exactly when it is not made of
redirections alone. -/
theorem findsCommand_iff (tokens : List CString) (hne : tokens ≠ [])
    (htokens : ∀ tok ∈ tokens, tok ≠ .empty) (haccepted : Accepted tokens) :
    FindsCommand tokens ↔ ¬ OnlyRedirections tokens := by
  constructor
  · intro h honly
    exact honly.not_findsCommand h
  · exact ((accepted_iff htokens).mp haccepted).findsCommand hne

/-- `sort < f` -/
theorem findsCommand_iff_sort :
    [CString.lit ['s'], tokIn, .lit ['f']] ≠ [] ∧
    (∀ tok ∈ [CString.lit ['s'], tokIn, .lit ['f']], tok ≠ .empty) ∧
    Accepted [.lit ['s'], tokIn, .lit ['f']] ∧
    (FindsCommand [.lit ['s'], tokIn, .lit ['f']] ↔
      ¬ OnlyRedirections [.lit ['s'], tokIn, .lit ['f']]) :=
  have htokens : ∀ tok ∈ [CString.lit ['s'], tokIn, .lit ['f']], tok ≠ .empty := by decide
  have haccepted : Accepted [.lit ['s'], tokIn, .lit ['f']] :=
    ⟨{ input := .lit ['f'], output := .empty, isOutputDouble := false }, by rfl⟩
  ⟨by decide, htokens, haccepted, findsCommand_iff _ (by decide) htokens haccepted⟩

end WizardShell.Ports

import Mathlib.Data.List.TakeWhile

/-!
# Texts and their tokens

A text is `Spaced` as a list of tokens when it is these tokens with runs of
delimiters around them: any run in front of the first and behind the last, and a
non-empty run between two.  Every text is spaced in this way
(`exists_spaced`), so its tokens are its maximal pieces without a delimiter.
-/

namespace WizardShell.Verified

variable {α : Type} {isDelim : α → Bool}

/-- The text is these tokens, with delimiters around them. -/
inductive Spaced (isDelim : α → Bool) : List α → List (List α) → Prop where
  | blank {ds : List α} (hds : ∀ d ∈ ds, isDelim d = true) : Spaced isDelim ds []
  | token {ds tok rest : List α} {c : α} {toks : List (List α)}
      (hds : ∀ d ∈ ds, isDelim d = true) (htok : ∀ x ∈ c :: tok, isDelim x = false)
      (hend : ∀ d ∈ rest.head?, isDelim d = true) (hrest : Spaced isDelim rest toks) :
      Spaced isDelim (ds ++ (c :: tok) ++ rest) ((c :: tok) :: toks)

/-- A text has no token, or one up to its end, or one cut off by a delimiter. -/
theorem exists_split (isDelim : α → Bool) (text : List α) :
    (∀ c ∈ text, isDelim c = true) ∨
    (∃ ds c tok, text = ds ++ c :: tok ∧ (∀ d ∈ ds, isDelim d = true) ∧
      ∀ x ∈ c :: tok, isDelim x = false) ∨
    (∃ ds c tok d rest, text = ds ++ (c :: tok) ++ d :: rest ∧
      (∀ d ∈ ds, isDelim d = true) ∧ (∀ x ∈ c :: tok, isDelim x = false) ∧
      isDelim d = true) := by
  have hds : ∀ d ∈ text.takeWhile isDelim, isDelim d = true :=
    fun d hd => List.mem_takeWhile_imp hd
  cases hrest : text.dropWhile isDelim with
  | nil => exact .inl (List.dropWhile_eq_nil_iff.mp hrest)
  | cons c more =>
      have htext : text = text.takeWhile isDelim ++ c :: more := by
        rw [← hrest, List.takeWhile_append_dropWhile]
      have hc : isDelim c = false := by
        have hhead := List.head?_dropWhile_not isDelim text
        rw [hrest] at hhead
        simpa using hhead
      have htok : ∀ x ∈ c :: more.takeWhile (fun x => !isDelim x), isDelim x = false := by
        intro x hx
        rcases List.mem_cons.mp hx with rfl | hmem
        · exact hc
        · simpa using List.mem_takeWhile_imp hmem
      have hmore : more = more.takeWhile (fun x => !isDelim x) ++
          more.dropWhile (fun x => !isDelim x) := List.takeWhile_append_dropWhile.symm
      cases htail : more.dropWhile (fun x => !isDelim x) with
      | nil =>
          rw [htail, List.append_nil] at hmore
          rw [hmore] at htext
          exact .inr (.inl ⟨_, c, _, htext, hds, htok⟩)
      | cons d rest =>
          have hd : isDelim d = true := by
            have hhead := List.head?_dropWhile_not (fun x => !isDelim x) more
            rw [htail] at hhead
            simpa using hhead
          rw [htail] at hmore
          refine .inr (.inr ⟨_, c, _, d, rest, ?_, hds, htok, hd⟩)
          rw [List.append_assoc, List.cons_append, ← hmore]
          exact htext

/-- Every text is spaced. -/
theorem exists_spaced (isDelim : α → Bool) (text : List α) :
    ∃ toks, Spaced isDelim text toks := by
  induction hlen : text.length using Nat.strong_induction_on generalizing text with
  | _ n ih =>
      rcases exists_split isDelim text with
        hall | ⟨ds, c, tok, rfl, hds, htok⟩ | ⟨ds, c, tok, d, rest, rfl, hds, htok, hd⟩
      · exact ⟨[], .blank hall⟩
      · refine ⟨[c :: tok], ?_⟩
        rw [← List.append_nil (ds ++ c :: tok)]
        exact .token hds htok (by simp) (.blank (by simp))
      · rw [List.length_append, List.length_append, List.length_cons] at hlen
        obtain ⟨toks, hrest⟩ := ih (d :: rest).length (by omega) (d :: rest) rfl
        exact ⟨(c :: tok) :: toks, .token hds htok (by simpa using hd) hrest⟩

/-- A delimiter in front does not matter. -/
theorem Spaced.of_cons {text : List α} {toks : List (List α)} {d : α}
    (h : Spaced isDelim (d :: text) toks) (hd : isDelim d = true) : Spaced isDelim text toks := by
  generalize hwhole : d :: text = whole at h
  cases h with
  | blank hds =>
      subst hwhole
      exact .blank fun x hx => hds x (List.mem_cons_of_mem d hx)
  | @token ds tok rest c toks hds htok hend hrest =>
      cases ds with
      | nil =>
          obtain ⟨rfl, _⟩ := List.cons.inj hwhole
          rw [htok d List.mem_cons_self] at hd
          cases hd
      | cons x ds =>
          obtain ⟨_, rfl⟩ := List.cons.inj hwhole
          exact .token (fun y hy => hds y (List.mem_cons_of_mem x hy)) htok hend hrest

/-- Nor does one that is added. -/
theorem Spaced.cons {text : List α} {toks : List (List α)} {d : α}
    (h : Spaced isDelim text toks) (hd : isDelim d = true) : Spaced isDelim (d :: text) toks := by
  have hmore : ∀ {ds : List α}, (∀ x ∈ ds, isDelim x = true) →
      ∀ x ∈ d :: ds, isDelim x = true := by
    intro ds hds x hx
    rcases List.mem_cons.mp hx with rfl | hx
    · exact hd
    · exact hds x hx
  cases h with
  | blank hds => exact .blank (hmore hds)
  | token hds htok hend hrest => exact .token (hmore hds) htok hend hrest

/-- A token and a delimiter in front of a text. -/
theorem Spaced.word {text tok : List α} {toks : List (List α)} {d : α}
    (h : Spaced isDelim text toks) (hne : tok ≠ []) (htok : ∀ x ∈ tok, isDelim x = false)
    (hd : isDelim d = true) : Spaced isDelim (tok ++ d :: text) (tok :: toks) := by
  obtain ⟨c, rest, rfl⟩ := List.exists_cons_of_ne_nil hne
  have hnone : ∀ x ∈ ([] : List α), isDelim x = true := by simp
  exact .token hnone htok (by simpa using hd) (h.cons hd)

/-- Tokens with a delimiter behind each of them. -/
theorem spaced_flatMap {d : α} (hd : isDelim d = true) {toks : List (List α)}
    (h : ∀ tok ∈ toks, tok ≠ [] ∧ ∀ x ∈ tok, isDelim x = false) :
    Spaced isDelim (toks.flatMap fun tok => tok ++ [d]) toks := by
  induction toks with
  | nil => exact .blank (by simp)
  | cons tok rest ih =>
      obtain ⟨hne, htok⟩ := h tok List.mem_cons_self
      rw [List.flatMap_cons, List.append_assoc, List.singleton_append]
      exact (ih fun tok' htok' => h tok' (List.mem_cons_of_mem tok htok')).word hne htok hd

/-- A text is cut in one way into a front with the property and a rest that does not
begin with it. -/
theorem append_unique {p : α → Bool} {xs ys xs' ys' : List α} (hxs : ∀ x ∈ xs, p x = true)
    (hys : ∀ y ∈ ys.head?, p y = false) (hxs' : ∀ x ∈ xs', p x = true)
    (hys' : ∀ y ∈ ys'.head?, p y = false) (heq : xs ++ ys = xs' ++ ys') :
    xs = xs' ∧ ys = ys' := by
  have hfront : ∀ {xs ys : List α}, (∀ x ∈ xs, p x = true) → (∀ y ∈ ys.head?, p y = false) →
      (xs ++ ys).takeWhile p = xs := by
    intro xs ys hxs hys
    rw [List.takeWhile_append_of_pos hxs]
    cases ys with
    | nil => simp
    | cons y ys => simp [hys y rfl]
  have hsame : xs = xs' := by rw [← hfront hxs hys, heq, hfront hxs' hys']
  subst hsame
  exact ⟨rfl, List.append_cancel_left heq⟩

/-- A text is spaced in one way. -/
theorem Spaced.unique {text : List α} {toks toks' : List (List α)}
    (h : Spaced isDelim text toks) (h' : Spaced isDelim text toks') : toks = toks' := by
  induction h generalizing toks' with
  | blank hds =>
      cases h' with
      | blank _ => rfl
      | @token ds tok rest c _ _ htok _ _ =>
          have hc := hds c (by simp)
          rw [htok c List.mem_cons_self] at hc
          cases hc
  | @token ds tok rest c toks hds htok hend hrest ih =>
      generalize hwhole : ds ++ (c :: tok) ++ rest = whole at h'
      cases h' with
      | blank hds' =>
          have hc := hds' c (by rw [← hwhole]; simp)
          rw [htok c List.mem_cons_self] at hc
          cases hc
      | @token ds' tok' rest' c' toks' hds' htok' hend' hrest' =>
          rw [List.append_assoc, List.append_assoc] at hwhole
          obtain ⟨rfl, hwords⟩ := append_unique hds (by simpa using htok c List.mem_cons_self)
            hds' (by simpa using htok' c' List.mem_cons_self) hwhole
          obtain ⟨hword, rfl⟩ := append_unique (p := fun x => !isDelim x)
            (by simpa using htok) (by simpa using hend) (by simpa using htok')
            (by simpa using hend') hwords
          rw [hword, ih hrest']

/-- The bytes of the tokens are bytes of the text. -/
theorem Spaced.subset {text : List α} {toks : List (List α)} (h : Spaced isDelim text toks)
    {tok : List α} (htok : tok ∈ toks) : tok ⊆ text := by
  induction h with
  | blank _ => cases htok
  | token _ _ _ _ ih =>
      rcases List.mem_cons.mp htok with rfl | hmem
      · intro x hx
        exact List.mem_append_left _ (List.mem_append_right _ hx)
      · exact List.subset_append_of_subset_right _ (ih hmem)

/-- There are no more tokens than bytes. -/
theorem Spaced.length_le {text : List α} {toks : List (List α)}
    (h : Spaced isDelim text toks) : toks.length ≤ text.length := by
  induction h with
  | blank _ => exact Nat.zero_le _
  | token _ _ _ _ ih =>
      rw [List.length_append, List.length_append, List.length_cons, List.length_cons]
      omega

end WizardShell.Verified

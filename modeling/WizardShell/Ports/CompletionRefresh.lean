import WizardShell.Ports.Completions
import WizardShell.Ports.Resolve

/-!
# The completion words over one prompt iteration

At the top of an iteration `wsh_main` inserts the names of the current
directory into the completions trie, and at its bottom it removes them.  The
trie is a set, so a name that was a completion word before is lost; a line
whose `splash` fails skips the bottom; and the pointer `tn_remove` returns is
dropped, so that a root freed there stays in use.

`keepsWords_iff` says exactly when the next iteration starts with the words
this one started with.
-/

namespace WizardShell.Ports

open WizardShell.Verified
open TrieNode (null node)

/-- What `completions` points to: a trie, or a root that has been freed. -/
inductive CompletionsPtr where
  | root (t : TrieNode)
  | freed

/-- Does the loop insert, and later remove, this name? -/
def isOffered (curr : CString) : Bool :=
  isVisible curr && !(notalpha curr || !strIslower curr)

/-- The loop at the top: `tn_insert(completions, curr)` for the names. -/
def insertListing : List CString → TrieNode → Outcome TrieNode
  | [], t => .ret t
  | curr :: rest, t =>
      if isOffered curr then do
        let t ← tnInsert t curr
        insertListing rest t
      else insertListing rest t

/-- The loop at the bottom: `tn_remove(completions, curr, 0)` for the names,
whose result nobody stores. -/
def removeListing : List CString → CompletionsPtr → Outcome CompletionsPtr
  | [], c => .ret c
  | curr :: rest, c =>
      if isOffered curr then
        match c with
        | .freed => .undefined
        | .root t => do
            let t ← tnRemove t curr 0
            removeListing rest (if t.isNull then .freed else .root t)
      else removeListing rest c

/-- How the body of the loop is left after a line. -/
inductive LineEnd where
  /-- At the bottom, past the removal loop. -/
  | bottom
  /-- By `continue`. -/
  | skip
  /-- By `exit`. -/
  | exited
  deriving DecidableEq

/-- A line, resolved and prepared, and what the functions it may call do. -/
structure Line where
  fTokens : List CString
  argv : Block (Option CString)
  /-- The builtins; with `true` the builtin returns when given these tokens. -/
  biTable : CString → Option (List CString → Bool)
  /-- What `splash()` returns. -/
  splash : Int

/-- The dispatch of a line in `wsh_main`. -/
def Line.dispatch (line : Line) : Outcome LineEnd :=
  match line.fTokens with
  | [] => .ret .bottom
  | name :: _ =>
      match line.biTable name with
      | some bi => .ret (if bi line.fTokens then .bottom else .exited)
      | none => do
          match ← line.argv.read 0 with
          | none => .undefined
          | some arg0 =>
              if arg0 = .lit ['s', 'p', 'l', 'a', 's', 'h'] then
                return if line.splash ≠ 0 then .skip else .bottom
              else
                -- `process_alias` or `execute`, both back to the bottom
                return .bottom

/-- One iteration, from the trie it starts with to what `completions` points
to when the next one starts; `none` when there is no next one. -/
def iteration (listing : List CString) (line : Line) (t : TrieNode) :
    Outcome (Option CompletionsPtr) := do
  let t ← insertListing listing t
  match ← line.dispatch with
  | .exited => return none
  | .skip => return some (.root t)
  | .bottom =>
      let c ← removeListing listing (.root t)
      return some c

/-- If there is a next iteration, it starts with a trie of the same words. -/
def KeepsWords (listing : List CString) (line : Line) (t : TrieNode) : Prop :=
  ∃ next, iteration listing line t = .ret next ∧
    ∀ c, next = some c →
      ∃ t', c = .root t' ∧ t' ≠ null ∧
        ∀ v : LowerWord, tnSearch t' v.text = tnSearch t v.text

/-- The directory has the file `cd`: afterwards the builtin is no completion. -/
theorem not_keepsWords_cd :
    ∃ t, TrieRun [.insert ⟨.lit ['c', 'd'], lower_of_all rfl⟩,
        .insert ⟨.lit ['l', 's'], lower_of_all rfl⟩] t ∧ t ≠ null ∧
      ¬ KeepsWords [.lit ['c', 'd']]
        { fTokens := [], argv := .alloc 1 fun _ => none,
          biTable := fun _ => none, splash := 0 } t := by
  obtain ⟨s, hs⟩ : ∃ s, tnInsert tnGetNode (.lit ['c', 'd']) = .ret s := ⟨_, rfl⟩
  obtain ⟨t, ht⟩ : ∃ t, tnInsert s (.lit ['l', 's']) = .ret t := by
    cases hs
    exact ⟨_, rfl⟩
  have hne : s ≠ null ∧ t ≠ null := by
    cases hs
    cases ht
    exact ⟨TrieNode.noConfusion, TrieNode.noConfusion⟩
  refine ⟨t, .next (.next .start ⟨TrieNode.noConfusion, hs⟩) ⟨hne.1, ht⟩, hne.2, ?_⟩
  rintro ⟨next, hret, hkept⟩
  cases hs
  cases ht
  cases hret
  obtain ⟨t', hroot, _, hsame⟩ := hkept _ rfl
  cases hroot
  exact absurd (hsame ⟨.lit ['c', 'd'], lower_of_all rfl⟩) (by decide)

/-! ## The two loops as set operations -/

/-- The words the loops insert and remove. -/
def offeredWords (listing : List CString) : Set LowerWord :=
  { w | w.text ∈ listing ∧ isOffered w.text = true }

theorem lower_of_isalpha {b : UInt8} (halpha : isalpha b = true)
    (hlower : b = tolower b) : isLowerByte b = true := by
  unfold isalpha at halpha
  unfold tolower at hlower
  split at hlower
  · rename_i hupper
    simp only [Bool.and_eq_true, decide_eq_true_eq] at hupper
    rw [UInt8.le_iff_toNat_le, UInt8.le_iff_toNat_le] at hupper
    have hval := congrArg UInt8.toNat hlower
    rw [UInt8.toNat_add] at hval
    have h90 : (90 : UInt8).toNat = 90 := rfl
    have h32 : (32 : UInt8).toNat = 32 := rfl
    omega
  · rename_i hupper
    simpa [hupper, isLowerByte] using halpha

/-- What gets past the two tests of a name is a lower-case word. -/
theorem exists_word_of_guarded {name : CString} (halpha : notalpha name = false)
    (hlower : strIslower name = true) : ∃ w : LowerWord, w.text = name := by
  simp only [notalpha, List.any_eq_false] at halpha
  simp only [strIslower, List.all_eq_true, beq_iff_eq] at hlower
  exact ⟨⟨name, fun b hb => lower_of_isalpha (by simpa using halpha b hb) (hlower b hb)⟩, rfl⟩

theorem exists_word_of_isOffered {curr : CString} (h : isOffered curr = true) :
    ∃ w : LowerWord, w.text = curr := by
  simp only [isOffered, Bool.and_eq_true, Bool.not_eq_true', Bool.or_eq_false_iff] at h
  obtain ⟨_, halpha, hlower⟩ := h
  exact exists_word_of_guarded halpha (by simpa using hlower)

theorem offeredWords_nil : offeredWords [] = ∅ := by
  simp [offeredWords]

theorem offeredWords_cons_skip {curr : CString} {rest : List CString}
    (h : ¬ isOffered curr = true) :
    offeredWords (curr :: rest) = offeredWords rest := by
  ext w
  simp only [offeredWords, List.mem_cons, Set.mem_ofPred_eq]
  constructor
  · rintro ⟨rfl | hmem, hoff⟩
    · exact absurd hoff h
    · exact ⟨hmem, hoff⟩
  · rintro ⟨hmem, hoff⟩
    exact ⟨.inr hmem, hoff⟩

theorem offeredWords_cons_word {w : LowerWord} {rest : List CString}
    (h : isOffered w.text = true) :
    offeredWords (w.text :: rest) = Insert.insert w (offeredWords rest) := by
  ext v
  simp only [offeredWords, List.mem_cons, Set.mem_ofPred_eq, Set.mem_insert_iff]
  constructor
  · rintro ⟨htext | hmem, hoff⟩
    · exact .inl (LowerWord.ext htext)
    · exact .inr ⟨hmem, hoff⟩
  · rintro (rfl | ⟨hmem, hoff⟩)
    · exact ⟨.inl rfl, h⟩
    · exact ⟨.inr hmem, hoff⟩

/-- The top of the iteration adds the names. -/
theorem insertListing_spec (listing : List CString) :
    ∀ {t : TrieNode} {S : Set LowerWord}, Holds t S → t ≠ null →
      ∃ t', insertListing listing t = .ret t' ∧ t' ≠ null ∧
        Holds t' (S ∪ offeredWords listing) := by
  induction listing with
  | nil =>
      intro t S hholds hne
      exact ⟨t, rfl, hne, by rwa [offeredWords_nil, Set.union_empty]⟩
  | cons curr rest ih =>
      intro t S hholds hne
      by_cases hoff : isOffered curr = true
      · obtain ⟨w, rfl⟩ := exists_word_of_isOffered hoff
        obtain ⟨s, hs, hsne, hsholds⟩ := hholds.insert hne w
        obtain ⟨t', ht', htne, htholds⟩ := ih hsholds hsne
        refine ⟨t', by simp [insertListing, hoff, hs, ht'], htne, ?_⟩
        rw [offeredWords_cons_word hoff, Set.union_insert, ← Set.insert_union]
        exact htholds
      · obtain ⟨t', ht', htne, htholds⟩ := ih hholds hne
        refine ⟨t', by simp [insertListing, hoff, ht'], htne, ?_⟩
        rwa [offeredWords_cons_skip hoff]

/-- Without a name to remove, the bottom of the iteration changes nothing. -/
theorem removeListing_of_empty {listing : List CString}
    (h : offeredWords listing = ∅) (c : CompletionsPtr) :
    removeListing listing c = .ret c := by
  induction listing with
  | nil => rfl
  | cons curr rest ih =>
      by_cases hoff : isOffered curr = true
      · obtain ⟨w, rfl⟩ := exists_word_of_isOffered hoff
        rw [offeredWords_cons_word hoff] at h
        exact absurd h (Set.insert_nonempty w _).ne_empty
      · rw [offeredWords_cons_skip hoff] at h
        simp only [removeListing, if_neg hoff]
        exact ih h

theorem sdiff_insert_eq (S E : Set LowerWord) (w : LowerWord) :
    S \ Insert.insert w E = (S \ {w}) \ E := by
  rw [Set.sdiff_sdiff, Set.singleton_union]

/-- While a word is left, the bottom of the iteration removes the names. -/
theorem removeListing_of_nonempty (listing : List CString) :
    ∀ {t : TrieNode} {S : Set LowerWord}, Holds t S → t ≠ null →
      (S \ offeredWords listing).Nonempty →
      ∃ t', removeListing listing (.root t) = .ret (.root t') ∧ t' ≠ null ∧
        Holds t' (S \ offeredWords listing) := by
  induction listing with
  | nil =>
      intro t S hholds hne _
      exact ⟨t, rfl, hne, by rwa [offeredWords_nil, Set.sdiff_empty]⟩
  | cons curr rest ih =>
      intro t S hholds hne hleft
      by_cases hoff : isOffered curr = true
      · obtain ⟨w, rfl⟩ := exists_word_of_isOffered hoff
        rw [offeredWords_cons_word hoff, sdiff_insert_eq] at hleft ⊢
        obtain ⟨s, hs, hnull, hsholds⟩ := hholds.remove hne w
        have hsne : s ≠ null := by
          rw [ne_eq, hnull]
          exact (hleft.mono Set.sdiff_subset).ne_empty
        obtain ⟨t', ht', htne, htholds⟩ := ih hsholds hsne hleft
        exact ⟨t', by simp [removeListing, hoff, hs, hsne, ht'], htne, htholds⟩
      · rw [offeredWords_cons_skip hoff] at hleft ⊢
        obtain ⟨t', ht', htne, htholds⟩ := ih hholds hne hleft
        exact ⟨t', by simp [removeListing, hoff, ht'], htne, htholds⟩

/-- A freed root stays freed, or is used. -/
theorem removeListing_freed (listing : List CString) (t' : TrieNode) :
    removeListing listing .freed ≠ .ret (.root t') := by
  induction listing with
  | nil => simp [removeListing]
  | cons curr rest ih =>
      unfold removeListing
      split
      · simp
      · exact ih

/-- When the names are all the words there are, the root is freed. -/
theorem removeListing_of_all (listing : List CString) :
    ∀ {t : TrieNode} {S : Set LowerWord}, Holds t S → t ≠ null →
      S \ offeredWords listing = ∅ → (offeredWords listing).Nonempty →
      ∀ t', removeListing listing (.root t) ≠ .ret (.root t') := by
  induction listing with
  | nil =>
      intro t S _ _ _ hsome
      rw [offeredWords_nil] at hsome
      exact absurd hsome Set.not_nonempty_empty
  | cons curr rest ih =>
      intro t S hholds hne hall hsome t'
      by_cases hoff : isOffered curr = true
      · obtain ⟨w, rfl⟩ := exists_word_of_isOffered hoff
        rw [offeredWords_cons_word hoff, sdiff_insert_eq] at hall
        obtain ⟨s, hs, hnull, hsholds⟩ := hholds.remove hne w
        rw [removeListing, if_pos hoff]
        simp only [hs, Outcome.ret_bind]
        by_cases hsnull : s = null
        · rw [if_pos (TrieNode.isNull_iff.mpr hsnull)]
          exact removeListing_freed rest t'
        · rw [if_neg (TrieNode.isNull_iff.not.mpr hsnull)]
          have hleft : (S \ {w}).Nonempty :=
            Set.nonempty_iff_ne_empty.mpr (hnull.not.mp hsnull)
          have hrest : (offeredWords rest).Nonempty :=
            hleft.mono (Set.sdiff_eq_empty.mp hall)
          exact ih hsholds hsnull hall hrest t'
      · rw [offeredWords_cons_skip hoff] at hall hsome
        rw [removeListing, if_neg hoff]
        exact ih hholds hne hall hsome t'

/-! ## When the words are kept -/

/-- The line is `splash`, and the splash screen cannot be shown. -/
def Line.SplashFails (line : Line) : Prop :=
  ∃ name rest, line.fTokens = name :: rest ∧ line.biTable name = none ∧
    line.argv.read 0 = .ret (some (.lit ['s', 'p', 'l', 'a', 's', 'h'])) ∧
    line.splash ≠ 0

/-- The line is a builtin that ends the shell. -/
def Line.Exits (line : Line) : Prop :=
  ∃ name rest bi, line.fTokens = name :: rest ∧ line.biTable name = some bi ∧
    bi line.fTokens = false

/-- A line that is neither empty nor for a builtin has a first word. -/
def Line.HasCommand (line : Line) : Prop :=
  ∀ name rest, line.fTokens = name :: rest → line.biTable name = none →
    ∃ arg0, line.argv.read 0 = .ret (some arg0)

theorem Line.dispatch_empty {line : Line} (hline : line.fTokens = []) :
    line.dispatch = .ret .bottom := by
  simp [dispatch, hline]

theorem Line.dispatch_builtin {line : Line} {name : CString} {rest : List CString}
    {bi : List CString → Bool} (hline : line.fTokens = name :: rest)
    (hbi : line.biTable name = some bi) :
    line.dispatch = .ret (if bi (name :: rest) then .bottom else .exited) := by
  simp [dispatch, hline, hbi]

/-- What is left of the dispatch reads `argv[0]`. -/
theorem Line.dispatch_command {line : Line} {name : CString} {rest : List CString}
    {how : LineEnd} (hline : line.fTokens = name :: rest) (hbi : line.biTable name = none) :
    line.dispatch = .ret how ↔ ∃ arg0, line.argv.read 0 = .ret (some arg0) ∧
      how = if arg0 = .lit ['s', 'p', 'l', 'a', 's', 'h'] ∧ line.splash ≠ 0 then .skip
        else .bottom := by
  cases hread : line.argv.read 0 with
  | undefined => simp [dispatch, hline, hbi, hread]
  | outOfFuel => simp [dispatch, hline, hbi, hread]
  | ret cell =>
      cases cell with
      | none => simp [dispatch, hline, hbi, hread]
      | some arg0 =>
          by_cases h : arg0 = .lit ['s', 'p', 'l', 'a', 's', 'h'] <;>
            by_cases hs : line.splash = 0 <;>
            simp [dispatch, hline, hbi, hread, h, hs, eq_comm]

/-- Only then does the dispatch get past `strcmp(argv[0], "splash")`. -/
theorem Line.dispatch_returns_iff {line : Line} :
    (∃ how, line.dispatch = .ret how) ↔ line.HasCommand := by
  unfold HasCommand
  cases hline : line.fTokens with
  | nil => simp [dispatch_empty hline]
  | cons name rest =>
      cases hbi : line.biTable name with
      | some bi => simp [dispatch_builtin hline hbi, hbi]
      | none => simp [dispatch_command hline hbi, hbi]

theorem Line.dispatch_eq_exited {line : Line} :
    line.dispatch = .ret .exited ↔ line.Exits := by
  unfold Exits
  cases hline : line.fTokens with
  | nil => simp [dispatch_empty hline]
  | cons name rest =>
      cases hbi : line.biTable name with
      | some bi => simp [dispatch_builtin hline hbi, hbi]
      | none => simp [dispatch_command hline hbi, hbi, eq_ite_iff]

theorem Line.dispatch_eq_skip {line : Line} :
    line.dispatch = .ret .skip ↔ line.SplashFails := by
  unfold SplashFails
  cases hline : line.fTokens with
  | nil => simp [dispatch_empty hline]
  | cons name rest =>
      cases hbi : line.biTable name with
      | some bi => by_cases hret : bi (name :: rest) = true <;>
          simp [dispatch_builtin hline hbi, hbi, hret]
      | none => simp [dispatch_command hline hbi, hbi]

/-- The words of `S` survive the iteration: a failed splash leaves the names of
the directory behind, so they must have been words; otherwise none of them may
have been one, and the last word must not go with them. -/
def WordsSurvive (listing : List CString) (line : Line) (S : Set LowerWord) : Prop :=
  line.Exits ∨
    (line.SplashFails ∧ ∀ w, w.text ∈ listing → isOffered w.text = true → w ∈ S) ∨
    (¬ line.Exits ∧ ¬ line.SplashFails ∧
      (∀ w, w.text ∈ listing → isOffered w.text = true → w ∉ S) ∧
      ((∃ curr ∈ listing, isOffered curr = true) → ∃ w, w ∈ S))

theorem Holds.same_words_iff {t t' : TrieNode} {S S' : Set LowerWord}
    (h : Holds t S) (hne : t ≠ null) (h' : Holds t' S') (hne' : t' ≠ null) :
    (∀ v : LowerWord, tnSearch t' v.text = tnSearch t v.text) ↔ S' = S := by
  rw [Set.ext_iff]
  refine forall_congr' fun v => ?_
  rw [tnSearch_eq hne', tnSearch_eq hne, Outcome.ret.injEq, Bool.eq_iff_iff,
    h.contains_iff, h'.contains_iff]

theorem keepsWords_iff_of_holds {t : TrieNode} {S : Set LowerWord}
    (hholds : Holds t S) (hne : t ≠ null) (listing : List CString) (line : Line)
    {how : LineEnd} (hline : line.dispatch = .ret how) :
    KeepsWords listing line t ↔ WordsSurvive listing line S := by
  have hexits := line.dispatch_eq_exited
  have hskips := line.dispatch_eq_skip
  rw [hline, Outcome.ret.injEq] at hexits hskips
  obtain ⟨s, hins, hsne, hs⟩ := insertListing_spec listing hholds hne
  unfold KeepsWords iteration WordsSurvive
  rw [hins, hline, ← hexits, ← hskips]
  simp only [Outcome.ret_bind, Outcome.pure_eq]
  cases how with
  | exited => simp
  | skip =>
      have hsame := hholds.same_words_iff hne hs hsne
      simp only [Outcome.ret.injEq, exists_eq_left', Option.some.injEq, forall_eq',
        CompletionsPtr.root.injEq, ne_eq, hsne, not_false_eq_true, true_and, hsame,
        Set.union_eq_left]
      simp [Set.subset_def, offeredWords]
  | bottom =>
      have hsome : (∃ curr ∈ listing, isOffered curr = true) ↔
          (offeredWords listing).Nonempty := by
        constructor
        · rintro ⟨curr, hmem, hoff⟩
          obtain ⟨w, rfl⟩ := exists_word_of_isOffered hoff
          exact ⟨w, hmem, hoff⟩
        · rintro ⟨w, hmem, hoff⟩
          exact ⟨w.text, hmem, hoff⟩
      have hdisjoint : (∀ w : LowerWord, w.text ∈ listing →
          isOffered w.text = true → w ∉ S) ↔ S \ offeredWords listing = S := by
        rw [sdiff_eq_left, Set.disjoint_right]
        exact forall_congr' fun w => by simp [offeredWords]
      rw [hsome, hdisjoint]
      simp only [reduceCtorEq, false_and, not_false_eq_true, true_and, false_or]
      rcases (offeredWords listing).eq_empty_or_nonempty with hnone | hwords
      · rw [hnone, Set.union_empty] at hs
        have hsame := (hholds.same_words_iff hne hs hsne).mpr rfl
        rw [removeListing_of_empty hnone, hnone]
        simpa [hsne] using hsame
      · have hcancel : (S ∪ offeredWords listing) \ offeredWords listing =
            S \ offeredWords listing := Set.union_sdiff_right
        rcases (S \ offeredWords listing).eq_empty_or_nonempty with hall | hleft
        · have hlost := removeListing_of_all listing hs hsne (hcancel.trans hall) hwords
          constructor
          · rintro ⟨next, hret, hkept⟩
            obtain ⟨c, hc, hnext⟩ := Outcome.bind_eq_ret.mp hret
            obtain ⟨t', rfl, _⟩ := hkept c (Outcome.ret.inj hnext).symm
            exact absurd hc (hlost t')
          · rintro ⟨heq, hmust⟩
            obtain ⟨w, hw⟩ := hmust hwords
            rw [← heq, hall] at hw
            exact absurd hw (Set.notMem_empty w)
        · obtain ⟨t', ht', htne, htholds⟩ :=
            removeListing_of_nonempty listing hs hsne (hcancel ▸ hleft)
          rw [hcancel] at htholds
          have hsame := hholds.same_words_iff hne htholds htne
          have hword : ∃ w, w ∈ S := hleft.mono Set.sdiff_subset
          simp [ht', htne, hsame, hword]

/-- **When an iteration keeps the completion words.** -/
theorem keepsWords_iff (ops : List TrieOp) (t : TrieNode) (hrun : TrieRun ops t)
    (hne : t ≠ null) (listing : List CString) (line : Line) :
    KeepsWords listing line t ↔
      line.HasCommand ∧ WordsSurvive listing line { v | Stored ops v } := by
  rw [← Line.dispatch_returns_iff]
  constructor
  · intro hkeeps
    obtain ⟨next, hret, _⟩ := id hkeeps
    obtain ⟨t', _, hret⟩ := Outcome.bind_eq_ret.mp hret
    obtain ⟨how, hline, _⟩ := Outcome.bind_eq_ret.mp hret
    exact ⟨⟨how, hline⟩, (keepsWords_iff_of_holds hrun.holds hne listing line hline).mp hkeeps⟩
  · rintro ⟨⟨how, hline⟩, hsurvive⟩
    exact (keepsWords_iff_of_holds hrun.holds hne listing line hline).mpr hsurvive

/-- The directory has the file `notes`, which is no completion word. -/
theorem keepsWords_iff_notes :
    ∃ t, TrieRun [.insert ⟨.lit ['c', 'd'], lower_of_all rfl⟩] t ∧ t ≠ null ∧
      KeepsWords [.lit ['n', 'o', 't', 'e', 's']]
        { fTokens := [], argv := .alloc 1 fun _ => none,
          biTable := fun _ => none, splash := 0 } t := by
  obtain ⟨t, hins, hne, _⟩ := holds_tnGetNode.insert TrieNode.noConfusion
    ⟨.lit ['c', 'd'], lower_of_all rfl⟩
  have hrun : TrieRun [.insert ⟨.lit ['c', 'd'], lower_of_all rfl⟩] t :=
    .next .start ⟨TrieNode.noConfusion, hins⟩
  refine ⟨t, hrun, hne, (keepsWords_iff _ t hrun hne _ _).mpr ⟨?_, ?_⟩⟩
  · intro name rest htokens
    cases htokens
  refine .inr (.inr ⟨?_, ?_, ?_, fun _ => ⟨⟨.lit ['c', 'd'], lower_of_all rfl⟩, ?_⟩⟩)
  · rintro ⟨_, _, _, htokens, _⟩
    cases htokens
  · rintro ⟨_, _, htokens, _⟩
    cases htokens
  · rintro w hmem _ hstored
    have htext : w.text = .lit ['n', 'o', 't', 'e', 's'] := by simpa using hmem
    simp only [Stored, Set.mem_ofPred_eq, htext] at hstored
    exact absurd hstored (by decide)
  · show lastWrite _ _ = _
    decide

end WizardShell.Ports

import WizardShell.Ports.SessionRounds

/-!
# What a session does

`session_refines`: a session that comes to a prompt, whatever was typed, whatever memory
held and whatever the kernel answered, has served the requests of its lines.
`exists_sessionRun`: there is a session for every script of lines that it is allowed to be
asked.  Between the two, `session_prepares_iff` says which lines get past their aliases at
all.
-/

namespace WizardShell.Ports

open Function
open WizardShell.Verified
open WizardShell.Verified.Probing
open TrieNode (null)

/-- A session from the first prompt, of a shell in the process group `pgrp`.  The counts
are what the memory of the two tables held, `completions` the trie with the first words. -/
def SessionRun (staleAliases staleBuiltins : Nat) (completions : TrieNode) (pgrp : Int)
    (rounds : List Round) (s : Session) : Prop :=
  ∃ s₀, Outcome.Returns
      (fun fuel => Session.start fuel staleAliases staleBuiltins completions pgrp) s₀ ∧
    Run sessionStep s₀ rounds s

/-- Each line is allowed where the lines before it lead. -/
inductive Script (stale : Nat) : View → List Round → Prop
  | nil {v : View} : Script stale v []
  | cons {v : View} {r : Round} {rest : List Round} {toks : List CString}
      (hallows : v.Allows stale r toks) (hrest : ∀ v', v.step r v' → Script stale v' rest) :
      Script stale v (r :: rest)

section Runs

variable {staleAliases staleBuiltins : Nat} {completions : TrieNode} {pgrp : Int}
  {S : Set LowerWord}

theorem Session.start_shows {fuel : Nat} {s : Session} (hne : completions ≠ null)
    (hholds : Holds completions S)
    (hret : Session.start fuel staleAliases staleBuiltins completions pgrp = .ret s) :
    s.Shows staleAliases (View.start S pgrp) := by
  obtain ⟨biTable, hbuiltins, hret⟩ := Outcome.bind_eq_ret.mp hret
  cases hret
  exact ⟨⟨[], .start, rfl, by simp⟩, startBuiltins_inv hbuiltins, ⟨hne, hholds⟩, rfl⟩

/-- A round that comes back to the prompt is a step of the view, and the builtins stay. -/
theorem sessionStep_serves {stale : Nat} {s s' : Session} {r : Round} {v : View}
    (h : s.Shows stale v) (hstep : sessionStep s r s') :
    ∃ v', v.step r v' ∧ s'.Shows stale v' ∧ s'.biTable = s.biTable := by
  obtain ⟨fuel, hret⟩ := hstep
  obtain ⟨toks, q, hserved | hexited⟩ := Session.round_serves h hret
  · obtain ⟨v', hserves, s₁, heq, hshows⟩ := hserved
    cases heq
    exact ⟨v', ⟨toks, q, hserves⟩, hshows⟩
  · obtain ⟨_, _, _, _, _, _, heq, _⟩ := hexited
    cases heq

theorem sessionStep_shows {stale : Nat} {s s' : Session} {r : Round} {v : View}
    (h : s.Shows stale v) (hstep : sessionStep s r s') :
    ∃ v', v.step r v' ∧ s'.Shows stale v' := by
  obtain ⟨v', hview, hshows, _⟩ := sessionStep_serves h hstep
  exact ⟨v', hview, hshows⟩

/-- What a table answers is what was defined. -/
theorem HoldsDefinitions.get {t : AliasTable Definition} {stale fuel : Nat}
    {ops : List (CString × Definition)} {defs : List (CString × List CString)}
    (h : HoldsDefinitions t stale ops defs) {name : CString} {d : Option Definition}
    (hret : atGet fuel t name = .ret d) : d.map definitionWords = lastWrite defs name := by
  have hmap : d = lastWrite ops name := tableGet_spec h.inv.counts.map hret
  rw [hmap, h.words, lastWrite_map]

/-- A run of the session is one of the view. -/
theorem SessionRun.shows {rounds : List Round} {s : Session} (hne : completions ≠ null)
    (hholds : Holds completions S)
    (hrun : SessionRun staleAliases staleBuiltins completions pgrp rounds s) :
    ∃ v, Run View.step (View.start S pgrp) rounds v ∧ s.Shows staleAliases v := by
  obtain ⟨s₀, ⟨fuel, hstart⟩, hrun⟩ := hrun
  have hstep : ∀ (s : Session) (v : View) (r : Round) (s' : Session),
      s.Shows staleAliases v → sessionStep s r s' →
      ∃ v', v.step r v' ∧ s'.Shows staleAliases v' := fun _ _ _ _ => sessionStep_shows
  exact Run.simulates (R := fun s v => Session.Shows s staleAliases v)
    (Session.start_shows hne hholds hstart) hstep hrun

/-- What the rounds of a script keep: the job list is in step with the children and is all
that is allocated of it, and a word is left. -/
structure View.Sound (v : View) : Prop where
  tracked : v.shell.Tracked
  owns : ∃ elems, v.shell.jobsList.OwnsHeap elems
  words : ∃ S, v.words = some S

theorem View.sound_start (S : Set LowerWord) (pgrp : Int) : (View.start S pgrp).Sound where
  tracked := tracked_init pgrp
  owns := ⟨[], JobList.ownsHeap_init⟩
  words := ⟨S, rfl⟩

/-- The job list of a session that shows a sound view tracks the children. -/
theorem View.Sound.tracksChildren {s : Session} {v : View} {stale : Nat} (h : v.Sound)
    (hshows : s.Shows stale v) : ∃ elems, TracksChildren s.shell elems := by
  have htracked := h.tracked
  rw [← hshows.shell] at htracked
  exact htracked.tracksChildren

/-- A step with an allowed line serves what the line asks. -/
theorem View.Allows.serves {v v' : View} {stale : Nat} {r : Round} {toks : List CString}
    (h : v.Allows stale r toks) (hstep : v.step r v') : v.Serves r toks (v.asked toks) v' := by
  obtain ⟨toks', q, hserves⟩ := hstep
  obtain rfl : toks' = toks := tokens_unique hserves.spaced h.spaced
  obtain ⟨arg0, hbegins, hq⟩ := hserves.asks
  rw [h.asked_eq hbegins] at hq
  rwa [hq] at hserves

theorem View.Allows.sound {v v' : View} {stale : Nat} {r : Round} {toks : List CString}
    (h : v.Allows stale r toks) (hsound : v.Sound) (hstep : v.step r v') : v'.Sound := by
  have hserves := h.serves hstep
  refine ⟨?_, ?_, ?_⟩
  · obtain ⟨sh, hturn, htracked⟩ := turn_answered hsound.tracked h.answered
    cases hserves.shell.symm.trans hturn
    exact htracked
  · refine ownsHeap_keptByCalls.turn (fun tokens hcommand haccepted => ?_) hserves.shell hsound.owns
    rcases h.answered with hlegal | ⟨⟨tokens', hcommand', hrefused⟩, _⟩
    · have hcan := hlegal.run
      rw [Turn.CanRun, hcommand] at hcan
      exact hcan.2.2.1
    · cases hcommand.symm.trans hcommand'
      exact absurd haccepted hrefused
  · obtain ⟨S, hS, hleft⟩ := h.words
    rw [hserves.words, View.wordsAfter, hS]
    by_cases hskips : (v.asked toks).skips r
    · exact ⟨_, if_pos hskips⟩
    · rw [if_neg hskips, Option.bind_some, View.withdraw]
      rcases hleft with hempty | hnonempty
      · exact ⟨_, if_pos hempty⟩
      · by_cases hempty : offeredWords r.listing = ∅
        · exact ⟨_, if_pos hempty⟩
        · rw [if_neg hempty, Set.union_sdiff_right, if_pos hnonempty]
          exact ⟨_, rfl⟩

/-- A session for a script. -/
theorem Script.exists_run {stale : Nat} {v : View} {rounds : List Round}
    (hscript : Script stale v rounds) : ∀ {s : Session}, s.Shows stale v → v.Sound →
      ∃ s' v', Run sessionStep s rounds s' ∧ Run View.step v rounds v' ∧ s'.Shows stale v' ∧
        v'.Sound := by
  induction hscript with
  | nil => exact fun h hsound => ⟨_, _, .start, .start, h, hsound⟩
  | cons hallows _ ih =>
      intro s h hsound
      obtain ⟨s₁, hstep⟩ := Session.round_returns h hsound.tracked hallows
      obtain ⟨v₁, hview, hshows⟩ := sessionStep_shows h hstep
      obtain ⟨s', v', hrun, hviews, hends⟩ := ih v₁ hview hshows (hallows.sound hsound hview)
      exact ⟨s', v', Run.cons_iff.mpr ⟨s₁, hstep, hrun⟩,
        Run.cons_iff.mpr ⟨v₁, hview, hviews⟩, hends⟩

theorem exists_sessionRun (hne : completions ≠ null) (hholds : Holds completions S)
    {rounds : List Round} (hscript : Script staleAliases (View.start S pgrp) rounds) :
    ∃ s v, SessionRun staleAliases staleBuiltins completions pgrp rounds s ∧
      Run View.step (View.start S pgrp) rounds v ∧ s.Shows staleAliases v ∧ v.Sound := by
  obtain ⟨biTable, hbuiltins, _⟩ := startBuiltins_holds staleBuiltins (Nat.le_refl _)
  have hstart : Session.start (sizes 50 7) staleAliases staleBuiltins completions pgrp =
      .ret ⟨atNewAt 50 staleAliases, biTable, .root completions, .init pgrp⟩ := by
    rw [Session.start, hbuiltins]
    rfl
  obtain ⟨s, v, hrun, hends⟩ :=
    hscript.exists_run (Session.start_shows hne hholds hstart) (View.sound_start S pgrp)
  exact ⟨s, v, ⟨_, ⟨_, hstart⟩, hrun⟩, hends⟩

end Runs

/-! ## An alias, and a job under it -/

/-- The bytes of the tokens, with a blank behind each. -/
def typed (toks : List CString) : List UInt8 := (toks.map CString.bytes).flatMap (· ++ [32])

theorem spaced_typed {toks : List CString}
    (h : ∀ tok ∈ toks, tok ≠ .empty ∧ (tok.bytes.all fun c => !tokDelim c) = true) :
    Spaced tokDelim (typed toks) (toks.map CString.bytes) := by
  refine spaced_flatMap rfl fun bytes hbytes => ?_
  obtain ⟨tok, htok, rfl⟩ := List.mem_map.mp hbytes
  obtain ⟨hne, hchars⟩ := h tok htok
  exact ⟨fun hnil => hne (CString.ext hnil), noDelim_of_all hchars⟩

theorem typed_noNul (toks : List CString) : 0 ∉ typed toks := by
  intro hmem
  obtain ⟨bytes, hbytes, hzero⟩ := List.mem_flatMap.mp hmem
  obtain ⟨tok, _, rfl⟩ := List.mem_map.mp hbytes
  rcases List.mem_append.mp hzero with hzero | hzero
  · exact tok.noNul hzero
  · simp at hzero

/-- The tokens are typed in an empty directory and with cleared memory; a child that is
forked runs on. -/
def typing (toks : List CString) (fork : Int) : Round where
  listing := []
  line := ⟨(typed toks).length + 1, fun i => (typed toks).getD i 0⟩
  text := typed toks
  holds := .of_cells (typed_noNul toks) (by simp) fun j _ => by simp
  freshTokens _ := none
  freshResolved _ := none
  freshArgv _ := none
  freshDefinition _ := none
  starListing := none
  splash := 0
  fork := fork
  kill := 0
  wait := none
  reports := []

/-- `alias l = ls` -/
def aliasLine : List CString := [cmdAlias, .lit ['l'], tokEquals, .lit ['l', 's']]

/-- `l &` -/
def jobLine : List CString := [.lit ['l'], tokAmp]

/-- What is known behind the first of them. -/
def aliasView (S : Set LowerWord) : View := ⟨[(.lit ['l'], [.lit ['l', 's']])], some S, .init 1⟩

section Lines

variable {S : Set LowerWord}

theorem aliasLine_expand : aliasLine.flatMap (View.start S 1).expand = aliasLine := rfl

theorem aliasLine_asked : (View.start S 1).asked aliasLine = .define aliasLine := rfl

theorem aliasLine_allowed : (View.start S 1).Allows 7 (typing aliasLine 0) aliasLine where
  spaced := spaced_typed (by decide)
  prepares :=
    { noHome := by decide
      star := by decide
      lookups := fun hzero => absurd hzero (by decide)
      fits := by
        rw [aliasLine_expand]
        decide }
  named name rest hline _ := by
    rw [aliasLine_expand] at hline
    cases hline
    rfl
  ended _ _ _ _ := rfl
  stays argv hasked := by
    rw [aliasLine_asked] at hasked
    cases hasked
  words := ⟨S, rfl, .inl offeredWords_nil⟩
  answered := .inl ⟨show (0 : Int) < intMax by decide, trivial, fun _ _ => trivial⟩

theorem jobLine_expand :
    jobLine.flatMap (aliasView S).expand = [.lit ['l', 's'], tokAmp] := rfl

theorem jobLine_asked :
    (aliasView S).asked jobLine = .execute [.lit ['l', 's'], tokAmp] := rfl

theorem jobLine_allowed : (aliasView S).Allows 7 (typing jobLine 100) jobLine where
  spaced := spaced_typed (by decide)
  prepares :=
    { noHome := by decide
      star := by decide
      lookups := fun hzero => absurd hzero (by decide)
      fits := by
        rw [jobLine_expand]
        decide }
  named name rest hline _ := by
    rw [jobLine_expand] at hline
    cases hline
    rfl
  ended _ _ _ _ := rfl
  stays argv hasked := by
    rw [jobLine_asked] at hasked
    cases hasked
  words := ⟨S, rfl, .inl offeredWords_nil⟩
  answered := by
    have hplain : ∀ tok ∈ [CString.lit ['l', 's'], tokAmp], isNotRedirect tok = true := by decide
    rw [jobLine_asked]
    refine .inl ⟨show (0 : Int) < intMax by decide, ?_, fun _ _ => trivial⟩
    exact ⟨accepted_of_plain hplain, ⟨_, rfl⟩, show (0 : Int) < 100 by decide, rfl,
      fun h => absurd rfl h⟩

theorem twoLines_script :
    Script 7 (View.start S 1) [typing aliasLine 0, typing jobLine 100] := by
  refine .cons aliasLine_allowed fun v hstep => ?_
  have hserves := aliasLine_allowed.serves hstep
  have hview : v = aliasView S := by
    obtain ⟨defs, words, shell⟩ := v
    obtain ⟨l, hdefs, _, hexact⟩ := hserves.defs
    rw [hexact rfl] at hdefs
    have hwords : words = (View.start S 1).wordsAfter (typing aliasLine 0) (.define aliasLine) :=
      hserves.words
    have hkept : (View.start S 1).wordsAfter (typing aliasLine 0) (.define aliasLine) =
        some S := by
      simp [View.wordsAfter, View.withdraw, View.start, Request.skips, typing, offeredWords_nil]
    have hshell : Shell.init 1 = shell := Outcome.ret.inj hserves.shell
    rw [aliasView, hwords, hkept, ← hshell]
    exact congrArg (fun defs => View.mk defs (some S) (Shell.init 1)) hdefs
  rw [hview]
  exact .cons jobLine_allowed fun _ _ => .nil

end Lines

/-- A trie with one word. -/
theorem exists_words : ∃ t S, t ≠ null ∧ Holds t S := by
  obtain ⟨t, _, hne, hholds⟩ := holds_tnGetNode.insert TrieNode.noConfusion
    ⟨.lit ['c', 'd'], lower_of_all rfl⟩
  exact ⟨t, _, hne, hholds⟩

section Results

variable {staleAliases staleBuiltins : Nat} {completions : TrieNode} {pgrp : Int}
  {S : Set LowerWord}

/-- **A session does what its lines say.**  Whenever a session comes to a prompt, after
any lines, from any memory and whatever the kernel answered, there are views from round
to round, each of which serves the request of its line, and at the end the alias table
answers as the definitions of the view, the trie has its words, and the jobs are its jobs. -/
theorem session_refines (hne : completions ≠ null) (hholds : Holds completions S)
    (rounds : List Round) (s : Session)
    (hrun : SessionRun staleAliases staleBuiltins completions pgrp rounds s) :
    ∃ v, Run View.step (View.start S pgrp) rounds v ∧
      (∀ fuel name d, atGet fuel s.alTable name = .ret d →
        d.map definitionWords = lastWrite v.defs name) ∧
      (∀ fuel name b, btGet fuel s.biTable name = .ret b → b = builtinOf name) ∧
      HoldsWords s.completions v.words ∧ s.shell = v.shell := by
  obtain ⟨v, hview, hshows⟩ := hrun.shows hne hholds
  obtain ⟨ops, haliases⟩ := hshows.aliases
  exact ⟨v, hview, fun _ _ _ => haliases.get, fun _ _ _ => hshows.builtins.eq_of_ret,
    hshows.words, hshows.shell⟩

theorem session_refines_twoLines : ∃ completions S s, completions ≠ null ∧
    Holds completions S ∧
    SessionRun 7 9 completions 1 [typing aliasLine 0, typing jobLine 100] s ∧
    ∃ v, Run View.step (View.start S 1) [typing aliasLine 0, typing jobLine 100] v ∧
      (∀ fuel name d, atGet fuel s.alTable name = .ret d →
        d.map definitionWords = lastWrite v.defs name) ∧
      (∀ fuel name b, btGet fuel s.biTable name = .ret b → b = builtinOf name) ∧
      HoldsWords s.completions v.words ∧ s.shell = v.shell := by
  obtain ⟨t, S, hne, hholds⟩ := exists_words
  obtain ⟨s, _, hrun, _⟩ := exists_sessionRun hne hholds twoLines_script
  exact ⟨t, S, s, hne, hholds, hrun, session_refines hne hholds _ s hrun⟩

/-- **Which lines get past their aliases.**  At every prompt of every session, the line is
tokenized, resolved and prepared exactly when it has no `~`, no `*` that stands for a name
or that meets a failing `scandir`, fewer than 512 words behind the aliases, and, where the
last definition filled the alias table, no word but aliases. -/
theorem session_prepares_iff (hne : completions ≠ null) (hholds : Holds completions S)
    (rounds : List Round) (s : Session)
    (hrun : SessionRun staleAliases staleBuiltins completions pgrp rounds s) :
    ∃ v, Run View.step (View.start S pgrp) rounds v ∧
      ∀ r toks, Spaced tokDelim r.text (toks.map CString.bytes) →
        ((∃ p, Outcome.Returns (fun fuel => s.prepare fuel r) p) ↔
          v.Prepares staleAliases r.starListing toks) := by
  obtain ⟨v, hview, hshows⟩ := hrun.shows hne hholds
  obtain ⟨ops, haliases⟩ := hshows.aliases
  exact ⟨v, hview, fun r toks => Session.prepare_returns_iff haliases⟩

theorem session_prepares_iff_twoLines : ∃ completions S s, completions ≠ null ∧
    Holds completions S ∧
    SessionRun 7 9 completions 1 [typing aliasLine 0, typing jobLine 100] s ∧
    ∃ v, Run View.step (View.start S 1) [typing aliasLine 0, typing jobLine 100] v ∧
      ∀ r toks, Spaced tokDelim r.text (toks.map CString.bytes) →
        ((∃ p, Outcome.Returns (fun fuel => s.prepare fuel r) p) ↔
          v.Prepares 7 r.starListing toks) := by
  obtain ⟨t, S, hne, hholds⟩ := exists_words
  obtain ⟨s, _, hrun, _⟩ := exists_sessionRun hne hholds twoLines_script
  exact ⟨t, S, s, hne, hholds, hrun, session_prepares_iff hne hholds _ s hrun⟩

end Results

end WizardShell.Ports

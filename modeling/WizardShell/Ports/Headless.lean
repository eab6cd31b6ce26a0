import WizardShell.Ports.SessionMemory

/-!
# Headless mode

`wsh_main` with arguments: they are the tokens of one command, which is run in the
foreground; then the changed children are reported, the list is cleaned up, and the
shell leaves with 0.  There is no tokenizer and no line, and the builtins table, though it
is made, is not asked: `cd` and `exit` are looked for as programs.

`headless_runs`: where entering the builtins does not grow their table, the command comes
to its end, and what is left of it is killed.
-/

namespace WizardShell.Ports

open WizardShell.Verified
open TrieNode (null)

/-- What headless mode is given: the contents of fresh memory, the directory for a `*`,
and the answers of the kernel. -/
structure HeadlessInput where
  freshResolved : Nat → Option TokenPtr
  freshArgv : Nat → Option CString
  starListing : Option (List CString)
  fork : Int
  wait : Option Report
  reports : List Report

/-- The loop over the changed children, which here begins its lines with a newline. -/
def Shell.reapHeadless (sh : Shell) : List Report → Outcome Shell
  | [] => .ret sh
  | (wret, status) :: rest => do
      let wjid ← sh.jobsList.getJobJid wret
      let (_, l) ← Shell.reportedList sh.jobsList wret status
      let sh := { sh with jobsList := l, kernel := sh.kernel.report wret status }
      reapHeadless ((sh.print (.text "\n")).print (.status wjid wret status.text)) rest

/-- The `if (f_tokct > 0)` of headless mode; `alias` is refused on `stderr`. -/
def headlessCommand (sh : Shell) (h : HeadlessInput) (fTokens : List CString)
    (argv : Block (Option CString)) : Outcome Shell :=
  match fTokens with
  | [] => .ret sh
  | _ :: _ => do
      match ← argv.read 0 with
      | none => .undefined
      | some arg0 =>
          if arg0 = cmdAlias then .ret sh else sh.execute fTokens false h.fork h.wait

/-- `wsh_main(argc, argv)` with `argc > 1`, where `tokens` is `&argv[1]`: the state at the
end, and the cleanup. -/
def headless (fuel staleAliases staleBuiltins : Nat) (pgrp : Int) (h : HeadlessInput)
    (tokens : Block (Option CString)) : Outcome (Shell × Cleanup) := do
  let _ ← startBuiltins fuel staleBuiltins
  let (fTokens, argv) ← resolveAndPrep fuel h.freshResolved h.freshArgv
    (atNewAt 50 staleAliases) h.starListing tokens
  let _ ← ppstrlen tokens
  let _ ← ppstrlen argv
  let sh ← headlessCommand (Shell.init pgrp) h fTokens argv
  let sh ← sh.reapHeadless h.reports
  let c ← sh.jobsList.cleanup 0 0
  return (sh, c)

/-! ## What comes of it -/

/-- The tokens without the `*`, which must stand for nothing. -/
def shown (args : List CString) : List CString := args.filter (· ≠ tokStar)

/-- What headless mode is to do with the tokens. -/
def HeadlessInput.command (h : HeadlessInput) (pgrp : Int) (args : List CString) :
    Outcome Shell :=
  match shown args with
  | [] => .ret (Shell.init pgrp)
  | name :: rest =>
      if baseName name = cmdAlias then .ret (Shell.init pgrp)
      else (Shell.init pgrp).execute (name :: rest) false h.fork h.wait

/-- The arguments and what memory and the kernel answer run into none of the faults. -/
structure HeadlessInput.Allows (h : HeadlessInput) (pgrp : Int) (args : List CString) :
    Prop where
  noHome : tokHome ∉ args
  star : tokStar ∈ args → ∃ files, h.starListing = some files ∧
    ∀ name ∈ files, isVisible name = false
  fits : (shown args).length < psBfs
  named : ∀ name ∈ (shown args).head?, isWord name = true
  fork : 0 < h.fork
  wait : CanWait h.fork h.wait ∧ h.wait ≠ none
  runs : Accepted (shown args) →
    ∃ command, firstNonredirect (shown args) .empty = .ret command
  reports : ∀ sh, h.command pgrp args = .ret sh → sh.kernel.CanReport h.reports

section Headless

variable {h : HeadlessInput} {pgrp : Int} {args : List CString} {sh sh' : Shell}

theorem start_expand (S : Set LowerWord) (pgrp : Int) (args : List CString) :
    args.flatMap (View.start S pgrp).expand = shown args := by
  induction args with
  | nil => rfl
  | cons tok rest ih =>
      rw [List.flatMap_cons, ih, View.expand]
      by_cases hstar : tok = tokStar
      · rw [if_pos hstar, shown, shown, List.filter_cons_of_neg (by simp [hstar])]
        rfl
      · rw [if_neg hstar, shown, shown, List.filter_cons_of_pos (by simp [hstar])]
        rfl

theorem HeadlessInput.Allows.prepares (hallows : h.Allows pgrp args) (stale : Nat) :
    (View.start ∅ pgrp).Prepares stale h.starListing args where
  noHome := hallows.noHome
  star := hallows.star
  lookups _ hfill := by
    obtain ⟨pre, key, val, hops, _⟩ := hfill
    exact absurd hops (by simp [View.start])
  fits := by
    rw [start_expand]
    exact hallows.fits

/-- Two states that differ in what was printed. -/
def Shell.SameJobs (sh sh' : Shell) : Prop :=
  sh'.jobsList = sh.jobsList ∧ sh'.jcount = sh.jcount ∧ sh'.kernel = sh.kernel

/-- The two loops over the changed children do the same to the jobs. -/
theorem Shell.reapHeadless_of_reap {reports : List Report} :
    ∀ {sh₁ sh₂ sh₁' : Shell}, sh₁.SameJobs sh₂ → sh₁.reap reports = .ret sh₁' →
      ∃ sh₂', sh₂.reapHeadless reports = .ret sh₂' ∧ sh₁'.SameJobs sh₂' := by
  induction reports with
  | nil =>
      intro sh₁ sh₂ sh₁' hsame hret
      cases hret
      exact ⟨sh₂, rfl, hsame⟩
  | cons report rest ih =>
      intro sh₁ sh₂ sh₁' hsame hret
      obtain ⟨wret, status⟩ := report
      obtain ⟨wjid, hjid, hret⟩ := Outcome.bind_eq_ret.mp hret
      obtain ⟨⟨ret, l⟩, hlist, hret⟩ := Outcome.bind_eq_ret.mp hret
      obtain ⟨hjobs, hcount, hkernel⟩ := hsame
      rw [← hjobs] at hjid hlist
      have hnext : Shell.SameJobs
          (({ sh₁ with jobsList := l, kernel := sh₁.kernel.report wret status } : Shell).print
            (.status wjid wret status.text))
          ((({ sh₂ with jobsList := l, kernel := sh₂.kernel.report wret status } : Shell).print
            (.text "\n")).print (.status wjid wret status.text)) :=
        ⟨rfl, hcount, congrArg (Kernel.report · wret status) hkernel⟩
      obtain ⟨sh₂', hrest, hsame'⟩ := ih hnext hret
      exact ⟨sh₂', Outcome.bind_eq_ret.mpr ⟨wjid, hjid,
        Outcome.bind_eq_ret.mpr ⟨(ret, l), hlist, hrest⟩⟩, hsame'⟩

theorem Shell.SameJobs.tracked (hsame : sh.SameJobs sh') (htracked : sh.Tracked) :
    sh'.Tracked := by
  obtain ⟨hjobs, hcount, hkernel⟩ := hsame
  unfold Shell.Tracked
  rw [hjobs, hcount, hkernel]
  exact htracked

/-- The command returns, and leaves the list in step with the children and tidy. -/
theorem HeadlessInput.Allows.command_returns (hallows : h.Allows pgrp args) :
    ∃ sh, h.command pgrp args = .ret sh ∧ sh.Tracked ∧ ∃ elems, sh.jobsList.OwnsHeap elems := by
  have hinit : (Shell.init pgrp).Tracked := tracked_init pgrp
  have howns : ∃ elems, (Shell.init pgrp).jobsList.OwnsHeap elems := ⟨[], JobList.ownsHeap_init⟩
  have hruns := hallows.runs
  unfold HeadlessInput.command
  cases hline : shown args with
  | nil => exact ⟨_, rfl, hinit, howns⟩
  | cons name rest =>
      rw [hline] at hruns
      by_cases halias : baseName name = cmdAlias
      · simp only [if_pos halias]
        exact ⟨_, rfl, hinit, howns⟩
      · simp only [if_neg halias]
        have hexecutes : ((Shell.init pgrp).execute (name :: rest) false h.fork h.wait).Yields
            Shell.Tracked := by
          by_cases haccepted : Accepted (name :: rest)
          · obtain ⟨r, htracks⟩ := hinit
            exact execute_tracked htracks (show (0 : Int) < intMax by decide) haccepted
              (hruns haccepted) hallows.fork rfl fun _ => hallows.wait
          · unfold Shell.execute
            cases hscan : scan (name :: rest) with
            | ok redirection => exact absurd ⟨redirection, hscan⟩ haccepted
            | error e => exact Outcome.yields_ret.mpr hinit
        obtain ⟨sh, hret, htracked⟩ := hexecutes
        exact ⟨sh, hret, htracked, ownsHeap_keptByCalls.execute (fun _ => hallows.fork) hret howns⟩

/-- **Headless mode comes to its end.**  Where the memory of the builtins table held a count
of 43 or less, so that the calls of `bt_set` stay inside its array, arguments that are
allowed are run as one command in the foreground, also when they name a builtin or end in
`&`; the children that have changed are reported; and when the shell leaves, nothing of its
job list is allocated, and each child not yet reaped has been killed, once, and no other
process. -/
theorem headless_runs (staleAliases staleBuiltins : Nat) (hstale : staleBuiltins + 7 ≤ 50)
    (pgrp : Int) (h : HeadlessInput) (tokens : Block (Option CString)) (args : List CString)
    (hcontents : tokens.contents = .ret args) (hallows : h.Allows pgrp args) :
    ∃ enough, ∀ fuel, enough ≤ fuel → ∃ biTable sh c,
      startBuiltins fuel staleBuiltins = .ret biTable ∧
      (∃ m : MemTable Builtin, m.Backs staleBuiltins registered biTable) ∧
      headless fuel staleAliases staleBuiltins pgrp h tokens = .ret (sh, c) ∧
      (h.command pgrp args >>= fun sh => sh.reapHeadless h.reports) = .ret sh ∧
      c.heap.live = ∅ ∧
      ∀ child, c.killed.count child = if (sh.kernel.children child).isSome then 1 else 0 := by
  refine ⟨max (sizes 50 7) (args.length + 1), fun fuel hfuel => ?_⟩
  have hseven : sizes 50 7 ≤ fuel := Nat.le_trans (Nat.le_max_left _ _) hfuel
  have hturns : args.length < fuel := Nat.le_trans (Nat.le_max_right _ _) hfuel
  obtain ⟨biTable, hbuiltins, _⟩ := startBuiltins_holds staleBuiltins hseven
  have hempty : HoldsDefinitions (atNewAt 50 staleAliases) staleAliases []
      (View.start ∅ pgrp).defs := ⟨.start, rfl, by simp⟩
  have hsize : (atNewAt 50 staleAliases : AliasTable Definition).size ≤ fuel :=
    Nat.le_trans (le_sizes (by decide : 2 ≤ 50) 7) hseven
  obtain ⟨⟨fTokens, argv⟩, hresolved⟩ : ∃ p, resolveAndPrep fuel h.freshResolved h.freshArgv
      (atNewAt 50 staleAliases) h.starListing tokens = .ret p :=
    resolveAndPrep_returns hempty hcontents (hallows.prepares staleAliases) hsize hturns
  obtain ⟨hexpanded, hprep, _⟩ := resolveAndPrep_spec hempty hcontents hresolved
  rw [start_expand] at hexpanded
  have htokct := ppstrlen_eq hcontents
  obtain ⟨argc, hargc⟩ := exists_argc hprep
  obtain ⟨sh, hcommand, htracked, howns⟩ := hallows.command_returns
  have hruns : headlessCommand (Shell.init pgrp) h fTokens argv = .ret sh := by
    rw [← hcommand, hexpanded]
    have hnamed := hallows.named
    unfold headlessCommand HeadlessInput.command
    cases hline : shown args with
    | nil => rfl
    | cons name rest =>
        rw [hexpanded, hline] at hprep
        rw [hline] at hnamed
        have hread := argv_zero hprep (hnamed name rfl)
        simp only [hread, Outcome.ret_bind]
  obtain ⟨sh₁, hreap, htracked₁⟩ := reap_tracked h.reports htracked (hallows.reports sh hcommand)
  obtain ⟨sh', hreap', hsame⟩ := Shell.reapHeadless_of_reap ⟨rfl, rfl, rfl⟩ hreap
  have howns' : ∃ elems, sh'.jobsList.OwnsHeap elems := by
    rw [hsame.1]
    exact ownsHeap_keptByCalls.reap hreap howns
  obtain ⟨c, hcleanup, hlive, hkilled⟩ := cleanup_kills (hsame.tracked htracked₁) howns' 0 0
  have hrun : StaleRun 50 staleBuiltins registered biTable := btSetAll_run .start hbuiltins
  have hsize : biTable.size = 50 :=
    (StaleRun.size_eq_iff (by decide) hrun).mpr (neverFull_registered.mpr hstale)
  refine ⟨biTable, sh', c, hbuiltins, MemTable.backs_of_run (by decide) hrun hsize, ?_, ?_,
    hlive, fun child => ?_⟩
  · simp only [headless, hbuiltins, Outcome.ret_bind, hresolved, htokct, hargc, hruns, hreap',
      hcleanup, Outcome.pure_eq]
  · rw [hcommand, Outcome.ret_bind, hreap']
  · rw [hkilled child]
    simp

/-- `wsh vi`, where `vi` is stopped. -/
def stoppedInput : HeadlessInput where
  freshResolved _ := none
  freshArgv _ := none
  starListing := none
  fork := 100
  wait := some (100, .stopped 20)
  reports := []

theorem stoppedInput_allows : stoppedInput.Allows 1 [.lit ['v', 'i']] where
  noHome := by decide
  star := by decide
  fits := by decide
  named := by decide
  fork := by decide
  wait := by
    refine ⟨fun report hreport => ?_, by simp [stoppedInput]⟩
    cases hreport
    exact ⟨rfl, by decide⟩
  runs _ := ⟨_, rfl⟩
  reports _ _ := trivial

theorem headless_runs_stopped : 9 + 7 ≤ 50 ∧
    (⟨2, fun i => [CString.lit ['v', 'i']][i]?⟩ : Block (Option CString)).contents =
        .ret [.lit ['v', 'i']] ∧ stoppedInput.Allows 1 [.lit ['v', 'i']] ∧
    ∃ enough, ∀ fuel, enough ≤ fuel → ∃ biTable sh c,
      startBuiltins fuel 9 = .ret biTable ∧
      (∃ m : MemTable Builtin, m.Backs 9 registered biTable) ∧
      headless fuel 7 9 1 stoppedInput ⟨2, fun i => [CString.lit ['v', 'i']][i]?⟩ =
        .ret (sh, c) ∧
      (stoppedInput.command 1 [.lit ['v', 'i']] >>= fun sh =>
        sh.reapHeadless stoppedInput.reports) = .ret sh ∧
      c.heap.live = ∅ ∧
      ∀ child, c.killed.count child =
        if (sh.kernel.children child).isSome then 1 else 0 :=
  ⟨by decide, by rfl, stoppedInput_allows, headless_runs 7 9 (by decide) 1 stoppedInput _ _
    (by rfl) stoppedInput_allows⟩

end Headless

end WizardShell.Ports

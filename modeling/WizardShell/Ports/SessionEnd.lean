import WizardShell.Ports.SessionHistory

/-!
# How a session ends

The loop of `wsh_main` has no condition, so a session ends by an `exit` that the loop
runs, in the process of the shell itself.

`session_exits_iff`: at every prompt, while the history takes the line, it ends the shell
exactly when it is prepared, begins with `exit` behind its aliases, and has arguments that
`bin_exit` takes; the status is that of the arguments, the job list is freed, and what the
shell has started is killed.
-/

namespace WizardShell.Ports

open WizardShell.Verified
open WizardShell.Verified.Probing
open TrieNode (null)

/-- The line asks for `exit` with arguments that are not refused. -/
def View.Leaves (v : View) (toks argv : List CString) : Prop :=
  toks.flatMap v.expand = argv ∧ argv.head?.bind builtinOf = some .exit ∧ ¬ ExitRefused argv

section Leaving

variable {v : View} {toks argv : List CString} {arg0 : CString} {b : Builtin}

/-- Only a line that begins with its name asks for a builtin. -/
theorem View.request_eq_builtin :
    v.request arg0 toks = .builtin b argv ↔
      toks.flatMap v.expand = argv ∧ argv.head?.bind builtinOf = some b := by
  cases hline : toks.flatMap v.expand with
  | nil =>
      constructor
      · intro h
        simp only [request, hline] at h
        cases h
      · rintro ⟨rfl, hhead⟩
        cases hhead
  | cons name rest =>
      cases hname : builtinOf name with
      | some b' =>
          rw [request_builtin hline hname]
          constructor
          · intro h
            cases h
            exact ⟨rfl, hname⟩
          · rintro ⟨rfl, hhead⟩
            cases hname.symm.trans hhead
            rfl
      | none =>
          rw [request_command hline hname]
          constructor
          · intro h
            split_ifs at h
          · rintro ⟨rfl, hhead⟩
            cases hname.symm.trans hhead

end Leaving

section Exit

variable {s : Session} {r : Round} {v : View} {stale fuel : Nat} {toks argv : List CString}
  {status : Int} {c : Cleanup}

/-- A round that ends the shell ran an `exit` of its line. -/
theorem Session.round_exits (h : s.Shows stale v)
    (hspaced : Spaced tokDelim r.text (toks.map CString.bytes))
    (hret : s.round fuel r = .ret (.exited status c)) :
    ∃ argv, v.Leaves toks argv ∧ status = exitStatus argv ∧
      s.shell.jobsList.cleanup 0 0 = .ret c := by
  obtain ⟨toks', q, hserved | hexited⟩ := round_serves h hret
  · obtain ⟨_, _, _, heq, _⟩ := hserved
    cases heq
  · obtain ⟨arg0, argv, status', c', hspaced', hrequest, heq, hexit⟩ := hexited
    cases heq
    obtain rfl : toks' = toks := tokens_unique hspaced' hspaced
    obtain ⟨hline, hhead⟩ := View.request_eq_builtin.mp hrequest
    rcases s.shell.binExit_eq 0 0 argv with ⟨_, message, hrefused⟩ | ⟨haccepted, heq⟩
    · rw [hrefused] at hexit
      cases hexit
    · rw [heq] at hexit
      obtain ⟨c', hcleanup, hends⟩ := Outcome.bind_eq_ret.mp hexit
      cases hends
      exact ⟨argv, ⟨hline, hhead, haccepted⟩, rfl, hcleanup⟩

/-- A line that was dispatched was prepared. -/
theorem Session.round_prepares {e : RoundEnd} (h : s.Shows stale v)
    (hspaced : Spaced tokDelim r.text (toks.map CString.bytes))
    (hret : s.round fuel r = .ret e) : v.Prepares stale r.starListing toks := by
  obtain ⟨completions, _, hret⟩ := Outcome.bind_eq_ret.mp hret
  obtain ⟨p, hprepare, _⟩ := Outcome.bind_eq_ret.mp hret
  obtain ⟨ops, haliases⟩ := h.aliases
  exact (prepare_returns_iff (s := { s with completions := completions }) haliases hspaced).mp
    ⟨p, fuel, hprepare⟩

/-- An `exit` that is prepared and taken ends the shell. -/
theorem Session.round_leaves (h : s.Shows stale v) (hwords : ∃ S, v.words = some S)
    (hspaced : Spaced tokDelim r.text (toks.map CString.bytes))
    (hprepares : v.Prepares stale r.starListing toks) (hleaves : v.Leaves toks argv)
    (hcleanup : s.shell.jobsList.cleanup 0 0 = .ret c) :
    Outcome.Returns (fun fuel => s.round fuel r) (.exited (exitStatus argv) c) := by
  obtain ⟨ops, haliases⟩ := h.aliases
  obtain ⟨S, hS⟩ := hwords
  obtain ⟨hline, hhead, haccepted⟩ := hleaves
  let fuel := max s.alTable.size (max s.biTable.size (toks.length + 1))
  have hsize : s.alTable.size ≤ fuel := Nat.le_max_left _ _
  have hbuiltin : s.biTable.size ≤ fuel :=
    Nat.le_trans (Nat.le_max_left _ _) (Nat.le_max_right _ _)
  have hturns : toks.length < fuel := Nat.le_trans (Nat.le_max_right _ _) (Nat.le_max_right _ _)
  obtain ⟨t, p, _, _, _, hexpanded, _, hround⟩ :=
    round_prepared h haliases hS hspaced hprepares hsize hturns
  refine ⟨fuel, ?_⟩
  show s.round fuel r = _
  rw [hround]
  cases argv with
  | nil => cases hhead
  | cons name rest =>
      have hname : builtinOf name = some .exit := hhead
      have hget := h.builtins.get hbuiltin name
      have hexit : s.shell.binExit 0 0 (name :: rest) =
          .ret (.exits (exitStatus (name :: rest)) c) := by
        rcases s.shell.binExit_eq 0 0 (name :: rest) with ⟨hrefused, _⟩ | ⟨_, heq⟩
        · exact absurd hrefused haccepted
        · rw [heq, hcleanup, Outcome.ret_bind]
      rw [hline] at hexpanded
      refine Outcome.bind_eq_ret.mpr ⟨.exited (exitStatus (name :: rest)) c, ?_, rfl⟩
      simp only [dispatch, hexpanded, hget, hname, Outcome.ret_bind, callBuiltin, hexit,
        Outcome.pure_eq]

end Exit

/-- The line of the round is recorded, and it makes the shell exit. -/
def LineExits (c : Console) (r : Round) (status : Int) (left : Cleanup) : Prop :=
  (∃ st, c.prompt.runLine r.typed = .ret st) ∧
    Outcome.Returns (fun fuel => c.session.round fuel r) (.exited status left)

section Results

variable {staleAliases staleBuiltins : Nat} {completions : TrieNode} {pgrp : Int}
  {S : Set LowerWord}

/-- **How a session ends.**  Behind every script that leaves room for a line in the history,
a line ends the shell with a status exactly when it is prepared and is an `exit`, behind its
aliases, with arguments that are taken and give this status; and then no element of the job
list is left, and each child not yet reaped has been sent `SIGKILL`, once, and no other
process. -/
theorem session_exits_iff (hne : completions ≠ null) (hholds : Holds completions S)
    (rounds : List Round) (hscript : Script staleAliases (View.start S pgrp) rounds)
    (hroom : (recordAll [] rounds).length + 1 < histMax) :
    ∃ c v, LineRun staleAliases staleBuiltins completions pgrp rounds c ∧
      Run View.step (View.start S pgrp) rounds v ∧
      ∀ r toks, Spaced tokDelim r.text (toks.map CString.bytes) → ∀ status,
        ((∃ left, LineExits c r status left) ↔
          v.Prepares staleAliases r.starListing toks ∧
            ∃ argv, v.Leaves toks argv ∧ status = exitStatus argv) ∧
        ∀ left, LineExits c r status left →
          left.heap.live = ∅ ∧ ∀ child, left.killed.count child =
            if (v.shell.kernel.children child).isSome then 1 else 0 := by
  obtain ⟨c, v, hrun, hviews, hshows, hsound, hrecorded⟩ :=
    hscript.exists_lineRun hne hholds (Nat.lt_of_succ_lt hroom)
  obtain ⟨left, hcleanup, hlive, hkilled⟩ := cleanup_kills hsound.tracked hsound.owns 0 0
  rw [← hshows.shell] at hcleanup
  refine ⟨c, v, hrun, hviews, fun r toks hspaced status => ⟨⟨?_, ?_⟩, ?_⟩⟩
  · rintro ⟨left', _, fuel, hret⟩
    obtain ⟨argv, hleaves, hstatus, _⟩ := Session.round_exits hshows hspaced hret
    exact ⟨Session.round_prepares hshows hspaced hret, argv, hleaves, hstatus⟩
  · rintro ⟨hprepares, argv, hleaves, rfl⟩
    have hrecords : (record (recordAll [] rounds) r.typed.text).length < histMax :=
      Nat.lt_of_le_of_lt (length_record _ _).2 hroom
    obtain ⟨st, hline, _⟩ := hrecorded.runLine hrecords
    exact ⟨left, ⟨st, hline⟩,
      Session.round_leaves hshows hsound.words hspaced hprepares hleaves hcleanup⟩
  · rintro left' ⟨_, fuel, hret⟩
    obtain ⟨_, _, _, hcleanup'⟩ := Session.round_exits hshows hspaced hret
    cases hcleanup.symm.trans hcleanup'
    exact ⟨hlive, fun child => by simpa using hkilled child⟩

/-- `exit` with a job in the background. -/
theorem session_exits_iff_twoLines : ∃ completions S, completions ≠ null ∧
    Holds completions S ∧ Script 7 (View.start S 1) [typing aliasLine 0, typing jobLine 100] ∧
    (recordAll [] [typing aliasLine 0, typing jobLine 100]).length + 1 < histMax ∧
    ∃ c v, LineRun 7 9 completions 1 [typing aliasLine 0, typing jobLine 100] c ∧
      Run View.step (View.start S 1) [typing aliasLine 0, typing jobLine 100] v ∧
      ∀ r toks, Spaced tokDelim r.text (toks.map CString.bytes) → ∀ status,
        ((∃ left, LineExits c r status left) ↔
          v.Prepares 7 r.starListing toks ∧
            ∃ argv, v.Leaves toks argv ∧ status = exitStatus argv) ∧
        ∀ left, LineExits c r status left →
          left.heap.live = ∅ ∧ ∀ child, left.killed.count child =
            if (v.shell.kernel.children child).isSome then 1 else 0 := by
  obtain ⟨t, S, hne, hholds⟩ := exists_words
  exact ⟨t, S, hne, hholds, twoLines_script, twoLines_room,
    session_exits_iff hne hholds _ twoLines_script twoLines_room⟩

end Results

end WizardShell.Ports

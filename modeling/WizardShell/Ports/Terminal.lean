import WizardShell.Ports.JobTracking

/-!
# Who has the terminal

A foreground child takes the terminal, and `fg` gives it to the job it continues.
`execute` takes it back on every path that forks.  `bin_fg` does so at its end,
and not where `kill` fails: then the shell prompts from the background, until some
later command brings the terminal back (`terminalKept_iff`).
-/

namespace WizardShell.Ports

open WizardShell.Verified

/-- From one prompt to the next, whatever the system calls return. -/
def turnStep (sh : Shell) (t : Turn) (sh' : Shell) : Prop := sh.turn t = .ret sh'

namespace Shell

/-- The foreground process group of the terminal is the shell's own. -/
def HasTerminal (sh : Shell) : Prop := sh.kernel.foreground = sh.kernel.pgrp

/-- The line is `fg` for a job in a group of its own, and `kill` fails. -/
def LosesTerminal (sh : Shell) (t : Turn) : Prop :=
  ∃ argv jid pid, t.command = .fg argv ∧
    jobArgument sh.jobsList fgErrors argv = .ret (.ok (jid, pid)) ∧
    t.kill < 0 ∧ pid ≠ sh.kernel.pgrp

end Shell

/-- A job in the background, and `fg` for it when its group is gone. -/
def failingFg : List Turn :=
  [{ command := .execute [.lit ['c', 'c'], tokAmp], fork := 100, kill := 0, wait := none,
     reports := [] },
    { command := .fg [.lit ['f', 'g'], .lit ['%', '1']], fork := 0, kill := -1,
      wait := none, reports := [] }]

/-- The shell, alone in group 1, prompts while group 100 has the terminal. -/
theorem not_terminalKept_failingFg :
    (Shell.init 1).HasTerminal ∧
      ¬ Run.EveryStep turnStep (Shell.init 1) failingFg fun _ _ sh => sh.HasTerminal := by
  refine ⟨rfl, fun hall => ?_⟩
  obtain ⟨sh₁, h₁⟩ : ∃ sh, turnStep (Shell.init 1) failingFg[0] sh :=
    ⟨_, show (Shell.init 1).turn failingFg[0] = .ret _ from rfl⟩
  obtain ⟨sh₂, h₂, hforeground⟩ : ∃ sh, turnStep sh₁ failingFg[1] sh ∧
      sh.kernel.foreground = 100 ∧ sh.kernel.pgrp = 1 := by
    cases h₁
    exact ⟨_, show Shell.turn _ failingFg[1] = .ret _ from rfl, rfl, rfl⟩
  have hkept : sh₂.HasTerminal :=
    hall [failingFg[0]] failingFg[1] [] sh₁ sh₂ rfl (Run.singleton_iff.mpr h₁) h₂
  rw [Shell.HasTerminal, hforeground.1, hforeground.2] at hkept
  exact absurd hkept (by decide)

/-! ## What leaves the terminal alone -/

namespace Shell

/-- The foreground group of the terminal, and the shell's. -/
def terminal (sh : Shell) : Int × Int := (sh.kernel.foreground, sh.kernel.pgrp)

theorem HasTerminal.of_eq {sh sh' : Shell} (h : sh.HasTerminal)
    (heq : sh'.terminal = sh.terminal) : sh'.HasTerminal := by
  obtain ⟨hforeground, hpgrp⟩ := Prod.mk.inj heq
  rw [HasTerminal, hforeground, hpgrp]
  exact h

theorem startJob_kernel {sh sh' : Shell} {tokens : List CString} {pid : Int}
    {state : ProcessState} (h : sh.startJob tokens pid state = .ret sh') :
    sh'.kernel = sh.kernel := by
  simp only [startJob, Outcome.bind_eq_ret, Outcome.pure_eq, Outcome.ret.injEq] at h
  obtain ⟨_, _, _, _, _, _, rfl⟩ := h
  rfl

theorem reap_terminal (reports : List Report) :
    ∀ {sh sh' : Shell}, sh.reap reports = .ret sh' → sh'.terminal = sh.terminal := by
  induction reports with
  | nil =>
      intro sh sh' h
      cases h
      rfl
  | cons report rest ih =>
      intro sh sh' h
      obtain ⟨wret, status⟩ := report
      simp only [reap, Outcome.bind_eq_ret] at h
      obtain ⟨_, _, _, _, h⟩ := h
      have hrest := ih h
      exact hrest

/-! ## One turn -/

/-- `execute` leaves the terminal to the shell. -/
theorem execute_hasTerminal {sh sh' : Shell} {tokens : List CString} {isBackground : Bool}
    {pid : Int} {wait : Option Report} (hterminal : sh.HasTerminal)
    (h : sh.execute tokens isBackground pid wait = .ret sh') : sh'.HasTerminal := by
  unfold execute at h
  split at h
  · cases h
    exact hterminal
  · cases isBackground with
    | true =>
        simp only [if_true, Outcome.bind_eq_ret, Outcome.pure_eq, Outcome.ret.injEq] at h
        obtain ⟨sh₁, hstart, rfl⟩ := h
        have hkernel := startJob_kernel hstart
        show sh₁.kernel.foreground = sh₁.kernel.pgrp
        rw [hkernel]
        show (sh.kernel.fork pid true).foreground = (sh.kernel.fork pid true).pgrp
        unfold Kernel.fork
        split
        · exact hterminal
        · exact hterminal
    | false =>
        simp only [Bool.false_eq_true, if_false, Outcome.bind_eq_ret, Outcome.pure_eq,
          Outcome.ret.injEq] at h
        obtain ⟨sh₁, _, rfl⟩ := h
        rfl

/-- `fg` leaves it to the shell unless `kill` fails for a job in another group. -/
theorem binFg_hasTerminal_iff {sh sh' : Shell} {argv : List CString} {kill r : Int}
    {wait : Option Report} (hterminal : sh.HasTerminal)
    (h : sh.binFg argv kill wait = .ret (r, sh')) :
    sh'.HasTerminal ↔ ¬ ∃ jid pid,
      jobArgument sh.jobsList fgErrors argv = .ret (.ok (jid, pid)) ∧ kill < 0 ∧
        pid ≠ sh.kernel.pgrp := by
  simp only [binFg, Outcome.bind_eq_ret] at h
  obtain ⟨arg, harg, h⟩ := h
  rw [harg]
  cases arg with
  | error text =>
      cases h
      refine iff_of_true hterminal ?_
      rintro ⟨_, _, heq, _⟩
      cases heq
  | ok target =>
      obtain ⟨jid, pid⟩ := target
      by_cases hkill : kill < 0
      · simp only [if_pos hkill] at h
        cases h
        show pid = sh.kernel.pgrp ↔ _
        constructor
        · rintro hpid ⟨_, _, heq, _, hne⟩
          cases heq
          exact hne hpid
        · intro hnot
          by_contra hne
          exact hnot ⟨jid, pid, rfl, hkill, hne⟩
      · simp only [if_neg hkill, Outcome.bind_eq_ret, Outcome.pure_eq, Outcome.ret.injEq] at h
        obtain ⟨sh₁, _, heq⟩ := h
        cases heq
        refine iff_of_true rfl ?_
        rintro ⟨_, _, _, hneg, _⟩
        exact hkill hneg

/-- **One turn** keeps the terminal unless it is the losing `fg`. -/
theorem turn_hasTerminal_iff {sh sh' : Shell} {t : Turn} (hterminal : sh.HasTerminal)
    (h : sh.turn t = .ret sh') : sh'.HasTerminal ↔ ¬ sh.LosesTerminal t := by
  obtain ⟨sh₁, hrun, hreap⟩ := Outcome.bind_eq_ret.mp h
  have hreaped : sh'.HasTerminal ↔ sh₁.HasTerminal := by
    have heq := reap_terminal t.reports hreap
    exact ⟨fun h' => h'.of_eq heq.symm, fun h₁ => h₁.of_eq heq⟩
  rw [hreaped]
  have hother : (∀ argv, t.command ≠ .fg argv) → ¬ sh.LosesTerminal t := by
    rintro hne ⟨argv, _, _, hcommand, _⟩
    exact hne argv hcommand
  unfold run at hrun
  split at hrun
  · rename_i tokens hcommand
    exact iff_of_true (execute_hasTerminal hterminal hrun) (hother (by simp [hcommand]))
  · rename_i argv hcommand
    obtain ⟨⟨r, sh₂⟩, hfg, heq⟩ := Outcome.bind_eq_ret.mp hrun
    cases heq
    rw [binFg_hasTerminal_iff hterminal hfg]
    simp [LosesTerminal, hcommand]
  · rename_i argv hcommand
    obtain ⟨⟨r, sh₂⟩, hbg, heq⟩ := Outcome.bind_eq_ret.mp hrun
    cases heq
    refine iff_of_true ?_ (hother (by simp [hcommand]))
    rw [HasTerminal, (binBg_keeps hbg).2.2]
    exact hterminal
  · rename_i argv hcommand
    obtain ⟨⟨r, sh₂⟩, hjobs, heq⟩ := Outcome.bind_eq_ret.mp hrun
    cases heq
    refine iff_of_true ?_ (hother (by simp [hcommand]))
    rw [HasTerminal, (binJobs_keeps hjobs).2.2]
    exact hterminal
  · rename_i hcommand
    cases hrun
    exact iff_of_true hterminal (hother (by simp [hcommand]))

end Shell

/-- **Who has the terminal at the prompts of a run**: the shell, exactly when no
turn is the losing `fg`. -/
theorem terminalKept_iff (start : Shell) (hstart : start.HasTerminal) (ts : List Turn) :
    (Run.EveryStep turnStep start ts fun _ _ sh => sh.HasTerminal) ↔
      Run.EveryStep turnStep start ts fun sh t _ => ¬ sh.LosesTerminal t :=
  Run.EveryStep.iff_of_step hstart
    (fun _ _ _ hterminal hstep => Shell.turn_hasTerminal_iff hterminal hstep)
    (fun _ _ _ _ _ hkept => hkept)

/-- The shell that has just started, before three turns. -/
theorem terminalKept_iff_threeTurns :
    (Shell.init 1).HasTerminal ∧
      ((Run.EveryStep turnStep (Shell.init 1) threeTurns fun _ _ sh => sh.HasTerminal) ↔
        Run.EveryStep turnStep (Shell.init 1) threeTurns fun sh t _ => ¬ sh.LosesTerminal t) :=
  ⟨rfl, terminalKept_iff (Shell.init 1) rfl threeTurns⟩

end WizardShell.Ports

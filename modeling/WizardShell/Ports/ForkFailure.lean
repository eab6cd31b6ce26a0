import WizardShell.Ports.Shell

/-!
# When `fork` fails

`execute` tests the result of `fork` only for 0, so the -1 of a failure goes on as
a pid: in the background it becomes the pid of a job, in the foreground it makes
`waitpid` wait for any child.

`failsQuietly_iff`: nothing is recorded and no child is waited for exactly in the
foreground, and when the shell has no child.
-/

namespace WizardShell.Ports

open Function
open WizardShell.Verified

/-- `waitpid(-1, &wstatus, WUNTRACED)` may return this: a report about some child, and
not that it continued; nothing when there is no child. -/
def Kernel.CanWaitAny (k : Kernel) : Option Report → Prop
  | none => ∀ pid, k.children pid = none
  | some (wret, status) => k.children wret ≠ none ∧ status ≠ .continued

/-- `fork` returns -1, and whatever `waitpid` may return, `execute` returns with
`jobs_list` and `jcount` as they were, and every child as it was reported last. -/
def FailsQuietly (sh : Shell) (tokens : List CString) (isBackground : Bool) : Prop :=
  ∀ wait, sh.kernel.CanWaitAny wait →
    (sh.execute tokens isBackground (-1) wait).Yields fun sh' =>
      sh'.jobsList = sh.jobsList ∧ sh'.jcount = sh.jcount ∧
        sh'.kernel.children = sh.kernel.children

section Fork

variable {sh sh' : Shell} {tokens : List CString} {wait : Option Report}

/-- A shell can always wait for something. -/
theorem Kernel.exists_canWaitAny (k : Kernel) : ∃ wait, k.CanWaitAny wait := by
  by_cases hnone : ∀ pid, k.children pid = none
  · exact ⟨none, hnone⟩
  · push Not at hnone
    obtain ⟨pid, hpid⟩ := hnone
    exact ⟨some (pid, .exited 0), hpid, by simp⟩

/-- A started job is counted. -/
theorem Shell.startJob_jcount {pid : Int} {state : ProcessState}
    (h : sh.startJob tokens pid state = .ret sh') : sh'.jcount = sh.jcount + 1 := by
  obtain ⟨jcount, hsucc, h⟩ := Outcome.bind_eq_ret.mp h
  obtain ⟨_, _, h⟩ := Outcome.bind_eq_ret.mp h
  obtain ⟨_, _, h⟩ := Outcome.bind_eq_ret.mp h
  cases h
  rw [succInt] at hsucc
  split at hsucc
  · cases hsucc
    rfl
  · cases hsucc

/-- In the background the failure is started as a job. -/
theorem execute_background (haccepted : Accepted tokens)
    (h : sh.execute tokens true (-1) wait = .ret sh') : sh'.jcount = sh.jcount + 1 := by
  obtain ⟨r, hscan⟩ := haccepted
  rw [Shell.execute, hscan] at h
  obtain ⟨sh₁, hstart, h⟩ := Outcome.bind_eq_ret.mp h
  cases h
  have hcount := Shell.startJob_jcount hstart
  exact hcount

/-- In the foreground, a child that ended is taken for the one that was not forked. -/
theorem execute_foreground (sh : Shell) (haccepted : Accepted tokens) (pid code : Int) :
    ∃ sh', sh.execute tokens false (-1) (some (pid, .exited code)) = .ret sh' ∧
      sh'.kernel.children pid = none := by
  obtain ⟨r, hscan⟩ := haccepted
  rw [Shell.execute, hscan]
  refine ⟨_, rfl, ?_⟩
  show update sh.kernel.children pid none pid = none
  rw [update_self]

/-- Without a child to wait for, nothing happens. -/
theorem execute_childless (haccepted : Accepted tokens) :
    ∃ sh', sh.execute tokens false (-1) none = .ret sh' ∧ sh'.jobsList = sh.jobsList ∧
      sh'.jcount = sh.jcount ∧ sh'.kernel.children = sh.kernel.children := by
  obtain ⟨r, hscan⟩ := haccepted
  rw [Shell.execute, hscan]
  exact ⟨_, rfl, rfl, rfl, rfl⟩

end Fork

/-- `ls &` at the first prompt: the process that was not forked becomes job 1. -/
theorem not_failsQuietly_background :
    Accepted [.lit ['l', 's'], tokAmp] ∧
      ¬ FailsQuietly (Shell.init 1) [.lit ['l', 's'], tokAmp] true := by
  have haccepted : Accepted [.lit ['l', 's'], tokAmp] := accepted_of_plain (by decide)
  refine ⟨haccepted, fun h => ?_⟩
  obtain ⟨sh', hret, _, hcount, _⟩ := h none fun _ => rfl
  rw [execute_background haccepted hret] at hcount
  exact absurd hcount (by decide)

/-- **When a failed `fork` changes nothing**: in the foreground, and when the shell has
no child that is not yet reaped. -/
theorem failsQuietly_iff (sh : Shell) (tokens : List CString) (isBackground : Bool)
    (haccepted : Accepted tokens) :
    FailsQuietly sh tokens isBackground ↔
      isBackground = false ∧ ∀ pid, sh.kernel.children pid = none := by
  constructor
  · intro h
    cases isBackground with
    | true =>
        obtain ⟨wait, hwait⟩ := sh.kernel.exists_canWaitAny
        obtain ⟨sh', hret, _, hcount, _⟩ := h wait hwait
        rw [execute_background haccepted hret] at hcount
        omega
    | false =>
        refine ⟨rfl, fun pid => ?_⟩
        by_contra hchild
        obtain ⟨sh', hret, hgone⟩ := execute_foreground sh haccepted pid 0
        obtain ⟨sh₁, hret₁, _, _, hchildren⟩ := h (some (pid, .exited 0)) ⟨hchild, by simp⟩
        cases hret.symm.trans hret₁
        rw [hchildren] at hgone
        exact hchild hgone
  · rintro ⟨rfl, hnone⟩ wait hwait
    cases wait with
    | none => exact execute_childless haccepted
    | some report => exact absurd (hnone report.1) hwait.1

/-- `ls` at the first prompt. -/
theorem failsQuietly_iff_ls :
    Accepted [.lit ['l', 's']] ∧
    (FailsQuietly (Shell.init 1) [.lit ['l', 's']] false ↔
      false = false ∧ ∀ pid, (Shell.init 1).kernel.children pid = none) :=
  have haccepted : Accepted [.lit ['l', 's']] := accepted_of_plain (by decide)
  ⟨haccepted, failsQuietly_iff (Shell.init 1) _ false haccepted⟩

end WizardShell.Ports

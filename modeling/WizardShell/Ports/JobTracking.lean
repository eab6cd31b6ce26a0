import WizardShell.Ports.JobRegistry
import WizardShell.Ports.Shell
import WizardShell.Verified.Run

/-!
# The job list tracks the children

Runs of the shell over lines and reports of the kernel, in any order.  The job
list represents a registry of jobs, which under each pid agrees with the kernel
about the child (`Tracks`).  Every turn returns and keeps this (`turn_tracked`),
so at each prompt the list has one element for each child that is not yet reaped
(`jobs_trackChildren`).
-/

namespace WizardShell.Ports

open Function
open WizardShell.Verified
open WizardShell.Verified.Outcome (yields_ret ret_bind)

/-! ## What the kernel may answer -/

/-- The reports are about children not yet reaped. -/
def Kernel.CanReport (k : Kernel) : List Report → Prop
  | [] => True
  | (wret, status) :: rest =>
      k.children wret ≠ none ∧ (k.report wret status).CanReport rest

/-- `waitpid(pid, &wstatus, WUNTRACED)` may return this: a report about `pid`,
and not that it continued. -/
def CanWait (pid : Int) (wait : Option Report) : Prop :=
  ∀ report ∈ wait, report.1 = pid ∧ report.2 ≠ .continued

namespace Turn

/-- What the system calls of the line may return.  `fork` succeeds, with a pid
that no unreaped child has, and the `waitpid` for that child reports. -/
def CanRun (sh : Shell) (t : Turn) : Prop :=
  match t.command with
  | .execute tokens =>
      Accepted tokens ∧ (∃ command, firstNonredirect tokens .empty = .ret command) ∧
      0 < t.fork ∧ sh.kernel.children t.fork = none ∧
      (ppstrFinal tokens ≠ some tokAmp → CanWait t.fork t.wait ∧ t.wait ≠ none)
  | .fg argv =>
      ∀ jid pid, Shell.jobArgument sh.jobsList Shell.fgErrors argv = .ret (.ok (jid, pid)) →
        CanWait pid t.wait
  | _ => True

/-- The turn is one that the kernel allows, and `jcount` has not reached
`INT_MAX`. -/
structure Legal (sh : Shell) (t : Turn) : Prop where
  jcount : sh.jcount < intMax
  run : t.CanRun sh
  reports : ∀ sh', sh.run t = .ret sh' → sh'.kernel.CanReport t.reports

end Turn

/-- The turn is legal, and leads to `sh'`. -/
def shellStep (sh : Shell) (t : Turn) (sh' : Shell) : Prop :=
  t.Legal sh ∧ sh.turn t = .ret sh'

/-- The turns `ts` of a shell in the process group `pgrp` lead to `sh`. -/
abbrev ShellRun (pgrp : Int) (ts : List Turn) (sh : Shell) : Prop :=
  Run shellStep (Shell.init pgrp) ts sh

/-- The elements of `jobs_list` and the children of the shell agree. -/
structure TracksChildren (sh : Shell) (elems : List (Nat × Job)) : Prop where
  elements : Segment sh.jobsList.heap sh.jobsList.head elems none
  /-- One element for each child forked and not yet reaped, and no other. -/
  pids : ∀ pid, (elems.map fun x => x.2.pid).count pid =
    if (sh.kernel.children pid).isSome then 1 else 0
  jids : (elems.map fun x => x.2.jid).Nodup
  jids_issued : ∀ x ∈ elems, 1 ≤ x.2.jid ∧ x.2.jid ≤ sh.jcount
  inverse : ∀ x ∈ elems, sh.jobsList.getJobPid x.2.jid = .ret x.2.pid ∧
    sh.jobsList.getJobJid x.2.pid = .ret x.2.jid
  /-- A job is STOPPED if the last status reported for it was a stop. -/
  stopped : ∀ x ∈ elems, x.2.state = .stopped ↔
    ∃ sig, sh.kernel.children x.2.pid = some (some (.stopped sig))

/-! ## What is left alone -/

theorem succInt_eq_ret {n m : Int} : succInt n = .ret m ↔ n < intMax ∧ m = n + 1 := by
  unfold succInt
  by_cases hlt : n < intMax
  · simp [hlt, eq_comm]
  · simp [hlt]

/-- `bg` leaves the list and the kernel alone … -/
theorem Shell.binBg_keeps {sh sh' : Shell} {argv : List CString} {kill r : Int}
    (hrun : sh.binBg argv kill = .ret (r, sh')) :
    sh'.jobsList = sh.jobsList ∧ sh'.jcount = sh.jcount ∧ sh'.kernel = sh.kernel := by
  obtain ⟨arg, _, hrun⟩ := Outcome.bind_eq_ret.mp hrun
  cases arg with
  | error text =>
      cases hrun
      exact ⟨rfl, rfl, rfl⟩
  | ok found =>
      dsimp only at hrun
      split at hrun
      · cases hrun
        exact ⟨rfl, rfl, rfl⟩
      · cases hrun
        exact ⟨rfl, rfl, rfl⟩

/-- … and so does `jobs`. -/
theorem Shell.binJobs_keeps {sh sh' : Shell} {argv : List CString} {r : Int}
    (hrun : sh.binJobs argv = .ret (r, sh')) :
    sh'.jobsList = sh.jobsList ∧ sh'.jcount = sh.jcount ∧ sh'.kernel = sh.kernel := by
  unfold binJobs at hrun
  split at hrun
  · cases hrun
    exact ⟨rfl, rfl, rfl⟩
  · split at hrun
    · cases hrun
      exact ⟨rfl, rfl, rfl⟩
    · obtain ⟨jobs, _, hrun⟩ := Outcome.bind_eq_ret.mp hrun
      cases hrun
      exact ⟨rfl, rfl, rfl⟩

/-! ## The registry and the kernel -/

/-- The argument of `fg` or `bg` is refused, or names a job of the list. -/
theorem Represents.jobArgument {l : JobList} {r : JobRegistry} (h : Represents l r)
    (errors : Shell.ArgumentErrors) (argv : List CString) :
    (∃ text, Shell.jobArgument l errors argv = .ret (.error text)) ∨
      ∃ j ∈ r.records, Shell.jobArgument l errors argv = .ret (.ok (j.jid, j.pid)) := by
  unfold Shell.jobArgument
  split
  · rename_i arg
    by_cases hpercent : arg.bytes.head? = some 37
    · rw [if_pos hpercent]
      by_cases hex : ∃ j ∈ r.records, j.jid = atoi arg.bytes.tail
      · obtain ⟨j, hj, hjid⟩ := hex
        have hget : l.getJobPid (atoi arg.bytes.tail) = .ret j.pid := by
          have hfinds := h.get (finds_jid hj) Job.pid
          rw [Registry.lookup_eq_some.mpr ⟨hj, rfl⟩] at hfinds
          rw [← hjid]
          exact hfinds
        by_cases hneg : j.pid < 0
        · exact .inl ⟨errors.notFound j.pid, by simp [hget, hneg]⟩
        · exact .inr ⟨j, hj, by simp [hget, hneg, hjid]⟩
      · have hget : l.getJobPid (atoi arg.bytes.tail) = .ret (-1) := by
          obtain ⟨elems, hlists, hrecords⟩ := h
          refine hlists.get_none fun x hx => decide_eq_false fun hjid => hex ⟨x.2, ?_, hjid⟩
          rw [← hrecords]
          exact List.mem_map_of_mem hx
        exact .inl ⟨errors.notFound (-1), by simp [hget]⟩
    · rw [if_neg hpercent]
      exact .inl ⟨_, rfl⟩
  · exact .inl ⟨_, rfl⟩

def Job.isStopped (j : Job) : Bool := j.state = .stopped

/-- Was the last status reported a stop? -/
def lastWasStop : Option WaitStatus → Bool
  | some (.stopped _) => true
  | _ => false

theorem lastWasStop_iff {last : Option WaitStatus} :
    lastWasStop last = true ↔ ∃ sig, last = some (.stopped sig) := by
  unfold lastWasStop
  split <;> simp_all

/-- The jobs of the list are the children, numbered up to `jcount`, and stopped
where the last report was a stop. -/
structure Tracks (l : JobList) (jcount : Int)
    (children : Int → Option (Option WaitStatus)) (r : JobRegistry) : Prop where
  list : Represents l r
  issued : r.issued = jcount
  children : Option.map Job.isStopped ∘ r.lookup = Option.map lastWasStop ∘ children

/-- The state of the shell, in some registry. -/
def Shell.Tracked (sh : Shell) : Prop :=
  ∃ r, Tracks sh.jobsList sh.jcount sh.kernel.children r

theorem tracked_init (pgrp : Int) : (Shell.init pgrp).Tracked :=
  ⟨.empty, represents_init, rfl, rfl⟩

namespace Tracks

variable {l : JobList} {jcount : Int} {children : Int → Option (Option WaitStatus)}
  {r : JobRegistry}

theorem isSome_lookup (h : Tracks l jcount children r) (pid : Int) :
    (r.lookup pid).isSome = (children pid).isSome := by
  have hpid := congrArg Option.isSome (congrFun h.children pid)
  simpa using hpid

/-- A listed job is a child. -/
theorem child_of_mem (h : Tracks l jcount children r) {j : Job} (hj : j ∈ r.records) :
    children j.pid ≠ none := by
  rw [← Option.isSome_iff_ne_none, ← h.isSome_lookup,
    Registry.lookup_eq_some.mpr ⟨hj, rfl⟩]
  rfl

theorem isStopped_iff (h : Tracks l jcount children r) {j : Job} (hj : j ∈ r.records) :
    j.state = .stopped ↔ ∃ sig, children j.pid = some (some (.stopped sig)) := by
  have hstate := congrFun h.children j.pid
  rw [comp_apply, comp_apply, Registry.lookup_eq_some.mpr ⟨hj, rfl⟩, Option.map_some]
    at hstate
  obtain ⟨last, hlast⟩ := Option.ne_none_iff_exists'.mp (h.child_of_mem hj)
  rw [hlast, Option.map_some, Option.some.injEq] at hstate
  rw [hlast]
  simp only [Option.some.injEq]
  rw [← lastWasStop_iff, ← hstate, Job.isStopped, decide_eq_true_iff]

/-- A number issued to no job. -/
theorem issue (h : Tracks l jcount children r) : Tracks l (jcount + 1) children r.issue :=
  ⟨h.list, congrArg (· + 1) h.issued, h.children⟩

/-- A child that was forked and reaped in between leaves no trace. -/
theorem forked_reaped (h : Tracks l jcount children r) {pid : Int}
    {last : Option WaitStatus} (hfresh : children pid = none) :
    Tracks l jcount (Function.update (Function.update children pid (some last)) pid none) r := by
  rwa [update_idem, ← hfresh, update_eq_self]

theorem enter (h : Tracks l jcount children r) {j : Job} {last : Option WaitStatus}
    (hfresh : children j.pid = none) (hjid : j.jid = jcount + 1)
    (hstate : j.isStopped = lastWasStop last) :
    (l.addJob j.jid j.pid j.state j.command).Yields fun p =>
      ∃ r', Tracks p.2 (jcount + 1) (Function.update children j.pid (some last)) r' := by
  have hnew : r.lookup j.pid = none := by
    have hsome := h.isSome_lookup j.pid
    rw [hfresh] at hsome
    simpa using hsome
  have hissued : j.jid = r.issued + 1 := by rw [h.issued, hjid]
  obtain ⟨p, hadd, hlist⟩ := h.list.addJob hissued (Registry.lookup_eq_none.mp hnew)
  refine ⟨p, hadd, _, hlist, congrArg (· + 1) h.issued, ?_⟩
  rw [Registry.lookup_enter, comp_update, comp_update, h.children, Option.map_some,
    Option.map_some, hstate]

/-- The child is reaped and the job removed. -/
theorem remove (h : Tracks l jcount children r) {found : Job → Bool} {pid : Int}
    (hfinds : Finds r found pid) :
    (l.remove found).Yields fun p =>
      ∃ r', Tracks p.2 jcount (Function.update children pid none) r' := by
  obtain ⟨p, hremove, hlist⟩ := h.list.remove hfinds
  refine ⟨p, hremove, _, hlist, h.issued, ?_⟩
  rw [Registry.lookup_remove, comp_update, comp_update, h.children]
  rfl

/-- The child changed its state, and so does the job. -/
theorem update (h : Tracks l jcount children r) {found : Job → Bool} {pid : Int}
    (hfinds : Finds r found pid) (hchild : children pid ≠ none) (state : ProcessState)
    (status : WaitStatus) (hstate : decide (state = .stopped) = lastWasStop (some status)) :
    (l.update found state).Yields fun p =>
      ∃ r', Tracks p.2 jcount (Function.update children pid (some (some status))) r' := by
  obtain ⟨p, hupdate, hlist⟩ := h.list.update hfinds state
  refine ⟨p, hupdate, _, hlist, h.issued, ?_⟩
  obtain ⟨j, hj⟩ : ∃ j, r.lookup pid = some j := by
    rw [← Option.isSome_iff_exists, h.isSome_lookup, Option.isSome_iff_ne_none]
    exact hchild
  rw [setState, Registry.lookup_revise, comp_update, comp_update, h.children, hj,
    Option.map_some, Option.map_some, Option.map_some, ← hstate]
  rfl

end Tracks

/-! ## The functions of the shell -/

section Shell

variable {sh : Shell} {children : Int → Option (Option WaitStatus)} {r : JobRegistry}
  {tokens : List CString} {pid : Int}

/-- The job of a child just forked, about which `last` was reported. -/
theorem startJob_tracked (sh : Shell) (state : ProcessState)
    (h : Tracks sh.jobsList sh.jcount children r) {last : Option WaitStatus}
    (hcount : sh.jcount < intMax)
    (hcommand : ∃ command, firstNonredirect tokens .empty = .ret command)
    (hfresh : children pid = none)
    (hkernel : sh.kernel.children = update children pid (some last))
    (hstate : decide (state = .stopped) = lastWasStop last) :
    (sh.startJob tokens pid state).Yields Shell.Tracked := by
  obtain ⟨command, hcommand⟩ := hcommand
  rw [Shell.startJob, succInt, if_pos hcount, hcommand]
  apply (h.enter (j := ⟨sh.jcount + 1, pid, state, command⟩) hfresh rfl hstate).bind
  rintro ⟨_, l'⟩ ⟨r', htracks⟩
  refine yields_ret.mpr ⟨r', ?_⟩
  show Tracks l' (sh.jcount + 1) sh.kernel.children r'
  rw [hkernel]
  exact htracks

/-- The child just forked exited, was killed or stopped. -/
theorem afterWait_tracked (sh : Shell) (h : Tracks sh.jobsList sh.jcount children r)
    (hcount : sh.jcount < intMax)
    (hcommand : ∃ command, firstNonredirect tokens .empty = .ret command)
    (hfresh : children pid = none)
    (hkernel : sh.kernel.children = update children pid (some none))
    {wait : Option Report} (hwait : CanWait pid wait) (hsome : wait ≠ none) :
    (sh.afterWait tokens pid wait).Yields Shell.Tracked := by
  obtain ⟨⟨wret, status⟩, rfl⟩ := Option.ne_none_iff_exists'.mp hsome
  obtain ⟨rfl, hstatus⟩ := hwait _ rfl
  have hreaped : Tracks sh.jobsList sh.jcount (update sh.kernel.children wret none) r := by
    rw [hkernel]
    exact h.forked_reaped hfresh
  cases status with
  | exited code => exact yields_ret.mpr ⟨r, hreaped⟩
  | signaled sig =>
      simp only [Shell.afterWait, succInt, if_pos hcount]
      exact yields_ret.mpr ⟨r.issue, hreaped.issue⟩
  | stopped sig =>
      have hreport : (sh.kernel.report wret (.stopped sig)).children =
          update children wret (some (some (.stopped sig))) := by
        rw [Kernel.report, hkernel, update_idem]
        rfl
      apply (startJob_tracked { sh with kernel := sh.kernel.report wret (.stopped sig) }
        .stopped h hcount hcommand hfresh hreport rfl).bind
      intro sh' htracked
      exact yields_ret.mpr htracked
  | continued => exact absurd rfl hstatus

/-- What `execute` leaves behind. -/
theorem execute_tracked (h : Tracks sh.jobsList sh.jcount sh.kernel.children r)
    (hcount : sh.jcount < intMax) (haccepted : Accepted tokens)
    (hcommand : ∃ command, firstNonredirect tokens .empty = .ret command)
    (hpos : 0 < pid) (hfresh : sh.kernel.children pid = none) {isBackground : Bool}
    {wait : Option Report}
    (hwait : isBackground = false → CanWait pid wait ∧ wait ≠ none) :
    (sh.execute tokens isBackground pid wait).Yields Shell.Tracked := by
  obtain ⟨redirection, hscan⟩ := haccepted
  have hkernel : (sh.kernel.fork pid isBackground).children =
      update sh.kernel.children pid (some none) := by
    rw [Kernel.fork, if_pos hpos]
  simp only [Shell.execute, hscan]
  cases isBackground with
  | true =>
      apply (startJob_tracked { sh with kernel := sh.kernel.fork pid true }
        .running h hcount hcommand hfresh hkernel rfl).bind
      intro sh' htracked
      exact yields_ret.mpr htracked
  | false =>
      obtain ⟨hcan, hsome⟩ := hwait rfl
      apply (afterWait_tracked { sh with kernel := sh.kernel.fork pid false }
        h hcount hcommand hfresh hkernel hcan hsome).bind
      intro sh' htracked
      exact yields_ret.mpr htracked

/-- The job continued by `fg` exited, was killed or stopped. -/
theorem afterFgWait_tracked (sh : Shell)
    (h : Tracks sh.jobsList sh.jcount sh.kernel.children r) {j : Job} (hj : j ∈ r.records)
    {wait : Option Report} (hwait : CanWait j.pid wait) :
    (sh.afterFgWait j.jid wait).Yields Shell.Tracked := by
  cases wait with
  | none => exact yields_ret.mpr ⟨r, h⟩
  | some report =>
      obtain ⟨wret, status⟩ := report
      obtain ⟨hwret, hstatus⟩ := hwait _ rfl
      obtain rfl : wret = j.pid := hwret
      cases status with
      | exited code =>
          apply (h.remove (finds_jid hj)).bind
          rintro ⟨_, l'⟩ hremoved
          exact yields_ret.mpr hremoved
      | signaled sig =>
          apply (h.remove (finds_jid hj)).bind
          rintro ⟨_, l'⟩ hremoved
          exact yields_ret.mpr hremoved
      | stopped sig =>
          have hchild := h.child_of_mem hj
          apply (h.update (finds_jid hj) hchild .stopped (.stopped sig) rfl).bind
          rintro ⟨_, l'⟩ hupdated
          exact yields_ret.mpr hupdated
      | continued => exact absurd rfl hstatus

/-- What `fg` leaves behind, whatever its argument and whatever `kill` says. -/
theorem binFg_tracked (h : Tracks sh.jobsList sh.jcount sh.kernel.children r)
    {argv : List CString} {kill : Int} {wait : Option Report}
    (hwait : ∀ jid pid, Shell.jobArgument sh.jobsList Shell.fgErrors argv =
      .ret (.ok (jid, pid)) → CanWait pid wait) :
    (sh.binFg argv kill wait).Yields fun p => p.2.Tracked := by
  rcases h.list.jobArgument Shell.fgErrors argv with ⟨text, harg⟩ | ⟨j, hj, harg⟩
  · rw [Shell.binFg, harg]
    exact yields_ret.mpr ⟨r, h⟩
  · rw [Shell.binFg, harg]
    by_cases hkill : kill < 0
    · simp only [ret_bind, if_pos hkill]
      exact yields_ret.mpr ⟨r, h⟩
    · simp only [ret_bind, if_neg hkill]
      apply (afterFgWait_tracked { sh with kernel := sh.kernel.tcsetpgrp j.pid }
        h hj (hwait _ _ harg)).bind
      intro sh' htracked
      exact yields_ret.mpr htracked

theorem binBg_tracked (h : Tracks sh.jobsList sh.jcount sh.kernel.children r)
    (argv : List CString) (kill : Int) :
    (sh.binBg argv kill).Yields fun p => p.2.Tracked := by
  rcases h.list.jobArgument Shell.bgErrors argv with ⟨text, harg⟩ | ⟨j, hj, harg⟩
  · rw [Shell.binBg, harg]
    exact yields_ret.mpr ⟨r, h⟩
  · rw [Shell.binBg, harg]
    by_cases hkill : kill < 0
    · simp only [ret_bind, if_pos hkill]
      exact yields_ret.mpr ⟨r, h⟩
    · simp only [ret_bind, if_neg hkill]
      exact yields_ret.mpr ⟨r, h⟩

theorem binJobs_tracked (h : Tracks sh.jobsList sh.jcount sh.kernel.children r)
    (argv : List CString) : (sh.binJobs argv).Yields fun p => p.2.Tracked := by
  unfold Shell.binJobs
  split
  · exact yields_ret.mpr ⟨r, h⟩
  · split
    · exact yields_ret.mpr ⟨r, h⟩
    · obtain ⟨elems, hlists, _⟩ := h.list
      rw [hlists.jobs]
      exact yields_ret.mpr ⟨r, h⟩

/-- A report takes the child's job along. -/
theorem reportedList_tracked {l : JobList} {jcount : Int} (h : Tracks l jcount children r)
    {wret : Int} (hchild : children wret ≠ none) (status : WaitStatus) :
    (Shell.reportedList l wret status).Yields fun p =>
      ∃ r', Tracks p.2 jcount (update children wret
        (if status.reaps then none else some (some status))) r' := by
  cases status with
  | exited code => exact h.remove (finds_pid r wret)
  | signaled sig => exact h.remove (finds_pid r wret)
  | stopped sig => exact h.update (finds_pid r wret) hchild .stopped (.stopped sig) rfl
  | continued => exact h.update (finds_pid r wret) hchild .running .continued rfl

/-- The loop of `wsh_main`, by induction on the reports it gets. -/
theorem reap_tracked (reports : List Report) :
    ∀ {sh : Shell}, sh.Tracked → sh.kernel.CanReport reports →
      (sh.reap reports).Yields Shell.Tracked := by
  induction reports with
  | nil =>
      intro sh h _
      exact yields_ret.mpr h
  | cons report rest ih =>
      intro sh h hcan
      obtain ⟨wret, status⟩ := report
      obtain ⟨r, h⟩ := h
      obtain ⟨hchild, hrest⟩ := hcan
      have hget : sh.jobsList.getJobJid wret = _ := h.list.get (finds_pid r wret) Job.jid
      rw [Shell.reap, hget, ret_bind]
      apply (reportedList_tracked h hchild status).bind
      rintro ⟨_, l'⟩ htracked
      exact ih htracked hrest

/-- **A turn that the kernel allows returns, and keeps the list and the children
in step.** -/
theorem turn_tracked {t : Turn} (h : sh.Tracked) (hlegal : t.Legal sh) :
    (sh.turn t).Yields Shell.Tracked := by
  have hrun : (sh.run t).Yields Shell.Tracked := by
    obtain ⟨r, h⟩ := h
    have hcan := hlegal.run
    unfold Turn.CanRun at hcan
    unfold Shell.run
    split
    · rename_i tokens hcommand
      rw [hcommand] at hcan
      obtain ⟨haccepted, hname, hpos, hfresh, hwait⟩ := hcan
      refine execute_tracked h hlegal.jcount haccepted hname hpos hfresh fun hfore => ?_
      exact hwait (of_decide_eq_false hfore)
    · rename_i argv hcommand
      rw [hcommand] at hcan
      apply (binFg_tracked h hcan).bind
      rintro ⟨_, sh'⟩ htracked
      exact yields_ret.mpr htracked
    · rename_i argv _
      apply (binBg_tracked h argv t.kill).bind
      rintro ⟨_, sh'⟩ htracked
      exact yields_ret.mpr htracked
    · rename_i argv _
      apply (binJobs_tracked h argv).bind
      rintro ⟨_, sh'⟩ htracked
      exact yields_ret.mpr htracked
    · exact yields_ret.mpr ⟨r, h⟩
  obtain ⟨sh', hret, htracked⟩ := hrun
  rw [Shell.turn, hret, ret_bind]
  exact reap_tracked t.reports htracked (hlegal.reports sh' hret)

end Shell

/-! ## Runs -/

/-- In step with the children, the list in memory has what the registry has. -/
theorem Shell.Tracked.tracksChildren {sh : Shell} (h : sh.Tracked) :
    ∃ elems, TracksChildren sh elems := by
  obtain ⟨r, h⟩ := h
  obtain ⟨elems, hlists, hrecords⟩ := h.list
  have hmem : ∀ x ∈ elems, x.2 ∈ r.records := by
    intro x hx
    rw [← hrecords]
    exact List.mem_map_of_mem hx
  have hmap : ∀ field : Job → Int,
      (elems.map fun x => field x.2) = r.records.map field := by
    intro field
    rw [← hrecords, List.map_map]
    rfl
  refine ⟨elems, hlists.chain, ?_, ?_, ?_, ?_, ?_⟩
  · intro pid
    rw [hmap Job.pid, Registry.count_key, h.isSome_lookup]
  · rw [hmap Job.jid]
    exact r.nums_nodup
  · intro x hx
    rw [← h.issued]
    exact r.nums_issued x.2 (hmem x hx)
  · intro x hx
    have hlookup := Registry.lookup_eq_some.mpr ⟨hmem x hx, rfl⟩
    constructor
    · have hget := h.list.get (finds_jid (hmem x hx)) Job.pid
      rwa [hlookup] at hget
    · have hget := h.list.get (finds_pid r x.2.pid) Job.jid
      rwa [hlookup] at hget
  · intro x hx
    exact h.isStopped_iff (hmem x hx)

/-- The invariant holds at every prompt. -/
theorem shellRun_tracked {pgrp : Int} {ts : List Turn} {sh : Shell}
    (hrun : ShellRun pgrp ts sh) : sh.Tracked := by
  induction hrun with
  | start => exact tracked_init pgrp
  | next _ hstep ih =>
      obtain ⟨sh', hret, htracked⟩ := turn_tracked ih hstep.1
      rw [hstep.2] at hret
      cases hret
      exact htracked

/-- **The job list tracks the children over every run.** -/
theorem jobs_trackChildren (pgrp : Int) (ts : List Turn) (sh : Shell)
    (hrun : ShellRun pgrp ts sh) :
    (∃ elems, TracksChildren sh elems) ∧
      ∀ t : Turn, t.Legal sh → ∃ sh', sh.turn t = .ret sh' := by
  have htracked : sh.Tracked := shellRun_tracked hrun
  refine ⟨htracked.tracksChildren, fun t hlegal => ?_⟩
  obtain ⟨sh', hret, _⟩ := turn_tracked htracked hlegal
  exact ⟨sh', hret⟩

/-- A job in the background, one stopped in the foreground while the first one
exits, and `fg` for it. -/
def threeTurns : List Turn :=
  [{ command := .execute [.lit ['c', 'c'], tokAmp], fork := 100, kill := 0, wait := none,
     reports := [] },
    { command := .execute [.lit ['v', 'i']], fork := 101, kill := 0,
      wait := some (101, .stopped 20), reports := [(100, .exited 0)] },
    { command := .fg [.lit ['f', 'g'], .lit ['%', '2']], fork := 0, kill := 0,
      wait := some (101, .exited 0), reports := [] }]

theorem jobs_trackChildren_threeTurns :
    ∃ sh, ShellRun 1 threeTurns sh ∧
      (∃ elems, TracksChildren sh elems) ∧
        ∀ t : Turn, t.Legal sh → ∃ sh', sh.turn t = .ret sh' := by
  have hrun : ∃ sh, ShellRun 1 threeTurns sh := by
    refine ⟨_, Run.cons_iff.mpr ⟨_, ⟨⟨by decide, ?_, ?_⟩, rfl⟩, Run.cons_iff.mpr
      ⟨_, ⟨⟨by decide, ?_, ?_⟩, rfl⟩, Run.singleton_iff.mpr
        ⟨⟨by decide, ?_, ?_⟩, rfl⟩⟩⟩⟩
    · exact ⟨accepted_of_plain (by decide), ⟨_, rfl⟩, by decide, rfl,
        fun h => absurd rfl h⟩
    · intro sh' _
      trivial
    · refine ⟨accepted_of_plain (by decide), ⟨_, rfl⟩, by decide, by decide,
        fun _ => ⟨?_, by simp⟩⟩
      rintro _ ⟨⟩
      exact ⟨rfl, by decide⟩
    · intro sh' h
      cases h
      exact ⟨by decide, trivial⟩
    · intro jid pid h
      cases h
      rintro _ ⟨⟩
      exact ⟨rfl, by decide⟩
    · intro sh' _
      trivial
  obtain ⟨sh, hrun⟩ := hrun
  exact ⟨sh, hrun, jobs_trackChildren 1 threeTurns sh hrun⟩

end WizardShell.Ports

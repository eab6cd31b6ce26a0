import WizardShell.Ports.JobTracking

/-!
# The numbers in status reports

A line `[n] (pid)` about a job should have the number of that job.  The runs here
are sequences of events, a line or a report of `waitpid` at a time, with whatever
the system calls return; the turns of the shell are such runs
(`Turn.run_events`).

`execute` and the loop of `wsh_main` print the number that is stored with the
process.  `bin_fg` prints `jcount`, the number issued last, for any job.
`reportsRight_iff` says at which events the number printed is the right one.
-/

namespace WizardShell.Ports

open WizardShell.Verified
open JobList (Lists)

/-- What the shell does between two prompts, one step at a time. -/
inductive Event where
  /-- It runs a line. -/
  | line (t : Turn)
  /-- `waitpid` in `wsh_main` reports a child. -/
  | report (wret : Int) (status : WaitStatus)

/-- What happens at the event. -/
def Shell.event (sh : Shell) : Event → Outcome Shell
  | .line t => sh.run t
  | .report wret status => sh.reap [(wret, status)]

def eventStep (sh : Shell) (e : Event) (sh' : Shell) : Prop := sh.event e = .ret sh'

/-- The events of a turn. -/
def Turn.events (t : Turn) : List Event :=
  .line t :: t.reports.map fun report => .report report.1 report.2

/-- The job is an element of `jobs_list`. -/
def Shell.Listed (sh : Shell) (j : Job) : Prop :=
  ∃ js, sh.jobsList.jobs = .ret js ∧ j ∈ js

/-- Every `[jid] (pid)` printed at the event for a process that is listed, or was
just before, has the number of its element. -/
def ReportsRight (sh : Shell) (_ : Event) (sh' : Shell) : Prop :=
  ∀ jid pid rest, Message.status jid pid rest ∈ sh'.output.drop sh.output.length →
    0 < pid → ∀ j, sh.Listed j ∨ sh'.Listed j → j.pid = pid → jid = j.jid

/-- Is this a status that `execute` and `bin_fg` print a line about? -/
def WaitStatus.isTold : WaitStatus → Bool
  | .signaled _ | .stopped _ => true
  | .exited _ | .continued => false

/-- The condition on an event, in the state before it. -/
def Event.Named (sh : Shell) : Event → Prop
  | .line t =>
      match t.command with
      | .execute tokens => Accepted tokens →
          if ppstrFinal tokens = some tokAmp then
            -- the new process is not listed under an earlier number
            0 < t.fork → ∀ j, sh.Listed j → j.pid ≠ t.fork
          else
            ∀ wret status, t.wait = some (wret, status) → status.isTold = true → 0 < wret →
              ∀ j, sh.Listed j → j.pid ≠ wret
      | .fg argv =>
          ∀ jid pid wret status,
            Shell.jobArgument sh.jobsList Shell.fgErrors argv = .ret (.ok (jid, pid)) →
            0 ≤ t.kill → t.wait = some (wret, status) → status.isTold = true → 0 < wret →
              -- the job told about has the number issued last
              ∀ j, sh.Listed j → j.pid = wret → j.jid = sh.jcount
      | _ => True
  | .report wret _ =>
      -- no two jobs are listed under the pid
      0 < wret → ∀ i j, sh.Listed i → sh.Listed j → i.pid = wret → j.pid = wret → i.jid = j.jid

/-- Two jobs in the background, and `fg` for the first, which is stopped. -/
def fgOfFirst : List Event :=
  [.line { command := .execute [.lit ['c', 'c'], tokAmp], fork := 100, kill := 0,
           wait := none, reports := [] },
    .line { command := .execute [.lit ['v', 'i'], tokAmp], fork := 101, kill := 0,
            wait := none, reports := [] },
    .line { command := .fg [.lit ['f', 'g'], .lit ['%', '1']], fork := 0, kill := 0,
            wait := some (100, .stopped 20), reports := [] }]

/-- The shell prints `[2] (100)` for its job 1. -/
theorem not_reportsRight_fgOfFirst :
    ¬ Run.EveryStep eventStep (Shell.init 1) fgOfFirst ReportsRight := by
  intro hall
  obtain ⟨sh₁, h₁⟩ : ∃ sh, eventStep (Shell.init 1) fgOfFirst[0] sh :=
    ⟨_, show (Shell.init 1).event fgOfFirst[0] = .ret _ from rfl⟩
  obtain ⟨sh₂, h₂⟩ : ∃ sh, eventStep sh₁ fgOfFirst[1] sh := by
    cases h₁
    exact ⟨_, show Shell.event _ fgOfFirst[1] = .ret _ from rfl⟩
  obtain ⟨sh₃, h₃, htold, hlisted⟩ : ∃ sh, eventStep sh₂ fgOfFirst[2] sh ∧
      sh.output.drop sh₂.output.length = [.status 2 100 " suspended by signal 20\n"] ∧
      sh₂.Listed ⟨1, 100, .running, .lit ['c', 'c']⟩ := by
    cases h₁
    cases h₂
    exact ⟨_, show Shell.event _ fgOfFirst[2] = .ret _ from rfl, rfl, _, rfl, .head _⟩
  have hright := hall [fgOfFirst[0], fgOfFirst[1]] fgOfFirst[2] [] sh₂ sh₃ rfl
    (Run.cons_iff.mpr ⟨sh₁, h₁, Run.singleton_iff.mpr h₂⟩) h₃
  have hjid := hright 2 100 " suspended by signal 20\n" (by rw [htold]; exact .head _)
    (by decide) _ (.inl hlisted) rfl
  exact absurd hjid (by decide)

/-! ## Turns as events -/

theorem Shell.reap_cons (sh : Shell) (report : Report) (rest : List Report) :
    sh.reap (report :: rest) = (sh.reap [report] >>= fun sh => sh.reap rest) := by
  obtain ⟨wret, status⟩ := report
  simp only [reap, bind_assoc, Outcome.ret_bind]

theorem Shell.run_reports (reports : List Report) : ∀ {sh sh' : Shell},
    sh.reap reports = .ret sh' →
      Run eventStep sh (reports.map fun report => .report report.1 report.2) sh' := by
  induction reports with
  | nil =>
      intro sh sh' h
      cases h
      exact .start
  | cons report rest ih =>
      intro sh sh' h
      rw [Shell.reap_cons] at h
      obtain ⟨sh₁, hfirst, hrest⟩ := Outcome.bind_eq_ret.mp h
      exact Run.cons_iff.mpr ⟨sh₁, hfirst, ih hrest⟩

/-- A turn is the run of its events. -/
theorem Turn.run_events {sh sh' : Shell} {t : Turn} (h : sh.turn t = .ret sh') :
    Run eventStep sh t.events sh' := by
  obtain ⟨sh₁, hrun, hreap⟩ := Outcome.bind_eq_ret.mp h
  exact Run.cons_iff.mpr ⟨sh₁, hrun, Shell.run_reports t.reports hreap⟩

/-! ## The numbers and pids of the list -/

/-- The jids and pids of the list, in its order. -/
def Ids (l : JobList) (ids : List (Int × Int)) : Prop :=
  ∃ elems, Lists l elems ∧ elems.map (fun x => (x.2.jid, x.2.pid)) = ids

section Ids

variable {l l' : JobList} {ids : List (Int × Int)} {found : Job → Bool} {r : Int}

theorem Ids.remove (h : Ids l ids) (hret : l.remove found = .ret (r, l')) :
    ∃ kept, kept.Sublist ids ∧ Ids l' kept := by
  obtain ⟨elems, hlists, rfl⟩ := h
  rcases JobList.first_found found elems with hnone | ⟨pre, a, j, post, rfl, hnone, hfound⟩
  · rw [hlists.remove_none hnone] at hret
    cases hret
    exact ⟨_, .refl _, elems, hlists, rfl⟩
  · obtain ⟨l₁, hremove, hlists', _⟩ := hlists.remove_found hnone hfound
    rw [hremove] at hret
    cases hret
    refine ⟨_, ?_, pre ++ post, hlists', rfl⟩
    exact ((List.sublist_cons_self _ post).append_left pre).map _

theorem Ids.update {state : ProcessState} (h : Ids l ids)
    (hret : l.update found state = .ret (r, l')) : Ids l' ids := by
  obtain ⟨elems, hlists, rfl⟩ := h
  rcases JobList.first_found found elems with hnone | ⟨pre, a, j, post, rfl, hnone, hfound⟩
  · rw [hlists.update_none hnone] at hret
    cases hret
    exact ⟨elems, hlists, rfl⟩
  · obtain ⟨l₁, hupdate, hlists', _⟩ := hlists.update_found hnone hfound
    rw [hupdate] at hret
    cases hret
    refine ⟨_, hlists', ?_⟩
    simp

theorem Ids.addJob {jid pid : Int} {state : ProcessState} {command : CString} (h : Ids l ids)
    (hret : l.addJob jid pid state command = .ret (r, l')) : Ids l' (ids ++ [(jid, pid)]) := by
  obtain ⟨elems, hlists, rfl⟩ := h
  obtain ⟨l₁, hadd, hlists', _⟩ := hlists.addJob jid pid state command
  rw [hadd] at hret
  cases hret
  refine ⟨_, hlists', ?_⟩
  simp

/-- The number found for a pid that is listed is listed with it. -/
theorem Ids.getJobJid {pid n : Int} (h : Ids l ids) (hret : l.getJobJid pid = .ret n)
    {i : Int × Int} (hi : i ∈ ids) (hpid : i.2 = pid) : (n, pid) ∈ ids := by
  obtain ⟨elems, hlists, rfl⟩ := h
  obtain ⟨x, hx, rfl⟩ := List.mem_map.mp hi
  rcases JobList.first_found (fun j => decide (j.pid = pid)) elems with
    hnone | ⟨pre, a, j, post, rfl, hnone, hfound⟩
  · exact absurd hpid (of_decide_eq_false (hnone x hx))
  · have hget : l.getJobJid pid = .ret j.jid := hlists.get_found hnone hfound
    rw [hget] at hret
    cases hret
    refine List.mem_map.mpr ⟨(a, j), by simp, ?_⟩
    rw [of_decide_eq_true hfound]

theorem Ids.listed {sh : Shell} (h : Ids sh.jobsList ids) (jid pid : Int) :
    (∃ j, sh.Listed j ∧ j.jid = jid ∧ j.pid = pid) ↔ (jid, pid) ∈ ids := by
  obtain ⟨elems, hlists, rfl⟩ := h
  constructor
  · rintro ⟨j, ⟨js, hjobs, hj⟩, rfl, rfl⟩
    rw [hlists.jobs] at hjobs
    cases hjobs
    obtain ⟨x, hx, rfl⟩ := List.mem_map.mp hj
    exact List.mem_map.mpr ⟨x, hx, rfl⟩
  · intro hmem
    obtain ⟨x, hx, heq⟩ := List.mem_map.mp hmem
    obtain ⟨hjid, hpid⟩ := Prod.mk.inj heq
    exact ⟨x.2, ⟨_, hlists.jobs, List.mem_map_of_mem hx⟩, hjid, hpid⟩

/-- What holds of all listed jobs holds of all pairs. -/
theorem Ids.forall_listed {sh : Shell} (h : Ids sh.jobsList ids) {P : Int → Int → Prop} :
    (∀ j, sh.Listed j → P j.jid j.pid) ↔ ∀ i ∈ ids, P i.1 i.2 := by
  constructor
  · intro hall i hi
    obtain ⟨j, hj, hjid, hpid⟩ := (h.listed i.1 i.2).mpr hi
    rw [← hjid, ← hpid]
    exact hall j hj
  · intro hall j hj
    exact hall (j.jid, j.pid) ((h.listed _ _).mp ⟨j, hj, rfl, rfl⟩)

end Ids

/-- The list has these jids and pids, and the jids have been issued. -/
structure Numbered (sh : Shell) (ids : List (Int × Int)) : Prop where
  list : Ids sh.jobsList ids
  issued : ∀ i ∈ ids, i.1 ≤ sh.jcount

/-- The numbers in its list have been issued. -/
def Shell.IsNumbered (sh : Shell) : Prop := ∃ ids, Numbered sh ids

theorem isNumbered_init (pgrp : Int) : (Shell.init pgrp).IsNumbered :=
  ⟨[], ⟨[], JobList.lists_init, rfl⟩, by simp⟩

/-- A list with some of the jobs has issued numbers. -/
theorem Numbered.sublist {sh : Shell} {ids kept : List (Int × Int)} {l : JobList}
    (hnum : Numbered sh ids) (hsub : kept.Sublist ids) (hids : Ids l kept) :
    Numbered { sh with jobsList := l } kept :=
  ⟨hids, fun i hi => hnum.issued i (hsub.subset hi)⟩

/-- An event leads from `sh` to `sh'` and tells of the number and the process
`told`.  Of the jobs `ids` some are kept, and a job added has the number told. -/
structure Tells (sh sh' : Shell) (ids : List (Int × Int)) (told : Option (Int × Int)) :
    Prop where
  numbered : ∃ kept added, kept.Sublist ids ∧ Numbered sh' (kept ++ added) ∧
    ∀ i ∈ added, ∀ n pid, told = some (n, pid) → i.1 = n
  output : ∃ new, sh'.output = sh.output ++ new ∧
    ∀ jid pid, (∃ rest, Message.status jid pid rest ∈ new) ↔ told = some (jid, pid)

/-- The number told is right when no job listed before has another. -/
theorem Tells.reportsRight_iff_told {sh sh' : Shell} {ids : List (Int × Int)}
    {told : Option (Int × Int)} (h : Tells sh sh' ids told) (hnum : Numbered sh ids) (e : Event) :
    ReportsRight sh e sh' ↔
      ∀ n pid, told = some (n, pid) → 0 < pid → ∀ i ∈ ids, i.2 = pid → i.1 = n := by
  obtain ⟨⟨kept, added, hsub, hnum', hadded⟩, new, hout, hnew⟩ := h
  have hdrop : sh'.output.drop sh.output.length = new := by
    rw [hout, List.drop_left]
  unfold ReportsRight
  rw [hdrop]
  constructor
  · intro hright n pid htold hpos i hi hpid
    obtain ⟨rest, hmem⟩ := (hnew n pid).mpr htold
    obtain ⟨j, hj, hjid, hjpid⟩ := (hnum.list.listed i.1 i.2).mpr hi
    rw [← hjid]
    exact (hright n pid rest hmem hpos j (.inl hj) (hjpid.trans hpid)).symm
  · intro hright jid pid rest hmem hpos j hlisted hpid
    have htold := (hnew jid pid).mp ⟨rest, hmem⟩
    rcases hlisted with hbefore | hafter
    · have hi := (hnum.list.listed j.jid j.pid).mp ⟨j, hbefore, rfl, rfl⟩
      exact (hright jid pid htold hpos _ hi hpid).symm
    · have hi := (hnum'.list.listed j.jid j.pid).mp ⟨j, hafter, rfl, rfl⟩
      rcases List.mem_append.mp hi with hkept | hadd
      · exact (hright jid pid htold hpos _ (hsub.subset hkept) hpid).symm
      · exact (hadded _ hadd jid pid htold).symm

/-- Nothing was printed about a process. -/
theorem Tells.quiet {sh sh' : Shell} {ids kept : List (Int × Int)} (hsub : kept.Sublist ids)
    (hnum : Numbered sh' kept) {new : List Message} (hout : sh'.output = sh.output ++ new)
    (hnew : ∀ jid pid rest, Message.status jid pid rest ∉ new) : Tells sh sh' ids none where
  numbered := ⟨kept, [], hsub, by rwa [List.append_nil], fun i hi => by cases hi⟩
  output := ⟨new, hout, fun jid pid =>
    iff_of_false (fun ⟨rest, hmem⟩ => hnew jid pid rest hmem) (by simp)⟩

/-- Nothing happened. -/
theorem Tells.refl {sh : Shell} {ids : List (Int × Int)} (hnum : Numbered sh ids) :
    Tells sh sh ids none :=
  .quiet (.refl _) hnum (List.append_nil _).symm (by simp)

/-- A text was printed. -/
theorem Tells.text {sh : Shell} {ids : List (Int × Int)} (hnum : Numbered sh ids) (s : String) :
    Tells sh (sh.print (.text s)) ids none :=
  .quiet (.refl _) ⟨hnum.list, hnum.issued⟩ rfl (by simp)

/-- One line was printed about a process, with the number given to the job added,
if one was. -/
theorem Tells.status {sh sh' : Shell} {ids kept : List (Int × Int)} {n pid : Int}
    (added : List (Int × Int)) (rest : String) (hsub : kept.Sublist ids)
    (hnum : Numbered sh' (kept ++ added))
    (hadded : ∀ i ∈ added, i.1 = n)
    (hout : sh'.output = sh.output ++ [.status n pid rest]) :
    Tells sh sh' ids (some (n, pid)) where
  numbered := by
    refine ⟨kept, added, hsub, hnum, fun i hi m q htold => ?_⟩
    cases htold
    exact hadded i hi
  output := by
    refine ⟨_, hout, fun jid q => ?_⟩
    simp only [List.mem_singleton, Message.status.injEq, Option.some.injEq, Prod.mk.injEq]
    constructor
    · rintro ⟨_, rfl, rfl, _⟩
      exact ⟨rfl, rfl⟩
    · rintro ⟨rfl, rfl⟩
      exact ⟨rest, rfl, rfl, rfl⟩

/-- One line was printed about a process, and no job was added. -/
theorem Tells.statusOnly {sh sh' : Shell} {ids kept : List (Int × Int)} {n pid : Int}
    (rest : String) (hsub : kept.Sublist ids) (hnum : Numbered sh' kept)
    (hout : sh'.output = sh.output ++ [.status n pid rest]) :
    Tells sh sh' ids (some (n, pid)) :=
  .status [] rest hsub (by rwa [List.append_nil]) (by simp) hout

/-- What is told does not depend on the kernel's side. -/
theorem Tells.kernel {sh sh' : Shell} {ids : List (Int × Int)} {told : Option (Int × Int)}
    {before : Kernel} (h : Tells { sh with kernel := before } sh' ids told) (after : Kernel) :
    Tells sh { sh' with kernel := after } ids told := by
  obtain ⟨⟨kept, added, hsub, hnum, hadded⟩, hout⟩ := h
  exact ⟨⟨kept, added, hsub, ⟨hnum.list, hnum.issued⟩, hadded⟩, hout⟩

/-! ## What the functions tell -/

section Functions

variable {sh sh' : Shell} {ids : List (Int × Int)} {tokens argv : List CString} {pid : Int}
  {wait : Option Report}

/-- A job is entered under the next number. -/
theorem Numbered.startJob {state : ProcessState} (hnum : Numbered sh ids)
    (h : sh.startJob tokens pid state = .ret sh') :
    Numbered sh' (ids ++ [(sh.jcount + 1, pid)]) ∧ sh'.jcount = sh.jcount + 1 ∧
      sh'.output = sh.output := by
  simp only [Shell.startJob, Outcome.bind_eq_ret, Outcome.pure_eq, Outcome.ret.injEq] at h
  obtain ⟨jcount, hcount, command, _, ⟨r, l⟩, hadd, rfl⟩ := h
  obtain rfl := (succInt_eq_ret.mp hcount).2
  refine ⟨⟨hnum.list.addJob hadd, fun i hi => ?_⟩, rfl, rfl⟩
  rcases List.mem_append.mp hi with hold | hnew
  · exact (hnum.issued i hold).trans (by show sh.jcount ≤ sh.jcount + 1; omega)
  · rw [List.mem_singleton.mp hnew]

/-- What is told of a `waitpid` for one process, under the number `n`. -/
def toldOfWait (n : Int) : Option Report → Option (Int × Int)
  | some (wret, status) => if status.isTold then some (n, wret) else none
  | none => none

theorem afterWait_tells (hnum : Numbered sh ids)
    (h : sh.afterWait tokens pid wait = .ret sh') :
    Tells sh sh' ids (toldOfWait (sh.jcount + 1) wait) := by
  cases wait with
  | none =>
      cases h
      exact .refl hnum
  | some report =>
      obtain ⟨wret, status⟩ := report
      cases status with
      | exited code | continued =>
          cases h
          exact .quiet (.refl _) ⟨hnum.list, hnum.issued⟩ (List.append_nil _).symm (by simp)
      | signaled sig =>
          simp only [Shell.afterWait, Outcome.bind_eq_ret, Outcome.pure_eq,
            Outcome.ret.injEq] at h
          obtain ⟨jcount, hcount, rfl⟩ := h
          obtain rfl := (succInt_eq_ret.mp hcount).2
          refine .statusOnly _ (.refl _) ⟨hnum.list, fun i hi => ?_⟩ rfl
          exact (hnum.issued i hi).trans (by show sh.jcount ≤ sh.jcount + 1; omega)
      | stopped sig =>
          simp only [Shell.afterWait, Outcome.bind_eq_ret, Outcome.pure_eq,
            Outcome.ret.injEq] at h
          obtain ⟨sh₁, hstart, rfl⟩ := h
          have hreport : Numbered { sh with kernel := sh.kernel.report wret (.stopped sig) } ids :=
            ⟨hnum.list, hnum.issued⟩
          obtain ⟨hnum', hcount, hout⟩ := hreport.startJob hstart
          refine .status _ (WaitStatus.stopped sig).text (.refl _) ⟨hnum'.list, hnum'.issued⟩
            (by simp) ?_
          show sh₁.output ++ _ = _
          rw [hout, hcount]

/-- What is told of a command that `execute` accepts. -/
theorem execute_tells {isBackground : Bool} (hnum : Numbered sh ids)
    (haccepted : Accepted tokens)
    (h : sh.execute tokens isBackground pid wait = .ret sh') :
    Tells sh sh' ids (if isBackground then some (sh.jcount + 1, pid)
      else toldOfWait (sh.jcount + 1) wait) := by
  obtain ⟨redirection, hscan⟩ := haccepted
  simp only [Shell.execute, hscan] at h
  cases isBackground with
  | true =>
      simp only [if_true, Outcome.bind_eq_ret, Outcome.pure_eq, Outcome.ret.injEq] at h
      obtain ⟨sh₁, hstart, rfl⟩ := h
      have hfork : Numbered { sh with kernel := sh.kernel.fork pid true } ids :=
        ⟨hnum.list, hnum.issued⟩
      obtain ⟨hnum', hcount, hout⟩ := hfork.startJob hstart
      refine .status _ "\n" (.refl _) ⟨hnum'.list, hnum'.issued⟩ (by simp) ?_
      show sh₁.output ++ _ = _
      rw [hout, hcount]
  | false =>
      simp only [Bool.false_eq_true, if_false, Outcome.bind_eq_ret, Outcome.pure_eq,
        Outcome.ret.injEq] at h
      obtain ⟨sh₁, hwait, rfl⟩ := h
      have hfork : Numbered { sh with kernel := sh.kernel.fork pid false } ids :=
        ⟨hnum.list, hnum.issued⟩
      exact (afterWait_tells hfork hwait).kernel _

theorem afterFgWait_tells {jid : Int} (hnum : Numbered sh ids)
    (h : sh.afterFgWait jid wait = .ret sh') :
    Tells sh sh' ids (toldOfWait sh.jcount wait) := by
  cases wait with
  | none =>
      cases h
      exact .refl hnum
  | some report =>
      obtain ⟨wret, status⟩ := report
      cases status with
      | continued =>
          cases h
          exact .quiet (.refl _) ⟨hnum.list, hnum.issued⟩ (List.append_nil _).symm (by simp)
      | exited code =>
          simp only [Shell.afterFgWait, Outcome.bind_eq_ret, Outcome.pure_eq,
            Outcome.ret.injEq] at h
          obtain ⟨⟨r, l⟩, hremove, rfl⟩ := h
          obtain ⟨kept, hsub, hids⟩ := hnum.list.remove hremove
          have hkept := hnum.sublist hsub hids
          exact .quiet hsub ⟨hkept.list, hkept.issued⟩ (List.append_nil _).symm (by simp)
      | signaled sig =>
          simp only [Shell.afterFgWait, Outcome.bind_eq_ret, Outcome.pure_eq,
            Outcome.ret.injEq] at h
          obtain ⟨⟨r, l⟩, hremove, rfl⟩ := h
          obtain ⟨kept, hsub, hids⟩ := hnum.list.remove hremove
          have hkept := hnum.sublist hsub hids
          exact .statusOnly _ hsub ⟨hkept.list, hkept.issued⟩ rfl
      | stopped sig =>
          simp only [Shell.afterFgWait, Outcome.bind_eq_ret, Outcome.pure_eq,
            Outcome.ret.injEq] at h
          obtain ⟨⟨r, l⟩, hupdate, rfl⟩ := h
          exact .statusOnly _ (.refl _) ⟨hnum.list.update hupdate, hnum.issued⟩ rfl

/-- What is told of an `fg` that goes through to its `waitpid`. -/
theorem binFg_tells {jid kill r : Int} (hnum : Numbered sh ids)
    (harg : Shell.jobArgument sh.jobsList Shell.fgErrors argv = .ret (.ok (jid, pid)))
    (hkill : ¬ kill < 0) (h : sh.binFg argv kill wait = .ret (r, sh')) :
    Tells sh sh' ids (toldOfWait sh.jcount wait) := by
  simp only [Shell.binFg, harg, Outcome.ret_bind, if_neg hkill, Outcome.bind_eq_ret,
    Outcome.pure_eq, Outcome.ret.injEq] at h
  obtain ⟨sh₁, hwait, heq⟩ := h
  cases heq
  have hgiven : Numbered { sh with kernel := sh.kernel.tcsetpgrp pid } ids :=
    ⟨hnum.list, hnum.issued⟩
  exact (afterFgWait_tells hgiven hwait).kernel _

/-- An `fg` that fails before tells nothing. -/
theorem binFg_quiet {kill r : Int} (hnum : Numbered sh ids)
    (harg : (∃ text, Shell.jobArgument sh.jobsList Shell.fgErrors argv = .ret (.error text)) ∨
      ∃ target, Shell.jobArgument sh.jobsList Shell.fgErrors argv = .ret (.ok target) ∧
        kill < 0)
    (h : sh.binFg argv kill wait = .ret (r, sh')) : Tells sh sh' ids none := by
  rcases harg with ⟨text, harg⟩ | ⟨⟨jid, pid⟩, harg, hkill⟩
  · simp only [Shell.binFg, harg, Outcome.ret_bind] at h
    cases h
    exact .text hnum text
  · simp only [Shell.binFg, harg, Outcome.ret_bind, if_pos hkill] at h
    cases h
    exact .quiet (.refl _) ⟨hnum.list, hnum.issued⟩ rfl (by simp)

theorem binBg_quiet {kill r : Int} (hnum : Numbered sh ids)
    (h : sh.binBg argv kill = .ret (r, sh')) : Tells sh sh' ids none := by
  simp only [Shell.binBg, Outcome.bind_eq_ret] at h
  obtain ⟨arg, _, h⟩ := h
  cases arg with
  | error text =>
      cases h
      exact .text hnum text
  | ok target =>
      simp only at h
      split at h
      · cases h
        exact .text hnum _
      · cases h
        exact .refl hnum

theorem binJobs_quiet {r : Int} (hnum : Numbered sh ids)
    (h : sh.binJobs argv = .ret (r, sh')) : Tells sh sh' ids none := by
  unfold Shell.binJobs at h
  split at h
  · cases h
    exact .text hnum _
  · split at h
    · cases h
      exact .text hnum _
    · obtain ⟨jobs, _, h⟩ := Outcome.bind_eq_ret.mp h
      cases h
      exact .quiet (.refl _) ⟨hnum.list, hnum.issued⟩ rfl (by simp)

/-- The loop of `wsh_main` tells the number found for the pid. -/
theorem report_tells {wret : Int} {status : WaitStatus} (hnum : Numbered sh ids)
    (h : sh.reap [(wret, status)] = .ret sh') :
    ∃ n, sh.jobsList.getJobJid wret = .ret n ∧ Tells sh sh' ids (some (n, wret)) := by
  simp only [Shell.reap, Outcome.bind_eq_ret, Outcome.ret.injEq] at h
  obtain ⟨n, hget, ⟨r, l⟩, hlist, rfl⟩ := h
  have hkept : ∃ kept, kept.Sublist ids ∧ Ids l kept := by
    cases status with
    | exited code | signaled sig => exact hnum.list.remove hlist
    | stopped sig | continued => exact ⟨ids, .refl _, hnum.list.update hlist⟩
  obtain ⟨kept, hsub, hids⟩ := hkept
  have hnum' := hnum.sublist hsub hids
  exact ⟨n, hget, .statusOnly _ hsub ⟨hnum'.list, hnum'.issued⟩ rfl⟩

end Functions

/-! ## Where the number is right -/

/-- The number `told` would be wrong for no job listed. -/
def RightFor (ids : List (Int × Int)) (told : Option (Int × Int)) : Prop :=
  ∀ n pid, told = some (n, pid) → 0 < pid → ∀ i ∈ ids, i.2 = pid → i.1 = n

theorem rightFor_none (ids : List (Int × Int)) : RightFor ids none :=
  fun _ _ h => by cases h

/-- A number not issued before is right for a process that is not listed. -/
theorem rightFor_next {sh : Shell} {ids : List (Int × Int)} (hnum : Numbered sh ids)
    (pid : Int) : RightFor ids (some (sh.jcount + 1, pid)) ↔
      (0 < pid → ∀ j, sh.Listed j → j.pid ≠ pid) := by
  constructor
  · intro hright hpos
    refine (hnum.list.forall_listed (P := fun _ q => q ≠ pid)).mpr fun i hi hpid => ?_
    have hjid := hright _ _ rfl hpos i hi hpid
    have hissued := hnum.issued i hi
    omega
  · intro hnone n q htold hpos i hi hpid
    cases htold
    exact absurd hpid
      ((hnum.list.forall_listed (P := fun _ q => q ≠ pid)).mp (hnone hpos) i hi)

theorem rightFor_toldOfWait {ids : List (Int × Int)} {n : Int} {wait : Option Report} :
    RightFor ids (toldOfWait n wait) ↔
      ∀ wret status, wait = some (wret, status) → status.isTold = true →
        RightFor ids (some (n, wret)) := by
  cases wait with
  | none => exact iff_of_true (rightFor_none ids) (by simp)
  | some report =>
      obtain ⟨wret, status⟩ := report
      cases htold : status.isTold with
      | true => simp [toldOfWait, htold]
      | false =>
          refine iff_of_true ?_ ?_
          · simp only [toldOfWait, htold, Bool.false_eq_true, if_false]
            exact rightFor_none ids
          · intro wret' status' hsome hyes
            cases hsome
            rw [htold] at hyes
            cases hyes

theorem Accepted.not_error {tokens : List CString} (h : ¬ Accepted tokens) :
    ∃ e, scan tokens = .error e := by
  cases hscan : scan tokens with
  | error e => exact ⟨e, rfl⟩
  | ok redirection => exact absurd ⟨redirection, hscan⟩ h

section Step

variable {sh sh' : Shell} {ids : List (Int × Int)} {t : Turn}

theorem execute_named {tokens : List CString} (hnum : Numbered sh ids)
    (hcommand : t.command = .execute tokens) (h : sh.run t = .ret sh') :
    ∃ told, Tells sh sh' ids told ∧ ((Event.line t).Named sh ↔ RightFor ids told) := by
  simp only [Shell.run, hcommand] at h
  simp only [Event.Named, hcommand]
  by_cases haccepted : Accepted tokens
  · refine ⟨_, execute_tells hnum haccepted h, ?_⟩
    by_cases hamp : ppstrFinal tokens = some tokAmp
    · simp only [haccepted, hamp, decide_true, if_true, true_implies]
      exact (rightFor_next hnum t.fork).symm
    · simp only [haccepted, hamp, decide_false, Bool.false_eq_true, if_false, true_implies]
      rw [rightFor_toldOfWait]
      refine forall_congr' fun wret => forall_congr' fun status => ?_
      refine imp_congr_right fun _ => imp_congr_right fun _ => ?_
      exact (rightFor_next hnum wret).symm
  · obtain ⟨e, hscan⟩ := Accepted.not_error haccepted
    simp only [Shell.execute, hscan] at h
    cases h
    exact ⟨none, .text hnum _, iff_of_true (fun hyes => absurd hyes haccepted)
      (rightFor_none ids)⟩

theorem fg_named {argv : List CString} (hnum : Numbered sh ids)
    (hcommand : t.command = .fg argv) (h : sh.run t = .ret sh') :
    ∃ told, Tells sh sh' ids told ∧ ((Event.line t).Named sh ↔ RightFor ids told) := by
  simp only [Shell.run, hcommand] at h
  obtain ⟨⟨r, sh₁⟩, hfg, heq⟩ := Outcome.bind_eq_ret.mp h
  cases heq
  simp only [Event.Named, hcommand]
  obtain ⟨arg, harg, _⟩ := Outcome.bind_eq_ret.mp hfg
  rw [harg]
  cases arg with
  | error text =>
      exact ⟨none, binFg_quiet hnum (.inl ⟨text, harg⟩) hfg,
        iff_of_true (by simp) (rightFor_none ids)⟩
  | ok target =>
      obtain ⟨jid, pid⟩ := target
      by_cases hkill : t.kill < 0
      · refine ⟨none, binFg_quiet hnum (.inr ⟨_, harg, hkill⟩) hfg,
          iff_of_true ?_ (rightFor_none ids)⟩
        intro _ _ _ _ _ hnonneg
        omega
      · refine ⟨_, binFg_tells hnum harg hkill hfg, ?_⟩
        rw [rightFor_toldOfWait]
        constructor
        · intro hnamed wret status hwait htold n q hsome hpos
          obtain ⟨rfl, rfl⟩ := Prod.mk.inj (Option.some.inj hsome)
          exact (hnum.list.forall_listed (P := fun a b => b = wret → a = sh.jcount)).mp
            (hnamed jid pid wret status rfl (by omega) hwait htold hpos)
        · intro hright _ _ wret status _ _ hwait htold hpos
          exact (hnum.list.forall_listed (P := fun a b => b = wret → a = sh.jcount)).mpr
            (hright wret status hwait htold _ _ rfl hpos)

theorem report_named {wret : Int} {status : WaitStatus} (hnum : Numbered sh ids)
    (h : sh.reap [(wret, status)] = .ret sh') :
    ∃ told, Tells sh sh' ids told ∧
      ((Event.report wret status).Named sh ↔ RightFor ids told) := by
  obtain ⟨n, hget, htells⟩ := report_tells hnum h
  refine ⟨_, htells, ?_⟩
  constructor
  · intro hnamed m pid htold hpos i hi hpid
    cases htold
    have hfound := hnum.list.getJobJid hget hi hpid
    obtain ⟨j, hj, hjid, hjpid⟩ := (hnum.list.listed n wret).mpr hfound
    obtain ⟨k, hk, hkid, hkpid⟩ := (hnum.list.listed i.1 i.2).mpr hi
    rw [← hkid, ← hjid]
    exact hnamed hpos k j hk hj (hkpid.trans hpid) hjpid
  · intro hright hpos i j hi hj hipid hjpid
    have hlisted : ∀ k, sh.Listed k → k.pid = wret → k.jid = n :=
      (hnum.list.forall_listed (P := fun a b => b = wret → a = n)).mpr
        (hright n wret rfl hpos)
    rw [hlisted i hi hipid, hlisted j hj hjpid]

/-- What one event tells, and when that is right. -/
theorem event_named {e : Event} (hnum : Numbered sh ids) (h : eventStep sh e sh') :
    ∃ told, Tells sh sh' ids told ∧ (e.Named sh ↔ RightFor ids told) := by
  cases e with
  | report wret status => exact report_named hnum h
  | line t =>
      have hrun : sh.run t = .ret sh' := h
      cases hcommand : t.command with
      | execute tokens => exact execute_named hnum hcommand hrun
      | fg argv => exact fg_named hnum hcommand hrun
      | bg argv =>
          simp only [Shell.run, hcommand] at hrun
          obtain ⟨⟨r, sh₁⟩, hbg, heq⟩ := Outcome.bind_eq_ret.mp hrun
          cases heq
          exact ⟨none, binBg_quiet hnum hbg,
            iff_of_true (by simp [Event.Named, hcommand]) (rightFor_none ids)⟩
      | jobs argv =>
          simp only [Shell.run, hcommand] at hrun
          obtain ⟨⟨r, sh₁⟩, hjobs, heq⟩ := Outcome.bind_eq_ret.mp hrun
          cases heq
          exact ⟨none, binJobs_quiet hnum hjobs,
            iff_of_true (by simp [Event.Named, hcommand]) (rightFor_none ids)⟩
      | other =>
          simp only [Shell.run, hcommand] at hrun
          cases hrun
          exact ⟨none, .refl hnum,
            iff_of_true (by simp [Event.Named, hcommand]) (rightFor_none ids)⟩

end Step

/-- **When the reports of a run are right**: when every event meets its condition. -/
theorem reportsRight_iff (pgrp : Int) (events : List Event) :
    Run.EveryStep eventStep (Shell.init pgrp) events ReportsRight ↔
      Run.EveryStep eventStep (Shell.init pgrp) events fun sh e _ => e.Named sh := by
  apply Run.EveryStep.iff_of_step (isNumbered_init pgrp)
  · rintro sh e sh' ⟨ids, hnum⟩ hstep
    obtain ⟨told, htells, hnamed⟩ := event_named hnum hstep
    exact (htells.reportsRight_iff_told hnum e).trans hnamed.symm
  · rintro sh e sh' ⟨ids, hnum⟩ hstep _
    obtain ⟨told, htells, _⟩ := event_named hnum hstep
    obtain ⟨⟨kept, added, _, hnum', _⟩, _⟩ := htells
    exact ⟨_, hnum'⟩

/-! ## What the kernel allows -/

/-- As long as the list tracks the children, the loop of `wsh_main` is right … -/
theorem Shell.Tracked.named_report {sh : Shell} (h : sh.Tracked) (wret : Int)
    (status : WaitStatus) : (Event.report wret status).Named sh := by
  obtain ⟨r, h⟩ := h
  obtain ⟨elems, hlists, hrecords⟩ := h.list
  have hmem : ∀ j, sh.Listed j → j ∈ r.records := by
    rintro j ⟨js, hjobs, hj⟩
    rw [hlists.jobs, hrecords] at hjobs
    cases hjobs
    exact hj
  intro _ i j hi hj hipid hjpid
  rw [r.eq_of_key (hmem i hi) (hmem j hj) (hipid.trans hjpid.symm)]

/-- … and so is every line that the kernel allows and that is not `fg`. -/
theorem Shell.Tracked.named_line {sh : Shell} (h : sh.Tracked) {t : Turn}
    (hlegal : t.Legal sh) (hfg : ∀ argv, t.command ≠ .fg argv) : (Event.line t).Named sh := by
  obtain ⟨r, h⟩ := h
  obtain ⟨elems, hlists, hrecords⟩ := h.list
  have hchild : ∀ j, sh.Listed j → sh.kernel.children j.pid ≠ none := by
    rintro j ⟨js, hjobs, hj⟩
    rw [hlists.jobs, hrecords] at hjobs
    cases hjobs
    exact h.child_of_mem hj
  have hcan := hlegal.run
  unfold Turn.CanRun at hcan
  cases hcommand : t.command with
  | execute tokens =>
      rw [hcommand] at hcan
      obtain ⟨_, _, _, hfresh, hwait⟩ := hcan
      simp only [Event.Named, hcommand]
      intro _
      have hnone : ∀ j, sh.Listed j → j.pid ≠ t.fork := by
        intro j hj hpid
        rw [← hpid] at hfresh
        exact hchild j hj hfresh
      split
      · exact fun _ => hnone
      · rename_i hamp
        intro wret status hreport _ _ j hj
        obtain ⟨hwret, _⟩ := (hwait hamp).1 _ hreport
        rw [show wret = t.fork from hwret]
        exact hnone j hj
  | fg argv => exact absurd hcommand (hfg argv)
  | bg argv => simp [Event.Named, hcommand]
  | jobs argv => simp [Event.Named, hcommand]
  | other => simp [Event.Named, hcommand]

end WizardShell.Ports

import WizardShell.Ports.Jobs
import WizardShell.Ports.Redirection
import Mathlib.Logic.Function.Basic

/-!
# Commands, children and the terminal

`execute` of `prompt.c`, `bin_fg`, `bin_bg` and `bin_jobs` of `builtin.c`, and
the loop of `wsh_main` that looks for changed children.  What a system call
returns is given to the function that makes the call.  Next to the shell's
variables the state has what the kernel keeps for the shell: its children, and
the process group that has the terminal.  Printing succeeds.
-/

namespace WizardShell.Ports

open Function
open WizardShell.Verified

/-- What the status of `waitpid` tells through the `WIF…` macros. -/
inductive WaitStatus where
  | exited (code : Int)
  | signaled (sig : Int)
  | stopped (sig : Int)
  | continued
  deriving DecidableEq, Repr

namespace WaitStatus

/-- Is the child gone with this report? -/
def reaps : WaitStatus → Bool
  | exited _ | signaled _ => true
  | stopped _ | continued => false

/-- How the line that reports it goes on behind `[%d] (%d)`. -/
def text : WaitStatus → String
  | exited code => " terminated with exit status " ++ toString code ++ "\n"
  | signaled sig => " terminated by signal " ++ toString sig ++ "\n"
  | stopped sig => " suspended by signal " ++ toString sig ++ "\n"
  | continued => " resumed\n"

end WaitStatus

/-- What a call of `waitpid` returned above 0, with the status. -/
abbrev Report := Int × WaitStatus

/-- What the kernel keeps for the shell. -/
structure Kernel where
  /-- The children forked and not yet reaped, each with the last status
  `waitpid` reported for it. -/
  children : Int → Option (Option WaitStatus)
  /-- The foreground process group of the terminal. -/
  foreground : Int
  /-- The process group of the shell. -/
  pgrp : Int

namespace Kernel

/-- `fork` returned `pid` to the shell.  A child that is not in the background
takes the terminal before it runs. -/
def fork (k : Kernel) (pid : Int) (isBackground : Bool) : Kernel :=
  if 0 < pid then
    { k with
      children := update k.children pid (some none)
      foreground := if isBackground then k.foreground else pid }
  else k

/-- `waitpid` reported this. -/
def report (k : Kernel) (wret : Int) (status : WaitStatus) : Kernel :=
  { k with
    children := update k.children wret
      (if status.reaps then none else some (some status)) }

/-- `tcsetpgrp(STDIN_FILENO, pgrp)` -/
def tcsetpgrp (k : Kernel) (pgrp : Int) : Kernel := { k with foreground := pgrp }

end Kernel

/-- What the shell prints. -/
inductive Message where
  /-- `[jid] (pid)`, and how the line goes on. -/
  | status (jid pid : Int) (rest : String)
  /-- A line of `jobs`. -/
  | job (j : Job)
  | text (s : String)

/-- The shell's variables for jobs, what the kernel keeps, and what was
printed. -/
structure Shell where
  jobsList : JobList
  jcount : Int
  kernel : Kernel
  output : List Message

/-- `INT_MAX` -/
def intMax : Int := 2147483647

/-- `n + 1` on an `int`. -/
def succInt (n : Int) : Outcome Int := if n < intMax then .ret (n + 1) else .undefined

/-- The bytes `isspace` accepts in the C locale. -/
def isspace (c : UInt8) : Bool := c = 32 || (9 ≤ c && c ≤ 13)

def isdigit (c : UInt8) : Bool := 48 ≤ c && c ≤ 57

/-- The number that a row of digits reads as. -/
def digitsValue (digits : List UInt8) : Nat :=
  digits.foldl (fun n c => 10 * n + (c.toNat - 48)) 0

/-- `LONG_MAX`; `LONG_MIN` is `-LONG_MAX - 1`. -/
def longMax : Nat := 9223372036854775807

/-- `strtol(str, NULL, 10)`, with the value cut to the range of `long`. -/
def strtol (str : List UInt8) : Int :=
  let number := str.dropWhile isspace
  match number with
  | 45 :: rest =>
      let n := digitsValue (rest.takeWhile isdigit)
      if n ≤ longMax then -Int.ofNat n else -Int.ofNat longMax - 1
  | 43 :: rest =>
      let n := digitsValue (rest.takeWhile isdigit)
      if n ≤ longMax then Int.ofNat n else Int.ofNat longMax
  | _ =>
      let n := digitsValue (number.takeWhile isdigit)
      if n ≤ longMax then Int.ofNat n else Int.ofNat longMax

/-- `atoi(str)`, which is `(int) strtol(str, NULL, 10)`. -/
def atoi (str : List UInt8) : Int := (strtol str).bmod 4294967296

namespace Shell

/-- The state before the first prompt, of a shell in the process group `pgrp`,
which has the terminal. -/
def init (pgrp : Int) : Shell where
  jobsList := initJobList
  jcount := 0
  kernel := { children := fun _ => none, foreground := pgrp, pgrp := pgrp }
  output := []

def print (sh : Shell) (m : Message) : Shell := { sh with output := sh.output ++ [m] }

/-! ## `execute` -/

/-- `add_job(jobs_list, ++jcount, pid, state, first_nonredirect(tokens, "\0"))` -/
def startJob (sh : Shell) (tokens : List CString) (pid : Int) (state : ProcessState) :
    Outcome Shell := do
  let jcount ← succInt sh.jcount
  let command ← firstNonredirect tokens .empty
  let (_, l) ← sh.jobsList.addJob jcount pid state command
  return { sh with jobsList := l, jcount := jcount }

/-- What `execute` does with the result of its `waitpid`. -/
def afterWait (sh : Shell) (tokens : List CString) (pid : Int) :
    Option Report → Outcome Shell
  | none => .ret sh
  | some (wret, status) =>
      let sh := { sh with kernel := sh.kernel.report wret status }
      match status with
      | .exited _ | .continued => .ret sh
      | .signaled _ => do
          let jcount ← succInt sh.jcount
          return { sh with jcount := jcount }.print (.status jcount wret status.text)
      | .stopped _ => do
          let sh ← sh.startJob tokens pid .stopped
          return sh.print (.status sh.jcount wret status.text)

/-- `execute(tokens, argv, is_background)` in the shell itself.  `pid` is what
`fork` returns there, and `wait` what `waitpid(pid, &wstatus, WUNTRACED)` does. -/
def execute (sh : Shell) (tokens : List CString) (isBackground : Bool) (pid : Int)
    (wait : Option Report) : Outcome Shell :=
  match scan tokens with
  | .error e => .ret (sh.print (.text e.message))
  | .ok _ => do
      let sh := { sh with kernel := sh.kernel.fork pid isBackground }
      if isBackground then
        let sh ← sh.startJob tokens pid .running
        return sh.print (.status sh.jcount pid "\n")
      else
        let sh ← sh.afterWait tokens pid wait
        return { sh with kernel := sh.kernel.tcsetpgrp sh.kernel.pgrp }

/-! ## `fg`, `bg` and `jobs` -/

/-- The texts in which `bin_fg` and `bin_bg` differ. -/
structure ArgumentErrors where
  count : String
  percent : String
  notFound : Int → String

/-- The jid and pid that the argument of `fg` or `bg` names, or what is printed
when there is none. -/
def jobArgument (l : JobList) (errors : ArgumentErrors) :
    List CString → Outcome (Except String (Int × Int))
  | [_, arg] =>
      if arg.bytes.head? = some 37 then do
        let jid := atoi arg.bytes.tail
        let pid ← l.getJobPid jid
        return if pid < 0 then .error (errors.notFound pid) else .ok (jid, pid)
      else .ret (.error errors.percent)
  | _ => .ret (.error errors.count)

def fgErrors : ArgumentErrors where
  count := "\n\tfg: syntax error -- requires exactly one argument"
  percent := "\n\tfg: job input does not begin with %\n"
  notFound _ := "\n\tjob not found\n"

def bgErrors : ArgumentErrors where
  count := "\n\tbg: syntax error -- requires exactly one argument\n"
  percent := "\n\tbg: job input does not begin with %\n"
  notFound pid := "\n\t\x7bwsh @ bg\x7d -- job not found with code " ++ toString pid ++ "\n"

/-- What `bin_fg` does with the result of its `waitpid`. -/
def afterFgWait (sh : Shell) (jid : Int) : Option Report → Outcome Shell
  | none => .ret sh
  | some (wret, status) =>
      let sh := { sh with kernel := sh.kernel.report wret status }
      match status with
      | .exited _ => do
          let (_, l) ← sh.jobsList.removeJobJid jid
          return { sh with jobsList := l }
      | .signaled _ => do
          let (_, l) ← sh.jobsList.removeJobJid jid
          return { sh with jobsList := l }.print (.status sh.jcount wret status.text)
      | .stopped _ => do
          let (_, l) ← sh.jobsList.updateJobJid jid .stopped
          return { sh with jobsList := l }.print (.status sh.jcount wret status.text)
      | .continued => .ret sh

/-- `bin_fg(argc, argv)`, where `kill` returns `kill` and `waitpid` reports
`wait`. -/
def binFg (sh : Shell) (argv : List CString) (kill : Int) (wait : Option Report) :
    Outcome (Int × Shell) := do
  match ← jobArgument sh.jobsList fgErrors argv with
  | .error text => return (-1, sh.print (.text text))
  | .ok (jid, pid) =>
      let sh := { sh with kernel := sh.kernel.tcsetpgrp pid }
      if kill < 0 then
        return (-1, sh.print
          (.text "\n\t\x7bwsh @ bin_fg\x7d -- error in continuing the job"))
      else
        let sh ← sh.afterFgWait jid wait
        return (0, { sh with kernel := sh.kernel.tcsetpgrp sh.kernel.pgrp })

/-- `bin_bg(argc, argv)`, where `kill` returns `kill`. -/
def binBg (sh : Shell) (argv : List CString) (kill : Int) : Outcome (Int × Shell) := do
  match ← jobArgument sh.jobsList bgErrors argv with
  | .error text => return (-1, sh.print (.text text))
  | .ok _ =>
      if kill < 0 then
        return (-1, sh.print (.text "\n\t\x7bwsh @ bg\x7d -- error in continuing the job"))
      else return (0, sh)

/-- `bin_jobs(argc, argv)` -/
def binJobs (sh : Shell) (argv : List CString) : Outcome (Int × Shell) :=
  if argv.length ≠ 1 then
    .ret (-1, sh.print
      (.text "\n\tjobs: syntax error -- too many arguments; doesn't take any\n"))
  else if sh.jcount = 0 then .ret (0, sh.print (.text "\n\tNo jobs to report"))
  else do
    let jobs ← sh.jobsList.jobs
    return (0, { sh with output := sh.output ++ jobs.map .job })

/-! ## The loop of `wsh_main` -/

/-- What the status makes of the job list. -/
def reportedList (l : JobList) (wret : Int) : WaitStatus → Outcome (Int × JobList)
  | .exited _ | .signaled _ => l.removeJobPid wret
  | .stopped _ => l.updateJobPid wret .stopped
  | .continued => l.updateJobPid wret .running

/-- The loop `while ((wret = waitpid(-1, …)) > 0)`, over the reports it gets. -/
def reap (sh : Shell) : List Report → Outcome Shell
  | [] => .ret sh
  | (wret, status) :: rest => do
      let wjid ← sh.jobsList.getJobJid wret
      let (_, l) ← reportedList sh.jobsList wret status
      reap
        ({ sh with jobsList := l, kernel := sh.kernel.report wret status }.print
          (.status wjid wret status.text)) rest

end Shell

/-- A line, by the function of the shell that it comes to. -/
inductive Command where
  | execute (tokens : List CString)
  | fg (argv : List CString)
  | bg (argv : List CString)
  | jobs (argv : List CString)
  /-- A line without tokens, or one for a builtin that has nothing to do with
  jobs. -/
  | other

/-- A line, and what the system calls return until the next prompt. -/
structure Turn where
  command : Command
  fork : Int
  kill : Int
  /-- For the `waitpid` of `execute` or `bin_fg`. -/
  wait : Option Report
  /-- For the calls of `waitpid` in `wsh_main`. -/
  reports : List Report

namespace Shell

/-- The line is run. -/
def run (sh : Shell) (t : Turn) : Outcome Shell :=
  match t.command with
  | .execute tokens =>
      sh.execute tokens (ppstrFinal tokens = some tokAmp) t.fork t.wait
  | .fg argv => do
      let (_, sh) ← sh.binFg argv t.kill t.wait
      return sh
  | .bg argv => do
      let (_, sh) ← sh.binBg argv t.kill
      return sh
  | .jobs argv => do
      let (_, sh) ← sh.binJobs argv
      return sh
  | .other => .ret sh

/-- From a line to the next prompt. -/
def turn (sh : Shell) (t : Turn) : Outcome Shell := do
  let sh ← sh.run t
  sh.reap t.reports

end Shell

end WizardShell.Ports

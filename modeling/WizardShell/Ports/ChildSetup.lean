import WizardShell.Ports.FindCommand
import WizardShell.Ports.Shell
import WizardShell.Verified.Descriptors

/-!
# The child of `execute`

Behind the fork the child makes a process group of its own, takes the terminal
unless it is in the background, gives four signals their default handling back,
puts the files of the line in place of standard input and output, and becomes
the program.  Where a step fails it prints a message and exits with 1.

Which file a name opens and which command can be run is the kernel's to say
(`Environment`); descriptors, signals and contents are followed through.

`child_redirects_iff` says when the program has the streams that its tokens
spell out, `child_touches` which files the set-up changes, `child_writes` what a
file holds when the program has written to it, and `child_signals` what the
program inherits.
-/

namespace WizardShell.Ports

open Function
open WizardShell.Verified

/-- The signals whose handling the program changes, and the others. -/
inductive Signal where
  | int
  | tstp
  | ttou
  | cont
  | other (number : Nat)
  deriving DecidableEq

/-- `SIG_DFL` and `SIG_IGN`; the program has no handlers. -/
inductive Disposition where
  | dfl
  | ign
  deriving DecidableEq

/-- What belongs to one process. -/
structure Process (ι : Type) where
  pid : Int
  pgrp : Int
  disposition : Signal → Disposition
  descriptors : Descriptors (OpenFile ι)

/-- What the processes share: the contents of the files, and the process group
that has the terminal. -/
structure System (ι : Type) where
  content : ι → List UInt8
  foreground : Int

/-- The flags that `execute` opens files with; a file that is made gets the mode
`00600`. -/
inductive OpenFlags where
  /-- `O_RDONLY` -/
  | rdonly
  /-- `O_RDWR | O_CREAT | O_APPEND` -/
  | append
  /-- `O_RDWR | O_CREAT | O_TRUNC` -/
  | trunc
  deriving DecidableEq

/-- What only the kernel knows: the file that `open` finds or makes under a name,
if it may, and whether `execvp` finds a command that it can run. -/
structure Environment (ι : Type) where
  opens : CString → OpenFlags → Option ι
  executable : CString → Bool

/-- How the child ends its own part. -/
inductive ChildEnd (ι : Type) where
  /-- `execvp(file, args)` starts the program. -/
  | exec (file : CString) (args : List CString) (p : Process ι)
  /-- `exit`, with what was printed before. -/
  | exit (status : Int) (message : String)
  /-- The process is stopped by a signal. -/
  | stopped

namespace OpenFlags

variable {ι : Type}

/-- The open file that `open` makes of it. -/
def openFile (flags : OpenFlags) (i : ι) : OpenFile ι where
  file := i
  writable := flags ≠ rdonly
  append := flags = append
  offset := 0

/-- What opening the file leaves in it. -/
def opened [DecidableEq ι] (flags : OpenFlags) (i : ι) (content : ι → List UInt8) :
    ι → List UInt8 :=
  if flags = trunc then update content i [] else content

end OpenFlags

namespace Process

variable {ι : Type}

/-- `signal(sig, handling)` -/
def signal (p : Process ι) (sig : Signal) (handling : Disposition) : Process ι :=
  { p with disposition := update p.disposition sig handling }

/-- `tcsetpgrp(STDIN_FILENO, pgrp)`: a process outside the group that has the
terminal is stopped by `SIGTTOU`, unless it ignores the signal. -/
def tcsetpgrp (p : Process ι) (s : System ι) (pgrp : Int) : Option (System ι) :=
  if p.pgrp ≠ s.foreground ∧ p.disposition .ttou = .dfl then none
  else some { s with foreground := pgrp }

/-- What `main` does before it calls `wsh_main`. -/
def ignoreSignals (p : Process ι) : Process ι :=
  ((p.signal .int .ign).signal .tstp .ign).signal .ttou .ign

/-- What the child of `execute` does about the signals. -/
def defaultSignals (p : Process ι) : Process ι :=
  (((p.signal .int .dfl).signal .tstp .dfl).signal .ttou .dfl).signal .cont .dfl

/-- `fork()`, as the child sees it. -/
def fork (p : Process ι) (pid : Int) : Process ι := { p with pid := pid }

/-- A standard stream is closed and a file opened for it; an error is the message
printed before `exit(1)`. -/
def replaceStream (p : Process ι) (env : Environment ι) (fd : Nat)
    (errorClosing errorOpening : String) (name : CString) (flags : OpenFlags) :
    Except String (ι × Process ι) :=
  match p.descriptors.close fd with
  | none => .error errorClosing
  | some d =>
      match env.opens name flags with
      | none => .error errorOpening
      | some i =>
          match d.openFile (flags.openFile i) with
          | none => .error errorOpening
          | some (_, d) => .ok (i, { p with descriptors := d })

/-- The input file of the line takes the place of standard input. -/
def openInput (p : Process ι) (env : Environment ι) (r : Redirection) :
    Except String (Process ι) :=
  if r.input ≠ .empty then do
    let (_, p) ← p.replaceStream env 0
      "\n\t\x7bwsh @ execute\x7d -- error closing standard input\n"
      "\n\t\x7bwsh @ execute\x7d -- error opening input file\n" r.input .rdonly
    return p
  else return p

/-- The output file of the line takes the place of standard output. -/
def openOutput [DecidableEq ι] (p : Process ι) (env : Environment ι) (s : System ι)
    (r : Redirection) : Except String (System ι × Process ι) :=
  if r.output ≠ .empty then do
    let flags := if r.isOutputDouble then OpenFlags.append else .trunc
    let (i, p) ← p.replaceStream env 1
      "\n\t\x7bwsh @ execute\x7d -- error closing standard output\n"
      "\n\t\x7bwsh @ execute\x7d -- error opening output file\n" r.output flags
    return ({ s with content := flags.opened i s.content }, p)
  else return (s, p)

/-- The streams, and then the program. -/
def becomeProgram [DecidableEq ι] (p : Process ι) (env : Environment ι) (s : System ι)
    (r : Redirection) (tokens : List CString) (argv : Block (Option CString)) :
    Outcome (System ι × ChildEnd ι) :=
  match p.openInput env r with
  | .error message => .ret (s, .exit 1 message)
  | .ok p =>
      match p.openOutput env s r with
      | .error message => .ret (s, .exit 1 message)
      | .ok (s, p) => do
          let fnr ← firstNonredirect tokens .empty
          let args ← argv.contents
          return if env.executable fnr then (s, .exec fnr args p)
            else (s, .exit 1 "\n\t\x7bwsh @ execvp\x7d ")

/-- The child of `execute` behind the fork. -/
def child [DecidableEq ι] (p : Process ι) (env : Environment ι) (s : System ι)
    (r : Redirection) (tokens : List CString) (argv : Block (Option CString))
    (isBackground : Bool) : Outcome (System ι × ChildEnd ι) :=
  let p := { p with pgrp := p.pid }
  match if isBackground then some s else p.tcsetpgrp s p.pid with
  | none => .ret (s, .stopped)
  | some s => p.defaultSignals.becomeProgram env s r tokens argv

end Process

/-! ## What a child that runs its program has done -/

/-- A sequence gets past both of its parts. -/
theorem exceptBind_eq_ok {ε α β : Type} {x : Except ε α} {f : α → Except ε β} {b : β} :
    (x >>= f) = .ok b ↔ ∃ a, x = .ok a ∧ f a = .ok b := by
  cases x with
  | error e =>
      show Except.error e = .ok b ↔ _
      simp
  | ok a =>
      show f a = .ok b ↔ _
      simp

section Steps

variable {ι : Type} {p p' : Process ι} {env : Environment ι} {fd : Nat}
  {errorClosing errorOpening : String} {name : CString} {flags : OpenFlags} {i : ι}
  {r : Redirection}

theorem Process.replaceStream_eq_ok :
    p.replaceStream env fd errorClosing errorOpening name flags = .ok (i, p') ↔
      env.opens name flags = some i ∧ ∃ n d,
        p.descriptors.reopen fd (flags.openFile i) = some (n, d) ∧
          p' = { p with descriptors := d } := by
  unfold replaceStream Descriptors.reopen
  cases p.descriptors.close fd with
  | none => simp
  | some c =>
      cases env.opens name flags with
      | none => simp
      | some j =>
          simp only [Option.bind_eq_bind, Option.bind_some, Option.some.injEq]
          cases hopen : c.openFile (flags.openFile j) with
          | none =>
              refine iff_of_false (by simp) ?_
              rintro ⟨rfl, n, d, h, _⟩
              rw [hopen] at h
              cases h
          | some found =>
              obtain ⟨n, d⟩ := found
              constructor
              · rintro h
                cases h
                exact ⟨rfl, n, d, hopen, rfl⟩
              · rintro ⟨rfl, n', d', h, rfl⟩
                rw [hopen] at h
                cases h
                rfl

/-- A stream that is in use can be replaced by a file that can be opened. -/
theorem Process.replaceStream_returns (hused : p.descriptors.file fd ≠ none)
    (hopens : env.opens name flags = some i) :
    ∃ q, p.replaceStream env fd errorClosing errorOpening name flags = .ok (i, q) := by
  cases hreopen : p.descriptors.reopen fd (flags.openFile i) with
  | none => exact absurd (Descriptors.reopen_eq_none.mp hreopen) hused
  | some found => exact ⟨_, replaceStream_eq_ok.mpr ⟨hopens, found.1, found.2, hreopen, rfl⟩⟩

/-- Nothing is below standard input, so the file lands there. -/
theorem Process.openInput_file (h : p.openInput env r = .ok p') :
    (r.input = .empty → p' = p) ∧
      (r.input ≠ .empty → p.descriptors.file 0 ≠ none ∧
        ∃ i, env.opens r.input .rdonly = some i ∧
          p'.descriptors.file =
            update p.descriptors.file 0 (some (OpenFlags.rdonly.openFile i))) := by
  unfold openInput at h
  by_cases hinput : r.input = .empty
  · rw [if_neg (not_not.mpr hinput)] at h
    cases h
    exact ⟨fun _ => rfl, fun hne => absurd hinput hne⟩
  · rw [if_pos hinput] at h
    refine ⟨fun hempty => absurd hempty hinput, fun _ => ?_⟩
    obtain ⟨⟨i, q⟩, hreplace, h⟩ := exceptBind_eq_ok.mp h
    cases h
    obtain ⟨hopens, n, d, hreopen, rfl⟩ := replaceStream_eq_ok.mp hreplace
    obtain ⟨hle, hfile, _⟩ := Descriptors.reopen_file hreopen
    obtain rfl : n = 0 := Nat.le_zero.mp hle
    refine ⟨fun hnone => ?_, i, hopens, by rw [hfile, update_idem]⟩
    rw [Descriptors.reopen_eq_none.mpr hnone] at hreopen
    cases hreopen

/-- The input changes nothing about descriptor 1. -/
theorem Process.openInput_one (h : p.openInput env r = .ok p') :
    p'.descriptors.file 1 = p.descriptors.file 1 := by
  obtain ⟨hnoin, hsomein⟩ := openInput_file h
  by_cases hinput : r.input = .empty
  · rw [hnoin hinput]
  · obtain ⟨_, i, _, hfile⟩ := hsomein hinput
    rw [hfile, update_of_ne Nat.one_ne_zero]

theorem Process.openInput_returns
    (h : r.input ≠ .empty → p.descriptors.file 0 ≠ none ∧ env.opens r.input .rdonly ≠ none) :
    ∃ q, p.openInput env r = .ok q := by
  unfold openInput
  by_cases hinput : r.input = .empty
  · rw [if_neg (not_not.mpr hinput)]
    exact ⟨p, rfl⟩
  · obtain ⟨hused, hopens⟩ := h hinput
    obtain ⟨i, hi⟩ := Option.ne_none_iff_exists'.mp hopens
    rw [if_pos hinput]
    obtain ⟨q, hq⟩ := replaceStream_returns (p := p) hused hi
    exact ⟨q, exceptBind_eq_ok.mpr ⟨(i, q), hq, rfl⟩⟩

/-- Of the process only the descriptors change. -/
theorem Process.openInput_frame (h : p.openInput env r = .ok p') :
    p' = { p with descriptors := p'.descriptors } := by
  unfold openInput at h
  split at h
  · obtain ⟨⟨i, q⟩, hreplace, h⟩ := exceptBind_eq_ok.mp h
    obtain ⟨_, _, _, _, rfl⟩ := replaceStream_eq_ok.mp hreplace
    cases h
    rfl
  · cases h
    rfl

/-- The flags for the output of the line. -/
def outputFlags (r : Redirection) : OpenFlags := if r.isOutputDouble then .append else .trunc

variable [DecidableEq ι] {s s' : System ι}

/-- The output file goes to the lowest descriptor, which is standard output only if
standard input is in use. -/
theorem Process.openOutput_file (h : p.openOutput env s r = .ok (s', p')) :
    (r.output = .empty → s' = s ∧ p' = p) ∧
      (r.output ≠ .empty →
        ∃ i n, env.opens r.output (outputFlags r) = some i ∧
          s' = { s with content := (outputFlags r).opened i s.content } ∧
          p'.descriptors.file = update (update p.descriptors.file 1 none) n
            (some ((outputFlags r).openFile i)) ∧
          p.descriptors.file 1 ≠ none ∧ (n = 1 ↔ p.descriptors.file 0 ≠ none) ∧ n ≤ 1) := by
  unfold openOutput at h
  by_cases houtput : r.output = .empty
  · rw [if_neg (not_not.mpr houtput)] at h
    cases h
    exact ⟨fun _ => ⟨rfl, rfl⟩, fun hne => absurd houtput hne⟩
  · rw [if_pos houtput] at h
    refine ⟨fun hempty => absurd hempty houtput, fun _ => ?_⟩
    obtain ⟨⟨i, q⟩, hreplace, h⟩ := exceptBind_eq_ok.mp h
    cases h
    obtain ⟨hopens, n, d, hreopen, rfl⟩ := replaceStream_eq_ok.mp hreplace
    obtain ⟨hle, hfile, _⟩ := Descriptors.reopen_file hreopen
    refine ⟨i, n, hopens, rfl, hfile, fun hnone => ?_, ?_, hle⟩
    · rw [Descriptors.reopen_eq_none.mpr hnone] at hreopen
      cases hreopen
    · rw [Descriptors.reopen_lands_iff hreopen]
      constructor
      · intro hall
        exact hall 0 Nat.one_pos
      · intro hzero j hj
        rwa [Nat.lt_one_iff.mp hj]

theorem Process.openOutput_returns
    (h : r.output ≠ .empty → p.descriptors.file 1 ≠ none ∧
      env.opens r.output (outputFlags r) ≠ none) :
    ∃ t q, p.openOutput env s r = .ok (t, q) := by
  unfold openOutput
  by_cases houtput : r.output = .empty
  · rw [if_neg (not_not.mpr houtput)]
    exact ⟨s, p, rfl⟩
  · obtain ⟨hused, hopens⟩ := h houtput
    obtain ⟨i, hi⟩ := Option.ne_none_iff_exists'.mp hopens
    rw [if_pos houtput]
    obtain ⟨q, hq⟩ := replaceStream_returns (p := p) hused hi
    exact ⟨_, q, exceptBind_eq_ok.mpr ⟨(i, q), hq, rfl⟩⟩

theorem Process.openOutput_frame (h : p.openOutput env s r = .ok (s', p')) :
    p' = { p with descriptors := p'.descriptors } ∧ s'.foreground = s.foreground := by
  unfold openOutput at h
  split at h
  · obtain ⟨⟨i, q⟩, hreplace, h⟩ := exceptBind_eq_ok.mp h
    obtain ⟨_, _, _, _, rfl⟩ := replaceStream_eq_ok.mp hreplace
    cases h
    exact ⟨rfl, rfl⟩
  · cases h
    exact ⟨rfl, rfl⟩

variable {tokens args : List CString} {argv : Block (Option CString)} {isBackground : Bool}
  {file : CString} {e : ChildEnd ι}

/-- The process that the set-up works on. -/
def Process.ready (p : Process ι) : Process ι := { p with pgrp := p.pid }.defaultSignals

/-- The terminal, as the child leaves it. -/
def Process.takeTerminal (p : Process ι) (s : System ι) (isBackground : Bool) : System ι :=
  if isBackground then s else { s with foreground := p.pid }

/-- A child is stopped exactly when it reaches for the terminal from a group that
has it not, and does not ignore the signal. -/
theorem Process.child_eq (p : Process ι) (env : Environment ι) (s : System ι) (r : Redirection)
    (tokens : List CString) (argv : Block (Option CString)) (isBackground : Bool) :
    p.child env s r tokens argv isBackground =
      if isBackground = false ∧ p.pid ≠ s.foreground ∧ p.disposition .ttou = .dfl then
        .ret (s, .stopped)
      else p.ready.becomeProgram env (p.takeTerminal s isBackground) r tokens argv := by
  unfold child
  cases isBackground with
  | true => rfl
  | false =>
      by_cases hstop : p.pid ≠ s.foreground ∧ p.disposition .ttou = .dfl
      · have hnone : ({ p with pgrp := p.pid } : Process ι).tcsetpgrp s p.pid = none :=
          if_pos hstop
        simp only [Bool.false_eq_true, if_false, hnone]
        rw [if_pos ⟨trivial, hstop⟩]
      · have hsome : ({ p with pgrp := p.pid } : Process ι).tcsetpgrp s p.pid =
            some { s with foreground := p.pid } := if_neg hstop
        simp only [Bool.false_eq_true, if_false, hsome]
        rw [if_neg fun h => hstop h.2]
        rfl

/-- The ways out: before the files are open, because the command cannot be run, or as
the program. -/
theorem Process.becomeProgram_cases
    (h : p.becomeProgram env s r tokens argv = .ret (s', e)) :
    (s' = s ∧ ∃ message, e = .exit 1 message) ∨
      ∃ q q', p.openInput env r = .ok q ∧ q.openOutput env s r = .ok (s', q') ∧
        ((∃ message, e = .exit 1 message) ∨
          ∃ fnr as, firstNonredirect tokens .empty = .ret fnr ∧ argv.contents = .ret as ∧
            env.executable fnr = true ∧ e = .exec fnr as q') := by
  unfold becomeProgram at h
  cases hin : p.openInput env r with
  | error message =>
      rw [hin] at h
      cases h
      exact .inl ⟨rfl, message, rfl⟩
  | ok q =>
  simp only [hin] at h
  cases hout : q.openOutput env s r with
  | error message =>
      rw [hout] at h
      cases h
      exact .inl ⟨rfl, message, rfl⟩
  | ok found =>
  obtain ⟨t, q'⟩ := found
  simp only [hout] at h
  obtain ⟨fnr, hfnr, h⟩ := Outcome.bind_eq_ret.mp h
  obtain ⟨as, hargs, h⟩ := Outcome.bind_eq_ret.mp h
  by_cases hrun : env.executable fnr = true
  · rw [if_pos hrun] at h
    cases h
    exact .inr ⟨q, q', rfl, hout, .inr ⟨fnr, as, hfnr, hargs, hrun, rfl⟩⟩
  · rw [if_neg hrun] at h
    cases h
    exact .inr ⟨q, q', rfl, hout, .inl ⟨_, rfl⟩⟩

theorem Process.child_exec (h : p.child env s r tokens argv isBackground =
      .ret (s', .exec file args p')) :
    ¬ (isBackground = false ∧ p.pid ≠ s.foreground ∧ p.disposition .ttou = .dfl) ∧
      (∃ q, p.ready.openInput env r = .ok q ∧
        q.openOutput env (p.takeTerminal s isBackground) r = .ok (s', p')) ∧
      firstNonredirect tokens .empty = .ret file ∧ argv.contents = .ret args ∧
      env.executable file = true := by
  rw [child_eq] at h
  split at h
  · cases h
  · rename_i hgoes
    rcases becomeProgram_cases h with ⟨_, _, he⟩ | ⟨q, q', hin, hout, hend⟩
    · cases he
    · rcases hend with ⟨_, he⟩ | ⟨_, _, hfnr, hargs, hexec, he⟩
      · cases he
      · cases he
        exact ⟨hgoes, ⟨q, hin, hout⟩, hfnr, hargs, hexec⟩

end Steps

/-! ## The streams of the program -/

variable {ι : Type} [DecidableEq ι] {p p' : Process ι} {env : Environment ι}
  {s s' : System ι} {r : Redirection} {tokens args : List CString}
  {argv : Block (Option CString)} {isBackground : Bool} {file : CString} {e : ChildEnd ι}

theorem Process.child_returns (p : Process ι) (env : Environment ι) (s : System ι)
    (r : Redirection) (isBackground : Bool)
    (hgoes : ¬ (isBackground = false ∧ p.pid ≠ s.foreground ∧ p.disposition .ttou = .dfl))
    (hinput : r.input ≠ .empty → p.descriptors.file 0 ≠ none ∧
      env.opens r.input .rdonly ≠ none)
    (houtput : r.output ≠ .empty → p.descriptors.file 1 ≠ none ∧
      env.opens r.output (outputFlags r) ≠ none)
    (hfnr : firstNonredirect tokens .empty = .ret file) (hargs : argv.contents = .ret args)
    (hexec : env.executable file = true) :
    ∃ s' p', p.child env s r tokens argv isBackground = .ret (s', .exec file args p') := by
  obtain ⟨q, hin⟩ := openInput_returns (p := p.ready) hinput
  have hone : q.descriptors.file 1 = p.ready.descriptors.file 1 := openInput_one hin
  have houtput' : r.output ≠ .empty → q.descriptors.file 1 ≠ none ∧
      env.opens r.output (outputFlags r) ≠ none := by
    rwa [hone]
  obtain ⟨t, q', hout⟩ :=
    openOutput_returns (s := p.takeTerminal s isBackground) houtput'
  refine ⟨t, q', ?_⟩
  rw [child_eq, if_neg hgoes]
  simp [becomeProgram, hin, hout, hfnr, hargs, hexec]

/-- **When the program of a line is run**: the child gets to the terminal, the streams
that are replaced are in use and their files can be opened, there is a command, and it
can be run. -/
theorem child_runs_iff (p : Process ι) (env : Environment ι) (s : System ι) (r : Redirection)
    (tokens : List CString) (argv : Block (Option CString)) (isBackground : Bool)
    (file : CString) (args : List CString) :
    (∃ s' p', p.child env s r tokens argv isBackground = .ret (s', .exec file args p')) ↔
      ¬ (isBackground = false ∧ p.pid ≠ s.foreground ∧ p.disposition .ttou = .dfl) ∧
      (r.input ≠ .empty → p.descriptors.file 0 ≠ none ∧ env.opens r.input .rdonly ≠ none) ∧
      (r.output ≠ .empty → p.descriptors.file 1 ≠ none ∧
        env.opens r.output (outputFlags r) ≠ none) ∧
      firstNonredirect tokens .empty = .ret file ∧ argv.contents = .ret args ∧
      env.executable file = true := by
  constructor
  · rintro ⟨s', p', hrun⟩
    obtain ⟨hgoes, ⟨q, hin, hout⟩, hcommand⟩ := Process.child_exec hrun
    refine ⟨hgoes, fun hinput => ?_, fun houtput => ?_, hcommand⟩
    · obtain ⟨hused, i, hopens, _⟩ := (Process.openInput_file hin).2 hinput
      rw [hopens]
      exact ⟨hused, by simp⟩
    · obtain ⟨i, _, hopens, _, _, hused, _⟩ := (Process.openOutput_file hout).2 houtput
      rw [Process.openInput_one hin] at hused
      rw [hopens]
      exact ⟨hused, by simp⟩
  · rintro ⟨hgoes, hinput, houtput, hfnr, hargs, hexec⟩
    exact p.child_returns env s r isBackground hgoes hinput houtput hfnr hargs hexec

/-- A process with a terminal on its first three descriptors. -/
def loginProcess : Process Nat where
  pid := 2
  pgrp := 2
  disposition := fun _ => .dfl
  descriptors :=
    { file := fun fd => if fd < 3 then some ⟨0, true, false, 0⟩ else none
      limit := 8
      free_of_limit_le := fun fd hfd => if_neg (by omega) }

/-- Every name opens the file 1, and every command can be run. -/
def oneFile : Environment Nat where
  opens := fun _ _ => some 1
  executable := fun _ => true

/-- Both files hold a byte, and another process group has the terminal. -/
def twoFiles : System Nat := { content := fun _ => [120], foreground := 1 }

/-- `sort < f >> f` -/
def sortInPlace : List CString :=
  [.lit ['s'], tokIn, .lit ['f'], tokAppend, .lit ['f']]

def sortArgv : Block (Option CString) := .alloc 2 fun i => if i = 0 then some (.lit ['s']) else none

theorem sortInPlace_ne_empty : ∀ tok ∈ sortInPlace, tok ≠ .empty := by decide

def sortRedirection : Redirection :=
  { input := .lit ['f'], output := .lit ['f'], isOutputDouble := true }

theorem sortInPlace_scan : scan sortInPlace = .ok sortRedirection := by rfl

theorem sortInPlace_runs : ∃ s' p', loginProcess.child oneFile twoFiles sortRedirection
    sortInPlace sortArgv true = .ret (s', .exec (.lit ['s']) [.lit ['s']] p') :=
  loginProcess.child_returns oneFile twoFiles sortRedirection true (by simp)
    (fun _ => ⟨by decide, by decide⟩) (fun _ => ⟨by decide, by decide⟩) (by rfl) (by rfl) rfl

/-! ## The streams of the program -/

/-- The flags that go with an output operator. -/
def operatorFlags (op : CString) : OpenFlags := if op = tokAppend then .append else .trunc

/-- The standard streams are the files that the tokens name, from their start, and
every other descriptor is the shell's. -/
structure Redirected (env : Environment ι) (tokens : List CString) (p p' : Process ι) :
    Prop where
  input : ∀ pre name post, tokens = pre ++ tokIn :: name :: post →
    ∃ i, env.opens name .rdonly = some i ∧
      p'.descriptors.file 0 = some (OpenFlags.rdonly.openFile i)
  noInput : tokIn ∉ tokens → p'.descriptors.file 0 = p.descriptors.file 0
  output : ∀ pre op name post, tokens = pre ++ op :: name :: post →
    op = tokOut ∨ op = tokAppend →
      ∃ i, env.opens name (operatorFlags op) = some i ∧
        p'.descriptors.file 1 = some ((operatorFlags op).openFile i)
  noOutput : tokOut ∉ tokens → tokAppend ∉ tokens →
    p'.descriptors.file 1 = p.descriptors.file 1
  others : ∀ fd, 2 ≤ fd → p'.descriptors.file fd = p.descriptors.file fd

/-- Behind an operator of an accepted line stands its file. -/
theorem exists_operand (htokens : ∀ tok ∈ tokens, tok ≠ .empty) (hscan : scan tokens = .ok r)
    {op : CString} (hop : isNotRedirect op = false) (hmem : op ∈ tokens) :
    ∃ pre name post, tokens = pre ++ op :: name :: post := by
  have hlast := ((accepted_iff htokens).mp ⟨r, hscan⟩).last
  obtain ⟨pre, post, rfl⟩ := List.append_of_mem hmem
  cases post with
  | nil =>
      rw [hlast op (by simp)] at hop
      cases hop
  | cons name post => exact ⟨pre, name, post, rfl⟩

theorem input_empty_iff (htokens : ∀ tok ∈ tokens, tok ≠ .empty) (hscan : scan tokens = .ok r) :
    r.input = .empty ↔ tokIn ∉ tokens := by
  have hr := redirects_of_scan htokens hscan
  constructor
  · intro hempty hmem
    obtain ⟨pre, name, post, rfl⟩ := exists_operand htokens hscan (by decide) hmem
    rw [hr.input pre name post rfl] at hempty
    exact htokens name (by simp) hempty
  · exact hr.noInput

theorem output_empty_iff (htokens : ∀ tok ∈ tokens, tok ≠ .empty) (hscan : scan tokens = .ok r) :
    r.output = .empty ↔ tokOut ∉ tokens ∧ tokAppend ∉ tokens := by
  have hr := redirects_of_scan htokens hscan
  have hop : ∀ op, isNotRedirect op = false → op = tokOut ∨ op = tokAppend → op ∈ tokens →
      r.output ≠ .empty := by
    intro op hred hop hmem
    obtain ⟨pre, name, post, rfl⟩ := exists_operand htokens hscan hred hmem
    rw [hr.output pre op name post rfl hop]
    exact htokens name (by simp)
  constructor
  · intro hempty
    exact ⟨fun hmem => hop _ (by decide) (.inl rfl) hmem hempty,
      fun hmem => hop _ (by decide) (.inr rfl) hmem hempty⟩
  · rintro ⟨hout, happ⟩
    exact hr.noOutput hout happ

/-- The scan remembers which of the two operators there was. -/
theorem outputFlags_eq (htokens : ∀ tok ∈ tokens, tok ≠ .empty) (hscan : scan tokens = .ok r)
    {op : CString} (hop : op = tokOut ∨ op = tokAppend) (hmem : op ∈ tokens) :
    outputFlags r = operatorFlags op := by
  have happend := (redirects_of_scan htokens hscan).append
  have hcount := ((accepted_iff htokens).mp ⟨r, hscan⟩).output
  unfold outputFlags operatorFlags
  rcases hop with rfl | rfl
  · have hone := List.count_pos_iff.mpr hmem
    have hnone : tokAppend ∉ tokens := List.count_eq_zero.mp (by omega)
    rw [if_neg (mt happend.mp hnone), if_neg (by decide)]
  · rw [if_pos (happend.mpr hmem), if_pos rfl]

/-- The program's streams, in the words of the scan. -/
structure ChildStreams (env : Environment ι) (r : Redirection) (p p' : Process ι)
    (s s' : System ι) : Prop where
  input : r.input ≠ .empty → p.descriptors.file 0 ≠ none ∧
    ∃ i, env.opens r.input .rdonly = some i ∧
      p'.descriptors.file 0 = some (OpenFlags.rdonly.openFile i)
  noInput : r.input = .empty → r.output = .empty ∨ p.descriptors.file 0 ≠ none →
    p'.descriptors.file 0 = p.descriptors.file 0
  output : r.output ≠ .empty → ∃ i, env.opens r.output (outputFlags r) = some i ∧
    s'.content = (outputFlags r).opened i s.content ∧
    p'.descriptors.file 1 = if p.descriptors.file 0 = none then none
      else some ((outputFlags r).openFile i)
  noOutput : r.output = .empty → s'.content = s.content ∧
    p'.descriptors.file 1 = p.descriptors.file 1
  others : ∀ fd, 2 ≤ fd → p'.descriptors.file fd = p.descriptors.file fd

theorem Process.child_streams
    (hrun : p.child env s r tokens argv isBackground = .ret (s', .exec file args p')) :
    ChildStreams env r p p' s s' := by
  obtain ⟨_, ⟨q, hin, hout⟩, _⟩ := child_exec hrun
  have hready : p.ready.descriptors = p.descriptors := rfl
  have hterminal : (p.takeTerminal s isBackground).content = s.content := by
    unfold takeTerminal
    split <;> rfl
  obtain ⟨hnoin, hsomein⟩ := openInput_file hin
  obtain ⟨hnoout, hsomeout⟩ := openOutput_file hout
  rw [hready] at hsomein
  -- Behind the input, standard input is in use when it was.
  have hzero : q.descriptors.file 0 ≠ none ↔ p.descriptors.file 0 ≠ none := by
    by_cases hinput : r.input = .empty
    · rw [hnoin hinput, hready]
    · obtain ⟨hused, i, _, hfile⟩ := hsomein hinput
      rw [hfile, update_self]
      exact iff_of_true (by simp) hused
  have hrest : ∀ fd, 0 < fd → q.descriptors.file fd = p.descriptors.file fd := by
    intro fd hfd
    by_cases hinput : r.input = .empty
    · rw [hnoin hinput, hready]
    · obtain ⟨_, i, _, hfile⟩ := hsomein hinput
      rw [hfile, update_of_ne (by omega)]
  have hkeep : r.output = .empty ∨ p.descriptors.file 0 ≠ none →
      p'.descriptors.file 0 = q.descriptors.file 0 := by
    intro h
    by_cases houtput : r.output = .empty
    · rw [(hnoout houtput).2]
    · obtain ⟨i, n, _, _, hfile, _, hlands, _⟩ := hsomeout houtput
      have hn : n = 1 := hlands.mpr (hzero.mpr (h.resolve_left houtput))
      rw [hfile, hn, update_idem, update_of_ne Nat.zero_ne_one]
  refine
    { input := fun hne => ?_
      noInput := fun hempty h => by rw [hkeep h, hnoin hempty, hready]
      output := fun hne => ?_
      noOutput := fun hempty => ?_
      others := fun fd hfd => ?_ }
  · obtain ⟨hused, i, hopens, hfile⟩ := hsomein hne
    exact ⟨hused, i, hopens, by rw [hkeep (.inr hused), hfile, update_self]⟩
  · obtain ⟨i, n, hopens, hs, hfile, _, hlands, hle⟩ := hsomeout hne
    refine ⟨i, hopens, by rw [hs, hterminal], ?_⟩
    by_cases hused : p.descriptors.file 0 = none
    · have hn : n ≠ 1 := fun h => (hzero.mp (hlands.mp h)) hused
      rw [if_pos hused, hfile, update_of_ne (Ne.symm hn), update_self]
    · rw [if_neg hused, hfile, hlands.mpr (hzero.mpr hused), update_self]
  · obtain ⟨hs, hq⟩ := hnoout hempty
    rw [hs, hq, hterminal, hrest 1 Nat.one_pos]
    exact ⟨rfl, rfl⟩
  · by_cases houtput : r.output = .empty
    · rw [(hnoout houtput).2, hrest fd (by omega)]
    · obtain ⟨i, n, _, _, hfile, _, _, hle⟩ := hsomeout houtput
      rw [hfile, update_of_ne (by omega), update_of_ne (by omega), hrest fd (by omega)]

/-- **When the program has the streams its line spells out**: exactly when the shell
has a standard input, or nothing is put in the place of standard output. -/
theorem child_redirects_iff (htokens : ∀ tok ∈ tokens, tok ≠ .empty)
    (hscan : scan tokens = .ok r)
    (hrun : p.child env s r tokens argv isBackground = .ret (s', .exec file args p')) :
    Redirected env tokens p p' ↔
      p.descriptors.file 0 ≠ none ∨ (tokOut ∉ tokens ∧ tokAppend ∉ tokens) := by
  have hr := redirects_of_scan htokens hscan
  have hin := input_empty_iff htokens hscan
  have hout := output_empty_iff htokens hscan
  have hstreams := Process.child_streams hrun
  rw [← hout]
  constructor
  · intro hred
    by_contra h
    obtain ⟨hnone, hempty⟩ := not_or.mp h
    -- The file has gone to descriptor 0, and descriptor 1 is closed.
    obtain ⟨i, _, _, hone⟩ := hstreams.output hempty
    rw [if_pos (not_not.mp hnone)] at hone
    have hop : ∀ op, isNotRedirect op = false → op = tokOut ∨ op = tokAppend → op ∉ tokens := by
      intro op hred' hop hmem
      obtain ⟨pre, name, post, hsplit⟩ := exists_operand htokens hscan hred' hmem
      obtain ⟨j, _, hj⟩ := hred.output pre op name post hsplit hop
      rw [hone] at hj
      cases hj
    exact hempty (hout.mpr ⟨hop _ (by decide) (.inl rfl), hop _ (by decide) (.inr rfl)⟩)
  · intro h
    refine
      { input := ?_
        noInput := fun hmem => hstreams.noInput (hin.mpr hmem) h.symm
        output := ?_
        noOutput := fun hmemout hmemapp =>
          (hstreams.noOutput (hout.mpr ⟨hmemout, hmemapp⟩)).2
        others := hstreams.others }
    · intro pre name post hsplit
      have hname := hr.input pre name post hsplit
      have hne : r.input ≠ .empty := fun hempty =>
        hin.mp hempty (by rw [hsplit]; simp)
      obtain ⟨_, i, hopens, hfile⟩ := hstreams.input hne
      rw [hname] at hopens
      exact ⟨i, hopens, hfile⟩
    · intro pre op name post hsplit hop
      have hmem : op ∈ tokens := by
        rw [hsplit]
        simp
      have hne : r.output ≠ .empty := fun hempty => by
        rcases hop with rfl | rfl
        · exact (hout.mp hempty).1 hmem
        · exact (hout.mp hempty).2 hmem
      obtain ⟨i, hopens, _, hfile⟩ := hstreams.output hne
      rw [hr.output pre op name post hsplit hop, outputFlags_eq htokens hscan hop hmem]
        at hopens
      rw [if_neg (h.resolve_right hne), outputFlags_eq htokens hscan hop hmem] at hfile
      exact ⟨i, hopens, hfile⟩

theorem child_redirects_iff_sort : ∃ s' p',
    loginProcess.child oneFile twoFiles sortRedirection sortInPlace sortArgv true =
      .ret (s', .exec (.lit ['s']) [.lit ['s']] p') ∧
    (Redirected oneFile sortInPlace loginProcess p' ↔
      loginProcess.descriptors.file 0 ≠ none ∨
        (tokOut ∉ sortInPlace ∧ tokAppend ∉ sortInPlace)) := by
  obtain ⟨s', p', hrun⟩ := sortInPlace_runs
  exact ⟨s', p', hrun, child_redirects_iff sortInPlace_ne_empty sortInPlace_scan hrun⟩

/-! ## The files that the set-up touches -/

/-- Besides the descriptors only the file of `>` changes, once the input is open. -/
theorem Process.becomeProgram_content
    (hrun : p.becomeProgram env s r tokens argv = .ret (s', e)) :
    s'.content = s.content ∨
      r.output ≠ .empty ∧ outputFlags r = .trunc ∧ ∃ i, env.opens r.output .trunc = some i ∧
        s'.content = update s.content i [] ∧
        (r.input ≠ .empty → env.opens r.input .rdonly ≠ none) := by
  rcases becomeProgram_cases hrun with ⟨rfl, _⟩ | ⟨q, q', hin, hout, _⟩
  · exact .inl rfl
  obtain ⟨hnoout, hsomeout⟩ := openOutput_file hout
  by_cases houtput : r.output = .empty
  · exact .inl (congrArg System.content (hnoout houtput).1)
  · obtain ⟨i, n, hopens, rfl, _⟩ := hsomeout houtput
    by_cases htrunc : outputFlags r = .trunc
    · rw [htrunc] at hopens
      refine .inr ⟨houtput, htrunc, i, hopens, if_pos htrunc, fun hinput => ?_⟩
      obtain ⟨_, j, hj, _⟩ := (openInput_file hin).2 hinput
      rw [hj]
      simp
    · exact .inl (if_neg htrunc)

/-- **What the set-up does to files**: it may empty the one behind `>`, and that only
after the input of the line was opened.  This holds also of a child that exits without
running a program. -/
theorem child_touches (htokens : ∀ tok ∈ tokens, tok ≠ .empty)
    (hscan : scan tokens = .ok r)
    (hrun : p.child env s r tokens argv isBackground = .ret (s', e)) :
    ∀ i, s'.content i ≠ s.content i → s'.content i = [] ∧
      (∃ pre name post, tokens = pre ++ tokOut :: name :: post ∧
        env.opens name .trunc = some i) ∧
      ∀ pre name post, tokens = pre ++ tokIn :: name :: post →
        env.opens name .rdonly ≠ none := by
  intro i hne
  rw [Process.child_eq] at hrun
  split at hrun
  · cases hrun
    exact absurd rfl hne
  · have hterminal : (p.takeTerminal s isBackground).content = s.content := by
      unfold Process.takeTerminal
      split <;> rfl
    have hr := redirects_of_scan htokens hscan
    rcases Process.becomeProgram_content hrun with hsame | hemptied
    · rw [hsame, hterminal] at hne
      exact absurd rfl hne
    · obtain ⟨houtput, htrunc, j, hopens, hcontent, hinput⟩ := hemptied
      rw [hterminal] at hcontent
      have hij : i = j := by
        by_contra h
        rw [hcontent, update_of_ne h] at hne
        exact hne rfl
      subst hij
      have hmem : tokOut ∈ tokens := by
        by_contra hout
        have happ : tokAppend ∈ tokens := by
          by_contra happ
          exact houtput (hr.noOutput hout happ)
        rw [outputFlags, if_pos (hr.append.mpr happ)] at htrunc
        cases htrunc
      obtain ⟨pre, name, post, hsplit⟩ := exists_operand htokens hscan (by decide) hmem
      rw [hr.output pre tokOut name post hsplit (.inl rfl)] at hopens
      refine ⟨by rw [hcontent, update_self], ⟨pre, name, post, hsplit, hopens⟩, ?_⟩
      intro pre' name' post' hsplit'
      have hname := hr.input pre' name' post' hsplit'
      rw [← hname]
      refine hinput fun hempty => ?_
      exact (input_empty_iff htokens hscan).mp hempty (by rw [hsplit']; simp)

/-- `sort < f > f` -/
def sortOver : List CString := [.lit ['s'], tokIn, .lit ['f'], tokOut, .lit ['f']]

def overRedirection : Redirection :=
  { input := .lit ['f'], output := .lit ['f'], isOutputDouble := false }

theorem sortOver_ne_empty : ∀ tok ∈ sortOver, tok ≠ .empty := by decide

theorem sortOver_scan : scan sortOver = .ok overRedirection := by rfl

/-- `sort < f > f` finds `f` empty. -/
theorem child_touches_sort : ∃ s' p',
    loginProcess.child oneFile twoFiles overRedirection sortOver sortArgv true =
      .ret (s', .exec (.lit ['s']) [.lit ['s']] p') ∧
    s'.content 1 ≠ twoFiles.content 1 ∧
    ∀ i, s'.content i ≠ twoFiles.content i → s'.content i = [] ∧
      (∃ pre name post, sortOver = pre ++ tokOut :: name :: post ∧
        oneFile.opens name .trunc = some i) ∧
      ∀ pre name post, sortOver = pre ++ tokIn :: name :: post →
        oneFile.opens name .rdonly ≠ none := by
  obtain ⟨s', p', hrun⟩ := loginProcess.child_returns oneFile twoFiles overRedirection true
    (by simp) (fun _ => ⟨by decide, by decide⟩) (fun _ => ⟨by decide, by decide⟩)
    (show firstNonredirect sortOver .empty = .ret (.lit ['s']) by rfl)
    (show sortArgv.contents = .ret [.lit ['s']] by rfl) rfl
  refine ⟨s', p', hrun, ?_, child_touches sortOver_ne_empty sortOver_scan hrun⟩
  obtain ⟨i, hopens, hcontent, _⟩ := (Process.child_streams hrun).output (by decide)
  cases hopens
  rw [hcontent]
  decide

/-- **What the file of the line holds** once the program has written to standard
output: what was written, behind what the file held before when the operator is
`>>`.  A program that has the same file as its input finds it empty with `>`, and as
it was with `>>`. -/
theorem child_writes (htokens : ∀ tok ∈ tokens, tok ≠ .empty)
    (hscan : scan tokens = .ok r) (hstdin : p.descriptors.file 0 ≠ none)
    (hrun : p.child env s r tokens argv isBackground = .ret (s', .exec file args p'))
    (pre post : List CString) (op name : CString)
    (hsplit : tokens = pre ++ op :: name :: post) (hop : op = tokOut ∨ op = tokAppend) :
    ∃ o, p'.descriptors.file 1 = some o ∧
      (∀ pieces, (o.writeAll s'.content pieces).2 = update s.content o.file
        ((if op = tokAppend then s.content o.file else []) ++ pieces.flatten)) ∧
      ∀ oin, p'.descriptors.file 0 = some oin → oin.file = o.file →
        s'.content oin.file = if op = tokAppend then s.content oin.file else [] := by
  have hmem : op ∈ tokens := by
    rw [hsplit]
    simp
  have hname := (redirects_of_scan htokens hscan).output pre op name post hsplit hop
  have hne : r.output ≠ .empty := by
    rw [hname]
    exact htokens name (by rw [hsplit]; simp)
  obtain ⟨i, _, hcontent, hfile⟩ := (Process.child_streams hrun).output hne
  rw [if_neg hstdin] at hfile
  rw [outputFlags_eq htokens hscan hop hmem] at hcontent hfile
  rcases hop with rfl | rfl
  · have hflags : operatorFlags tokOut = .trunc := if_neg (by decide)
    rw [hflags] at hcontent hfile
    have hafter : s'.content = update s.content i [] := hcontent
    refine ⟨_, hfile, fun pieces => ?_, fun oin _ hsame => ?_⟩
    · have hend : (OpenFlags.trunc.openFile i).start s'.content =
          (s'.content i).length := by
        rw [hafter, update_self]
        rfl
      rw [OpenFile.writeAll_content rfl hend, if_neg (by decide)]
      show update s'.content i (s'.content i ++ pieces.flatten) = _
      rw [hafter, update_self, update_idem]
      rfl
    · rw [hsame, if_neg (by decide), hafter]
      exact update_self i [] s.content
  · have hflags : operatorFlags tokAppend = .append := if_pos rfl
    rw [hflags] at hcontent hfile
    have hafter : s'.content = s.content := hcontent
    refine ⟨_, hfile, fun pieces => ?_, fun oin _ _ => ?_⟩
    · have hend : (OpenFlags.append.openFile i).start s'.content =
          (s'.content i).length := if_pos rfl
      rw [OpenFile.writeAll_content rfl hend, if_pos rfl, hafter]
    · rw [if_pos rfl, hafter]

theorem child_writes_sort : ∃ s' p',
    loginProcess.child oneFile twoFiles sortRedirection sortInPlace sortArgv true =
      .ret (s', .exec (.lit ['s']) [.lit ['s']] p') ∧
    ∃ o, p'.descriptors.file 1 = some o ∧
      (∀ pieces, (o.writeAll s'.content pieces).2 = update twoFiles.content o.file
        ((if tokAppend = tokAppend then twoFiles.content o.file else []) ++
          pieces.flatten)) ∧
      ∀ oin, p'.descriptors.file 0 = some oin → oin.file = o.file →
        s'.content oin.file =
          if tokAppend = tokAppend then twoFiles.content oin.file else [] := by
  obtain ⟨s', p', hrun⟩ := sortInPlace_runs
  exact ⟨s', p', hrun, child_writes sortInPlace_ne_empty sortInPlace_scan (by decide) hrun
    [.lit ['s'], tokIn, .lit ['f']] [] tokAppend (.lit ['f']) rfl (.inr rfl)⟩

/-- A program that a line with `>>` started, with the file it appends to. -/
def Appends (env : Environment ι) (o : OpenFile ι) : Prop :=
  ∃ (p p' : Process ι) (s s' : System ι) (r : Redirection) (tokens : List CString)
    (argv : Block (Option CString)) (isBackground : Bool) (file : CString)
    (args : List CString), (∀ tok ∈ tokens, tok ≠ .empty) ∧ scan tokens = .ok r ∧
      tokAppend ∈ tokens ∧ p.descriptors.file 0 ≠ none ∧
      p.child env s r tokens argv isBackground = .ret (s', .exec file args p') ∧
      p'.descriptors.file 1 = some o

/-- **Programs that append do not disturb each other**: whatever the order in which
programs started with `>>` write, each file holds all that was written to it. -/
theorem appenders_keepAll {κ : Type} [DecidableEq κ] {files : κ → OpenFile ι}
    (hstarted : ∀ k, Appends env (files k)) (content : ι → List UInt8)
    (schedule : List (κ × List UInt8)) (i : ι) :
    (interleave files content schedule).2 i = content i ++ writtenTo files i schedule := by
  apply interleave_content
  intro k
  obtain ⟨p, p', s, s', r, tokens, argv, isBackground, file, args, htokens, hscan, hmem,
    hstdin, hrun, hfile⟩ := hstarted k
  have hne : r.output ≠ .empty := fun hempty =>
    ((output_empty_iff htokens hscan).mp hempty).2 hmem
  obtain ⟨j, _, _, hone⟩ := (Process.child_streams hrun).output hne
  rw [if_neg hstdin, outputFlags_eq htokens hscan (.inr rfl) hmem, hfile] at hone
  rw [Option.some.inj hone]
  exact ⟨rfl, rfl⟩

/-- Two programs that write to one file in turn. -/
theorem appenders_keepAll_sort : ∃ o : OpenFile Nat,
    (interleave (fun _ : Bool => o) (fun _ => [120])
      [(true, [97]), (false, [98]), (true, [99])]).2 1 =
      [120] ++ writtenTo (fun _ : Bool => o) 1 [(true, [97]), (false, [98]), (true, [99])] := by
  obtain ⟨s', p', hrun⟩ := sortInPlace_runs
  obtain ⟨i, _, _, hone⟩ := (Process.child_streams hrun).output (by decide)
  rw [if_neg (by decide)] at hone
  have hstarted : Appends oneFile _ := ⟨_, p', _, s', _, _, _, _, _, _,
    sortInPlace_ne_empty, sortInPlace_scan, by decide, by decide, hrun, hone⟩
  exact ⟨_, appenders_keepAll (fun _ => hstarted) _ _ 1⟩

/-! ## What the program inherits -/

/-- **Signals, group and terminal of the program**: the child is never stopped on its
way, the program is the leader of its own group, which has the terminal unless the
line is in the background, and it handles every signal as the shell was started to,
but for four that are back to their default. -/
theorem child_signals (p : Process ι) (pid : Int) (k : Kernel) (hpid : 0 < pid)
    (hterminal : k.foreground = s.foreground)
    (hrun : (p.ignoreSignals.fork pid).child env s r tokens argv isBackground =
      .ret (s', e)) :
    e ≠ .stopped ∧ s'.foreground = (k.fork pid isBackground).foreground ∧
      (s.foreground ≠ pid → (s'.foreground = pid ↔ isBackground = false)) ∧
      ∀ file args p', e = .exec file args p' →
        p'.pid = pid ∧ p'.pgrp = pid ∧
        p'.disposition = update (update (update (update p.disposition .int .dfl) .tstp .dfl)
          .ttou .dfl) .cont .dfl := by
  have hign : (p.ignoreSignals.fork pid).disposition .ttou = .ign := by
    simp [Process.fork, Process.ignoreSignals, Process.signal]
  rw [Process.child_eq, if_neg fun h => by rw [hign] at h; cases h.2.2] at hrun
  have hforeground : ((p.ignoreSignals.fork pid).takeTerminal s isBackground).foreground =
      (k.fork pid isBackground).foreground := by
    unfold Process.takeTerminal Kernel.fork
    rw [if_pos hpid]
    cases isBackground with
    | true => exact hterminal.symm
    | false => rfl
  have hfresh : s.foreground ≠ pid →
      (((p.ignoreSignals.fork pid).takeTerminal s isBackground).foreground = pid ↔
        isBackground = false) := by
    intro hne
    unfold Process.takeTerminal
    cases isBackground with
    | true => exact iff_of_false hne (by simp)
    | false => exact iff_of_true rfl rfl
  rw [← hforeground]
  rcases Process.becomeProgram_cases hrun with ⟨rfl, _, rfl⟩ | ⟨q, q', hin, hout, hend⟩
  · exact ⟨by simp, rfl, hfresh, fun _ _ _ h => by cases h⟩
  · obtain ⟨hq', hs'⟩ := Process.openOutput_frame hout
    have hq := Process.openInput_frame hin
    rw [← hs'] at hfresh
    rcases hend with ⟨_, rfl⟩ | ⟨_, _, _, _, _, rfl⟩
    · exact ⟨by simp, hs', hfresh, fun _ _ _ h => by cases h⟩
    · refine ⟨by simp, hs', hfresh, fun file args p' h => ?_⟩
      cases h
      rw [hq', hq]
      refine ⟨rfl, rfl, ?_⟩
      funext sig
      cases sig <;> simp [Process.ready, Process.defaultSignals, Process.ignoreSignals,
        Process.signal, Process.fork]

theorem child_signals_sort : ∃ (k : Kernel) (s' : System Nat) (e : ChildEnd Nat),
    0 < (2 : Int) ∧ k.foreground = twoFiles.foreground ∧
    (loginProcess.ignoreSignals.fork 2).child oneFile twoFiles sortRedirection sortInPlace
      sortArgv false = .ret (s', e) ∧
    e ≠ .stopped ∧ s'.foreground = (k.fork 2 false).foreground ∧
      (twoFiles.foreground ≠ 2 → (s'.foreground = 2 ↔ false = false)) ∧
      ∀ file args p', e = .exec file args p' →
        p'.pid = 2 ∧ p'.pgrp = 2 ∧
        p'.disposition = update (update (update (update loginProcess.disposition .int .dfl)
          .tstp .dfl) .ttou .dfl) .cont .dfl := by
  have hfnr : firstNonredirect sortInPlace .empty = .ret (.lit ['s']) := by rfl
  have hargs : sortArgv.contents = .ret [.lit ['s']] := by rfl
  obtain ⟨s', p', hrun⟩ := (loginProcess.ignoreSignals.fork 2).child_returns oneFile twoFiles
    sortRedirection false (by decide) (fun _ => ⟨by decide, by decide⟩)
    (fun _ => ⟨by decide, by decide⟩) hfnr hargs rfl
  let k : Kernel := { children := fun _ => none, foreground := 1, pgrp := 1 }
  exact ⟨k, s', _, by decide, rfl, hrun, child_signals loginProcess 2 k (by decide) rfl hrun⟩

end WizardShell.Ports

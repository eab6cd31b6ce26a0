import WizardShell.Ports.Builtins
import WizardShell.Ports.CompletionRefresh
import WizardShell.Ports.ConfigFile
import WizardShell.Ports.JobCleanup

/-!
# The loop of `wsh_main`

One turn of the loop, from the names of the directory to the next prompt: the line is
tokenized, resolved and prepared, its first token is looked up among the builtins, its
first word compared with `splash` and `alias`, and what is left goes to `execute`; then
the changed children are reported and the names taken away again.

The state is what the loop keeps from turn to turn (`Session`).  The directory, the line,
the contents of fresh memory and the answers of the kernel are given to each turn
(`Round`).
-/

namespace WizardShell.Ports

open WizardShell.Verified

/-- What the loop keeps from prompt to prompt. -/
structure Session where
  /-- `AL_TABLE` -/
  alTable : AliasTable Definition
  /-- `BI_TABLE` -/
  biTable : BuiltinsTable Builtin
  completions : CompletionsPtr
  shell : Shell

/-- What the loop is given from one prompt to the next. -/
structure Round where
  /-- The names `scandir` finds in the current directory. -/
  listing : List CString
  /-- The buffer that `get_line` returns, and the text in it. -/
  line : Block UInt8
  text : List UInt8
  holds : HoldsText line 0 text
  /-- What the arrays of `wsh_tokenize`, `resolve_alias_shortcuts`, `prep` and
  `process_alias` held when they were allocated. -/
  freshTokens : Nat → Option Nat
  freshResolved : Nat → Option TokenPtr
  freshArgv : Nat → Option CString
  freshDefinition : Nat → Option CString
  /-- What `scandir` gives for a `*`. -/
  starListing : Option (List CString)
  /-- What `splash()` returns. -/
  splash : Int
  /-- What `fork`, `kill` and the `waitpid` of `execute` or `bin_fg` return. -/
  fork : Int
  kill : Int
  wait : Option Report
  /-- What the `waitpid` of the loop returns. -/
  reports : List Report

/-- A line after `wsh_tokenize`, `resolve_alias_shortcuts` and `prep`. -/
structure Prepared where
  tokens : Block (Option CString)
  fTokens : List CString
  argv : Block (Option CString)

/-- How a line is left: past the `if` of the loop, by `continue`, or by `exit`. -/
inductive DispatchEnd where
  | bottom (s : Session)
  | skip (s : Session)
  | exited (status : Int) (c : Cleanup)

/-- How a turn ends: at the next prompt, or by `exit`. -/
inductive RoundEnd where
  | next (s : Session)
  | exited (status : Int) (c : Cleanup)

/-- The strings that an array of pointers into a line points to. -/
def tokenStrings (line : Block UInt8) (tokens : Block (Option Nat)) :
    Outcome (Block (Option CString)) := do
  let starts ← tokens.contents
  let strings ← starts.mapM (strAt line)
  return { cap := tokens.cap, cell := fun i => strings[i]? }

def TokenPtr.read : TokenPtr → Outcome CString
  | text s => .ret s
  | freed _ => .undefined

/-- The strings that the resolved array points to; `prep` reads them all. -/
def pointedStrings (fTokens : Block (Option TokenPtr)) : Outcome (List CString) := do
  let ps ← fTokens.contents
  ps.mapM TokenPtr.read

/-- `resolve_alias_shortcuts(tokens)`, and `prep` of what it returns. -/
def resolveAndPrep (fuel : Nat) (freshResolved : Nat → Option TokenPtr)
    (freshArgv : Nat → Option CString) (alTable : AliasTable Definition)
    (listing : Option (List CString)) (tokens : Block (Option CString)) :
    Outcome (List CString × Block (Option CString)) := do
  let fTokens ← resolveAliasShortcuts fuel freshResolved alTable listing tokens
  let fTokens ← pointedStrings fTokens
  let argv ← prep freshArgv fTokens
  return (fTokens, argv)

/-- The loop at the top, through the pointer. -/
def CompletionsPtr.insertListing (listing : List CString) :
    CompletionsPtr → Outcome CompletionsPtr
  | root t => do
      let t ← Ports.insertListing listing t
      return .root t
  | freed => if listing.any isOffered then .undefined else .ret .freed

/-- `"splash"` and `"alias"`, with which the loop compares `argv[0]`. -/
def cmdSplash : CString := .lit ['s', 'p', 'l', 'a', 's', 'h']

namespace Session

/-- Before the first prompt: the tables as they were made, in memory that held the
counts, and the trie with its first words. -/
def start (fuel staleAliases staleBuiltins : Nat) (completions : TrieNode) (pgrp : Int) :
    Outcome Session := do
  let biTable ← startBuiltins fuel staleBuiltins
  return ⟨atNewAt 50 staleAliases, biTable, .root completions, .init pgrp⟩

/-- The line becomes tokens, the tokens are resolved, and `argv` is built. -/
def prepare (fuel : Nat) (s : Session) (r : Round) : Outcome Prepared := do
  let (tokens, line) ← wshTokenize r.freshTokens r.line
  let tokens ← tokenStrings line tokens
  let (fTokens, argv) ←
    resolveAndPrep fuel r.freshResolved r.freshArgv s.alTable r.starListing tokens
  return ⟨tokens, fTokens, argv⟩

/-- `(*bi)(f_tokct, f_tokens)`.  `cd`, `ln` and `clear` have no part in the state; the
`exit` of the shell itself kills the jobs. -/
def callBuiltin (s : Session) (r : Round) (fTokens : List CString) :
    Builtin → Outcome DispatchEnd
  | .clear | .cd | .ln => .ret (.bottom s)
  | .jobs => do
      let (_, shell) ← s.shell.binJobs fTokens
      return .bottom { s with shell := shell }
  | .fg => do
      let (_, shell) ← s.shell.binFg fTokens r.kill r.wait
      return .bottom { s with shell := shell }
  | .bg => do
      let (_, shell) ← s.shell.binBg fTokens r.kill
      return .bottom { s with shell := shell }
  | .exit => do
      match ← s.shell.binExit 0 0 fTokens with
      | .refused _ => return .bottom s
      | .exits status c => return .exited status c

/-- What becomes of a line whose `argv[0]` is `arg0`. -/
def callCommand (fuel : Nat) (s : Session) (r : Round) (p : Prepared) (tokct : Nat)
    (arg0 : CString) : Outcome DispatchEnd :=
  if arg0 = cmdSplash then .ret (if r.splash ≠ 0 then .skip s else .bottom s)
  else if arg0 = cmdAlias then do
    let tokens ← p.tokens.contents
    let (_, alTable) ← processAlias fuel r.freshDefinition s.alTable tokct tokens false
    return .bottom { s with alTable := alTable }
  else do
    let shell ← s.shell.execute p.fTokens (ppstrFinal p.fTokens = some tokAmp) r.fork r.wait
    return .bottom { s with shell := shell }

/-- The `if (f_tokct > 0)` of the loop. -/
def dispatch (fuel : Nat) (s : Session) (r : Round) (p : Prepared) (tokct : Nat) :
    Outcome DispatchEnd :=
  match p.fTokens with
  | [] => .ret (.bottom s)
  | name :: _ => do
      match ← btGet fuel s.biTable name with
      | some bi => s.callBuiltin r p.fTokens bi
      | none =>
          match ← p.argv.read 0 with
          | none => .undefined
          | some arg0 => s.callCommand fuel r p tokct arg0

/-- From the dispatch to the next prompt. -/
def finish (r : Round) : DispatchEnd → Outcome RoundEnd
  | .exited status c => .ret (.exited status c)
  | .skip s => .ret (.next s)
  | .bottom s => do
      let shell ← s.shell.reap r.reports
      let completions ← removeListing r.listing s.completions
      return .next { s with shell := shell, completions := completions }

/-- One turn of the loop of `wsh_main`. -/
def round (fuel : Nat) (s : Session) (r : Round) : Outcome RoundEnd := do
  let completions ← s.completions.insertListing r.listing
  let s := { s with completions := completions }
  let p ← s.prepare fuel r
  let tokct ← ppstrlen p.tokens
  let _ ← ppstrlen p.argv
  let how ← s.dispatch fuel r p tokct
  finish r how

end Session

end WizardShell.Ports

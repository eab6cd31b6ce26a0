import WizardShell.Verified.Outcome
import WizardShell.Verified.Run
import WizardShell.Verified.Probing
import WizardShell.Verified.ProbingMap
import WizardShell.Ports.CString
import WizardShell.Ports.HashTable
import WizardShell.Ports.AliasTable
import WizardShell.Ports.Misc
import WizardShell.Ports.Redirection
import WizardShell.Ports.Prep
import WizardShell.Ports.ProcessAlias
import WizardShell.Ports.Resolve
import WizardShell.Ports.Completions
import WizardShell.Ports.CompletionRefresh
import WizardShell.Verified.CursorList
import WizardShell.Verified.Heap
import WizardShell.Ports.Jobs
import WizardShell.Ports.JobIteration
import WizardShell.Ports.History
import WizardShell.Ports.Tokenize
import WizardShell.Ports.LineHistory
import WizardShell.Ports.Shell
import WizardShell.Verified.Registry
import WizardShell.Ports.JobTracking
import WizardShell.Ports.CompletionOf
import WizardShell.Ports.StatusReports
import WizardShell.Ports.TableCount
import WizardShell.Ports.TableMemory
import WizardShell.Ports.Terminal
import WizardShell.Ports.TrieAccess
import WizardShell.Ports.EditorBounds
import WizardShell.Ports.EditorCursor
import WizardShell.Ports.EditorMemory
import WizardShell.Ports.EditorScreen
import WizardShell.Verified.Spaced
import WizardShell.Ports.FindCommand
import WizardShell.Ports.ForkFailure
import WizardShell.Ports.Expansion
import WizardShell.Ports.ExpansionRoom
import WizardShell.Ports.EditorQuiet
import WizardShell.Ports.EditorWalk
import WizardShell.Ports.ConfigFile
import WizardShell.Verified.TriePaths
import WizardShell.Ports.TrieShape
import WizardShell.Ports.TrieCounts
import WizardShell.Verified.Descriptors
import WizardShell.Ports.ChildSetup
import WizardShell.Verified.Ownership
import WizardShell.Ports.JobCleanup
import WizardShell.Ports.TableStart
import WizardShell.Ports.Builtins
import WizardShell.Ports.Session
import WizardShell.Ports.SessionView
import WizardShell.Ports.SessionRounds
import WizardShell.Ports.SessionRuns
import WizardShell.Ports.CommandLine
import WizardShell.Ports.Headless
import WizardShell.Ports.JobNumbers
import WizardShell.Ports.SessionEnd
import WizardShell.Ports.SessionMemory
import WizardShell.Ports.Startup
import WizardShell.Ports.EditorReturns
import WizardShell.Ports.Console
import WizardShell.Ports.EditorOverrun

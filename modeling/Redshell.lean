import Redshell.ParserFailure
import Redshell.LinkedQueue
import Redshell.AliasRounds
import Redshell.Jobs
import Redshell.JobsRun
import Redshell.JobsStep
import Redshell.Wiring
import Redshell.WiringRun
import Redshell.Pipelines
import Redshell.Redirections
import Redshell.Streams
import Redshell.Sequences
import Redshell.Queued
import Redshell.Rejected
import Redshell.Owned
import Redshell.Quoting
import Redshell.BlanksRun
import Redshell.Released
import Redshell.Foreground
import Redshell.Background
import Redshell.WriteEnds
import Redshell.Starved
import Redshell.Started
import Redshell.Children
import Redshell.Interleaving
import Redshell.Interference
import Redshell.Finished
import Redshell.Reaped
import Redshell.Accesses
import Redshell.Leaked
import Redshell.Signals
import Redshell.Zombies
import Redshell.AliasWalk
import Redshell.ParserActions
import Redshell.PointerUses
import Redshell.ErrorReport
import Redshell.AliasText
import Redshell.ParserReads
import Redshell.Truncation
import Redshell.AliasMemoryAgree
import Redshell.LinkedTableWalk
import Redshell.Replay
import Redshell.Alike
import Redshell.Written
import Redshell.Saved
import Redshell.ExpandMemory
import Redshell.TableGrowth
import Redshell.Scripts
import Redshell.Joined
import Redshell.CallLog
import Redshell.AliasAgain
import Redshell.ParserWrites
import Redshell.Target

import UnixProgramming.Foundation.Memory
import UnixProgramming.Foundation.Transition
import UnixProgramming.Foundation.Stateful
import UnixProgramming.Foundation.Descriptor
import UnixProgramming.Foundation.InPlace
import UnixProgramming.Foundation.Getopt
import UnixProgramming.Foundation.Text
import UnixProgramming.Foundation.OrderedMap
import UnixProgramming.Foundation.Intervals
import UnixProgramming.Foundation.Printf
import UnixProgramming.Foundation.Interaction
import UnixProgramming.Sdb.Data
import UnixProgramming.Sdb.Debuggee
import UnixProgramming.Sdb.Control
import UnixProgramming.Sdb.Start
import UnixProgramming.Sdb.Command
import UnixProgramming.Sdb.Rule
import UnixProgramming.Sdb.Request
import UnixProgramming.Sdb.Outcome
import UnixProgramming.Sdb.Step
import UnixProgramming.Sdb.Code
import UnixProgramming.Sdb.Sample
import UnixProgramming.Sdb.Patching
import UnixProgramming.Sdb.Simulation
import UnixProgramming.Sdb.SingleStep
import UnixProgramming.Sdb.Lifetime
import UnixProgramming.Sdb.Guard
import UnixProgramming.Sdb.Hit
import UnixProgramming.Sdb.Resumption
import UnixProgramming.Sdb.Line
import UnixProgramming.Sdb.Split
import UnixProgramming.Sdb.Fuel
import UnixProgramming.Sdb.Sweep
import UnixProgramming.Sdb.Tiling
import UnixProgramming.Sdb.Survival
import UnixProgramming.Sdb.Input
import UnixProgramming.Sdb.Output
import UnixProgramming.Sdb.Dump
import UnixProgramming.Sdb.Register
import UnixProgramming.Sdb.Script
import UnixProgramming.Sdb.Elf
import UnixProgramming.Sdb.Maps
import UnixProgramming.Sdb.Range
import UnixProgramming.Sdb.Vmmap
import UnixProgramming.Sdb.Listing
import UnixProgramming.Sdb.Coverage
import UnixProgramming.Sdb.Execlp
import UnixProgramming.Sdb.Traced
import UnixProgramming.Sdb.Signals
import UnixProgramming.Sdb.History
import UnixProgramming.Sdb.Typed
import UnixProgramming.Sdb.Main
import UnixProgramming.Sdb.Numbering
import UnixProgramming.Sdb.Visits
import UnixProgramming.Sdb.Transcript
import UnixProgramming.Libmini.Kernel
import UnixProgramming.Libmini.Machine
import UnixProgramming.Libmini.Jump
import UnixProgramming.Libmini.Mask
import UnixProgramming.Libmini.Signal
import UnixProgramming.Libmini.Disposition
import UnixProgramming.Libmini.Sigset
import UnixProgramming.Libmini.Syscall
import UnixProgramming.Libmini.Perror
import UnixProgramming.Libmini.Stub
import UnixProgramming.Libmini.Blocking
import UnixProgramming.Libmini.Nesting
import UnixProgramming.Logger.Monitor
import UnixProgramming.Logger.Launcher
import UnixProgramming.Logger.Wrapper
import UnixProgramming.Logger.Interposition
import UnixProgramming.Logger.Line
import UnixProgramming.Logger.Numeral
import UnixProgramming.Logger.Buffer
import UnixProgramming.Logger.Path
import UnixProgramming.Logger.Program
import UnixProgramming.Logger.Reading
import UnixProgramming.Logger.Arrival
import UnixProgramming.Lsof.Table
import UnixProgramming.Lsof.Scan
import UnixProgramming.Lsof.Race
import UnixProgramming.Lsof.Mem
import UnixProgramming.Lsof.Fdinfo
import UnixProgramming.Lsof.Kind
import UnixProgramming.Lsof.Owner
import UnixProgramming.Lsof.Main
import UnixProgramming.Lsof.Columns
import UnixProgramming.Sdb.Paging
import UnixProgramming.Libmini.Restorer
import UnixProgramming.Sdb.Steering
import UnixProgramming.Libmini.Startup
import UnixProgramming.Libmini.Strings

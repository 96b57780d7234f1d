import Zeronix.Fs.Moves
import Zeronix.Fs.Names
import Zeronix.Fs.PathMap
import Zeronix.Fs.Rename
import Zeronix.Syscall.Appending
import Zeronix.Syscall.FdMap
import Zeronix.Syscall.Opening
import Zeronix.Syscall.RoundTrip
import Zeronix.Syscall.StackRuns
import Zeronix.Syscall.UserPointers
import Zeronix.Mem.DirectMap
import Zeronix.Mem.HeapGrowth
import Zeronix.Task.ElfLoading
import Zeronix.Task.Registers
import Zeronix.Task.SpawnFailure
import Zeronix.Task.UserMemory
import Zeronix.Task.Waiting
import Zeronix.Task.WriteExec
import Zeronix.ShellJobs
import Zeronix.User.CommandFailures
import Zeronix.User.ElfProfiles
import Zeronix.ListIteration
import Zeronix.Lock.Guards
import Zeronix.Stdio
import Zeronix.User.EchoCat
import Zeronix.Boot.Start
import Zeronix.Trap.Idt
import Zeronix.Trap.Irq
import Zeronix.User.Execution

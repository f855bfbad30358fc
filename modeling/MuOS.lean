import MuOS.Mm.Searches
import MuOS.Mm.FrameRuns
import MuOS.Proc.Counting
import MuOS.Proc.Conservation
import MuOS.Proc.Eager
import MuOS.Fs.Contents
import MuOS.Kernel.Timers
import MuOS.Kernel.Segments
import MuOS.Kernel.Lifetimes
import MuOS.Kernel.Ends
import MuOS.Kernel.Sleepers
import MuOS.Kernel.Vectors
import MuOS.Kernel.Waiting
import MuOS.Kernel.Images
import MuOS.Kernel.Breaks
import MuOS.User.ElfChecks
import MuOS.Kernel.Execve
import MuOS.Syscall.Placement
import MuOS.Net.Histories
import MuOS.Net.Checksums
import MuOS.Kernel.Rtc
import MuOS.Fs.Sectors
import MuOS.Fs.FatLayout
import MuOS.Fs.Holes
import MuOS.Fs.Aliases
import MuOS.Proc.Unwinding
import MuOS.Proc.Stores
import MuOS.Syscall.Seeks
import MuOS.Syscall.Selects
import MuOS.Fs.Subtrees
import MuOS.Fs.Orphans
import MuOS.Syscall.Stats
import MuOS.Syscall.Shadows

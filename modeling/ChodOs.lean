import ChodOs.Ipc.Conservation
import ChodOs.Ipc.Isolation
import ChodOs.Ipc.Delivery
import ChodOs.Policy.Channels
import ChodOs.Policy.Decay
import ChodOs.Policy.Counting
import ChodOs.Policy.Dead
import ChodOs.Policy.Off
import ChodOs.Policy.Cooldown
import ChodOs.Policy.Ladders
import ChodOs.Policy.Learning
import ChodOs.Policy.Keys
import ChodOs.Policy.Affinity
import ChodOs.Policy.Priorities
import ChodOs.Sched.States
import ChodOs.Sched.Sleep
import ChodOs.Interrupt
import ChodOs.Sched.Floor
import ChodOs.Sched.Cfs
import ChodOs.Policy.Ticks
import ChodOs.Ipc.Window
import ChodOs.Memory.FreeSet
import ChodOs.Paging.Spaces
import ChodOs.Paging.Residue
import ChodOs.User.Masks
import ChodOs.User.Dispatch
import ChodOs.User.Entry
import ChodOs.User.Cursors
import ChodOs.User.Dynlink
import ChodOs.User.Heap
import ChodOs.User.Mprotect
import ChodOs.User.Sleepers
import ChodOs.User.Exits
import ChodOs.User.Tls
import ChodOs.Fs.Tree
import ChodOs.User.Modules
import ChodOs.Fs.Links
import ChodOs.Fs.Deleted
import ChodOs.Fs.Stat
import ChodOs.Fs.Dirents
import ChodOs.Fs.At
import ChodOs.Fs.Epoll
import ChodOs.Fs.Contents
import ChodOs.Sched.Select
import ChodOs.User.Linking
import ChodOs.Net.Udp
import ChodOs.Input
import ChodOs.Virtio.Receive
import ChodOs.Virtio.Complete
import ChodOs.User.InitOrder
import ChodOs.Policy.Hot
import ChodOs.Policy.Windows
import ChodOs.Policy.Shares
import ChodOs.User.Freed
import ChodOs.User.Revoke
import ChodOs.User.Anonymous
import ChodOs.User.LoadSo
import ChodOs.User.Targets
import ChodOs.Lib.Cyclic
import ChodOs.Fs.Pipe
import ChodOs.Fs.Select
import ChodOs.User.Futex
import ChodOs.User.Wait
import ChodOs.User.Yield
import ChodOs.User.Creation
import ChodOs.User.Accessors
import ChodOs.User.Symbols
import ChodOs.User.Repeats
import ChodOs.User.Copies
import ChodOs.Net.Checksum
import ChodOs.Net.Frame
import ChodOs.Net.ArpCache
import ChodOs.Tracer
import ChodOs.Policy.Evictions
import ChodOs.Fs.Posix
import ChodOs.Fs.Created
import ChodOs.Gui.Term
import ChodOs.Gui.Pointer
import ChodOs.Trap.Switch
import ChodOs.Trap.Demand
import ChodOs.Shell.Keyboard
import ChodOs.Shell.Command
import ChodOs.Net.Hosts
import ChodOs.Gui.Seen

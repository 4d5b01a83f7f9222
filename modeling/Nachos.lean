import Nachos.Framework.Blocks
import Nachos.Proof.Lib.IndexSet
import Nachos.Proof.Lib.Sequence
import Nachos.Proof.Machine.DiskHead
import Nachos.Spec.FileMap
import Nachos.Proof.Userprog.Tlb
import Nachos.Proof.Userprog.LinearMemory
import Nachos.Proof.Userprog.InvertedMemory
import Nachos.Proof.Userprog.InvertedProcess
import Nachos.Proof.Userprog.Core
import Nachos.Framework.InvertedTable
import Nachos.Impl.Userprog.Process
import Nachos.Proof.Lib.Sysdep
import Nachos.Proof.Lib.Bitmap
import Nachos.Proof.Lib.Hash
import Nachos.Proof.Threads.Scheduler
import Nachos.Proof.Threads.Semaphore
import Nachos.Proof.Threads.ReaderWriter
import Nachos.Proof.Filesys.OpenFile
import Nachos.Proof.Filesys.Directory
import Nachos.Proof.Filesys.Disk
import Nachos.Proof.Filesys.FileSystem
import Nachos.Proof.Filesys.Chunks
import Nachos.Framework.Outcome
import Nachos.Framework.StableQueue
import Nachos.Impl.Machine.Device
import Nachos.Impl.Machine.Interrupt
import Nachos.Impl.Machine.Machine
import Nachos.Impl.Machine.Mipssim
import Nachos.Impl.Machine.Network
import Nachos.Impl.Network.Post
import Nachos.Impl.Threads.Driver
import Nachos.Impl.Threads.ProducerConsumer
import Nachos.Impl.Threads.Routine
import Nachos.Impl.Userprog.AddrSpace
import Nachos.Impl.Userprog.Context
import Nachos.Proof.Machine.Alu
import Nachos.Proof.Machine.DelayedLoad
import Nachos.Proof.Machine.DelaySlot
import Nachos.Proof.Machine.Execute
import Nachos.Proof.Machine.Interrupt
import Nachos.Proof.Machine.Mult
import Nachos.Proof.Machine.Restart
import Nachos.Proof.Machine.Refill
import Nachos.Proof.Machine.Unaligned
import Nachos.Proof.Network.Post
import Nachos.Proof.Threads.Awake
import Nachos.Proof.Threads.Barrier
import Nachos.Proof.Threads.Condition
import Nachos.Proof.Threads.ConsoleInput
import Nachos.Proof.Threads.Destroy
import Nachos.Proof.Threads.Driver
import Nachos.Proof.Threads.Level
import Nachos.Proof.Threads.Priority
import Nachos.Proof.Threads.ProducerConsumer
import Nachos.Proof.Threads.Suspend
import Nachos.Proof.Threads.SynchList
import Nachos.Proof.Userprog.Context
import Nachos.Proof.Userprog.Replacement
import Nachos.Proof.Userprog.RoundTrip
import Nachos.Proof.Threads.Fork
import Nachos.Proof.Threads.Quantum
import Nachos.Proof.Userprog.Frames
import Nachos.Proof.Userprog.Victims
import Nachos.Proof.Userprog.Userland
import Nachos.Proof.Threads.Waiting
import Nachos.Proof.Threads.Switch
import Nachos.Proof.Threads.Bypass
import Nachos.Proof.Machine.Timer
import Nachos.Proof.Threads.Clock
import Nachos.Proof.Userprog.Stub
import Nachos.Proof.Filesys.Listing
import Nachos.Proof.Threads.Mutex
import Nachos.Proof.Threads.Halt
import Nachos.Proof.Filesys.Capacity
import Nachos.Proof.Filesys.Commands
import Nachos.Proof.Threads.ConsoleTest

import NachosNet.Basis.Run
import NachosNet.Basis.Bytes
import NachosNet.Basis.Text
import NachosNet.Basis.Arrange
import NachosNet.Basis.Queues
import NachosNet.Basis.OrdMap
import NachosNet.Network.Packet
import NachosNet.Network.Post
import NachosNet.Network.Entry
import NachosNet.Network.Sent
import NachosNet.Network.Reassembly
import NachosNet.Threads.Synch
import NachosNet.Network.Card
import NachosNet.Network.Switch
import NachosNet.Network.Lan
import NachosNet.Threads.Sockets
import NachosNet.Threads.Process
import NachosNet.Threads.Family
import NachosNet.Threads.Join
import NachosNet.Lib.Bitmap
import NachosNet.Machine.Translate
import NachosNet.Userprog.AddrSpace
import NachosNet.Userprog.UserString
import NachosNet.Userprog.Message
import NachosNet.Basis.Writes
import NachosNet.Userprog.Loader
import NachosNet.Machine.Mipssim
import NachosNet.Threads.ContextSwitch
import NachosNet.Threads.Scheduler
import NachosNet.Threads.SynchList
import NachosNet.Machine.Devices
import NachosNet.Filesys.FileTable
import NachosNet.Userprog.Buffers
import NachosNet.Basis.CString
import NachosNet.Basis.Layout
import NachosNet.Filesys.FileSystem
import NachosNet.Filesys.OpenFiles
import NachosNet.Network.Ethernet
import NachosNet.Threads.Parents
import NachosNet.Threads.STable
import NachosNet.Userprog.StartProcess
import NachosNet.Basis.Ranges
import NachosNet.Coff2noff.Convert
import NachosNet.Basis.Checked
import NachosNet.Userprog.Bounds
import NachosNet.Basis.Memory
import NachosNet.Basis.Owners
import NachosNet.Filesys.Allocate
import NachosNet.Filesys.Consistency
import NachosNet.Network.Stored
import NachosNet.Threads.SocketCalls
import NachosNet.Userprog.Datagrams
import NachosNet.Machine.Interpreter
import NachosNet.Threads.Driver
import NachosNet.Userprog.ReadNum
import NachosNet.Basis.DoubleWord
import NachosNet.Basis.Heap
import NachosNet.Basis.WordBytes
import NachosNet.Coff2noff.Bss
import NachosNet.Filesys.FlatFile
import NachosNet.Filesys.Offsets
import NachosNet.Machine.Mult
import NachosNet.Machine.Unaligned
import NachosNet.Userprog.CopyIn
import NachosNet.Userprog.PrintNum
import NachosNet.Userprog.SemHandlers
import NachosNet.Basis.Linked
import NachosNet.Lib.BitSet
import NachosNet.Lib.FiniteMap
import NachosNet.Lib.Sequences
import NachosNet.Machine.Alu
import NachosNet.Network.FragmentDict
import NachosNet.Userprog.Translators
import NachosNet.Basis.Slots
import NachosNet.Filesys.Files
import NachosNet.Filesys.Transfer
import NachosNet.Machine.Isa
import NachosNet.Machine.Programs
import NachosNet.Network.Internet
import NachosNet.Basis.Stutter
import NachosNet.Threads.Mesa
import NachosNet.Basis.Components
import NachosNet.Threads.Switch
import NachosNet.Userprog.Timesharing
import NachosNet.Threads.TimeSlice

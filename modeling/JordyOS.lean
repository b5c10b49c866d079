import JordyOS.Machine.Run
import JordyOS.Machine.Serial
import JordyOS.Machine.Tiling
import JordyOS.Machine.Memory
import JordyOS.Net.Packet
import JordyOS.Transport.Connection
import JordyOS.Transport.Sender
import JordyOS.Transport.Queue
import JordyOS.Transport.Endpoint
import JordyOS.Transport.Refinement
import JordyOS.Transport.Invariant
import JordyOS.Transport.Outstanding
import JordyOS.Transport.Segment
import JordyOS.Transport.Upload
import JordyOS.Transport.Completion
import JordyOS.Transport.FlowControl
import JordyOS.Transport.Download
import JordyOS.Machine.Program
import JordyOS.Bpf.Vm
import JordyOS.Bpf.Confinement
import JordyOS.Bpf.Instruction
import JordyOS.Bpf.Sandbox
import JordyOS.Bpf.Validation
import JordyOS.Machine.Fill
import JordyOS.Policy.Table
import JordyOS.Policy.Adapter
import JordyOS.Net.Prefix
import JordyOS.Policy.Verdict
import JordyOS.Machine.Text
import JordyOS.Machine.Paging
import JordyOS.Isolation.Image
import JordyOS.Isolation.Process
import JordyOS.Isolation.Tables
import JordyOS.Isolation.Separation
import JordyOS.Transport.Finality
import JordyOS.Transport.ReceiveWindow
import JordyOS.Transport.Reception
import JordyOS.Transport.Timeline
import JordyOS.Transport.Pacing
import JordyOS.Transport.Retransmission
import JordyOS.Transport.RoundTrip
import JordyOS.Transport.FastRetransmit
import JordyOS.Machine.EndAround
import JordyOS.Net.Checksum
import JordyOS.Net.Decode
import JordyOS.Net.Receive
import JordyOS.Machine.Slots
import JordyOS.Files.FileSystem
import JordyOS.Files.Store
import JordyOS.Machine.FirstFit
import JordyOS.Machine.Words
import JordyOS.Ape.Heap
import JordyOS.Ape.Layout
import JordyOS.Ape.Allocator
import JordyOS.Ape.Session
import JordyOS.Machine.Ebpf
import JordyOS.Bpf.Arithmetic
import JordyOS.Bpf.Semantics
import JordyOS.Bpf.Translation
import JordyOS.Bpf.LongestPrefix
import JordyOS.Bpf.Access
import JordyOS.Policy.Partition
import JordyOS.Machine.Ring
import JordyOS.Net.Rtl8139
import JordyOS.Transport.Frame
import JordyOS.Machine.Buffer
import JordyOS.Transport.Bounds
import JordyOS.Transport.Native
import JordyOS.Transport.TimeWait
import JordyOS.Bpf.Keys
import JordyOS.Policy.Embedded
import JordyOS.Policy.Probe
import JordyOS.Policy.Leak
import JordyOS.Machine.Simulation
import JordyOS.Policy.BoundedList
import JordyOS.Machine.Decimal
import JordyOS.Machine.Scan
import JordyOS.Net.Cidr
import JordyOS.Net.Integrity
import JordyOS.Net.Corruption
import JordyOS.Isolation.UserRange
import JordyOS.Isolation.Loading
import JordyOS.Isolation.Startup
import JordyOS.Files.Listing
import JordyOS.Files.Bounded
import JordyOS.Machine.Tokens
import JordyOS.Policy.Command
import JordyOS.Policy.Grammar
import JordyOS.Policy.Parsing
import JordyOS.Policy.Answers
import JordyOS.Net.Number
import JordyOS.Policy.Status
import JordyOS.Lab.Paging
import JordyOS.Lab.Scheduling
import JordyOS.Lab.WorkConservation
import JordyOS.Programs.Snake
import JordyOS.Programs.SnakeRules
import JordyOS.Boot.Loader
import JordyOS.Machine.Cursor
import JordyOS.Ape.Stream
import JordyOS.Ape.Vectors
import JordyOS.Ape.Opening
import JordyOS.Ape.Persistence
import JordyOS.Ape.Expansion
import JordyOS.Ape.Formatting
import JordyOS.Gui.Drawing
import JordyOS.Gui.Console
import JordyOS.Gui.Calls
import JordyOS.Gui.Clipping
import JordyOS.Gui.LineEditing
import JordyOS.Bpf.Embedding
import JordyOS.Bpf.Relocation
import JordyOS.Isolation.Services
import JordyOS.Isolation.Checked
import JordyOS.Isolation.Drawing
import JordyOS.Machine.FloatingPoint
import JordyOS.Machine.Processor
import JordyOS.Machine.Rotation
import JordyOS.Kernel.ContextSwitch
import JordyOS.Kernel.Tasks
import JordyOS.Kernel.Handover
import JordyOS.Kernel.Cooperation
import JordyOS.Kernel.Shell
import JordyOS.Machine.Interrupt
import JordyOS.Isolation.Interrupts
import JordyOS.Isolation.Crossing
import JordyOS.Isolation.Lifetime
import JordyOS.Machine.AddressSpace
import JordyOS.Boot.IdentityMap
import JordyOS.Isolation.Confinement
import JordyOS.Machine.Eviction
import JordyOS.Lab.Policies

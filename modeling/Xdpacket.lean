import Xdpacket.Lib.Runs
import Xdpacket.Lib.Lockstep
import Xdpacket.Lib.Heap
import Xdpacket.Lib.Registry
import Xdpacket.Lib.Ledger
import Xdpacket.Lib.Cursor
import Xdpacket.Lib.Copying
import Xdpacket.Lib.Tables
import Xdpacket.Lib.OnesComplement
import Xdpacket.Lib.Patterns
import Xdpacket.Model.Memory
import Xdpacket.Model.Operations
import Xdpacket.Model.World
import Xdpacket.Model.Objects
import Xdpacket.Model.Checksum
import Xdpacket.Model.Rules
import Xdpacket.Model.Process
import Xdpacket.Model.Yaml
import Xdpacket.Model.Parse
import Xdpacket.Model.Program
import Xdpacket.Model.Value
import Xdpacket.Model.Stream
import Xdpacket.Model.Shutdown
import Xdpacket.Model.Server
import Xdpacket.Proofs.Access
import Xdpacket.Proofs.ChecksumBounds
import Xdpacket.Proofs.ChecksumVerifies
import Xdpacket.Proofs.FirstMatch
import Xdpacket.Proofs.Framing
import Xdpacket.Proofs.Holders
import Xdpacket.Proofs.Consistent
import Xdpacket.Proofs.Transitions
import Xdpacket.Proofs.Publish
import Xdpacket.Proofs.Contracts
import Xdpacket.Proofs.Beside
import Xdpacket.Proofs.Lifecycles
import Xdpacket.Proofs.Emitters
import Xdpacket.Proofs.Commands
import Xdpacket.Proofs.Documents
import Xdpacket.Proofs.Writes
import Xdpacket.Proofs.Packets
import Xdpacket.Proofs.Histories
import Xdpacket.Proofs.NoDangling
import Xdpacket.Proofs.Listings
import Xdpacket.Proofs.AllOrNothing
import Xdpacket.Proofs.NoLeaks
import Xdpacket.Proofs.StateBuffers
import Xdpacket.Proofs.Shapes
import Xdpacket.Proofs.Malformed
import Xdpacket.Proofs.Counting
import Xdpacket.Proofs.Unnoticed
import Xdpacket.Proofs.WellShaped
import Xdpacket.Proofs.Extents
import Xdpacket.Proofs.Delivery
import Xdpacket.Proofs.Cells
import Xdpacket.Proofs.OpSemantics
import Xdpacket.Proofs.Swap
import Xdpacket.Proofs.OpCalls
import Xdpacket.Proofs.Replies
import Xdpacket.Proofs.Numerals
import Xdpacket.Proofs.Policy
import Xdpacket.Proofs.Compliance
import Xdpacket.Proofs.Passing
import Xdpacket.Proofs.Calls
import Xdpacket.Proofs.Attached
import Xdpacket.Proofs.Liveness
import Xdpacket.Proofs.Made
import Xdpacket.Proofs.Configs
import Xdpacket.Proofs.Printed
import Xdpacket.Proofs.Replay
import Xdpacket.Proofs.WriteMatch
import Xdpacket.Proofs.EndOfStream
import Xdpacket.Proofs.Overlong
import Xdpacket.Proofs.ChecksumFrame
import Xdpacket.Proofs.Endianness
import Xdpacket.Proofs.OnesSum
import Xdpacket.Proofs.Summed
import Xdpacket.Proofs.InputBuffer
import Xdpacket.Proofs.MachineAddresses
import Xdpacket.Proofs.Literals
import Xdpacket.Proofs.Recognisers
import Xdpacket.Proofs.Integers
import Xdpacket.Proofs.Rendering
import Xdpacket.Proofs.Ipv6
import Xdpacket.Proofs.Addresses
import Xdpacket.Proofs.Grammar
import Xdpacket.Proofs.Sockets
import Xdpacket.Proofs.Teardown
import Xdpacket.Proofs.Descriptors
import Xdpacket.Proofs.Server
import Xdpacket.Proofs.Shutdown
import Xdpacket.Proofs.Clients
import Xdpacket.Proofs.Transfers
import Xdpacket.Proofs.Switching
import Xdpacket.Proofs.Forwarding
import Xdpacket.Proofs.Sparing
import Xdpacket.Proofs.Reshaping
import Xdpacket.Proofs.Reconfiguring
import Xdpacket.Proofs.Reading
import Xdpacket.Proofs.Resolving
import Xdpacket.Proofs.Compiling
import Xdpacket.Proofs.Linking

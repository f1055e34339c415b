import MessagePack.Item.Loose
import MessagePack.Packer.Growing
import MessagePack.Packer.Streaming
import MessagePack.Proofs.Appending
import MessagePack.Proofs.Asking
import MessagePack.Proofs.BigEndian
import MessagePack.Proofs.Canonical
import MessagePack.Proofs.Conserving
import MessagePack.Proofs.Decoding
import MessagePack.Proofs.Draining
import MessagePack.Proofs.Extending
import MessagePack.Proofs.Factoring
import MessagePack.Proofs.Filling
import MessagePack.Proofs.Grammar
import MessagePack.Proofs.ItemReading
import MessagePack.Proofs.ItemWriting
import MessagePack.Proofs.Latching
import MessagePack.Proofs.Live
import MessagePack.Proofs.Overflowing
import MessagePack.Proofs.PackCases
import MessagePack.Proofs.Queueing
import MessagePack.Proofs.Recognition
import MessagePack.Proofs.RefilledCalls
import MessagePack.Proofs.Refilling
import MessagePack.Proofs.RoundTrip
import MessagePack.Proofs.Scan
import MessagePack.Proofs.Shortest
import MessagePack.Proofs.Skipping
import MessagePack.Proofs.StreamPacking
import MessagePack.Proofs.Traversing
import MessagePack.Proofs.Widening
import MessagePack.Script
import MessagePack.Session.Fields
import MessagePack.Session.Streams
import MessagePack.Session.Unpacking
import MessagePack.Unpacker.Streaming
import MessagePack.Unpacker.Unchanged
import MessagePack.Proofs.Fitting
import MessagePack.Proofs.Chunking
import MessagePack.Proofs.Reordering
import MessagePack.Proofs.ReorderedSessions
import MessagePack.Proofs.Bounding
import MessagePack.Proofs.Lockstep
import MessagePack.Proofs.Mirroring
import MessagePack.Proofs.Manners
import MessagePack.Proofs.Arriving
import MessagePack.Proofs.Demanding
import MessagePack.Proofs.OnDemand
import MessagePack.Proofs.Foreseeing
import MessagePack.Proofs.UnpackSizes
import MessagePack.Proofs.ReadSizes
import MessagePack.Proofs.PackSizes
import MessagePack.Proofs.BufferSizes
import MessagePack.Proofs.Delivering
import MessagePack.Proofs.EndToEnd
import MessagePack.Proofs.Answering
import MessagePack.Proofs.Inscribing
import MessagePack.Proofs.Questions
import MessagePack.Proofs.Renewing
import MessagePack.Proofs.RenewedSessions
import MessagePack.Proofs.Giving
import MessagePack.Proofs.Arguments
import MessagePack.Proofs.Refusing
import MessagePack.Proofs.Numbers
import MessagePack.Proofs.Nearest
import MessagePack.Proofs.Equality
import MessagePack.Proofs.Rounds
import MessagePack.Proofs.Borrowing
import MessagePack.Proofs.Fields
import MessagePack.Proofs.Pulling
import MessagePack.Proofs.Doubling
import MessagePack.Proofs.Limiting

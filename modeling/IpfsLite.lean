import IpfsLite.Codec.CborBigInt
import IpfsLite.Codec.CborCanonical
import IpfsLite.Codec.CborConfinement
import IpfsLite.Codec.CborFailedPaths
import IpfsLite.Codec.CborFailedWrite
import IpfsLite.Codec.CborIntegers
import IpfsLite.Codec.CborListPaths
import IpfsLite.Codec.CborMapValues
import IpfsLite.Codec.CborRoundTrip
import IpfsLite.Codec.CborSkipping
import IpfsLite.Codec.CborTargets
import IpfsLite.Codec.CborTotality
import IpfsLite.Codec.RleSizeLimit
import IpfsLite.Common.CborChunks
import IpfsLite.Common.CborExtent
import IpfsLite.Common.MpUtils
import IpfsLite.Common.Streamable
import IpfsLite.Crypto.Blake2
import IpfsLite.Graphsync.AcceptedMessages
import IpfsLite.Graphsync.Backpressure
import IpfsLite.Graphsync.BlockDelivery
import IpfsLite.Graphsync.Cleanup
import IpfsLite.Graphsync.ClosedContext
import IpfsLite.Graphsync.ContentAnswers
import IpfsLite.Graphsync.ContentDelivery
import IpfsLite.Graphsync.DispatchOrder
import IpfsLite.Graphsync.Extension
import IpfsLite.Graphsync.FailedRequest
import IpfsLite.Graphsync.FinalWord
import IpfsLite.Graphsync.MessageReader
import IpfsLite.Graphsync.PeerIsolation
import IpfsLite.Graphsync.ReceivedMessages
import IpfsLite.Graphsync.ResponderAgreement
import IpfsLite.Graphsync.ResponseStream
import IpfsLite.Graphsync.SelfDeadlock
import IpfsLite.Graphsync.SharedIds
import IpfsLite.Graphsync.SizeLimit
import IpfsLite.Graphsync.Subscriptions
import IpfsLite.Graphsync.TableAgreement
import IpfsLite.Graphsync.WireRoundTrip
import IpfsLite.Ipfs.Datastore
import IpfsLite.Ipld.NodeSize
import IpfsLite.Merkledag.Graph
import IpfsLite.Merkledag.NodeStore
import IpfsLite.Primitives.CidReading

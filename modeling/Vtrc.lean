import Vtrc.Lib.Machine
import Vtrc.Lib.Framing
import Vtrc.Lib.StreamCipher
import Vtrc.SizePack
import Vtrc.SizeCodec
import Vtrc.DataQueue
import Vtrc.Hash
import Vtrc.Transformer
import Vtrc.Erseefor
import Vtrc.Lib.Codec
import Vtrc.Messages
import Vtrc.Wire
import Vtrc.Lowlevel
import Vtrc.LocalCall
import Vtrc.Server.Accounting
import Vtrc.Endpoint
import Vtrc.Settle
import Vtrc.Server.Handshake
import Vtrc.Server.Access
import Vtrc.Server.Rejection
import Vtrc.Client.Handshake
import Vtrc.Client.Delivery
import Vtrc.Direction
import Vtrc.Session
import Vtrc.FrameParser
import Vtrc.Server.Quota
import Vtrc.Limits
import Vtrc.Unbroken
import Vtrc.Dispatch
import Vtrc.Transport
import Vtrc.CondQueues
import Vtrc.Slots
import Vtrc.Failure
import Vtrc.RpcChannel
import Vtrc.Server.Channels
import Vtrc.Insertion
import Vtrc.Replies
import Vtrc.Lib.Chain
import Vtrc.Lib.Links
import Vtrc.CallStack
import Vtrc.Errors
import Vtrc.Decoding
import Vtrc.ChannelErrors
import Vtrc.FireAndForget
import Vtrc.Client.InitErrors
import Vtrc.Client.Selection
import Vtrc.RawCalls
import Vtrc.Lib.Crc
import Vtrc.Checksum
import Vtrc.Popping
import Vtrc.Serializer
import Vtrc.Reads
import Vtrc.Server.Broadcast
import Vtrc.Server.Clients
import Vtrc.Server.Services
import Vtrc.Client.Handlers
import Vtrc.Details.NodeList
import Vtrc.Details.Refinement
import Vtrc.Details.Sizes
import Vtrc.Observer.Base
import Vtrc.Observer.Emits
import Vtrc.Observer.Reentry
import Vtrc.Lib.Words
import Vtrc.Lib.BlockHash
import Vtrc.Sha2.Context
import Vtrc.Sha2.Standard
import Vtrc.Sha2.Digest
import Vtrc.Sha2.Hashes
import Vtrc.WriteErrors
import Vtrc.Stack
import Vtrc.Peers
import Vtrc.Chacha
import Vtrc.Observer.OnHeap
import Vtrc.Observer.Handles

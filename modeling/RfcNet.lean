import RfcNet.Lib.Comparator
import RfcNet.Lib.Script
import RfcNet.IndexRefinement
import RfcNet.Integrity
import RfcNet.Visibility
import RfcNet.Answerable
import RfcNet.Phantom
import RfcNet.Requesting
import RfcNet.Exchange
import RfcNet.Agreement
import RfcNet.Crypto.Handshake
import RfcNet.Crypto.Honest
import RfcNet.Crypto.Nonces
import RfcNet.Crypto.Ideal
import RfcNet.Crypto.Tampering
import RfcNet.Crypto.Confirmation
import RfcNet.Crypto.Listener
import RfcNet.Lib.Framing
import RfcNet.Messages.Framing
import RfcNet.Messages.Get
import RfcNet.Peer
import RfcNet.RFCManager
import RfcNet.Visiting
import RfcNet.Lib.Parting
import RfcNet.Visit
import RfcNet.Retrieval
import RfcNet.Farewell
import RfcNet.Advertising
import RfcNet.Teardown
import RfcNet.Transfer
import RfcNet.Lib.Locks
import RfcNet.Locking
import RfcNet.Lib.Matching
import RfcNet.Departed
import RfcNet.Crypto.Pipe
import RfcNet.Buffers
import RfcNet.Retries
import RfcNet.Decoding
import RfcNet.Messages.Abstract
import RfcNet.Messages.Written
import RfcNet.Sizing
import RfcNet.Messages.Reuse
import RfcNet.Answering
import RfcNet.Holdings
import RfcNet.Registration
import RfcNet.Handles
import RfcNet.Lib.Lines
import RfcNet.Prompt
import RfcNet.Crypto.Download
import RfcNet.Crypto.Session
import RfcNet.Network.Soundness
import RfcNet.Network.Agreement
import RfcNet.Network.Replies
import RfcNet.Network.Enrolment
import RfcNet.Network.Fetching
import RfcNet.Reaping

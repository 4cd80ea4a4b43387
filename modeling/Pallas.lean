import Pallas.Lib.Outcome
import Pallas.Lib.Machine
import Pallas.Lib.FinMap
import Pallas.Lib.Builds
import Pallas.Lib.Cbor
import Pallas.Lib.CborItem
import Pallas.Lib.CborNest
import Pallas.Lib.CborSkip
import Pallas.Lib.CborWrite
import Pallas.Lib.BigEndian
import Pallas.Lib.Reader
import Pallas.Lib.Tally
import Pallas.Lib.Spending
import Pallas.Lib.Runs
import Pallas.Lib.Filing
import Pallas.Lib.Entries
import Pallas.Lib.Json
import Pallas.Lib.Base128
import Pallas.Lib.Bits
import Pallas.Lib.Proc
import Pallas.Lib.Slices
import Pallas.Lib.Iterators
import Pallas.Immutable.Readers
import Pallas.Immutable.Traces
import Pallas.Immutable.Corruption
import Pallas.Immutable.Consistent
import Pallas.Immutable.Tip
import Pallas.Immutable.FromPoint
import Pallas.Immutable.ChunkSearch
import Pallas.Codec.Minicbor
import Pallas.Codec.Text
import Pallas.Codec.Values
import Pallas.Codec.ValuesReference
import Pallas.Codec.TreeDecode
import Pallas.Codec.Tree
import Pallas.Codec.TreeOrder
import Pallas.Codec.TreeDerive
import Pallas.Primitives
import Pallas.Plutus.Data
import Pallas.Metadatum.Data
import Pallas.Plutus.Decode
import Pallas.Metadatum.Decode
import Pallas.Metadatum.RoundTrip
import Pallas.Plutus.Items
import Pallas.Plutus.BigInt
import Pallas.Plutus.Order
import Pallas.CanonicalJson
import Pallas.Plutus.Faithful
import Pallas.Addresses
import Pallas.AddressBytes
import Pallas.Varuints
import Pallas.NativeScript.Decode
import Pallas.NativeScript.RoundTrip
import Pallas.Eras
import Pallas.Flat.Encoder
import Pallas.Flat.Image
import Pallas.Flat.Decoder
import Pallas.Flat.RoundTrip
import Pallas.Flat.Panics
import Pallas.Flat.Words
import Pallas.Validate.Environment
import Pallas.Validate.Utils
import Pallas.Validate.Checks
import Pallas.Validate.Byron
import Pallas.Validate.ByronFees
import Pallas.Validate.ShelleyMa
import Pallas.Validate.Certificates
import Pallas.Validate.CertState
import Pallas.Validate.CertPointers
import Pallas.Validate.Languages
import Pallas.Validate.Redeemers
import Pallas.Lib.Sorting
import Pallas.Phase2.Ledger
import Pallas.Phase2.ScriptContext
import Pallas.Phase2.Pairing
import Pallas.Phase2.ToPlutusData
import Pallas.Validate.ScriptData
import Pallas.Validate.Alonzo
import Pallas.Validate.Babbage
import Pallas.Validate.Conway
import Pallas.Validate.ExUnits
import Pallas.Validate.KeyWitnesses
import Pallas.Validate.Phase1
import Pallas.Validate.Checklists
import Pallas.Validate.Sequence
import Pallas.Validate.Atomicity
import Pallas.Validate.Holdings
import Pallas.Validate.Balance
import Pallas.Validate.ShelleyBalance
import Pallas.Network2.Protocols
import Pallas.Network2.Codecs
import Pallas.Network2.CodecRoundTrip
import Pallas.Lib.Agents
import Pallas.Network.Chainsync
import Pallas.Network.Blockfetch
import Pallas.Network.Txsubmission
import Pallas.Network.Localstate
import Pallas.Network.Multiplexer
import Pallas.Network.Localmsgnotification
import Pallas.Network.Duality
import Pallas.Network.Dialogues
import Pallas.Network.Handshake
import Pallas.Network.Requests
import Pallas.Network.Txmonitor
import Pallas.Network.Codecs
import Pallas.Network.CodecStreams
import Pallas.Network2.CodecStreams
import Pallas.Network.SentItems
import Pallas.Network.StreamSafety
import Pallas.Network.Framing
import Pallas.Network2.PeerState
import Pallas.Network2.Agency
import Pallas.Network2.SubBehaviors
import Pallas.Network2.Initiator
import Pallas.Network2.Joint
import Pallas.Network2.Ranges
import Pallas.Network2.Responder
import Pallas.Network2.Frames
import Pallas.Network2.Moves
import Pallas.Network2.OnePeer
import Pallas.Network2.PromotionLimits
import Pallas.Network2.PromotionSets
import Pallas.Network2.BlockBodies
import Pallas.Network2.TxSubmissionRuns
import Pallas.Network2.BoundReplies
import Pallas.Network2.SyncGrants
import Pallas.Network2.Lines
import Pallas.Network2.Violations
import Pallas.Network2.ConnectionCounts
import Pallas.Network2.WrongSide
import Pallas.Network2.Rejections
import Pallas.Network2.Correspondence
import Pallas.Network2.Bans
import Pallas.Kes.Sum
import Pallas.Kes.Evolution
import Pallas.Kes.Binding
import Pallas.Kes.Serialization
import Pallas.Lib.ExpSeries
import Pallas.Math.Decimal
import Pallas.Math.ExpCmp
import Pallas.Math.Exponential
import Pallas.Math.Operators
import Pallas.Math.Rounding
import Pallas.Lib.HashTable
import Pallas.Lib.Loops
import Pallas.TxBuilder.Encode
import Pallas.TxBuilder.Staging
import Pallas.TxBuilder.Conway
import Pallas.TxBuilder.Fragments
import Pallas.TxBuilder.Building
import Pallas.TxBuilder.Panics
import Pallas.TxBuilder.Unique
import Pallas.TxBuilder.Reorder
import Pallas.TxBuilder.Reproducible
import Pallas.TxBuilder.Pointers
import Pallas.TxBuilder.Keys
import Pallas.TxBuilder.Signing
import Pallas.Phase2.Canonical
import Pallas.Network.Buffer
import Pallas.Network2.Bearer
import Pallas.Phase2.Validity
import Pallas.Validate.ByronWitnesses
import Pallas.Codec.Containers
import Pallas.Codec.Ledger
import Pallas.Codec.LedgerExact
import Pallas.Codec.LedgerElements
import Pallas.Codec.CostModels
import Pallas.Codec.LedgerRoundTrip
import Pallas.Codec.BlockHeader
import Pallas.Codec.ByronAddress
import Pallas.Codec.KeepRaw
import Pallas.Codec.Derived
import Pallas.Traverse.BlockTxs
import Pallas.Traverse.UtxoEffects
import Pallas.Validate.IntegrityHash
import Pallas.Validate.NativeWitnesses
import Pallas.Validate.Timelocks
import Pallas.Validate.NeededScripts
import Pallas.Validate.WitnessDatums
import Pallas.Validate.WitnessRule
import Pallas.Validate.Rewards
import Pallas.Validate.ValueEquality
import Pallas.Validate.ValueSums
import Pallas.Validate.FeeChecks
import Pallas.Codec.TreeEquality
import Pallas.Math.Logarithm
import Pallas.Network2.Bitmaps
import Pallas.Traverse.Time
import Pallas.Lib.Positions
import Pallas.Validate.RedeemerPositions
import Pallas.Validate.BabbageIntegrity
import Pallas.Lib.Codewords
import Pallas.Network2.Wire
import Pallas.Network2.Interface

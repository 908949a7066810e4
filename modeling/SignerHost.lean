import SignerHost.Client.Shared
import SignerHost.Client.Operations
import SignerHost.Psbt.Flatten
import SignerHost.Psbt.MapCodec
import SignerHost.Psbt.Source
import SignerHost.AddressVerifier
import SignerHost.Signature
import SignerHost.Wallet.Multisig
import SignerHost.Network
import SignerHost.Merkle.Verify
import SignerHost.Text.Bech32
import SignerHost.Proofs.Bytes
import SignerHost.Proofs.CompactSize
import SignerHost.Proofs.Merkle.Shape
import SignerHost.Proofs.Merkle.Binding
import SignerHost.Proofs.Merkle.Collision
import SignerHost.Proofs.Merkle.Exactness
import SignerHost.Proofs.Query
import SignerHost.Proofs.Responder.Answers
import SignerHost.Proofs.Device.Program
import SignerHost.Proofs.Device.Reading
import SignerHost.Proofs.Device.Retrieval
import SignerHost.Proofs.ByteMap
import SignerHost.Proofs.Device.Lookup
import SignerHost.Proofs.Psbt.Registered
import SignerHost.Proofs.Psbt.Fields
import SignerHost.Proofs.Psbt.Unsigned
import SignerHost.Proofs.Client.Request
import SignerHost.Proofs.Psbt.Commitments
import SignerHost.Proofs.Client.Operation
import SignerHost.Proofs.Wallet.Policy
import SignerHost.Proofs.Client.Failures
import SignerHost.Proofs.Client.CommandSize
import SignerHost.Proofs.Responder.Orderly
import SignerHost.Proofs.Command
import SignerHost.Proofs.Client.Conduct
import SignerHost.Proofs.Device.Policy
import SignerHost.Proofs.Responder.Fragments
import SignerHost.Proofs.Client.Course
import SignerHost.Proofs.Client.Signing
import SignerHost.Proofs.Psbt.Parsing
import SignerHost.Proofs.Psbt.Faults
import SignerHost.Proofs.Psbt.Counts
import SignerHost.Proofs.Psbt.Failures
import SignerHost.Proofs.Responder.Grants
import SignerHost.Proofs.Responder.Reachable
import SignerHost.Proofs.Responder.Pending
import SignerHost.Proofs.KeyPath
import SignerHost.Proofs.Device.Message
import SignerHost.Proofs.Client.Transcript
import SignerHost.Proofs.Client.VerifiedAddress
import SignerHost.Proofs.Responder.Headers
import SignerHost.Proofs.Responder.Conservation
import SignerHost.Proofs.Responder.Progress
import SignerHost.Proofs.Client.OneRequest
import SignerHost.Proofs.Client.Sessions
import SignerHost.Proofs.Client.Refusal
import SignerHost.Proofs.Responder.Recorded
import SignerHost.Proofs.Psbt.Atomicity
import SignerHost.Proofs.Layout
import SignerHost.Proofs.Device.Payload
import SignerHost.Proofs.Client.SharedChannel
import SignerHost.Proofs.Merkle.Membership
import SignerHost.Proofs.Responder.MapLookup
import SignerHost.Proofs.Merkle.MapIdentity
import SignerHost.Proofs.Text.Replacement
import SignerHost.Proofs.Wallet.Placeholders
import SignerHost.Proofs.Wallet.Misreading
import SignerHost.Proofs.Wallet.Multisig
import SignerHost.Proofs.Psbt.MapRoundTrip
import SignerHost.Proofs.Psbt.MapCuts
import SignerHost.Proofs.Text.Ascii
import SignerHost.Proofs.Text.Armor
import SignerHost.Proofs.Text.Decimal
import SignerHost.Proofs.KeyPath.Written
import SignerHost.Proofs.KeyPath.Refusal
import SignerHost.Proofs.Signature.Schemes
import SignerHost.Proofs.Client.AppVersion
import SignerHost.Proofs.Client.VersionResponse
import SignerHost.Proofs.Client.VersionGate
import SignerHost.Proofs.Psbt.Forms
import SignerHost.Merkle.Nodes
import SignerHost.Proofs.Merkle.Answering
import SignerHost.Proofs.Merkle.Linked
import SignerHost.Proofs.Merkle.Splitting

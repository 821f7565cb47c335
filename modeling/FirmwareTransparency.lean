import FirmwareTransparency.Bytes.Lemmas
import FirmwareTransparency.Key.Modular.Lemmas
import FirmwareTransparency.Main
import FirmwareTransparency.Merkle.Tree
import FirmwareTransparency.Proofs.Descriptor.Reads
import FirmwareTransparency.Proofs.Descriptor.LogRoot
import FirmwareTransparency.Proofs.Merkle.AuditPath
import FirmwareTransparency.Proofs.Text.Ascii
import FirmwareTransparency.Proofs.Merkle.Binding
import FirmwareTransparency.Proofs.Merkle.Membership
import FirmwareTransparency.Proofs.Descriptor.Entry
import FirmwareTransparency.Proofs.Descriptor.Codec
import FirmwareTransparency.Proofs.Base64
import FirmwareTransparency.Proofs.Json.Text
import FirmwareTransparency.Proofs.Json.Object
import FirmwareTransparency.Proofs.Descriptor.Leaf
import FirmwareTransparency.Proofs.Descriptor.RoundTrip
import FirmwareTransparency.Proofs.Search
import FirmwareTransparency.Proofs.Descriptor.Locate
import FirmwareTransparency.Proofs.Verify.Entries
import FirmwareTransparency.Proofs.Descriptor.Layout
import FirmwareTransparency.Proofs.Verify.Verdict
import FirmwareTransparency.Proofs.Verify.Completeness
import FirmwareTransparency.Proofs.Verify.Soundness
import FirmwareTransparency.Proofs.Descriptor.Truncation
import FirmwareTransparency.Proofs.Verify.Modes
import FirmwareTransparency.Proofs.Verify.Truncation
import FirmwareTransparency.Proofs.Descriptor.Redundancy
import FirmwareTransparency.Proofs.Descriptor.Trailing
import FirmwareTransparency.Proofs.Verify.Trailing
import FirmwareTransparency.Proofs.CommandLine.Arguments
import FirmwareTransparency.Proofs.CommandLine.Verification
import FirmwareTransparency.Proofs.Verify.Loosening
import FirmwareTransparency.Proofs.Verify.TrustedLogs
import FirmwareTransparency.Proofs.Descriptor.LogRootCursor
import FirmwareTransparency.Proofs.Merkle.Commitment
import FirmwareTransparency.Proofs.Merkle.Walk
import FirmwareTransparency.Proofs.Verify.Slot
import FirmwareTransparency.Proofs.Key.Modulus
import FirmwareTransparency.Proofs.Key.Der
import FirmwareTransparency.Proofs.Key.Signature
import FirmwareTransparency.Proofs.Text.Utf8
import FirmwareTransparency.Proofs.Json.Grammar
import FirmwareTransparency.Proofs.Json.Spelling
import FirmwareTransparency.Proofs.Json.Number
import FirmwareTransparency.Proofs.Json.Skip
import FirmwareTransparency.Proofs.Json.Unique
import FirmwareTransparency.Proofs.Json.Reads
import FirmwareTransparency.Proofs.Json.Record
import FirmwareTransparency.Proofs.Json.Nested
import FirmwareTransparency.Proofs.Json.Writing
import FirmwareTransparency.Proofs.Descriptor.LeafDocument
import FirmwareTransparency.Proofs.Descriptor.LeafRendering
import FirmwareTransparency.Proofs.Verify.Splitting
import FirmwareTransparency.Proofs.Verify.MetadataBinding
import FirmwareTransparency.Proofs.Verify.Rebuilding
import FirmwareTransparency.Proofs.Json.Elements
import FirmwareTransparency.Proofs.Json.Choice
import FirmwareTransparency.Proofs.Text.Trim
import FirmwareTransparency.Proofs.TrustStore.Document
import FirmwareTransparency.Proofs.TrustStore.Sources
import FirmwareTransparency.Proofs.TrustStore.Rendering
import FirmwareTransparency.Proofs.Merkle.Words
import FirmwareTransparency.Proofs.Merkle.PathLength
import FirmwareTransparency.Proofs.Merkle.Recursion
import FirmwareTransparency.Proofs.Descriptor.Readers
import FirmwareTransparency.Proofs.Key.Pem
import FirmwareTransparency.Proofs.Key.Encodings

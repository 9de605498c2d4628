import BitStore.Proofs.Getter.Complete
import BitStore.Proofs.Getter.Extension
import BitStore.Proofs.Eval.Filter
import BitStore.Proofs.Eval.Laziness
import BitStore.Proofs.Eval.Equations
import BitStore.Schema.Text
import BitStore.Proofs.Settings.Saved
import BitStore.Sql
import BitStore.Value.Conforms
import BitStore.Plan
import BitStore.Proofs.Plan.Lookup
import BitStore.Proofs.Plan.RoundTrip
import BitStore.Proofs.Schema.Bitset
import BitStore.Proofs.Schema.Codec
import BitStore.Proofs.Schema.UniqueDecoding
import BitStore.Proofs.Storage.Records
import BitStore.Proofs.Value.Leaves
import BitStore.Proofs.Layout.Encoding
import BitStore.Proofs.Plan.PlainBytes
import BitStore.Proofs.Plan.Replacement
import BitStore.Proofs.Storage.BitAccess
import BitStore.Proofs.Getter.ClosureFree
import BitStore.Proofs.Plan.Acceptance
import BitStore.Proofs.Eval.Congruence
import BitStore.Proofs.Schema.Folding
import BitStore.Proofs.Schema.Rejection
import BitStore.Proofs.Storage.Forcing
import BitStore.Proofs.Schema.Decoding
import BitStore.Proofs.Storage.Overlay
import BitStore.Proofs.Bits.Requests
import BitStore.Proofs.Bits.Words
import BitStore.Proofs.Value.Numbers
import BitStore.Proofs.Storage.Counts
import BitStore.Proofs.Sql.Identifiers
import BitStore.Proofs.Eval.References
import BitStore.Proofs.Eval.ClosureForms
import BitStore.Proofs.Eval.Scoping
import BitStore.Proofs.Storage.Commuting
import BitStore.Proofs.Value.Atoms

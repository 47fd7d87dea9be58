import Asn1.Main
import Asn1.Proofs.Certificate.Lossless
import Asn1.Proofs.Schema.Normalization
import Asn1.Proofs.Verification
import Asn1.Proofs.Schema.Captured
import Asn1.Proofs.Schema.Uniqueness
import Asn1.Proofs.Schema.Gap
import Asn1.Proofs.Certificate.Coverage
import Asn1.Proofs.Schema.PrefixFree
import Asn1.Proofs.Schema.Bounds
import Asn1.Proofs.Schema.Layout
import Asn1.Proofs.Schema.Misreading
import Asn1.Proofs.Header.Inverse
import Asn1.Proofs.Header.Window
import Asn1.Proofs.Integer.Shortest
import Asn1.Proofs.Integer.Order
import Asn1.Proofs.Integer.Native
import Asn1.Proofs.Oid.Iteration
import Asn1.Proofs.Oid.Dotted
import Asn1.Proofs.Verification.Extensions
import Asn1.Proofs.Signature.Recovery
import Asn1.Proofs.Header.Limits
import Asn1.Proofs.BitString

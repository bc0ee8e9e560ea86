import LocatedYaml.Main
import LocatedYaml.Proofs.Node.Inside
import LocatedYaml.Proofs.Tree.Inside
import LocatedYaml.Proofs.Extent.Span
import LocatedYaml.Proofs.Document.Building
import LocatedYaml.Proofs.Document.Anchors
import LocatedYaml.Proofs.Document.Nesting
import LocatedYaml.Proofs.Document.Outline
import LocatedYaml.Proofs.Document.Completion
import LocatedYaml.Proofs.Document.Ranges
import LocatedYaml.Proofs.Document.Boundaries
import LocatedYaml.Proofs.Conversion.Bounded
import LocatedYaml.Proofs.Conversion.Expansion
import LocatedYaml.Proofs.Conversion.Substitution
import LocatedYaml.Proofs.Conversion.Origin
import LocatedYaml.Proofs.Conversion.Location
import LocatedYaml.Proofs.Location.Order
import LocatedYaml.Proofs.Conversion.Enclosure
import LocatedYaml.Proofs.Conversion.Lookup
import LocatedYaml.Proofs.Conversion.Failure
import LocatedYaml.Proofs.Scalar.Plain
import LocatedYaml.Proofs.Scalar.CoreTags
import LocatedYaml.Proofs.Document.Erasure
import LocatedYaml.Proofs.Version.Prologue
import LocatedYaml.Proofs.Node.Erasure
import LocatedYaml.Proofs.Conversion.Erasure
import LocatedYaml.Proofs.Command.OutputOption
import LocatedYaml.Proofs.Command.Delivery
import LocatedYaml.Proofs.Extent.Header
import LocatedYaml.Proofs.Extent.Region
import LocatedYaml.Proofs.Extent.Owner
import LocatedYaml.Proofs.Binary64.Nearest
import LocatedYaml.Proofs.Binary64.Arithmetic
import LocatedYaml.Proofs.Scalar.Integer
import LocatedYaml.Proofs.Scalar.Fraction
import LocatedYaml.Proofs.Scalar.CoreSchema
import LocatedYaml.Proofs.Scalar.Sexagesimal
import LocatedYaml.Proofs.Scalar.LargeInteger
import LocatedYaml.Proofs.Scalar.Portable
import LocatedYaml.Proofs.Location.Counting
import LocatedYaml.Proofs.Extent.Quoted
import LocatedYaml.Proofs.Extent.Plain
import LocatedYaml.Proofs.Extent.Sliced
import LocatedYaml.Proofs.Extent.Content
import LocatedYaml.Proofs.Json.SafeInteger

import ComponentGraph.Application.Edit
import ComponentGraph.Decimal
import ComponentGraph.Document.Cursor
import ComponentGraph.Json.Reader
import ComponentGraph.Yaml.Reader
import ComponentGraph.Proofs.DataType.Rendering
import ComponentGraph.Proofs.DataType.ViablePrefix
import ComponentGraph.Proofs.Manifest.WellFormed
import ComponentGraph.Proofs.Manifest.Path
import ComponentGraph.Proofs.Token.Exact
import ComponentGraph.Proofs.Manifest.Decoded
import ComponentGraph.Proofs.Manifest.Lookup
import ComponentGraph.Proofs.Binding
import ComponentGraph.Proofs.Component
import ComponentGraph.Proofs.Manifest.Readable
import ComponentGraph.Proofs.Manifest.Encoding
import ComponentGraph.Proofs.DataType.Interleaving
import ComponentGraph.Proofs.Document.Mirror
import ComponentGraph.Proofs.Manifest.Mirror
import ComponentGraph.Proofs.Json.Tree
import ComponentGraph.Proofs.Yaml.Strip
import ComponentGraph.Proofs.Yaml.Rearranged
import ComponentGraph.Proofs.Manifest.Rearranged
import ComponentGraph.Proofs.Manifest.Site
import ComponentGraph.Proofs.Manifest.FirstOffence
import ComponentGraph.Proofs.Pin.Grammar
import ComponentGraph.Proofs.Pin.Blame
import ComponentGraph.Proofs.Yaml.Prune
import ComponentGraph.Proofs.Manifest.Prune
import ComponentGraph.Proofs.DataType.Spacing
import ComponentGraph.Proofs.Manifest.Required
import ComponentGraph.Proofs.Manifest.Place
import ComponentGraph.Proofs.Manifest.Wiring
import ComponentGraph.Proofs.Manifest.Configuration
import ComponentGraph.Proofs.Yaml.Copy
import ComponentGraph.Proofs.Document.Copied
import ComponentGraph.Proofs.Component.Descent
import ComponentGraph.Proofs.DataType.Unambiguous
import ComponentGraph.Proofs.DataType.Watched
import ComponentGraph.Proofs.DataType.Bounds
import ComponentGraph.Proofs.DataType.Standing
import ComponentGraph.Proofs.ConfigValue
import ComponentGraph.Proofs.Component.Equality

import Aout.Segment
import Aout.Bytes.LittleEndian
import Aout.Bytes.Placeholder
import Aout.Bytes.Word
import Aout.Text.Numeral
import Aout.Text.Numeral.Reading
import Aout.Text.Blank
import Aout.Text.Utf8
import Aout.Fault
import Aout.Header
import Aout.Relocation
import Aout.Symbol
import Aout.NameTable
import Aout.Symbol.AddressIndex
import Aout.Symbol.Table
import Aout.Object
import Aout.Object.Building
import Aout.Object.Stripping
import Aout.Object.File
import Aout.Notice
import Aout.Linking.Layout
import Aout.Linking.Placed
import Aout.Progress
import Aout.Linking.Concatenation
import Aout.Linking.Image
import Aout.Report.HexDump
import Aout.Report
import Aout.AddressLiteral
import Aout.Standard.Yaml.Place
import Aout.Standard.Yaml.Scalar
import Aout.Standard.Yaml.BlockScalar
import Aout.Standard.Yaml.Tag
import Aout.Standard.Yaml.Directive
import Aout.Standard.Yaml.Token
import Aout.Standard.Yaml.Token.Reading
import Aout.Standard.Yaml.Node
import Aout.Standard.Yaml.Node.Reading
import Aout.Standard.Yaml.Document
import Aout.Standard.Arguments
import Aout.Standard.Invocation
import Aout.Standard.Settings
import Aout.Standard
import Aout.Settings
import Aout.Files
import Aout.Files.Disk
import Aout.Files.Reading
import Aout.Files.Linking
import Aout.Command.Invocation
import Aout.Command.Plan
import Aout.Command.Run
import Aout.Main
import Aout.Proofs.Fallible
import Aout.Proofs.Bytes.Rendering
import Aout.Proofs.Bytes.Overwriting
import Aout.Proofs.Text.Numeral
import Aout.Proofs.Header
import Aout.Proofs.NameTable
import Aout.Proofs.Relocation
import Aout.Proofs.Symbol.Growth
import Aout.Proofs.Symbol.Lookup
import Aout.Proofs.Object.File
import Aout.Proofs.Object.Format
import Aout.Proofs.Object.Naming
import Aout.Proofs.Object.Reloading
import Aout.Proofs.Object.Editing
import Aout.Proofs.Object.Catalogue
import Aout.Proofs.Object.Saving
import Aout.Proofs.Object.Stripping
import Aout.Proofs.Progress
import Aout.Proofs.Linking.Layout
import Aout.Proofs.Linking.Meaning
import Aout.Proofs.Linking.Resolution
import Aout.Proofs.Linking.Records
import Aout.Proofs.Linking.Joining
import Aout.Proofs.Linking.Evolution
import Aout.Proofs.Linking.Folding
import Aout.Proofs.Linking.Linked
import Aout.Proofs.Linking.Provenance
import Aout.Proofs.Linking.Placeholders
import Aout.Proofs.Linking.Conflicts
import Aout.Proofs.Linking.Retargeting
import Aout.Proofs.Linking.Saving
import Aout.Proofs.Linking.Symbolisation
import Aout.Proofs.Linking.Settlement
import Aout.Proofs.Linking.Validity
import Aout.Proofs.Linking.FirstDefinitions
import Aout.Proofs.Linking.Placement
import Aout.Proofs.Linking.Addresses
import Aout.Proofs.Linking.Positions
import Aout.Proofs.Linking.Faults
import Aout.Proofs.Linking.Siblings
import Aout.Proofs.Linking.Values
import Aout.Proofs.AddressLiteral
import Aout.Proofs.Report.HexDump
import Aout.Proofs.Files.Disk
import Aout.Proofs.Files.Reading
import Aout.Proofs.Command.Readers
import Aout.Proofs.Standard.Arguments
import Aout.Proofs.Standard.Spelling
import Aout.Proofs.Command.Run
import Aout.Proofs.Linking.Fragment
import Aout.Proofs.Linking.View
import Aout.Proofs.Linking.Appearance
import Aout.Proofs.Linking.Association
import Aout.Proofs.Linking.Lockstep
import Aout.Proofs.Linking.TextBase
import Aout.Proofs.Linking.Capacity
import Aout.Proofs.Linking.Lookups
import Aout.Proofs.Linking.Carried
import Aout.Proofs.Linking.Embedding
import Aout.Proofs.Linking.Awaiting
import Aout.Proofs.Linking.UnusedNames

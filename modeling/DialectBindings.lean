import DialectBindings.Artifact
import DialectBindings.Batch
import DialectBindings.Bindings.Command
import DialectBindings.Bindings.Enum
import DialectBindings.Bindings.Message
import DialectBindings.Bindings.Module
import DialectBindings.Checksum
import DialectBindings.CommandLine.Arguments
import DialectBindings.CommandLine.Program
import DialectBindings.CommandLine.Request
import DialectBindings.CommandLine.Terminal
import DialectBindings.Definition.Check
import DialectBindings.Definition.Document
import DialectBindings.Definition.Fault
import DialectBindings.Definition.Parse
import DialectBindings.Definition.Reader
import DialectBindings.Delivery
import DialectBindings.Descriptors
import DialectBindings.Dialect
import DialectBindings.Dialect.Wire
import DialectBindings.Engine
import DialectBindings.Engine.Bindings
import DialectBindings.Engine.Plain
import DialectBindings.Event
import DialectBindings.Failure
import DialectBindings.FieldType
import DialectBindings.FileTree
import DialectBindings.Host
import DialectBindings.Identifier
import DialectBindings.Invocation
import DialectBindings.IoFault
import DialectBindings.Layout
import DialectBindings.LineBuffer
import DialectBindings.Listing
import DialectBindings.Main
import DialectBindings.Markup.Attribute
import DialectBindings.Markup.Content
import DialectBindings.Markup.Fault
import DialectBindings.Markup.Record
import DialectBindings.Markup.Reference
import DialectBindings.Markup.Source
import DialectBindings.Markup.Tag
import DialectBindings.Markup.Token
import DialectBindings.OutputMode
import DialectBindings.Path
import DialectBindings.Proofs.Accessors
import DialectBindings.Proofs.AlikeContents
import DialectBindings.Proofs.Artifacts
import DialectBindings.Proofs.Batches
import DialectBindings.Proofs.Bursts
import DialectBindings.Proofs.Comments
import DialectBindings.Proofs.Complaints
import DialectBindings.Proofs.Components
import DialectBindings.Proofs.ContentLevels
import DialectBindings.Proofs.Contents
import DialectBindings.Proofs.Conversion
import DialectBindings.Proofs.Cuts
import DialectBindings.Proofs.Declarations
import DialectBindings.Proofs.Definitions
import DialectBindings.Proofs.Deliveries
import DialectBindings.Proofs.Denotations
import DialectBindings.Proofs.Division
import DialectBindings.Proofs.Documents
import DialectBindings.Proofs.Edits
import DialectBindings.Proofs.Elements
import DialectBindings.Proofs.Encodings
import DialectBindings.Proofs.EntryValues
import DialectBindings.Proofs.Extensions
import DialectBindings.Proofs.Failures
import DialectBindings.Proofs.FieldTypes
import DialectBindings.Proofs.Files
import DialectBindings.Proofs.FlatRecords
import DialectBindings.Proofs.GivenValues
import DialectBindings.Proofs.Identifiers
import DialectBindings.Proofs.Indentation
import DialectBindings.Proofs.Insertions
import DialectBindings.Proofs.Invariance
import DialectBindings.Proofs.Items
import DialectBindings.Proofs.Listings
import DialectBindings.Proofs.Literals
import DialectBindings.Proofs.MagicNumbers
import DialectBindings.Proofs.Marks
import DialectBindings.Proofs.Numerals
import DialectBindings.Proofs.Octets
import DialectBindings.Proofs.Openings
import DialectBindings.Proofs.Outline
import DialectBindings.Proofs.Overlays
import DialectBindings.Proofs.Overrides
import DialectBindings.Proofs.Partings
import DialectBindings.Proofs.Parts
import DialectBindings.Proofs.Patches
import DialectBindings.Proofs.Paths
import DialectBindings.Proofs.Payload
import DialectBindings.Proofs.Places
import DialectBindings.Proofs.Properties
import DialectBindings.Proofs.Quotes
import DialectBindings.Proofs.Reaching
import DialectBindings.Proofs.Readback
import DialectBindings.Proofs.Readings
import DialectBindings.Proofs.Records
import DialectBindings.Proofs.References
import DialectBindings.Proofs.RegistryText
import DialectBindings.Proofs.Reports
import DialectBindings.Proofs.Requests
import DialectBindings.Proofs.Reruns
import DialectBindings.Proofs.Results
import DialectBindings.Proofs.Roles
import DialectBindings.Proofs.RoundTrip
import DialectBindings.Proofs.Scopes
import DialectBindings.Proofs.Siblings
import DialectBindings.Proofs.Signatures
import DialectBindings.Proofs.Streams
import DialectBindings.Proofs.Summaries
import DialectBindings.Proofs.SurroundingSpace
import DialectBindings.Proofs.Tags
import DialectBindings.Proofs.Templates
import DialectBindings.Proofs.Terminals
import DialectBindings.Proofs.Unbroken
import DialectBindings.Proofs.WholeLines
import DialectBindings.Proofs.WireOrder
import DialectBindings.Proofs.Wording
import DialectBindings.Proofs.Words
import DialectBindings.Proofs.Worlds
import DialectBindings.Proofs.Writing
import DialectBindings.Registry
import DialectBindings.Text.Blank
import DialectBindings.Text.CaseMap
import DialectBindings.Text.CaseTable
import DialectBindings.Text.HiddenTable
import DialectBindings.Text.Numeral
import DialectBindings.Text.Quoted
import DialectBindings.Text.Shown
import DialectBindings.Text.Utf8
import DialectBindings.World

import TemplateLint.Command.Arguments
import TemplateLint.Command.Check
import TemplateLint.Command.ConfigFile
import TemplateLint.Command.Failure
import TemplateLint.Command.Init
import TemplateLint.Command.Report
import TemplateLint.Command.RuleList
import TemplateLint.Command.Run
import TemplateLint.Context
import TemplateLint.Diagnostic
import TemplateLint.Directive
import TemplateLint.Document.Basic
import TemplateLint.Document.Draft
import TemplateLint.Document.Edit
import TemplateLint.Document.Parse
import TemplateLint.Document.Print
import TemplateLint.Document.Visit
import TemplateLint.Event
import TemplateLint.FileSystem.Basic
import TemplateLint.FileSystem.Disk
import TemplateLint.FileSystem.Tree
import TemplateLint.Fix
import TemplateLint.Glob
import TemplateLint.Json
import TemplateLint.Linter
import TemplateLint.Location
import TemplateLint.Main
import TemplateLint.Markup.Basic
import TemplateLint.Markup.Nesting
import TemplateLint.Markup.Reader.Attribute
import TemplateLint.Markup.Reader.Erb
import TemplateLint.Markup.Reader.Piece
import TemplateLint.Offense
import TemplateLint.Path
import TemplateLint.Registry
import TemplateLint.Rule
import TemplateLint.Rules.BooleanAttribute
import TemplateLint.Rules.Catalog
import TemplateLint.Rules.DirectiveNames
import TemplateLint.Rules.DirectiveShape
import TemplateLint.Rules.NestedLink
import TemplateLint.Rules.QuotedValue
import TemplateLint.Rules.TagName
import TemplateLint.Rules.UniqueId
import TemplateLint.Settings
import TemplateLint.Settings.Parse
import TemplateLint.Severity
import TemplateLint.Suppression
import TemplateLint.Text.Blank
import TemplateLint.Text.Case.Ascii
import TemplateLint.Text.Case.Classes
import TemplateLint.Text.Case.Lower
import TemplateLint.Text.Case.Mapping
import TemplateLint.Text.Cut
import TemplateLint.Text.EditDistance
import TemplateLint.Toml.Digits
import TemplateLint.Toml.Moment
import TemplateLint.Toml.Number
import TemplateLint.Toml.Parse
import TemplateLint.Toml.Quoted
import TemplateLint.Toml.Space
import TemplateLint.Toml.Table
import TemplateLint.Toml.Value
import TemplateLint.Proofs.Forest
import TemplateLint.Proofs.Place
import TemplateLint.Proofs.Growth
import TemplateLint.Proofs.Stretch
import TemplateLint.Proofs.Elements
import TemplateLint.Proofs.Locations
import TemplateLint.Proofs.Replace
import TemplateLint.Proofs.History
import TemplateLint.Proofs.Locality
import TemplateLint.Proofs.Suppression
import TemplateLint.Proofs.Unbroken
import TemplateLint.Proofs.Passes
import TemplateLint.Proofs.OnePass
import TemplateLint.Proofs.Isolation
import TemplateLint.Proofs.BlankIndependence
import TemplateLint.Proofs.BareAttribute
import TemplateLint.Proofs.QuotedValue
import TemplateLint.Proofs.LowerNames
import TemplateLint.Proofs.NeedlessDirectives
import TemplateLint.Proofs.Sessions
import TemplateLint.Proofs.Pairing
import TemplateLint.Proofs.Adoption
import TemplateLint.Proofs.Attempts
import TemplateLint.Proofs.DirectiveNames
import TemplateLint.Proofs.Walks
import TemplateLint.Proofs.FixReports
import TemplateLint.Proofs.Dangling
import TemplateLint.Proofs.Agreement
import TemplateLint.Proofs.AroundMended
import TemplateLint.Proofs.ByteOrder
import TemplateLint.Proofs.Building
import TemplateLint.Proofs.DirectiveRules
import TemplateLint.Proofs.Unterminated
import TemplateLint.Proofs.Bodies
import TemplateLint.Proofs.WellFormed
import TemplateLint.Proofs.DocumentOrder
import TemplateLint.Proofs.NestedLinks
import TemplateLint.Proofs.Suggestions
import TemplateLint.Proofs.TagNames
import TemplateLint.Proofs.RepeatedIds
import TemplateLint.Proofs.NodeIds
import TemplateLint.Proofs.ByteSpans

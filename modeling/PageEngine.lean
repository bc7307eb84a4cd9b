import PageEngine.Text.Bytes
import PageEngine.Text.Blank
import PageEngine.Text.Numeral
import PageEngine.Text.Segments
import PageEngine.Text.Width
import PageEngine.Source.Span
import PageEngine.Source.LineIndex
import PageEngine.Source.Diagnostic
import PageEngine.Dictionary
import PageEngine.Decimal.Double
import PageEngine.Decimal.Reading
import PageEngine.Decimal.Shortest
import PageEngine.Decimal.Layout
import PageEngine.Value.Basic
import PageEngine.Value.Text
import PageEngine.Value.KeyPath
import PageEngine.Markup.Binding
import PageEngine.Markup.Node
import PageEngine.Markup.FormatError
import PageEngine.Declaration.Lexeme
import PageEngine.Declaration.Basic
import PageEngine.Markup.Cursor
import PageEngine.Markup.Directive
import PageEngine.Markup.Attributes
import PageEngine.Markup.Piece
import PageEngine.Markup.Template
import PageEngine.Association
import PageEngine.ElementPath
import PageEngine.Error
import PageEngine.Web.ActionUrl
import PageEngine.Web.Request
import PageEngine.Web.Response
import PageEngine.Web.Html
import PageEngine.Element.Basic
import PageEngine.Element.Kind
import PageEngine.Element.Registry
import PageEngine.Component.Class
import PageEngine.Component.Script
import PageEngine.Template.Basic
import PageEngine.Component.Instance
import PageEngine.Component.Scope
import PageEngine.Resource.FileTree
import PageEngine.Resource.Loader
import PageEngine.Engine
import PageEngine.Walk.SwitchNumbers
import PageEngine.Component.Synchronization
import PageEngine.Walk.State
import PageEngine.Walk.Controls
import PageEngine.Walk.Component
import PageEngine.Walk.Wrappers
import PageEngine.Walk.Visit
import PageEngine.Session.PageCache
import PageEngine.Session.Basic
import PageEngine.Session.Serving
import PageEngine.Settings.Datum
import PageEngine.Settings.Document.Space
import PageEngine.Settings.Document.Quoted
import PageEngine.Settings.Document.Scalar
import PageEngine.Settings.Document.Key
import PageEngine.Settings.Document.Section
import PageEngine.Settings.Document.Value
import PageEngine.Settings.Document.Basic
import PageEngine.Settings.Layer
import PageEngine.Settings.Environment
import PageEngine.Settings.Basic
import PageEngine.Proofs.Component.Scope
import PageEngine.Proofs.Walk.Run
import PageEngine.Proofs.Walk.Act
import PageEngine.Proofs.ElementPath
import PageEngine.Proofs.Walk.Memory
import PageEngine.Proofs.Walk.Visits
import PageEngine.Proofs.Walk.Adequacy
import PageEngine.Proofs.Page.Trail
import PageEngine.Proofs.Page.Settled
import PageEngine.Proofs.Element.Occurs
import PageEngine.Proofs.Page.Journal
import PageEngine.Proofs.Page.History
import PageEngine.Proofs.Page.Address
import PageEngine.Proofs.Page.Lexical
import PageEngine.Proofs.Walk.Entered
import PageEngine.Proofs.Action.Gates
import PageEngine.Proofs.Action.Descent
import PageEngine.Proofs.Action.PrintedAddress
import PageEngine.Proofs.Value.KeyPath
import PageEngine.Proofs.Component.Address
import PageEngine.Proofs.Walk.Stores
import PageEngine.Proofs.Walk.LastStore
import PageEngine.Proofs.Walk.Avoids
import PageEngine.Proofs.Walk.Replay
import PageEngine.Proofs.Page.Submitted
import PageEngine.Proofs.Page.Order
import PageEngine.Proofs.Page.ControlNames
import PageEngine.Proofs.Action.Dispatch
import PageEngine.Proofs.Action.Invocation
import PageEngine.Proofs.Action.Answers
import PageEngine.Proofs.Markup.Grammar
import PageEngine.Proofs.Markup.Reading
import PageEngine.Proofs.Markup.Lossless
import PageEngine.Proofs.Walk.Lockstep
import PageEngine.Proofs.Walk.Phases
import PageEngine.Proofs.Page.Phases
import PageEngine.Proofs.Dictionary
import PageEngine.Proofs.Session.RecencyList
import PageEngine.Proofs.Session.PageCache
import PageEngine.Proofs.Walk.Lawful
import PageEngine.Proofs.Walk.Plain
import PageEngine.Proofs.Walk.Printed
import PageEngine.Proofs.Session.Recent
import PageEngine.Proofs.Session.Calls
import PageEngine.Proofs.Session.History
import PageEngine.Proofs.Session.Unreachable
import PageEngine.Proofs.Markup.Canonical
import PageEngine.Proofs.Markup.Lookahead
import PageEngine.Proofs.Markup.Readback
import PageEngine.Proofs.Markup.RoundTrip
import PageEngine.Proofs.Component.Retained
import PageEngine.Proofs.Component.Paired
import PageEngine.Proofs.Component.Handover
import PageEngine.Proofs.Component.Echo
import PageEngine.Proofs.Page.Retained
import PageEngine.Proofs.Page.Shown
import PageEngine.Proofs.Page.Again
import PageEngine.Proofs.Markup.Distinct
import PageEngine.Proofs.Walk.Likeness
import PageEngine.Proofs.Walk.Follows
import PageEngine.Proofs.Element.Referred
import PageEngine.Proofs.Page.Beside
import PageEngine.Proofs.Page.Bounded
import PageEngine.Proofs.Session.Renamed
import PageEngine.Proofs.Session.Apart
import PageEngine.Proofs.Markup.Quotation
import PageEngine.Proofs.Declaration.Lexing
import PageEngine.Proofs.Declaration.Composition
import PageEngine.Proofs.Declaration.Block
import PageEngine.Proofs.Markup.LoneBinding
import PageEngine.Proofs.Page.Literal
import PageEngine.Proofs.Page.Sightings
import PageEngine.Proofs.Page.Survey
import PageEngine.Proofs.Web.ActionUrl
import PageEngine.Proofs.Page.Listing
import PageEngine.Proofs.Web.StartTag
import PageEngine.Proofs.Page.Unedited
import PageEngine.Proofs.Bytes.Attributes
import PageEngine.Proofs.Bytes.Declarations
import PageEngine.Proofs.Bytes.Directives
import PageEngine.Proofs.Bytes.Tags
import PageEngine.Proofs.Bytes.Template
import PageEngine.Proofs.Bytes.Compile
import PageEngine.Proofs.Declaration.Union
import PageEngine.Proofs.Declaration.Readback
import PageEngine.Proofs.Markup.Moved
import PageEngine.Proofs.Markup.Followed
import PageEngine.Proofs.Markup.Concatenation
import PageEngine.Proofs.Declaration.Values
import PageEngine.Proofs.Element.Inlined
import PageEngine.Proofs.Markup.Enclosed
import PageEngine.Proofs.Element.Syntaxes
import PageEngine.Proofs.Component.Lens
import PageEngine.Proofs.Declaration.Grammar
import PageEngine.Proofs.Bytes.Pass
import PageEngine.Proofs.Bytes.Masking
import PageEngine.Proofs.Declaration.Comments
import PageEngine.Proofs.Page.Forms
import PageEngine.Proofs.Value.Writing
import PageEngine.Proofs.Walk.Synchronized
import PageEngine.Proofs.Decimal.Range
import PageEngine.Proofs.Decimal.Written
import PageEngine.Proofs.Association.Bare
import PageEngine.Proofs.Web.Spelling
import PageEngine.Proofs.Walk.Rounds
import PageEngine.Proofs.Walk.Selection
import PageEngine.Proofs.Walk.SwitchUses
import PageEngine.Proofs.Component.Kept
import PageEngine.Proofs.Walk.Asked
import PageEngine.Proofs.Page.Switched
import PageEngine.Proofs.Page.Fresh
import PageEngine.Proofs.Session.Recorded
import PageEngine.Proofs.Source.LineIndex
import PageEngine.Proofs.Markup.Nested
import PageEngine.Proofs.Declaration.Names
import PageEngine.Proofs.Markup.DocumentOrder

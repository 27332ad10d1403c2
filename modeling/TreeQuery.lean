import TreeQuery.Attribute
import TreeQuery.Cache
import TreeQuery.Configuration
import TreeQuery.Formula
import TreeQuery.Host
import TreeQuery.Json
import TreeQuery.Json.Reader
import TreeQuery.Language
import TreeQuery.Location
import TreeQuery.Lookups
import TreeQuery.Match
import TreeQuery.Parser
import TreeQuery.Profile
import TreeQuery.Profile.Document
import TreeQuery.Proofs.Match.Chain
import TreeQuery.Proofs.Match.Conditions
import TreeQuery.Proofs.Match.Place
import TreeQuery.Proofs.Native.Kept
import TreeQuery.Proofs.Native.Printed
import TreeQuery.Proofs.Native.ReadBack
import TreeQuery.Proofs.Reader.Follows
import TreeQuery.Proofs.Reader.Legible
import TreeQuery.Proofs.Reader.Levels
import TreeQuery.Proofs.Search.Candidates
import TreeQuery.Proofs.Search.Exact
import TreeQuery.Proofs.Session.Delegation
import TreeQuery.Proofs.Session.Query
import TreeQuery.Proofs.Session.Reached
import TreeQuery.Proofs.Session.Scope
import TreeQuery.Proofs.Text.Names
import TreeQuery.Proofs.Text.Nesting
import TreeQuery.Proofs.Tree.Ancestors
import TreeQuery.Proofs.Tree.Built
import TreeQuery.Proofs.Tree.Preorder
import TreeQuery.Proofs.Tree.Runs
import TreeQuery.Proofs.Tree.Siblings
import TreeQuery.PseudoClass
import TreeQuery.Registry
import TreeQuery.Search
import TreeQuery.Selector
import TreeQuery.Selector.Native
import TreeQuery.Selector.Reader
import TreeQuery.Selector.Reader.Clause
import TreeQuery.Selector.Reader.Part
import TreeQuery.Selector.Reader.Reading
import TreeQuery.Session
import TreeQuery.SyntaxError
import TreeQuery.Text.Ascii
import TreeQuery.Text.Blank
import TreeQuery.Text.CaseTables
import TreeQuery.Text.Decimal
import TreeQuery.Text.Escape
import TreeQuery.Text.Ident
import TreeQuery.Text.Lowercase
import TreeQuery.Text.Nesting
import TreeQuery.Tree
import TreeQuery.Tree.Walk
import TreeQuery.View
import TreeQuery.Proofs.Reader.Induction
import TreeQuery.Proofs.Reader.BranchEnd
import TreeQuery.Proofs.Reader.Join
import TreeQuery.Proofs.Selector.WellFormed
import TreeQuery.Proofs.Reader.BareBlanks
import TreeQuery.Proofs.Native.RoundTrip
import TreeQuery.Proofs.Search.Order
import TreeQuery.Proofs.Session.Order
import TreeQuery.Proofs.Search.Agreement
import TreeQuery.Proofs.Session.ScopeList
import TreeQuery.Proofs.Compiled.Draft
import TreeQuery.Selector.Compiled
import TreeQuery.Selector.Compiled.Draft
import TreeQuery.Selector.Compiled.Reader
import TreeQuery.Proofs.Compiled.Exact
import TreeQuery.Proofs.Session.Profiles
import TreeQuery.Proofs.Distinct
import TreeQuery.Proofs.Cache.Slots
import TreeQuery.Proofs.Cache.Recency
import TreeQuery.Proofs.Cache.Race
import TreeQuery.Proofs.Session.History
import TreeQuery.Proofs.Search.Journal
import TreeQuery.Proofs.Search.Repeat
import TreeQuery.Proofs.Session.Readings
import TreeQuery.Proofs.Session.Failure
import TreeQuery.Proofs.Cache.Map
import TreeQuery.Proofs.Search.Draws
import TreeQuery.Proofs.Search.Lookups
import TreeQuery.Proofs.Session.Lookups
import TreeQuery.Proofs.Tree.Calls
import TreeQuery.Proofs.Tree.Climb
import TreeQuery.Proofs.Match.Position
import TreeQuery.Proofs.Match.First
import TreeQuery.Proofs.Compiled.Shape
import TreeQuery.Proofs.Reader.Conditions
import TreeQuery.Proofs.Match.Like
import TreeQuery.Proofs.Text.Brackets
import TreeQuery.Proofs.Session.Nested
import TreeQuery.Proofs.Reader.Dropped
import TreeQuery.Proofs.Native.Tiers
import TreeQuery.Proofs.Compiled.Lookups
import TreeQuery.Proofs.Reader.Behind
import TreeQuery.Proofs.Reader.Blanks
import TreeQuery.Proofs.Reader.Stages
import TreeQuery.Proofs.Native.Vocabulary
import TreeQuery.Proofs.Text.Pieces
import TreeQuery.Proofs.Match.LocalLink
import TreeQuery.Proofs.Text.Lowercase
import TreeQuery.Proofs.Match.IgnoreCase
import TreeQuery.Proofs.Match.Origins
import TreeQuery.Proofs.Session.Refused
import TreeQuery.Proofs.Text.Numerals
import TreeQuery.Proofs.Formula.Grammar
import TreeQuery.Proofs.Formula.Arithmetic
import TreeQuery.Proofs.Reader.Positions
import TreeQuery.Proofs.Registry.Letters
import TreeQuery.Proofs.Tree.Elements
import TreeQuery.Proofs.Text.Offsets
import TreeQuery.Proofs.Text.Ascii
import TreeQuery.Proofs.Text.Quoted
import TreeQuery.Proofs.Text.Cursor
import TreeQuery.Proofs.Match.Language
import TreeQuery.Proofs.Reader.Progress
import TreeQuery.Proofs.Reader.Profiles
import TreeQuery.Proofs.Reader.Overflow
import TreeQuery.Proofs.Compiled.Stored

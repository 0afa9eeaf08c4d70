import LuaBundle.Analysis
import LuaBundle.Bundle.Assembly
import LuaBundle.Bundle.Run
import LuaBundle.CommandLine.Arguments
import LuaBundle.CommandLine.LogFilter
import LuaBundle.CommandLine.Run
import LuaBundle.Config.Decode
import LuaBundle.Config.Layer
import LuaBundle.Config.Loader
import LuaBundle.Config.Settings
import LuaBundle.Config.Toggle
import LuaBundle.Decimal.Binary
import LuaBundle.Decimal.Fixed
import LuaBundle.Document.Json
import LuaBundle.Document.JsonText
import LuaBundle.Document.Toml
import LuaBundle.Document.Toml.Quoted
import LuaBundle.Document.Toml.Scalar
import LuaBundle.Document.Toml.Table
import LuaBundle.Document.Toml.Token
import LuaBundle.Document.Value
import LuaBundle.Environment
import LuaBundle.Failure
import LuaBundle.FileTree
import LuaBundle.Graph.Basic
import LuaBundle.Graph.Cycles
import LuaBundle.Graph.Order
import LuaBundle.Graph.Walk
import LuaBundle.Lua.Layout
import LuaBundle.Lua.Lexer
import LuaBundle.Lua.Printer
import LuaBundle.Lua.Quoted
import LuaBundle.Lua.Rename
import LuaBundle.Lua.Require
import LuaBundle.Lua.Scope
import LuaBundle.Lua.Spacing
import LuaBundle.Lua.Token
import LuaBundle.Main
import LuaBundle.Module.Record
import LuaBundle.Module.Resolver
import LuaBundle.Module.SearchRoots
import LuaBundle.Obfuscation.Banner
import LuaBundle.Obfuscation.ByteCode
import LuaBundle.Obfuscation.Draws
import LuaBundle.Obfuscation.Identifier
import LuaBundle.Obfuscation.Pipeline
import LuaBundle.Obfuscation.Tag
import LuaBundle.Obfuscation.TagReplacement
import LuaBundle.OrderedMap
import LuaBundle.Path
import LuaBundle.Pattern.Basic
import LuaBundle.Pattern.CharSet
import LuaBundle.Pattern.Reader
import LuaBundle.Proofs.Analysis
import LuaBundle.Proofs.Analysis.Outcome
import LuaBundle.Proofs.Analysis.Policy
import LuaBundle.Proofs.Bundle.Artifact
import LuaBundle.Proofs.Bundle.Footprint
import LuaBundle.Proofs.Bundle.Ignored
import LuaBundle.Proofs.Bundle.Linking
import LuaBundle.Proofs.Bundle.Loaders
import LuaBundle.Proofs.Bundle.ModuleTable
import LuaBundle.Proofs.Bundle.Order
import LuaBundle.Proofs.Bundle.Tables
import LuaBundle.Proofs.Config.Layering
import LuaBundle.Proofs.Config.Normalized
import LuaBundle.Proofs.Config.Toggles
import LuaBundle.Proofs.Environment
import LuaBundle.Proofs.FileTree
import LuaBundle.Proofs.FileTree.Adding
import LuaBundle.Proofs.Graph.Components
import LuaBundle.Proofs.Graph.DepthFirst
import LuaBundle.Proofs.Graph.Footprint
import LuaBundle.Proofs.Graph.Missing
import LuaBundle.Proofs.Graph.Order
import LuaBundle.Proofs.Graph.Sorting
import LuaBundle.Proofs.Graph.Walk
import LuaBundle.Proofs.Lua.Agreement
import LuaBundle.Proofs.Lua.AssignedGlobals
import LuaBundle.Proofs.Lua.Balance
import LuaBundle.Proofs.Lua.Beautified
import LuaBundle.Proofs.Lua.Beginnings
import LuaBundle.Proofs.Lua.Binding
import LuaBundle.Proofs.Lua.Bodies
import LuaBundle.Proofs.Lua.Breaks
import LuaBundle.Proofs.Lua.Chunks
import LuaBundle.Proofs.Lua.Cursor
import LuaBundle.Proofs.Lua.Declaring
import LuaBundle.Proofs.Lua.Denotation
import LuaBundle.Proofs.Lua.Depth
import LuaBundle.Proofs.Lua.ExpressionViews
import LuaBundle.Proofs.Lua.Grounds
import LuaBundle.Proofs.Lua.Keys
import LuaBundle.Proofs.Lua.LineBreaks
import LuaBundle.Proofs.Lua.Lines
import LuaBundle.Proofs.Lua.Lossless
import LuaBundle.Proofs.Lua.Minified
import LuaBundle.Proofs.Lua.Misreading
import LuaBundle.Proofs.Lua.Neighbours
import LuaBundle.Proofs.Lua.Nested
import LuaBundle.Proofs.Lua.Parts
import LuaBundle.Proofs.Lua.Points
import LuaBundle.Proofs.Lua.Quoted
import LuaBundle.Proofs.Lua.Reading
import LuaBundle.Proofs.Lua.Regions
import LuaBundle.Proofs.Lua.Renaming
import LuaBundle.Proofs.Lua.Replacing
import LuaBundle.Proofs.Lua.Requires
import LuaBundle.Proofs.Lua.Rereading
import LuaBundle.Proofs.Lua.Scanning
import LuaBundle.Proofs.Lua.Scoping
import LuaBundle.Proofs.Lua.ShortStrings
import LuaBundle.Proofs.Lua.Spelling
import LuaBundle.Proofs.Lua.Starts
import LuaBundle.Proofs.Lua.StatementViews
import LuaBundle.Proofs.Lua.Statements
import LuaBundle.Proofs.Lua.Tagging
import LuaBundle.Proofs.Lua.Targets
import LuaBundle.Proofs.Lua.Tree
import LuaBundle.Proofs.Lua.TreeParts
import LuaBundle.Proofs.Lua.ViewScopes
import LuaBundle.Proofs.Lua.Views
import LuaBundle.Proofs.Lua.Waiting
import LuaBundle.Proofs.Module.Confinement
import LuaBundle.Proofs.Module.Naming
import LuaBundle.Proofs.Module.Precedence
import LuaBundle.Proofs.Module.SearchRoots
import LuaBundle.Proofs.Obfuscation.ByteCode
import LuaBundle.Proofs.Obfuscation.Fields
import LuaBundle.Proofs.Obfuscation.Freshness
import LuaBundle.Proofs.Obfuscation.Identifier
import LuaBundle.Proofs.Obfuscation.Pipeline
import LuaBundle.Proofs.Obfuscation.Printed
import LuaBundle.Proofs.Obfuscation.Splicing
import LuaBundle.Proofs.Obfuscation.Tag
import LuaBundle.Proofs.Obfuscation.TagReplacement
import LuaBundle.Proofs.OrderedMap
import LuaBundle.Proofs.Path.Climbing
import LuaBundle.Proofs.Path.Plain
import LuaBundle.Proofs.Path.Rooted
import LuaBundle.Proofs.Report.Tree
import LuaBundle.Report.Console
import LuaBundle.Report.Json
import LuaBundle.Text.Blank
import LuaBundle.Text.Case
import LuaBundle.Text.DecimalDigit
import LuaBundle.Text.Hex
import LuaBundle.Text.Range
import LuaBundle.Text.Split
import LuaBundle.Text.WordChar

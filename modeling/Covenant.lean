import Covenant.Abi.Entry
import Covenant.Abi.Selector
import Covenant.Analysis.Flow
import Covenant.Analysis.Inheritance
import Covenant.Analysis.Mutability
import Covenant.Build.Assembler
import Covenant.Build.Basic
import Covenant.Build.Contracts
import Covenant.Build.Files
import Covenant.Build.Reply
import Covenant.Cli.Folder
import Covenant.Cli.Options
import Covenant.Cli.Run
import Covenant.Config.Basic
import Covenant.Config.Decode
import Covenant.Config.Yaml.Cursor
import Covenant.Config.Yaml.Error
import Covenant.Config.Yaml.Node
import Covenant.Config.Yaml.Node.Grammar
import Covenant.Config.Yaml.Scalar
import Covenant.Config.Yaml.Token
import Covenant.Config.Yaml.Token.Lexer
import Covenant.Config.Yaml.Value
import Covenant.Contract.Basic
import Covenant.Contract.Expr
import Covenant.Contract.Printer
import Covenant.Contract.Stmt
import Covenant.Contract.Ty
import Covenant.Diagnostic.Basic
import Covenant.Diagnostic.Cause
import Covenant.Diagnostic.Code
import Covenant.Diagnostic.Report
import Covenant.Editor.Completion
import Covenant.Editor.Highlight
import Covenant.Editor.IpAddress
import Covenant.Editor.Marker
import Covenant.Editor.Session
import Covenant.Editor.Uri
import Covenant.Emit.Code
import Covenant.Emit.Dispatch
import Covenant.Emit.Expressions
import Covenant.Emit.Functions
import Covenant.Emit.Literal
import Covenant.Emit.Object
import Covenant.Emit.Shared
import Covenant.Emit.Statements
import Covenant.Environment
import Covenant.Graph
import Covenant.Json.Basic
import Covenant.Json.Parser
import Covenant.Keccak
import Covenant.Main
import Covenant.Proofs.Build.Analysis
import Covenant.Proofs.Build.Contracts
import Covenant.Proofs.Build.Initializers
import Covenant.Proofs.Build.Loading
import Covenant.Proofs.Build.Types
import Covenant.Proofs.Code.Applied
import Covenant.Proofs.Code.Caching
import Covenant.Proofs.Code.Calls
import Covenant.Proofs.Code.Closure
import Covenant.Proofs.Code.Denotation
import Covenant.Proofs.Code.Order
import Covenant.Proofs.Code.Readonly
import Covenant.Proofs.Code.References
import Covenant.Proofs.Computations
import Covenant.Proofs.Conditionals.Elimination
import Covenant.Proofs.Conditionals.Leaves
import Covenant.Proofs.Conditionals.NormalForm
import Covenant.Proofs.Conditionals.Refinement
import Covenant.Proofs.Conditionals.Selection
import Covenant.Proofs.Conditionals.Temporaries
import Covenant.Proofs.Distance
import Covenant.Proofs.Editor.Documents
import Covenant.Proofs.Editor.Highlights
import Covenant.Proofs.Events.Declarations
import Covenant.Proofs.Execution.Locals
import Covenant.Proofs.Execution.Numeral
import Covenant.Proofs.Execution.OwnCalls
import Covenant.Proofs.Execution.Run
import Covenant.Proofs.Flow.Paths
import Covenant.Proofs.Flow.Unused
import Covenant.Proofs.Formatting.Sections
import Covenant.Proofs.Inheritance.Events
import Covenant.Proofs.Inheritance.Members
import Covenant.Proofs.Inheritance.Merging
import Covenant.Proofs.Interface.Dispatch
import Covenant.Proofs.Literals.Numbers
import Covenant.Proofs.Literals.Places
import Covenant.Proofs.Literals.Programs
import Covenant.Proofs.Literals.Texts
import Covenant.Proofs.Machine.Arrivals
import Covenant.Proofs.Machine.Memory
import Covenant.Proofs.Machine.Rules
import Covenant.Proofs.Machine.Run
import Covenant.Proofs.Mutability.Calls
import Covenant.Proofs.Mutability.Classification
import Covenant.Proofs.Mutability.Views
import Covenant.Proofs.Names.Accesses
import Covenant.Proofs.Names.Binding
import Covenant.Proofs.Names.Programs
import Covenant.Proofs.Order.Builds
import Covenant.Proofs.Resolution.Expressions
import Covenant.Proofs.Resolution.Invocations
import Covenant.Proofs.Resolution.Records
import Covenant.Proofs.Resolution.Statements
import Covenant.Proofs.Simulation.Methods
import Covenant.Proofs.Storage.Access
import Covenant.Proofs.Storage.Arrays
import Covenant.Proofs.Storage.Entries
import Covenant.Proofs.Storage.Isolation
import Covenant.Proofs.Storage.Slots
import Covenant.Proofs.Syntax.Derivations
import Covenant.Proofs.Syntax.RoundTrip
import Covenant.Proofs.Syntax.Texts
import Covenant.Resolve.Classes
import Covenant.Resolve.Conditionals
import Covenant.Resolve.Declarations
import Covenant.Resolve.Expressions
import Covenant.Resolve.Literals
import Covenant.Resolve.Operators
import Covenant.Resolve.Scope
import Covenant.Resolve.Statements
import Covenant.Resolve.Types
import Covenant.Source.Grammar
import Covenant.Source.Position
import Covenant.Source.Productions
import Covenant.Source.Token
import Covenant.Source.Token.Lexer
import Covenant.Source.Tree
import Covenant.Source.Tree.Printer
import Covenant.Storage.Access
import Covenant.Storage.Layout
import Covenant.Text.Base64
import Covenant.Text.Blank
import Covenant.Text.Distance
import Covenant.Text.Hex
import Covenant.Text.Numeral
import Covenant.Text.Printable
import Covenant.Text.Quoted
import Covenant.Text.Utf8
import Covenant.Yul.Basic
import Covenant.Yul.Format
import Covenant.Yul.Object

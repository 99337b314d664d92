import ScriptLowering.Check.Checklist
import ScriptLowering.Check.FileName
import ScriptLowering.Check.ModuleSyntax
import ScriptLowering.Compile
import ScriptLowering.Compile.Summary
import ScriptLowering.Diagnostic.Basic
import ScriptLowering.Diagnostic.Kind
import ScriptLowering.Diagnostic.Sink
import ScriptLowering.Fault
import ScriptLowering.Helper
import ScriptLowering.Index
import ScriptLowering.Interner
import ScriptLowering.Lowering.Assignment
import ScriptLowering.Lowering.Call.Form
import ScriptLowering.Lowering.Call.Rule
import ScriptLowering.Lowering.Error
import ScriptLowering.Lowering.Expr
import ScriptLowering.Lowering.Monad
import ScriptLowering.Lowering.Operator
import ScriptLowering.Lowering.Order
import ScriptLowering.Lowering.Pattern
import ScriptLowering.Lowering.Place
import ScriptLowering.Lowering.State
import ScriptLowering.Lowering.Statement
import ScriptLowering.Lowering.Temporary
import ScriptLowering.Lowering.Truth
import ScriptLowering.Number
import ScriptLowering.Source.Arena
import ScriptLowering.Source.Expr
import ScriptLowering.Source.ExprId
import ScriptLowering.Source.File
import ScriptLowering.Source.Operator
import ScriptLowering.Source.Stmt
import ScriptLowering.Source.Tree
import ScriptLowering.Source.WellFormed
import ScriptLowering.Span
import ScriptLowering.Target.Expr
import ScriptLowering.Target.Operator
import ScriptLowering.Target.Stmt
import ScriptLowering.Text.Hidden
import ScriptLowering.Text.Quoted
import ScriptLowering.Text.Split
import ScriptLowering.Types.Data
import ScriptLowering.Types.Pool
import ScriptLowering.Types.Query
import ScriptLowering.Types.SubType
import ScriptLowering.Types.Table
import ScriptLowering.Types.TypeId
import ScriptLowering.Proofs.Source.Everywhere
import ScriptLowering.Proofs.Target.Leaves
import ScriptLowering.Proofs.Temporaries.Scope
import ScriptLowering.Proofs.Calls.Expressions
import ScriptLowering.Proofs.Calls.Files
import ScriptLowering.Proofs.Lowering.Total
import ScriptLowering.Proofs.Numbering.Units
import ScriptLowering.Proofs.Assignments.Addressed
import ScriptLowering.Proofs.Assignments.Forms
import ScriptLowering.Proofs.Preservation.Expressions
import ScriptLowering.Proofs.Temporaries.Files
import ScriptLowering.Proofs.Reports.Files
import ScriptLowering.Proofs.Reports.Outputs
import ScriptLowering.Proofs.Helpers.Files
import ScriptLowering.Proofs.Contracts.Files
import ScriptLowering.Proofs.Walk.Panics
import ScriptLowering.Proofs.Indexing.Positions
import ScriptLowering.Proofs.Types.Extraction
import ScriptLowering.Proofs.Types.Receivers
import ScriptLowering.Proofs.Preservation.MemberCalls
import ScriptLowering.Proofs.Destructuring.Leaves
import ScriptLowering.Proofs.Check.FileNames
import ScriptLowering.Proofs.Types.Unions
import ScriptLowering.Proofs.Indexing.Membership
import ScriptLowering.Proofs.Names.Files
import ScriptLowering.Proofs.Preservation.Conditions
import ScriptLowering.Proofs.Stores.Nodes
import ScriptLowering.Proofs.Stores.Texts
import ScriptLowering.Proofs.Stores.Types

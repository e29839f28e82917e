import ScriptLang.Binding.Context
import ScriptLang.Binding.Expr
import ScriptLang.Binding.Stmt
import ScriptLang.Binding.Unit
import ScriptLang.Compilation
import ScriptLang.Conversion
import ScriptLang.Decimal.Binary64
import ScriptLang.Decimal.Integer
import ScriptLang.Decimal.Reader
import ScriptLang.Decimal.Shortest
import ScriptLang.Diagnostic
import ScriptLang.Diagnostic.Catalogue
import ScriptLang.Expr
import ScriptLang.FlowGraph
import ScriptLang.Interner
import ScriptLang.Json
import ScriptLang.LabelNames
import ScriptLang.Lowering
import ScriptLang.Machine.Eval
import ScriptLang.Machine.Fault
import ScriptLang.Machine.Host
import ScriptLang.Machine.Run
import ScriptLang.Machine.State
import ScriptLang.Node
import ScriptLang.Operator
import ScriptLang.Options
import ScriptLang.OrderedMap
import ScriptLang.Printer
import ScriptLang.Program
import ScriptLang.Proofs.Mentions
import ScriptLang.Proofs.Fuel
import ScriptLang.Proofs.Structured
import ScriptLang.Samples
import ScriptLang.Scope
import ScriptLang.Source.Kind
import ScriptLang.Source.Listing
import ScriptLang.Source.Sketch
import ScriptLang.Source.Tree
import ScriptLang.Stmt
import ScriptLang.Symbol
import ScriptLang.Text.Blank
import ScriptLang.Text.LineMap
import ScriptLang.Text.Span
import ScriptLang.Text.Template
import ScriptLang.Ty
import ScriptLang.Value
import ScriptLang.Proofs.Alike
import ScriptLang.Proofs.AlikeEval
import ScriptLang.Proofs.Code
import ScriptLang.Proofs.FlatRun
import ScriptLang.Proofs.LoweringLabels
import ScriptLang.Proofs.LoweringSimulation
import ScriptLang.Proofs.LoweringPreserves
import ScriptLang.Proofs.BindingExpr
import ScriptLang.Proofs.BindingStmt
import ScriptLang.Proofs.Tracking
import ScriptLang.Proofs.BindingSymbols
import ScriptLang.Proofs.UnitSymbols
import ScriptLang.Proofs.BindingUnit
import ScriptLang.Proofs.EmittedCode
import ScriptLang.Proofs.LoweringSafe
import ScriptLang.Proofs.FlowBlocks
import ScriptLang.Proofs.Unreachable
import ScriptLang.Proofs.LoweredBodies
import ScriptLang.Proofs.CompiledSafe
import ScriptLang.Proofs.Chains
import ScriptLang.Proofs.ChainSafe
import ScriptLang.Proofs.EvalSafe
import ScriptLang.Proofs.RunSafe
import ScriptLang.Proofs.Points
import ScriptLang.Proofs.ChainRuns
import ScriptLang.Proofs.UnreachableRuns
import ScriptLang.Proofs.ReachedPlaces
import ScriptLang.Proofs.SettledCode
import ScriptLang.Proofs.CompiledLabels
import ScriptLang.Proofs.Maintained
import ScriptLang.Proofs.Unfolded
import ScriptLang.Proofs.FoldedFaults
import ScriptLang.Proofs.BindingConstants
import ScriptLang.Proofs.CompiledConstants
import ScriptLang.Proofs.ConstantRuns
import ScriptLang.Proofs.FoldedConstants
import ScriptLang.Proofs.Activations
import ScriptLang.Proofs.ActivationRuns
import ScriptLang.Proofs.BindingDeclarations
import ScriptLang.Proofs.BindingNumbers
import ScriptLang.Proofs.BoundChains
import ScriptLang.Proofs.CompiledWrites
import ScriptLang.Proofs.ReadOnly
import ScriptLang.Proofs.BindingNames
import ScriptLang.Proofs.ErrorChains
import ScriptLang.Proofs.BindingScopes
import ScriptLang.Proofs.AssignedCode
import ScriptLang.Proofs.AssignedRuns
import ScriptLang.Proofs.AssignedChains
import ScriptLang.Proofs.StandingCode
import ScriptLang.Proofs.LastValues
import ScriptLang.Proofs.Assembly
import ScriptLang.Proofs.MisspeltExpr
import ScriptLang.Proofs.MisspeltUnits
import ScriptLang.Proofs.RenamedBinding
import ScriptLang.Proofs.ExchangedFunctions
import ScriptLang.Proofs.FunctionOrder
import ScriptLang.Proofs.JoinedCode
import ScriptLang.Proofs.JoinedRuns
import ScriptLang.Proofs.CallDepth
import ScriptLang.Proofs.LoopIntervals
import ScriptLang.Proofs.ObservedChains
import ScriptLang.Proofs.RetoldRuns
import ScriptLang.Proofs.CallerFrames
import ScriptLang.Proofs.CompletingCode
import ScriptLang.Proofs.UnreachedCode
import ScriptLang.Proofs.ReturnCheck
import ScriptLang.Proofs.IdleExpressions
import ScriptLang.Proofs.FlattenedHistory
import ScriptLang.Proofs.StrayJumps
import ScriptLang.Proofs.LoopStack
import ScriptLang.Proofs.LoopJumps
import ScriptLang.Proofs.PrintedLexemes
import ScriptLang.Proofs.OutlineReader
import ScriptLang.Proofs.PrintedTrees
import ScriptLang.Proofs.Preorder
import ScriptLang.Proofs.Parentheses
import ScriptLang.Proofs.FilledTemplates
import ScriptLang.Proofs.LinesAndColumns
import ScriptLang.Proofs.ValueTexts
import ScriptLang.Proofs.OperatorMeaning
import ScriptLang.Proofs.CoveredPieces
import ScriptLang.Proofs.CutBlocks
import ScriptLang.Proofs.GraphConstruction
import ScriptLang.Proofs.RandomNumbers
import ScriptLang.Proofs.IndexedMaps

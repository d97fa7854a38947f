import Rsleigh.Lib.ByteStore
import Rsleigh.Lib.Rewriting
import Rsleigh.Lib.Trace
import Rsleigh.Pcode.Op
import Rsleigh.Pcode.Machine
import Rsleigh.Pcode.Frame
import Rsleigh.Pcode.Fold
import Rsleigh.Pcode.SingleOp
import Rsleigh.Pcode.Rename
import Rsleigh.Pcode.Analysis
import Rsleigh.Pcode.Optimize
import Rsleigh.Pcode.LocalGotos
import Rsleigh.Pcode.Refine
import Rsleigh.Pcode.OptimizeSound
import Rsleigh.Lift.UniqueLayout
import Rsleigh.Semantic.Blocks
import Rsleigh.Semantic.LocalControl
import Rsleigh.Lib.Parser
import Rsleigh.Lib.Infix
import Rsleigh.Syntax.Ladder
import Rsleigh.Syntax.Token
import Rsleigh.Syntax.Expr
import Rsleigh.Syntax.Disassembly
import Rsleigh.Syntax.Pattern
import Rsleigh.Semantic.Pattern
import Rsleigh.Semantic.WithBlock
import Rsleigh.Decode.History
import Rsleigh.Lib.Fallible
import Rsleigh.Lib.Places
import Rsleigh.Lib.Buckets
import Rsleigh.Decode.Disassembly
import Rsleigh.Decode.Constructor
import Rsleigh.Decode.Actions
import Rsleigh.Decode.Agreement
import Rsleigh.Decode.Tables
import Rsleigh.Decode.Bounds
import Rsleigh.Decode.Safety
import Rsleigh.Preprocessor.Text
import Rsleigh.Preprocessor.Machine
import Rsleigh.Preprocessor.Lines
import Rsleigh.Preprocessor.Positions
import Rsleigh.Preprocessor.Reference
import Rsleigh.Preprocessor.Moves
import Rsleigh.Preprocessor.Inclusion
import Rsleigh.Preprocessor.Exact
import Rsleigh.Preprocessor.Nesting
import Rsleigh.Semantic.ContextMemory
import Rsleigh.Semantic.Variants
import Rsleigh.Semantic.PlaceValues
import Rsleigh.Semantic.Separate
import Rsleigh.Semantic.VariantsOnce
import Rsleigh.Semantic.FlatPattern
import Rsleigh.Semantic.FlatParser
import Rsleigh.Semantic.FlatMasks
import Rsleigh.Lib.Insertion
import Rsleigh.Semantic.MatcherOrder
import Rsleigh.Semantic.FlatReads
import Rsleigh.Semantic.FieldAccess
import Rsleigh.Semantic.TokenFields
import Rsleigh.Semantic.FlatSteady
import Rsleigh.Semantic.FlatPhases
import Rsleigh.Semantic.FlatAgreement
import Rsleigh.Semantic.FlatPath
import Rsleigh.Decompile.Ir
import Rsleigh.Lib.Worklist
import Rsleigh.Lib.Search
import Rsleigh.Decompile.Memory
import Rsleigh.Decompile.Addresses
import Rsleigh.Decompile.Forwarding
import Rsleigh.Decompile.ReachingStores
import Rsleigh.Lib.Sorted
import Rsleigh.Decompile.BuildCfg
import Rsleigh.Decompile.Leaders
import Rsleigh.Decompile.Edges
import Rsleigh.Decompile.Represented
import Rsleigh.Decompile.SwitchChain
import Rsleigh.Decompile.Stripped
import Rsleigh.Lib.Json
import Rsleigh.Agent.Contracts
import Rsleigh.Agent.Evidence
import Rsleigh.Agent.SsaSlice
import Rsleigh.Investigation.Document
import Rsleigh.Investigation.Update
import Rsleigh.Agent.SliceRecord
import Rsleigh.Investigation.SliceIssues
import Rsleigh.Investigation.Sound
import Rsleigh.Investigation.Edits
import Rsleigh.Investigation.Revisions
import Rsleigh.Lib.Paths
import Rsleigh.Lib.Postorder
import Rsleigh.Lib.Dominators
import Rsleigh.Lib.EdgeClasses
import Rsleigh.Decompile.FlowGraph
import Rsleigh.Decompile.Dominators
import Rsleigh.Decompile.ClassifiedEdges
import Rsleigh.Decompile.Structured
import Rsleigh.Decompile.FlattenIfReturn
import Rsleigh.Lib.BoundedInsert
import Rsleigh.Lib.Branching
import Rsleigh.Decompile.Provenance
import Rsleigh.Decompile.Values
import Rsleigh.Decompile.LowBytes
import Rsleigh.Decompile.ConstFold
import Rsleigh.Decompile.Simplify
import Rsleigh.Decompile.MbaSimplify
import Rsleigh.Lib.LinearMba
import Rsleigh.Decompile.Simba
import Rsleigh.Decompile.SimbaSound
import Rsleigh.Agent.ContentId
import Rsleigh.Decompile.RegisterCopies
import Rsleigh.Lib.Unwinding
import Rsleigh.Decompile.BackwardSlice
import Rsleigh.Decompile.Interprocedural
import Rsleigh.Decompile.EggLanguage
import Rsleigh.Decompile.Eqsat
import Rsleigh.Decompile.SsaRun
import Rsleigh.Decompile.EliminateDead
import Rsleigh.Decompile.CallReturns
import Rsleigh.Decompile.CallArguments
import Rsleigh.Preprocessor.Conditions
import Rsleigh.Decompile.CallGraph
import Rsleigh.Semantic.Propagation
import Rsleigh.Decompile.FunctionSummary
import Rsleigh.Semantic.Operands
import Rsleigh.Semantic.SubTables
import Rsleigh.Decompile.DominatorChain
import Rsleigh.Decompile.PhiTernary
import Rsleigh.Lib.PrefixParser
import Rsleigh.Decompile.Lsda
import Rsleigh.Decompile.LsdaTable
import Rsleigh.Lib.Exploration
import Rsleigh.Agent.CompareBody
import Rsleigh.Agent.CompareReach
import Rsleigh.Fid.Mask
import Rsleigh.Fid.Displacement
import Rsleigh.Fid.MaskedUnits
import Rsleigh.Fid.Fingerprint
import Rsleigh.Lib.Repeated
import Rsleigh.Lib.Utf8
import Rsleigh.Fid.Hash
import Rsleigh.Fid.Db
import Rsleigh.Fid.DbRoundTrip
import Rsleigh.Decompile.TaintPaths
import Rsleigh.Decompile.TaintPathsExact
import Rsleigh.Decompile.Leaves
import Rsleigh.Decompile.OpaquePred
import Rsleigh.Decompile.OpaqueExact
import Rsleigh.Decompile.OpaqueSampled
import Rsleigh.Lib.BitTerms
import Rsleigh.Decompile.SmtVerify
import Rsleigh.Decompile.SmtVerifyExact
import Rsleigh.Lib.Hops
import Rsleigh.Decompile.ReturnValues
import Rsleigh.Decompile.ReturnReaching
import Rsleigh.Pcode.Runs
import Rsleigh.Decompile.IndirectTargets
import Rsleigh.Decompile.IndirectExact
import Rsleigh.Lib.Collect
import Rsleigh.Decompile.Regions
import Rsleigh.Decompile.Lineage
import Rsleigh.Decompile.LineageKeys
import Rsleigh.Decompile.LineagePaths
import Rsleigh.Decompile.OriginSets
import Rsleigh.Decompile.Budget
import Rsleigh.Lib.CommonSubsequence
import Rsleigh.Agent.LineDiff
import Rsleigh.Agent.Catalog
import Rsleigh.Lib.ShellWords
import Rsleigh.Agent.RenderCommand
import Rsleigh.Agent.ToolCall
import Rsleigh.Lib.CodeSpan
import Rsleigh.Investigation.Handoff
import Rsleigh.Lib.Scanner
import Rsleigh.Arm32.Scanners
import Rsleigh.Arm32.ConstantSites
import Rsleigh.Arm32.LiteralLoads
import Rsleigh.Decompile.CallOrder
import Rsleigh.Agent.InputSchema

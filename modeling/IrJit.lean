import IrJit.Core.Types
import IrJit.Lib.FirstBit
import IrJit.Dessa.Machine
import IrJit.Dessa.ParallelCopy
import IrJit.Dessa.MoveSpec
import IrJit.Dessa.Blades
import IrJit.Dessa.Cycle
import IrJit.Dessa.Axles
import IrJit.Dessa.Correct
import IrJit.Core.Ops
import IrJit.Lib.Worklist
import IrJit.Ra.LiveSets
import IrJit.Ra.LiveSetsSpec
import IrJit.Ra.LiveRange
import IrJit.Ra.LiveRanges
import IrJit.Ra.LiveRangesSpec
import IrJit.Ra.Liveness
import IrJit.Lib.Chase
import IrJit.Sccp.Analyze
import IrJit.Sccp.Check
import IrJit.Consts.Exact
import IrJit.EmitC.CExpr
import IrJit.EmitC.Data
import IrJit.EmitC.DataExact
import IrJit.EmitC.Order
import IrJit.EmitC.Sound
import IrJit.Fold.Decrease
import IrJit.Fold.Terminates
import IrJit.Lib.Slice
import IrJit.Lib.Walk
import IrJit.Uses.Build
import IrJit.Uses.Inverse
import IrJit.X86.Agree
import IrJit.Cfg.Dominators
import IrJit.Cfg.DominatorsSpec
import IrJit.Lib.Bytes
import IrJit.Lib.Cells
import IrJit.Lib.Threaded
import IrJit.Mem.Elim
import IrJit.Mem.LoadSound
import IrJit.Mem.StoreSound
import IrJit.Ra.SpillLayout
import IrJit.Dessa.Moves
import IrJit.Dessa.MovesSpec
import IrJit.Lib.PowerTwo
import IrJit.Sroa.Accept
import IrJit.Sroa.Allocas
import IrJit.Sroa.Compact
import IrJit.Sroa.Exact
import IrJit.X86.Machine
import IrJit.X86.Pwr2
import IrJit.X86.Pwr2Exact
import IrJit.Cfg.Layout
import IrJit.Cfg.LayoutSpec
import IrJit.Dessa.RegCopy
import IrJit.Dessa.RegCopyAxles
import IrJit.Dessa.RegCopyExact
import IrJit.Emit.TailCall
import IrJit.Emit.TailCallRuns
import IrJit.Lib.BitFold
import IrJit.X86.BitCount
import IrJit.X86.BitCountSpec
import IrJit.X86.Switch
import IrJit.X86.SwitchExact
import IrJit.Cfg.SkipEmpty
import IrJit.IfConv.Frame
import IrJit.IfConv.FrameExact
import IrJit.Lib.Fields
import IrJit.Lib.Quoted
import IrJit.Load.Buffers
import IrJit.Load.Literals
import IrJit.Patch.Code
import IrJit.Patch.Exact
import IrJit.Cfg.Labels
import IrJit.Narrow.Exact
import IrJit.Narrow.Outcome
import IrJit.Fold.Frame
import IrJit.Narrow.Cse
import IrJit.Sccp.Copies
import IrJit.Sccp.CopyLists
import IrJit.Builder.EndList
import IrJit.Builder.Predicates
import IrJit.Builder.PredicatesChain
import IrJit.Builder.PredicatesSpec
import IrJit.Cfg.EntryFlags
import IrJit.Fold.Cancel
import IrJit.Fold.Choose
import IrJit.Fold.Convert
import IrJit.Fold.Cse
import IrJit.Fold.Expressions
import IrJit.Fold.Flag
import IrJit.Fold.HashSearch
import IrJit.Fold.RuleText
import IrJit.Fold.Undefined
import IrJit.Helper.BitQueue
import IrJit.Helper.HashTab
import IrJit.Helper.StrTab
import IrJit.Mem.Address
import IrJit.Ra.Intervals

import GitComet.FileDiff.PlanUnchanged
import GitComet.Conflict.Agreement
import GitComet.Conflict.RegionJoin
import GitComet.Conflict.OutputExact
import GitComet.Kit.Fragmentation
import GitComet.Unified.HunkStarts
import GitComet.Unified.MissingNewline
import GitComet.Unified.Numbering
import GitComet.Unified.PartialStaging
import GitComet.Unified.PatchSplit
import GitComet.Rebase.PickMessages
import GitComet.Selection.TabList
import GitComet.Resolver.SaveGate
import GitComet.Resolver.BlockOwnership
import GitComet.Graph.Continuity
import GitComet.Loading.Stranded
import GitComet.Replay.Stable
import GitComet.Rebase.Rewords
import GitComet.Rebase.PendingEdits
import GitComet.LogPages.Concatenation
import GitComet.IndexedHistory.Runs
import GitComet.LogReplies.Splice
import GitComet.Selection.Restore
import GitComet.FileDiff.ReplacementOptimal
import GitComet.FileDiff.BitParallel
import GitComet.Conflict.DecisionRestore
import GitComet.Conflict.SubchunkMerge
import GitComet.Blame.PorcelainRead
import GitComet.Merge.ManualLines
import GitComet.Merge.RenderCounts
import GitComet.History.Survivors
import GitComet.History.SquashEligibility
import GitComet.Ignore.Append
import GitComet.FileDiff.LineText
import GitComet.Conflict.MarkerReader
import GitComet.Conflict.HistoryTiling
import GitComet.Store.NavStack
import GitComet.Store.RefreshLanes
import GitComet.Resolver.AlignedMap
import GitComet.Resolver.FoldedView
import GitComet.Resolver.ProjectedText
import GitComet.Resolver.SplitRowHits
import GitComet.Resolver.AncestorBases
import GitComet.History.LinearDistance
import GitComet.Process.RuntimeProbe
import GitComet.Store.LatestTask
import GitComet.TextInput.ProtectedLines
import GitComet.TextInput.ColdStart
import GitComet.TextInput.MappedHighlights
import GitComet.TextInput.WrapEstimate
import GitComet.Unified.BoundedRead

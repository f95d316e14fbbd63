import KetiEngine.Types
import KetiEngine.MachineInt
import KetiEngine.Double
import KetiEngine.Text
import KetiEngine.Table
import KetiEngine.Snippet
import KetiEngine.Lib.LittleEndian
import KetiEngine.Lib.Loops
import KetiEngine.Lib.Runs
import KetiEngine.Lib.Monitor
import KetiEngine.Lib.Waits
import KetiEngine.InternalQueue
import KetiEngine.Lib.Feed
import KetiEngine.Lib.Postfix
import KetiEngine.Lib.Connectives
import KetiEngine.Lib.Segments
import KetiEngine.Merging.Block
import KetiEngine.Merging.RowFormat
import KetiEngine.Merging.RoundTrip
import KetiEngine.Merging.Buffer
import KetiEngine.Merging.Contents
import KetiEngine.Merging.Save
import KetiEngine.Merging.System
import KetiEngine.Merging.Ingest
import KetiEngine.Merging.Readers
import KetiEngine.Merging.Finished
import KetiEngine.Merging.TmaxBuffer
import KetiEngine.Lib.SortedMap
import KetiEngine.Offloading.ReturnType
import KetiEngine.Offloading.Serialize
import KetiEngine.Offloading.Accounting
import KetiEngine.Offloading.Tmax
import KetiEngine.Lib.Separated
import KetiEngine.Merging.HashKey
import KetiEngine.Merging.CopyRow
import KetiEngine.Merging.Delivery
import KetiEngine.Merging.InnerJoin
import KetiEngine.Merging.OuterJoin
import KetiEngine.Merging.JoinExact
import KetiEngine.Merging.OuterExact
import KetiEngine.Merging.Projection
import KetiEngine.Merging.Aggregation
import KetiEngine.Merging.OrderFree
import KetiEngine.Merging.GroupBy
import KetiEngine.Merging.GroupTotals
import KetiEngine.Merging.QueryResult
import KetiEngine.Merging.Filtering
import KetiEngine.Merging.NestedJoin
import KetiEngine.Merging.Union
import KetiEngine.Merging.Selection
import KetiEngine.Merging.Dependency
import KetiEngine.Merging.DependencyJoin
import KetiEngine.Merging.DependencyIn
import KetiEngine.Merging.FilterRows
import KetiEngine.Merging.GroupPartition
import KetiEngine.Lib.Lexicographic
import KetiEngine.Merging.OrderBy
import KetiEngine.Merging.SortRows
import KetiEngine.Merging.Arithmetic
import KetiEngine.Merging.CaseBranches
import KetiEngine.Merging.GroupExact
import KetiEngine.Merging.StringConditions
import KetiEngine.Merging.RowWise
import KetiEngine.Merging.Extremes
import KetiEngine.Lib.Distinct
import KetiEngine.Merging.Counting
import KetiEngine.Merging.NullRows
import KetiEngine.Merging.TmaxFetch
import KetiEngine.Merging.DecimalSign
import KetiEngine.Offloading.DecimalWidth
import KetiEngine.Lib.RunningMax
import KetiEngine.Offloading.Scheduler
import KetiEngine.Offloading.AutoSelection
import KetiEngine.Offloading.FirstAvailable
import KetiEngine.Offloading.BestScore
import KetiEngine.Lib.DepthFirst
import KetiEngine.Rounding
import KetiEngine.Offloading.BestPlacement
import KetiEngine.Offloading.Placed
import KetiEngine.Merging.Receive
import KetiEngine.Merging.Header
import KetiEngine.Interface.FormatTable
import KetiEngine.Lib.Base64
import KetiEngine.Offloading.TmaxChunks
import KetiEngine.Offloading.FilterEncoding
import KetiEngine.Merging.PostfixStack
import KetiEngine.Merging.ColumnOffsets
import KetiEngine.Offloading.TypeStacks
import KetiEngine.TmaxLib.Pushdown
import KetiEngine.Merging.ScanQuery
import KetiEngine.Merging.QueryWaits
import KetiEngine.Merging.PlannedQuery
import KetiEngine.Offloading.SchedulerRun
import KetiEngine.Interface.TableLayout

import AmDb.Codec.SchemaCodec
import AmDb.Foundation.BinarySearch
import AmDb.Foundation.OrderedMap
import AmDb.Foundation.Run
import AmDb.Foundation.WireFormat
import AmDb.Storage.BptProto
import AmDb.Storage.Bptree
import AmDb.Storage.KvStorage
import AmDb.Storage.LeafSplit
import AmDb.Storage.TreeCall
import AmDb.Storage.TreeSave
import AmDb.Storage.TreeSpec
import AmDb.Storage.TreeHistory
import AmDb.Storage.UnsavedTree
import AmDb.Storage.TreeMap
import AmDb.Codec.IndexKey
import AmDb.Codec.RowRecord
import AmDb.Codec.KeyOrder
import AmDb.Analyzer.SelectAnalyzer
import AmDb.Storage.Metadata
import AmDb.Executor.CreateFailure
import AmDb.Executor.UsableTable
import AmDb.Executor.InsertColumns
import AmDb.Storage.ReadFailure
import AmDb.Storage.SaveFailure
import AmDb.Storage.IdAllocator
import AmDb.Storage.IteratorBounds
import AmDb.Storage.ScanFailure
import AmDb.Scheduler.ChainRun
import AmDb.Optimizer.BestPlan
import AmDb.Optimizer.MemoInvariant
import AmDb.Executor.ScanPages
import AmDb.Storage.NodeReload
import AmDb.Storage.IteratorLookahead
import AmDb.Storage.RangePages
import AmDb.Storage.LeafBytes
import AmDb.Storage.NodeCount
import AmDb.Storage.SizeTaken
import AmDb.Statistics.ValueOrder
import AmDb.Statistics.EquiHeight
import AmDb.Statistics.ColumnStatistic
import AmDb.Schema.TableLookup
import AmDb.Chunk.ReadBack
import AmDb.Chunk.Column
import AmDb.Storage.SessionContents
import AmDb.Expression.ExprObject
import AmDb.Storage.TableRun
import AmDb.Executor.InsertFailure
import AmDb.Storage.TableSharing
import AmDb.Storage.TableOpening
import AmDb.Executor.SelectRows
import AmDb.Executor.InsertStatus
import AmDb.Optimizer.PlanMeaning
import AmDb.Statement.Session
import AmDb.Storage.LeafTable

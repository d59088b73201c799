import AlphaDb.Io.FailedReads
import AlphaDb.Io.FileRuns
import AlphaDb.Io.ForceAll
import AlphaDb.Io.PageScan
import AlphaDb.Io.Replacement
import AlphaDb.Io.StoreRuns
import AlphaDb.Transaction.LockQueue
import AlphaDb.Transaction.EntryLifecycle
import AlphaDb.Transaction.LockBookkeeping
import AlphaDb.Transaction.LockBuckets
import AlphaDb.Transaction.LockConversion
import AlphaDb.Transaction.HandleCache
import AlphaDb.Db.Directory
import AlphaDb.Sql.Comments
import AlphaDb.Raft.Election
import AlphaDb.Raft.Replication
import AlphaDb.Raft.RoundTrip
import AlphaDb.Raft.OneVote
import AlphaDb.Raft.Journal
import AlphaDb.Raft.Durability
import AlphaDb.Network.Conn
import AlphaDb.Network.TimerDispatch
import AlphaDb.Network.TimerCancel
import AlphaDb.Table.Row
import AlphaDb.Network.ThreadPool
import AlphaDb.Table.TableManager
import AlphaDb.Table.TableFormat
import AlphaDb.Network.RpcConn
import AlphaDb.Network.RpcServer
import AlphaDb.Index.Deletion
import AlphaDb.Index.IndexIterator
import AlphaDb.Index.NodePins
import AlphaDb.Index.IndexPage
import AlphaDb.Index.IndexManager
import AlphaDb.Table.TableRuns
import AlphaDb.Table.PinBalance
import AlphaDb.Table.PageChoice
import AlphaDb.Table.UpdateRecord
import AlphaDb.Table.TableIterator
import AlphaDb.Raft.CommitBound
import AlphaDb.Raft.TermRange
import AlphaDb.Network.Varint
import AlphaDb.Network.ReceivedVarint
import AlphaDb.Network.Unget
import AlphaDb.Raft.CommitRule
import AlphaDb.Raft.NextIndex
import AlphaDb.Index.PageFit
import AlphaDb.Index.Descent
import AlphaDb.Sql.Expression
import AlphaDb.Io.PageAddress
import AlphaDb.Index.LeafSearch
import AlphaDb.Index.NodeSplit
import AlphaDb.Index.LeafMap
import AlphaDb.Transaction.TwoPhase
import AlphaDb.Transaction.LockOrder
import AlphaDb.Raft.LockedCluster
import AlphaDb.Io.Sessions
import AlphaDb.Io.ForcedPages
import AlphaDb.Sql.TokenTexts
import AlphaDb.Sql.Grouping
import AlphaDb.Network.EventLoop
import AlphaDb.Network.Poller

import HpDb.CLib
import HpDb.Locking.LockManager
import HpDb.Locking.TransactionManager
import HpDb.Locking.DeadlockSearch
import HpDb.Locking.SelfDeadlock
import HpDb.Concurrency.Serial
import HpDb.Concurrency.TimestampOrdering
import HpDb.Isolation.Database
import HpDb.Isolation.Snapshot
import HpDb.Isolation.WriteThrough
import HpDb.Isolation.Serializable
import HpDb.Recovery.LogReplay
import HpDb.Transactions.WriteAheadLog
import HpDb.Query.Joins
import HpDb.Caching.WriteThroughCache
import HpDb.Caching.WriteBackCache
import HpDb.Sharding.HashSharding
import HpDb.Replication.MasterSlave
import HpDb.Replication.MultiMaster
import HpDb.Consensus.Raft
import HpDb.Consensus.Paxos
import HpDb.Indexing.BTree
import HpDb.Indexing.TrieIndexBTree
import HpDb.Indexing.RTree
import HpDb.Indexing.Trie
import HpDb.Networking.ConsistentHashing
import HpDb.Caching.DistributedCache
import HpDb.Indexing.HashIndex
import HpDb.Sharding.RangeSharding
import HpDb.Indexing.InvertedIndex
import HpDb.Query.NoSQLParser
import HpDb.Consensus.RaftReplication
import HpDb.Query.SQLParser
import HpDb.Containers
import HpDb.Caching.Policy
import HpDb.Caching.LRUCache
import HpDb.Caching.LFUCache
import HpDb.Storage.BufferManager
import HpDb.Transactions.TransactionIds
import HpDb.Query.CostEstimator
import HpDb.Query.DistributedQuery
import HpDb.Recovery.CheckpointRecovery
import HpDb.Storage.RowStore
import HpDb.Networking.RequestPool
import HpDb.Config.ConfigLoader
import HpDb.Storage.RowStoreTables
import HpDb.Networking.LoadBalancer
import HpDb.Storage.ColumnStore

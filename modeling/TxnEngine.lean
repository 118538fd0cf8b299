import TxnEngine.Library.Runs
import TxnEngine.Library.LockTable
import TxnEngine.Library.Arrivals
import TxnEngine.Library.Schedule
import TxnEngine.Concurrency.LockManager
import TxnEngine.Concurrency.LockViews
import TxnEngine.Concurrency.LockSteps
import TxnEngine.Concurrency.Compatibility
import TxnEngine.Concurrency.Completion
import TxnEngine.Concurrency.Ancestors
import TxnEngine.Concurrency.Hierarchy
import TxnEngine.Recovery.LogManager
import TxnEngine.Recovery.RecoveryManager
import TxnEngine.Library.Decimal
import TxnEngine.Storage.DataStore
import TxnEngine.Transaction.TransactionManager
import TxnEngine.Main.State
import TxnEngine.Main.Handlers
import TxnEngine.Main.Steps
import TxnEngine.Main.Story
import TxnEngine.Main.Serial
import TxnEngine.Main.Transactions
import TxnEngine.Main.Abort
import TxnEngine.Main.Pending
import TxnEngine.Main.Commit
import TxnEngine.Recovery.Executions
import TxnEngine.Main.Sessions
import TxnEngine.Recovery.Reruns
import TxnEngine.Transaction.Lifecycle
import TxnEngine.Concurrency.Retention
import TxnEngine.Concurrency.WakeUps
import TxnEngine.Concurrency.Refusals
import TxnEngine.Concurrency.WaitForGraph
import TxnEngine.Recovery.LogText
import TxnEngine.Recovery.LogFields
import TxnEngine.Recovery.LogFile
import TxnEngine.Recovery.TornLogs
import TxnEngine.Main.Durability
import TxnEngine.Concurrency.Requests
import TxnEngine.Concurrency.Overtaking
import TxnEngine.Concurrency.Exchanges
import TxnEngine.Concurrency.Protection
import TxnEngine.Concurrency.Representation
import TxnEngine.Concurrency.Uniqueness
import TxnEngine.Concurrency.WaitQueues
import TxnEngine.Main.Accounting
import TxnEngine.Library.PathTree
import TxnEngine.Main.Calls
import TxnEngine.Main.Keys
import TxnEngine.Main.KeyTree
import TxnEngine.Main.Trials
import TxnEngine.Main.Passes
import TxnEngine.Main.Contention
import TxnEngine.Main.Addresses
import TxnEngine.Main.Holders
import TxnEngine.Main.Obstruction
import TxnEngine.Main.Waiting
import TxnEngine.Main.Order
import TxnEngine.Main.Fixpoint
import TxnEngine.Library.Words
import TxnEngine.Main.Input
import TxnEngine.Main.Moves
import TxnEngine.Main.Printed
import TxnEngine.Main.KeyValues
import TxnEngine.Main.Bookkeeping
import TxnEngine.Main.Recount
import TxnEngine.Concurrency.Addresses
import TxnEngine.Concurrency.Strongest

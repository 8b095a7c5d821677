import GrinPool.HashMap
import GrinPool.Proto
import GrinPool.Pow
import GrinPool.Pipeline
import GrinPool.Pool
import GrinPool.Run
import GrinPool.Shares
import GrinPool.History
import GrinPool.Epoch
import GrinPool.Registry
import GrinPool.Tally
import GrinPool.Jobs
import GrinPool.JobMachine
import GrinPool.Tick
import GrinPool.Ledger
import GrinPool.Acceptor
import GrinPool.Order
import GrinPool.Delivery

import Aspira.Support.Words
import Aspira.Support.OrdMap
import Aspira.Book.Order
import Aspira.Book.OrderBook
import Aspira.Book.Sweep
import Aspira.Book.Moves
import Aspira.Book.Invariant
import Aspira.Book.Reachable
import Aspira.Exchange.Reference
import Aspira.Exchange.Simulation
import Aspira.Book.Ledger
import Aspira.Pool.Exclusive
import Aspira.Journal.Journal
import Aspira.Journal.Sessions
import Aspira.Book.Strike
import Aspira.Support.Text
import Aspira.Support.Decimal
import Aspira.Risk.RiskEngine
import Aspira.Pipeline.HotPath
import Aspira.Pipeline.Submissions
import Aspira.Pipeline.Positions
import Aspira.Pipeline.IoEvent
import Aspira.Pipeline.Stages
import Aspira.Pipeline.Recycling
import Aspira.Pipeline.Shutdown
import Aspira.Risk.Operations
import Aspira.Pipeline.Limits
import Aspira.Pipeline.Gateway
import Aspira.Pipeline.Symbols
import Aspira.Gateway.Message
import Aspira.Gateway.Session
import Aspira.Pipeline.Accounting
import Aspira.Book.Quantity
import Aspira.Book.Depth
import Aspira.Support.Consume
import Aspira.Ring.Spsc
import Aspira.Pool.Conservation
import Aspira.Book.Layout
import Aspira.Book.View
import Aspira.Book.Seen
import Aspira.Book.Untraded
import Aspira.Pipeline.Replay
import Aspira.Journal.Checksum
import Aspira.Journal.Decode
import Aspira.Journal.Appends
import Aspira.Journal.Numbering
import Aspira.Journal.Payload
import Aspira.Risk.Acceptance
import Aspira.Risk.Overflow
import Aspira.Ring.Shared
import Aspira.Logger.Logger
import Aspira.Logger.Circulation
import Aspira.Logger.Delivery
import Aspira.Logger.OneWriter
import Aspira.Logger.Progress
import Aspira.Logger.TwoWriters
import Aspira.Book.Fills
import Aspira.Book.BestExecution
import Aspira.Book.Split
import Aspira.Book.Market
import Aspira.Book.Live
import Aspira.Book.Drain
import Aspira.Risk.Rate
import Aspira.Pipeline.Notional
import Aspira.Risk.SymbolKeys
import Aspira.Feed.Generator
import Aspira.Feed.Channel
import Aspira.Ring.Rounding
import Aspira.Ring.Snapshot
import Aspira.Pool.Sequential
import Aspira.Pool.Foreign
import Aspira.Pipeline.Sequential
import Aspira.Pipeline.Progress
import Aspira.Pipeline.Recovery
import Aspira.Pipeline.Dispatch
import Aspira.Main.Process
import Aspira.Main.Graceful
import Aspira.Main.Interrupts

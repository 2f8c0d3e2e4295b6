import Coinext.Core.Value
import Coinext.Model.Types
import Coinext.Support.DueQueue
import Coinext.Support.Gather
import Coinext.Support.Mutation
import Coinext.Support.Rounding
import Coinext.Support.Run
import Coinext.Model.Order
import Coinext.Model.OrderLog
import Coinext.Model.OrderAverage
import Coinext.Model.Position
import Coinext.Model.Pnl
import Coinext.Model.Entries
import Coinext.Model.MarketData
import Coinext.Model.LevelBook
import Coinext.Core.Clock
import Coinext.Engine.Ports
import Coinext.Engine.Cache
import Coinext.Engine.Risk
import Coinext.Sim.Brokerage
import Coinext.Sim.Venue
import Coinext.Sim.Matching
import Coinext.Sim.Pricing
import Coinext.Engine.Exec
import Coinext.Engine.Exposure
import Coinext.Engine.Ledger
import Coinext.Engine.Redelivery
import Coinext.Engine.Holdings
import Coinext.Engine.PriceLimit
import Coinext.Kernel.Core
import Coinext.Kernel.InFlight
import Coinext.Kernel.Flight
import Coinext.Kernel.Context
import Coinext.Kernel.Backtest
import Coinext.Kernel.NoLookAhead
import Coinext.Kernel.Replay
import Coinext.Kernel.Routing
import Coinext.Kernel.Transcript
import Coinext.Kernel.Outbox
import Coinext.Kernel.Timers
import Coinext.Kernel.FillConservation
import Coinext.Kernel.Delivery
import Coinext.Kernel.Loop
import Coinext.Kernel.NextEvent
import Coinext.Kernel.Live
import Coinext.Kernel.Paper
import Coinext.Kernel.ReportFlow
import Coinext.Kernel.Custody
import Coinext.Kernel.OpenOrders
import Coinext.Kernel.PriceReference
import Coinext.Kernel.Settlement
import Coinext.Kernel.Snapshot
import Coinext.Kernel.Liquidation
import Coinext.Kernel.Parity
import Coinext.Kernel.PositionCap
import Coinext.Kernel.AfterExpiry
import Coinext.Kernel.TPlusOne
import Coinext.Support.Replica
import Coinext.Binance.Wire
import Coinext.Binance.Book
import Coinext.Binance.Coverage
import Coinext.Binance.Depth
import Coinext.Binance.Messages
import Coinext.Binance.Resync
import Coinext.Binance.Rebuild
import Coinext.Binance.Instruments
import Coinext.Binance.Listing
import Coinext.Binance.Exec
import Coinext.Binance.TradeFold
import Coinext.Persist.Store
import Coinext.Persist.PyCursor
import Coinext.Network.Rest
import Coinext.Binance.OrderEntry
import Coinext.Binance.UserStream
import Coinext.ExecSvc.Venue
import Coinext.ExecSvc.Oms
import Coinext.ExecSvc.OpenSet
import Coinext.ExecSvc.Durable
import Coinext.ExecSvc.Identity
import Coinext.ExecSvc.Ambiguity
import Coinext.ExecSvc.Desk
import Coinext.ExecSvc.Lifecycle
import Coinext.ExecSvc.StrategyReplay
import Coinext.ExecSvc.PythonLog
import Coinext.Support.MsgPack
import Coinext.Bus.Frames
import Coinext.Bus.CrossDecode
import Coinext.Support.StreamRead
import Coinext.ExecSvc.RedisLoops
import Coinext.Support.Channel
import Coinext.Sim.Port
import Coinext.RiskMonitor.Supervisor
import Coinext.RiskMonitor.Telemetry
import Coinext.Kernel.Handlers
import Coinext.Kernel.PyStrategy
import Coinext.Kernel.Logged
import Coinext.Kernel.Sessions
import Coinext.Support.Sweep
import Coinext.Broker.AshareRules
import Coinext.Broker.Paper
import Coinext.Broker.StepRule
import Coinext.Broker.Holdings
import Coinext.Broker.Accounting
import Coinext.Broker.SessionDay
import Coinext.Broker.PriceBand
import Coinext.Support.Calendar
import Coinext.Support.StableSort
import Coinext.Ingest.Lake
import Coinext.Ingest.Reader
import Coinext.Ingest.Flush
import Coinext.Ingest.BookGaps
import Coinext.Network.Charging
import Coinext.Kernel.PyPortfolio
import Coinext.Support.Grouping
import Coinext.Analytics.Trades
import Coinext.Kernel.FillsLog
import Coinext.Support.PyText
import Coinext.Ingest.Venues
import Coinext.Ingest.Tickers
import Coinext.Support.DueHistory
import Coinext.Sim.Session
import Coinext.Sim.Quantities
import Coinext.Sim.Provenance
import Coinext.Sim.LimitProtection
import Coinext.Sim.ReportOrder
import Coinext.Sim.Evolution
import Coinext.Sim.StopCompletion
import Coinext.Sim.Trailing
import Coinext.Engine.AllOrNothing
import Coinext.Engine.ZeroDivisor
import Coinext.Sim.Slippage
import Coinext.Sim.QuoteCrossing
import Coinext.Sim.QueuePosition
import Coinext.Kernel.VenueRun
import Coinext.Kernel.Arming
import Coinext.Network.RetrySafety
import Coinext.Support.PercentCode
import Coinext.Network.Query
import Coinext.Core.Validity
import Coinext.Kernel.ValidValues
import Coinext.Model.MidPrice
import Coinext.Ingest.BarStore
import Coinext.Support.Fifo
import Coinext.Analytics.CashFlow
import Coinext.Ingest.Fx
import Coinext.Support.Sift
import Coinext.Ingest.TradingCalendar
import Coinext.Ingest.SessionFilter
import Coinext.Support.Binary64
import Coinext.Optimize.WalkForward
import Coinext.Support.SlidingWindow
import Coinext.Indicators.Rolling
import Coinext.Support.MachineInt
import Coinext.Ingest.LakeMonth
import Coinext.Support.Blocks
import Coinext.Indicators.Resampler
import Coinext.Ingest.TradeBars
import Coinext.Kernel.Termination
import Coinext.Kernel.Report
import Coinext.Analytics.Bias
import Coinext.Kernel.Agreement
import Coinext.Kernel.KillSwitch
import Coinext.Network.Stream
import Coinext.Binance.Reconnect
import Coinext.RiskMonitor.Protections
import Coinext.Support.Accumulate
import Coinext.Screen.SmaCross
import Coinext.Screen.Backtest
import Coinext.Screen.Session
import Coinext.Screen.Parity
import Coinext.Ingest.Sinks
import Coinext.Ingest.Download
import Coinext.Optimize.Search

import TradeProcessor.Library.Raise
import TradeProcessor.Json.Value
import TradeProcessor.Calc
import TradeProcessor.Library.IndexedLists
import TradeProcessor.Window
import TradeProcessor.Passes
import TradeProcessor.CalcSpec
import TradeProcessor.StreamProcessor
import TradeProcessor.CalcFrame
import TradeProcessor.Compute
import TradeProcessor.Ingest
import TradeProcessor.Runs
import TradeProcessor.NonInterference
import TradeProcessor.Arrivals
import TradeProcessor.Published
import TradeProcessor.Admission
import TradeProcessor.History
import TradeProcessor.Library.Machine
import TradeProcessor.System
import TradeProcessor.Pipeline
import TradeProcessor.Consistency
import TradeProcessor.Sequential
import TradeProcessor.Library.Accumulators
import TradeProcessor.WindowLaws
import TradeProcessor.FeatureLaws
import TradeProcessor.Entries
import TradeProcessor.TickCounters
import TradeProcessor.FHAPI
import TradeProcessor.Startup
import TradeProcessor.Stopping
import TradeProcessor.Logger
import TradeProcessor.Snapshots
import TradeProcessor.MergeLaws
import TradeProcessor.Independence
import TradeProcessor.Differences
import TradeProcessor.Pacing
import TradeProcessor.Library.JsonText
import TradeProcessor.Subscriptions
import TradeProcessor.Polling
import TradeProcessor.SymbolKeys
import TradeProcessor.Rehash
import TradeProcessor.Library.Rounding
import TradeProcessor.Library.RelativeError
import TradeProcessor.Doubles
import TradeProcessor.RoundingLaws
import TradeProcessor.Divisions
import TradeProcessor.Progress
import TradeProcessor.Survival
import TradeProcessor.Rounds
import TradeProcessor.Shutdown
import TradeProcessor.Process
import TradeProcessor.Lifetimes
import TradeProcessor.Exit
import TradeProcessor.EntrySpec
import TradeProcessor.Stretches
import TradeProcessor.Holders
import TradeProcessor.Library.Barriers
import TradeProcessor.Histories
import TradeProcessor.Serializable

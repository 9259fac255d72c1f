import MarketDataBook.Library.StepRun
import MarketDataBook.Library.WordBits
import MarketDataBook.Library.ByteMemory
import MarketDataBook.Library.RingIndex
import MarketDataBook.Library.RingMemory
import MarketDataBook.Library.ReleaseAcquire
import MarketDataBook.Library.PassedFlag
import MarketDataBook.Library.FlagRing
import MarketDataBook.Library.IndexChain
import MarketDataBook.Library.LinearProbe
import MarketDataBook.Library.ShiftRegister
import MarketDataBook.Library.PackedLanes
import MarketDataBook.Library.ErrorPatterns
import MarketDataBook.Library.ClassicBpf
import MarketDataBook.StaticOrderMap
import MarketDataBook.OrderMapRefinement
import MarketDataBook.HierarchicalBitset
import MarketDataBook.BitsetRefinement
import MarketDataBook.ItchOrderTypes
import MarketDataBook.LimitOrderBook
import MarketDataBook.BookSteps
import MarketDataBook.BookLayout
import MarketDataBook.BookCalls
import MarketDataBook.FailedCalls
import MarketDataBook.ReferenceBook
import MarketDataBook.BookRefinement
import MarketDataBook.OrderMapWear
import MarketDataBook.MockOrderBook
import MarketDataBook.RandomBookTest
import MarketDataBook.OrphanedOrders
import MarketDataBook.ShareAccounting
import MarketDataBook.SpscQueue
import MarketDataBook.SpscFifo
import MarketDataBook.SpscMemoryOrder
import MarketDataBook.SpscWeakRuns
import MarketDataBook.Telemetry
import MarketDataBook.TelemetryFile
import MarketDataBook.EpollReactor
import MarketDataBook.MagicBuffer
import MarketDataBook.DrainLoop
import MarketDataBook.ReactorLoop
import MarketDataBook.ReactorDescriptors
import MarketDataBook.OuchClient
import MarketDataBook.OuchHandshake
import MarketDataBook.MulticastReceiver
import MarketDataBook.PacketFilter
import MarketDataBook.RingHandover
import MarketDataBook.FrameOverflow
import MarketDataBook.RingMemoryOrder
import MarketDataBook.Crc32
import MarketDataBook.ChecksumDistance
import MarketDataBook.ItchParser
import MarketDataBook.ItchMessages
import MarketDataBook.WriteAheadLog
import MarketDataBook.ParseBlock
import MarketDataBook.RecoveryEngine
import MarketDataBook.FeedPipeline
import MarketDataBook.BlockFraming
import MarketDataBook.ItchEncoding
import MarketDataBook.PayloadOverflow
import MarketDataBook.FeedProgress
import MarketDataBook.RecoveredBook
import MarketDataBook.ParseInPlace
import MarketDataBook.MockMode
import MarketDataBook.MockProgress
import MarketDataBook.CorrectnessCheck
import MarketDataBook.BookInputs
import MarketDataBook.LostOrders
import MarketDataBook.WriteAheadDiscipline
import MarketDataBook.RecoveryBounds
import MarketDataBook.RecoveryOutcome
import MarketDataBook.CrashPoints
import MarketDataBook.KilledRun
import MarketDataBook.LogDurability

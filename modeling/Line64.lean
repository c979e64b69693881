import Line64.Transition
import Line64.Timeline
import Line64.BoundedSteps
import Line64.Mealy
import Line64.RingIndex
import Line64.ClaimLedger
import Line64.ClaimLoop
import Line64.CallOrder
import Line64.SerialCalls
import Line64.Census
import Line64.DrainProtocol
import Line64.ReleaseAcquire
import Line64.SingleWriter
import Line64.AtomicCounters
import Line64.WordMixing
import Line64.TextStream
import Line64.JsonLiteral
import Line64.Result
import Line64.FixedMessageAccess
import Line64.MessageRaces
import Line64.SlotCustody
import Line64.BoundedFifo
import Line64.RetainedHistory
import Line64.MpmcTla
import Line64.MpmcModel
import Line64.MpmcRefinement
import Line64.MpmcDelivery
import Line64.MpmcOwnership
import Line64.MpmcClaimLoop
import Line64.MpmcBoundary
import Line64.MpmcOrder
import Line64.MpmcSerial
import Line64.MpmcWords
import Line64.MpmcMemoryModel
import Line64.MpmcMemoryCustody
import Line64.MpmcMemoryRefinement
import Line64.MpmcMemoryDelivery
import Line64.MpmcMemoryCalls
import Line64.SpscModel
import Line64.SpscFifo
import Line64.SpscOwnership
import Line64.SpscObserver
import Line64.SpscFull
import Line64.SpscSerial
import Line64.SpscMemoryModel
import Line64.SpscMemoryDelivery
import Line64.SpscTla
import Line64.SpscRefinement
import Line64.SequentialFifo
import Line64.MulticastModel
import Line64.MulticastRefinement
import Line64.VersionedModel
import Line64.VersionedInvariant
import Line64.VersionedRead
import Line64.VersionedDelivery
import Line64.VersionedLinearization
import Line64.VersionedConsumers
import Line64.ConsumerHandles
import Line64.VersionedSequential
import Line64.SequentialMulticast
import Line64.MulticastDrain
import Line64.VersionedMemoryModel
import Line64.VersionedMemoryPast
import Line64.VersionedMemoryRead
import Line64.VersionedMemoryDelivery
import Line64.MulticastTla
import Line64.MulticastSpecification
import Line64.WaitFreedom
import Line64.BlockingModel
import Line64.BlockingMutex
import Line64.BlockingWakeup
import Line64.BlockingConservation
import Line64.BlockingStatements
import Line64.BlockingExceptions
import Line64.BlockingTla
import Line64.BenchmarkPayload
import Line64.PayloadCorruption
import Line64.BenchmarkResult
import Line64.BenchmarkConsumers
import Line64.SpscBenchmark
import Line64.WorkSharingBenchmark
import Line64.BenchmarkShutdown
import Line64.BenchmarkSequences
import Line64.BenchmarkDelivery
import Line64.BenchmarkJson
import Line64.BenchmarkOptions
import Line64.StressConfig
import Line64.StressPayload
import Line64.StressMpmc
import Line64.StressMpmcInvariant
import Line64.StressMpmcProducers
import Line64.StressMpmcConsumers
import Line64.StressMpmcDelivery

import EbpfIsp.Library.Loop
import EbpfIsp.Library.HostProgram
import EbpfIsp.Library.Interleaving
import EbpfIsp.Library.Fork
import EbpfIsp.Library.Rows
import EbpfIsp.Library.Lru
import EbpfIsp.Library.Chunks
import EbpfIsp.Device.CInt
import EbpfIsp.Device.Nvme
import EbpfIsp.Kernels.Embedding
import EbpfIsp.Kernels.Npsum
import EbpfIsp.Driver.Layout
import EbpfIsp.Driver.SparseLengthSum
import EbpfIsp.Driver.Isolation
import EbpfIsp.Driver.Table
import EbpfIsp.Driver.Separation
import EbpfIsp.Recsys.Slsload
import EbpfIsp.Recsys.Pooling
import EbpfIsp.Recsys.NdpResults
import EbpfIsp.Recsys.StaticPartitioning
import EbpfIsp.Recsys.Run
import EbpfIsp.Npsum.Matrices
import EbpfIsp.Npsum.Programs
import EbpfIsp.Npsum.Agreement
import EbpfIsp.Npsum.Failures
import EbpfIsp.PatternMatch.Scan
import EbpfIsp.PatternMatch.HostPrograms
import EbpfIsp.PatternMatch.Mtssd
import EbpfIsp.Recsys.BaseRuns
import EbpfIsp.Recsys.DeviceBounds
import EbpfIsp.Driver.Addressing
import EbpfIsp.PatternMatch.Strfilter
import EbpfIsp.Npsum.Workers
import EbpfIsp.Ioctl.Callprog
import EbpfIsp.Kernels.NpsumModes
import EbpfIsp.Recsys.PageBuffer
import EbpfIsp.PatternMatch.Requests
import EbpfIsp.Library.Accumulator
import EbpfIsp.Npsum.Overflow
import EbpfIsp.Library.Ranking
import EbpfIsp.Recsys.HotIndices
import EbpfIsp.Library.Queues
import EbpfIsp.Serving.LoadGenerator
import EbpfIsp.Serving.GeneratorRuns
import EbpfIsp.Serving.InferenceEngine
import EbpfIsp.Serving.Protocol
import EbpfIsp.Serving.Responses
import EbpfIsp.Serving.GeneratorOutput
import EbpfIsp.Serving.Progress
import EbpfIsp.Serving.Phases
import EbpfIsp.Serving.Tuning
import EbpfIsp.Library.LruStack
import EbpfIsp.Recsys.HitRates
import EbpfIsp.Recsys.ExpectedHits
import EbpfIsp.Traces.Generator
import EbpfIsp.Traces.Profile
import EbpfIsp.Traces.RoundTrip
import EbpfIsp.Traces.Pipeline
import EbpfIsp.Traces.Synthetic
import EbpfIsp.Library.Dataflow
import EbpfIsp.Library.Tensor
import EbpfIsp.Network.Operators
import EbpfIsp.Network.Build
import EbpfIsp.Network.Blobs
import EbpfIsp.Network.Graph
import EbpfIsp.Network.Construction
import EbpfIsp.Network.Batches
import EbpfIsp.Network.FlashTables

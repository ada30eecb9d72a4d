import Arkio.LabelledMachine
import Arkio.Bindings
import Arkio.UringContext
import Arkio.UringSteps
import Arkio.UringRouting
import Arkio.UringWaker
import Arkio.UringWakeup
import Arkio.UringExit
import Arkio.UringRounds
import Arkio.UringReturns
import Arkio.UringAnswers
import Arkio.UringClosures
import Arkio.UringStages
import Arkio.UringRollback
import Arkio.UringCancel
import Arkio.UringLocks
import Arkio.RingBuffer
import Arkio.UringCompletions
import Arkio.Buffer
import Arkio.SyncIo
import Arkio.AsyncIo
import Arkio.SequenceLifetime
import Arkio.TcpAsync
import Arkio.SubmissionFailure
import Arkio.FdOwnership
import Arkio.Interleaving
import Arkio.ScatteredStore
import Arkio.Slices
import Arkio.BufferCopy
import Arkio.Transfers
import Arkio.SyncStreams
import Arkio.Devices
import Arkio.RoundTrip
import Arkio.AsyncTransfers
import Arkio.TransferBounds
import Arkio.Walks
import Arkio.TransferEnds
import Arkio.IovMax
import Arkio.SliceContract
import Arkio.Ranks
import Arkio.Coroutine
import Arkio.CoroutineInvariant
import Arkio.CoroutineSteps
import Arkio.CoroutineLives
import Arkio.CoroutineContract
import Arkio.Executions
import Arkio.CoroPrograms
import Arkio.CoroRefinement
import Arkio.CoroFlavours
import Arkio.Proactor
import Arkio.UringProactor
import Arkio.UringProcesses
import Arkio.CoroConfinement
import Arkio.CoroProcesses
import Arkio.Wire
import Arkio.EchoServer
import Arkio.EchoConnections
import Arkio.CallbackPrograms
import Arkio.CallbackProcesses
import Arkio.SyncWait

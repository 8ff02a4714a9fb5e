import IpcBond.Library.Segments
import IpcBond.Library.StateExcept
import IpcBond.Library.Memory
import IpcBond.Library.RefCount
import IpcBond.BufferPool
import IpcBond.BlobCast
import IpcBond.VariableUnsigned
import IpcBond.InputBuffer
import IpcBond.InputCursor
import IpcBond.InputRefinement
import IpcBond.OutputBuffer
import IpcBond.RangeParts
import IpcBond.OutputContents
import IpcBond.OutputRefinement
import IpcBond.OutputEffects
import IpcBond.Refusals
import IpcBond.AllocationFailure
import IpcBond.BufferRange
import IpcBond.TypedStream
import IpcBond.RoundTrip
import IpcBond.PassThrough
import IpcBond.PoolMachine
import IpcBond.PoolLedger
import IpcBond.PoolSteps
import IpcBond.PoolOwnership
import IpcBond.PoolLifetime
import IpcBond.OutputMachine
import IpcBond.BlobOwnership
import IpcBond.OutputOwnership
import IpcBond.Publication
import IpcBond.MemoryOwners
import IpcBond.OwnedRelease
import IpcBond.EndOfInput
import IpcBond.ManagedStreams
import IpcBond.ZeroLength
import IpcBond.VariablePaths
import IpcBond.CastChain
import IpcBond.Narrowing
import IpcBond.Library.Machine
import IpcBond.CopyOut
import IpcBond.ClientAccessor
import IpcBond.RangeChecks
import IpcBond.PoolHomes
import IpcBond.PoolKeepers
import IpcBond.Recycling
import IpcBond.Library.Loop
import IpcBond.ReadTermination
import IpcBond.Library.Interaction
import IpcBond.Library.Once
import IpcBond.AdaptiveReader
import IpcBond.Serializer
import IpcBond.PoolPeak
import IpcBond.CursorRanges
import IpcBond.ReadCost
import IpcBond.DefaultConnector
import IpcBond.ZeroCopy
import IpcBond.OutputFrames
import IpcBond.Layout
import IpcBond.WriteCost
import IpcBond.ManagedRoundTrip
import IpcBond.ManagedNative
import IpcBond.OutputRecycling
import IpcBond.SharedContents
import IpcBond.SharedReading

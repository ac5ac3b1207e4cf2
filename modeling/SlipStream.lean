import SlipStream.Receiver
import SlipStream.Buffer
import SlipStream.BufferFormat
import SlipStream.DecoderReceiver
import SlipStream.DecoderCalls
import SlipStream.DecoderRoundTrip
import SlipStream.ReceiverLimits
import SlipStream.DecoderFrames
import SlipStream.DecoderResync
import SlipStream.DecoderSafety
import SlipStream.Channel
import SlipStream.StreamEncoder
import SlipStream.EncoderQueue
import SlipStream.EncoderSteps
import SlipStream.EncoderReachable
import SlipStream.EncoderPacing
import SlipStream.EncoderFrames
import SlipStream.BinaryDivision
import SlipStream.Crc32
import SlipStream.Crc32Division
import SlipStream.BufferLimits
import SlipStream.EncoderEx
import SlipStream.EncoderMoves
import SlipStream.EncoderAccepting
import SlipStream.EncoderPartial
import SlipStream.Crc32Burst
import SlipStream.Crc32Corruption
import SlipStream.BufferPositions
import SlipStream.EncoderFifo
import SlipStream.ChunkProgress
import SlipStream.DecoderReports
import SlipStream.DecoderResume
import SlipStream.Traces
import SlipStream.EncoderTurns
import SlipStream.EncoderHistory
import SlipStream.EncoderProgress
import SlipStream.Session
import SlipStream.ReceiverSoundness
import SlipStream.DecoderSoundness
import SlipStream.DecodersAgree
import SlipStream.StuffingErrors
import SlipStream.ProtectedFrames
import SlipStream.DecoderMemory
import SlipStream.Memory
import SlipStream.BufferMemory
import SlipStream.EncoderLayout
import SlipStream.BinaryPreimages
import SlipStream.Crc32Completions
import SlipStream.EncoderBatch

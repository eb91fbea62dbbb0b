import So101.Lib.Machine
import So101.Lib.ForwardSimulation
import So101.Lib.AtomicProgram
import So101.Lib.AtomicRegister
import So101.Lib.BinarySemaphore
import So101.Lib.Interlock
import So101.Lib.LockFile
import So101.Lib.StreamDecoder
import So101.Lib.ByteRange
import So101.Lib.Batch
import So101.Lib.GapCount
import So101.Lib.StructLayout
import So101.Lib.StructFormat
import So101.Lib.FlatJson
import So101.Lib.JsonReader
import So101.Lib.RateLimit
import So101.Lib.RetrySchedule
import So101.Lib.SlotGrid
import So101.Lib.Rounding
import So101.Lib.DoubleFormat
import So101.Lib.FloatModel
import So101.Lib.PackedFloat
import So101.Calibration
import So101.FloatLaws
import So101.SingleFloat
import So101.CalibrationMap
import So101.LeaderMap
import So101.FloatMap
import So101.SharedMemory
import So101.CalibrationFile
import So101.TextScan
import So101.FlatCalibration
import So101.CalibrationReaders
import So101.TickConversion
import So101.BridgeParameters
import So101.SharedLayout
import So101.Seqlock
import So101.LiveView
import So101.SupervisorThread
import So101.SupervisorInterlock
import So101.SupervisorFaults
import So101.ServoBus
import So101.PacketCodec
import So101.BusDriver
import So101.ParserBounds
import So101.RequestSizes
import So101.ReceiveLoop
import So101.EchoMode
import So101.JunkFlood
import So101.SyncRead
import So101.Resync
import So101.Corruption
import So101.ReplyStream
import So101.ReplyLength
import So101.ByteConservation
import So101.FakeBus
import So101.RegisterProtocol
import So101.DriverFrame
import So101.FtsTool
import So101.ControlThread
import So101.ControlCycle
import So101.ReopenSchedule
import So101.FixedGrid
import So101.TimingMaxima
import So101.ControlRate
import So101.CycleLog
import So101.LeaderInfluence
import So101.WriteDiscipline
import So101.Transmissions
import So101.SoftStart
import So101.GoalLimit
import So101.GoalRange
import So101.GoalConvergence
import So101.ControlBuses
import So101.LineBytes
import So101.PortSamples
import So101.ServoTable
import So101.ClosedLoop
import So101.LoopRuns
import So101.LoopMotion
import So101.TorqueLockout
import So101.PersistentCause
import So101.PersistTicks
import So101.OverrunWindows
import So101.Mailbox
import So101.MailboxAnswers
import So101.MailboxDelivery
import So101.CommandRounds
import So101.CommandPath
import So101.CommandEffects
import So101.Watchdog
import So101.Deadman
import So101.Lifecycle

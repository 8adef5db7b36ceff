import Mahimahi.Loop
import Mahimahi.Run
import Mahimahi.Machine
import Mahimahi.Outcome
import Mahimahi.PacketQueue
import Mahimahi.DropHead
import Mahimahi.Codel
import Mahimahi.CatchUp
import Mahimahi.Pie
import Mahimahi.EventLoop
import Mahimahi.PriorityQueue
import Mahimahi.DelayQueue
import Mahimahi.LinkQueue
import Mahimahi.LinkClock
import Mahimahi.LinkDelivery
import Mahimahi.LinkService
import Mahimahi.LinkLog
import Mahimahi.ByteString
import Mahimahi.Tokenize
import Mahimahi.ChunkedParser
import Mahimahi.HTTPMessage
import Mahimahi.HTTPBody
import Mahimahi.HTTPParser
import Mahimahi.HTTPStream
import Mahimahi.HTTPCuts
import Mahimahi.HTTPRoundTrip
import Mahimahi.HTTPGrammar
import Mahimahi.ChunkSize
import Mahimahi.ChunkedRun
import Mahimahi.HTTPPairing
import Mahimahi.HTTPAhead
import Mahimahi.HTTPProxy
import Mahimahi.Ring
import Mahimahi.ByteStreamQueue
import Mahimahi.TextLines
import Mahimahi.DelayRule
import Mahimahi.DelayMatch
import Mahimahi.DelaySwitch
import Mahimahi.CodelClock
import Mahimahi.CodelReading
import Mahimahi.LinkPolls
import Mahimahi.LossyFifo
import Mahimahi.BoundedQueue
import Mahimahi.DelayTiming
import Mahimahi.ReplayServer
import Mahimahi.DelayBounds
import Mahimahi.ThroughputGraph
import Mahimahi.LinkGraph
import Mahimahi.QueueCounters
import Mahimahi.LinkSchedule
import Mahimahi.TraceFile
import Mahimahi.LinkAssertions
import Mahimahi.PollTimeout
import Mahimahi.Poller
import Mahimahi.FerryLoop
import Mahimahi.PieCatchUp
import Mahimahi.PieRange
import Mahimahi.WrittenDelay
import Mahimahi.SwitchingLink
import Mahimahi.ContentLength
import Mahimahi.RequestFraming
import Mahimahi.HeaderWhitespace
import Mahimahi.ResponseFraming
import Mahimahi.ReplayChoice
import Mahimahi.LoadTimes
import Mahimahi.ServerDelay
import Mahimahi.QueueArgs
import Mahimahi.LinkOrder
import Mahimahi.LeastDelay
import Mahimahi.DelayGraph
import Mahimahi.RateTrace
import Mahimahi.ShellWords
import Mahimahi.CommandLine
import Mahimahi.ReadWrite
import Mahimahi.PollerRounds
import Mahimahi.DNSProxy
import Mahimahi.Wire
import Mahimahi.HTTPRecord
import Mahimahi.RecordReplay
import Mahimahi.LinkCapacity
import Mahimahi.LiveGraph
import Mahimahi.GraphLines
import Mahimahi.ShellFerry
import Mahimahi.FerryQueues
import Mahimahi.Processes
import Mahimahi.Privileges
import Mahimahi.ReplayShell

import OxyC.Bakery.Accounting
import OxyC.Bakery.Arrivals
import OxyC.Bakery.Closing
import OxyC.Bakery.Deadlock
import OxyC.Bakery.LockDiscipline
import OxyC.Bakery.Overtaking
import OxyC.Bakery.QueueCalls
import OxyC.Bakery.Register
import OxyC.Bakery.ServiceOnce
import OxyC.Bakery.ServiceOrder
import OxyC.Bakery.Sofa
import OxyC.Cshark.Captures
import OxyC.Cshark.FieldRanges
import OxyC.Cshark.HexColumns
import OxyC.Cshark.PacketNumbers
import OxyC.Networking.Blocks
import OxyC.Networking.ChatClosing
import OxyC.Networking.ChatDelivery
import OxyC.Networking.ChatNumbers
import OxyC.Networking.Checksum
import OxyC.Networking.CumulativeAck
import OxyC.Networking.DrainLoop
import OxyC.Networking.FileName
import OxyC.Networking.FlowControl
import OxyC.Networking.HalfOpen
import OxyC.Networking.HandshakeAgreement
import OxyC.Networking.InOrder
import OxyC.Networking.Isolation
import OxyC.Networking.SendLoop
import OxyC.Networking.SlotTable
import OxyC.Networking.TransferClosing
import OxyC.Shell.Activities
import OxyC.Shell.BackgroundWait
import OxyC.Shell.Capacity
import OxyC.Shell.CheckJobs
import OxyC.Shell.Commands
import OxyC.Shell.FgJob
import OxyC.Shell.Fitting
import OxyC.Shell.HopBack
import OxyC.Shell.HopSequence
import OxyC.Shell.JobOrder
import OxyC.Shell.JobTable
import OxyC.Shell.JobTruth
import OxyC.Shell.MissingInput
import OxyC.Shell.PipeEnds
import OxyC.Shell.Recording
import OxyC.Shell.Redirection
import OxyC.Shell.ReplayPlace
import OxyC.Shell.RevealAgain
import OxyC.Shell.RevealErrors
import OxyC.Shell.RevealListing
import OxyC.Shell.TokenRoundTrip
import OxyC.Cshark.ReadBack

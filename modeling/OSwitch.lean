import OSwitch.Lib.Trace
import OSwitch.Lib.Wire
import OSwitch.Lib.Rfc791
import OSwitch.Lib.StreamMerge
import OSwitch.Lib.Monitor
import OSwitch.FrameRoundTrip
import OSwitch.ReceiverTraffic
import OSwitch.SharedQueue
import OSwitch.Concatinator
import OSwitch.MergeRefinement
import OSwitch.MergeProgress
import OSwitch.MergeProperties
import OSwitch.LossyMerge
import OSwitch.CycleEnds
import OSwitch.MessageMixing
import OSwitch.Pipeline
import OSwitch.Channel
import OSwitch.Lib.SharedWait
import OSwitch.ChannelClose
import OSwitch.ChannelStall
import OSwitch.HeaderChecksum
import OSwitch.MessageDecoding
import OSwitch.FragmentLoop
import OSwitch.SenderSequencing
import OSwitch.Lib.ListMerge
import OSwitch.CycleMerge
import OSwitch.Main
import OSwitch.MainProgress
import OSwitch.MainMessages
import OSwitch.MainCycle
import OSwitch.MainOutput
import OSwitch.LockedQueues
import OSwitch.MainQueues
import OSwitch.Lib.Threads
import OSwitch.TcpServer
import OSwitch.TcpServerSafety
import OSwitch.TcpServerLifetime
import OSwitch.TcpServerEvents
import OSwitch.TcpServerClients
import OSwitch.TcpServerProgress
import OSwitch.TcpServerSending
import OSwitch.TcpClient
import OSwitch.TcpClientSafety
import OSwitch.TcpClientLifetime
import OSwitch.TcpClientSockets
import OSwitch.TcpClientHearing
import OSwitch.TcpClientObservers
import OSwitch.TcpClientClosing

import PCom.PubSub.Isolation
import PCom.PubSub.Delivery
import PCom.PubSub.Subscription
import PCom.PubSub.StoredPackets
import PCom.PubSub.ServerFraming
import PCom.PubSub.SubscriberFraming
import PCom.PubSub.Identity
import PCom.PubSub.Commands
import PCom.Router.Pending
import PCom.SlidingWindow.Corruption
import PCom.StopAndWait.Agreement
import PCom.Backup.Contents
import PCom.Router.Answers
import PCom.PubSub.Conversion
import PCom.Http.Reassembly
import PCom.Router.RouteOrder
import PCom.Router.LongestMatch
import PCom.Router.HeaderUpdate
import PCom.Router.OddTail
import PCom.Router.ArpTable
import PCom.Chat.Registry
import PCom.LinkEmulator.Idle
import PCom.WebClient.Session
import PCom.Router.Exchange
import PCom.ArpForwarding.Network
import PCom.PubSub.Grammar
import PCom.WebClient.Framing
import PCom.WebClient.Login
import PCom.WebClient.Status
import PCom.WebClient.Returns
import PCom.SlidingWindow.Detection
import PCom.Http.Unlengthed
import PCom.LinkEmulator.Queue
import PCom.LinkEmulator.Params
import PCom.PubSub.EndToEnd
import PCom.PubSub.ArrayExit
import PCom.StopAndWait.Emulated
import PCom.SlidingWindow.Emulated
import PCom.Mail.ReadLine
import PCom.Chat.Relay
import PCom.WebClient.Buffers
import PCom.Ping.Replies
import PCom.Router.SearchBounds
import PCom.Router.Cells

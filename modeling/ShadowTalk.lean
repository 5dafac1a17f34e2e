import ShadowTalk.Core.LTS
import ShadowTalk.Core.OrderedMap
import ShadowTalk.Core.Bytes
import ShadowTalk.Core.Timer
import ShadowTalk.Core.Duplex
import ShadowTalk.Core.Slots
import ShadowTalk.Core.Unpacker
import ShadowTalk.Core.WriteQueue
import ShadowTalk.Core.CommonPart
import ShadowTalk.Core.BiMap
import ShadowTalk.Sml.Codec
import ShadowTalk.Sml.StreamNet
import ShadowTalk.Sml.Trust
import ShadowTalk.Sml.Phases
import ShadowTalk.Sml.Retransmit
import ShadowTalk.Sml.SharedKey
import ShadowTalk.Sml.AckSound
import ShadowTalk.Sml.Restart
import ShadowTalk.Sml.Redelivery
import ShadowTalk.Sml.UdpLayer
import ShadowTalk.Sml.Segmentation
import ShadowTalk.Sml.AckOrder
import ShadowTalk.Sml.Reassembly
import ShadowTalk.Sml.LateCopy
import ShadowTalk.Sml.StreamTraffic
import ShadowTalk.Sml.AddPeer
import ShadowTalk.Sml.Wire
import ShadowTalk.Sml.Growth
import ShadowTalk.Sml.ByteCursor
import ShadowTalk.Sml.ByteFile
import ShadowTalk.Sml.ByteCompare
import ShadowTalk.Sml.NetworkOrder
import ShadowTalk.Sml.HexKey
import ShadowTalk.Sml.AddressLaws
import ShadowTalk.Sml.OneSession
import ShadowTalk.Sml.StreamHalves
import ShadowTalk.Sml.Tunnel
import ShadowTalk.Sml.EndToEnd
import ShadowTalk.Sml.Finish
import ShadowTalk.Sml.Contact
import ShadowTalk.Sml.PeerIsolation
import ShadowTalk.Sml.PeerList
import ShadowTalk.Core.Mailbox
import ShadowTalk.Sml.Service
import ShadowTalk.Sml.Clients
import ShadowTalk.Sml.Applications
import ShadowTalk.Grpc.Acceptor
import ShadowTalk.Grpc.WriterPointer
import ShadowTalk.Grpc.Chat
import ShadowTalk.Grpc.Arrival
import ShadowTalk.Grpc.ListPeers
import ShadowTalk.Grpc.WriterQueue
import ShadowTalk.Whisper.Isolation
import ShadowTalk.Whisper.Routing
import ShadowTalk.Whisper.WriteFlag
import ShadowTalk.Whisper.UdpService
import ShadowTalk.Ws.SessionTable
import ShadowTalk.Whisper.InOrder
import ShadowTalk.Whisper.Outbox
import ShadowTalk.Ws.DoSession

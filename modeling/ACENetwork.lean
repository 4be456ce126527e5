import ACENetwork.AVStream.Framing
import ACENetwork.BitTorrent.Bencoding.Acceptance
import ACENetwork.BitTorrent.Control
import ACENetwork.BitTorrent.Session.Bitfield
import ACENetwork.BitTorrent.Session.Choking
import ACENetwork.BitTorrent.Session.Connecting
import ACENetwork.BitTorrent.Session.HonestPeers
import ACENetwork.BitTorrent.Session.Isolation
import ACENetwork.BitTorrent.Session.Requests
import ACENetwork.BitTorrent.Session.Selection
import ACENetwork.BitTorrent.Session.Serving
import ACENetwork.BitTorrent.Session.Storage
import ACENetwork.BitTorrent.Tools.OutputPaths
import ACENetwork.BitTorrent.Wire.PeerParser
import ACENetwork.BitTorrent.Wire.RoundTrip
import ACENetwork.DHCP.Bounds
import ACENetwork.DHCP.Discover
import ACENetwork.DHCP.RoundTrip
import ACENetwork.DHCP.Safety
import ACENetwork.FTP.Delivery
import ACENetwork.FTP.HostPort
import ACENetwork.HTTP.ContentLength
import ACENetwork.HTTP.Escaping
import ACENetwork.HTTP.HeaderLookup
import ACENetwork.HTTP.URLPatterns
import ACENetwork.IRC.Client
import ACENetwork.IRC.CommandLine
import ACENetwork.IRC.Mirror
import ACENetwork.IRC.Modes
import ACENetwork.IRC.Names
import ACENetwork.IRC.ParameterLists
import ACENetwork.IRC.RoundTrip
import ACENetwork.IRC.Stringify
import ACENetwork.Net.AsynchConnector
import ACENetwork.Net.AsynchListener
import ACENetwork.Net.ClientConnect
import ACENetwork.Net.CommandLines
import ACENetwork.Net.ConnectionIds
import ACENetwork.Net.Descriptors
import ACENetwork.Net.Listener
import ACENetwork.Net.LogFiles
import ACENetwork.Net.References
import ACENetwork.Net.SessionConfigurations
import ACENetwork.Net.UDPDispatch
import ACENetwork.Net.URLs
import ACENetwork.Net.UUID
import ACENetwork.PCP.RoundTrip
import ACENetwork.POP.Framing
import ACENetwork.POP.Mailbox
import ACENetwork.SMTP.Client
import ACENetwork.SSDP.Session
import ACENetwork.WLAN.InformationElements
import ACENetwork.WLAN.Monitor
import ACENetwork.WLAN.Reassembly
import ACENetwork.WLAN.Subscribers
import ACENetwork.WebSocket.Cuts
import ACENetwork.WebSocket.Streamer

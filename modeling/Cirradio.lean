import Cirradio.NetJoinSecrecy
import Cirradio.NetJoinIsolation
import Cirradio.KeyManager
import Cirradio.KeyMaterial
import Cirradio.OtarRekeying
import Cirradio.OtarIntegrity
import Cirradio.OtarConvergence
import Cirradio.KeyFillPort
import Cirradio.EarlyExit
import Cirradio.KeyFillAuthentication
import Cirradio.EmconLock
import Cirradio.TdmaMacRuns
import Cirradio.ByteWords
import Cirradio.FhssEngine
import Cirradio.HopSequencer
import Cirradio.HopAgreement
import Cirradio.HopCadence
import Cirradio.Retries
import Cirradio.HopSelection
import Cirradio.HopBlacklist
import Cirradio.RouteTable
import Cirradio.FloodingOrder
import Cirradio.RouterLiveness
import Cirradio.PeerDiscovery
import Cirradio.SimChannel
import Cirradio.SlotScheduler
import Cirradio.VoiceCodec
import Cirradio.RadioNode
import Cirradio.RadioNodeTick
import Cirradio.FrameCompletion
import Cirradio.BestWalks
import Cirradio.RouteExploration
import Cirradio.RouteTrace
import Cirradio.ChannelPasses
import Cirradio.FrameSteps
import Cirradio.EmconManager
import Cirradio.EmissionControl
import Cirradio.DataDelivery
import Cirradio.SharedKeys
import Cirradio.Rendezvous
import Cirradio.AxiRegs
import Cirradio.AxiWrites
import Cirradio.AxiReads
import Cirradio.AxiStrobes
import Cirradio.RegisterLaw
import Cirradio.AxiDriver
import Cirradio.HopKey
import Cirradio.BlacklistLoading
import Cirradio.EmconReadback
import Cirradio.EmconHardware
import Cirradio.EmconShell
import Cirradio.SlotExclusion
import Cirradio.KeyFillHonestGun
import Cirradio.CryptoCommand
import Cirradio.KeyIndependence
import Cirradio.Zeroization
import Cirradio.ParsingLoops
import Cirradio.KeyedLoops
import Cirradio.HostileLengths
import Cirradio.NetIsolation
import Cirradio.ChannelDelivery
import Cirradio.Modem
import Cirradio.ModemStages
import Cirradio.SerializerBits
import Cirradio.Scrambler
import Cirradio.TransposerRuns
import Cirradio.InterleaverRuns
import Cirradio.ModemLoopback
import Cirradio.KeyManagerFailures
import Cirradio.Ledgers
import Cirradio.KeyHandles
import Cirradio.FillScrubbing
import Cirradio.FillFraming
import Cirradio.InterleaverBounds
import Cirradio.Ad9361Rx
import Cirradio.JitterBuffer
import Cirradio.JitterStreams
import Cirradio.JitterLosses
import Cirradio.JitterPolls
import Cirradio.UncheckedCalls
import Cirradio.EciesDecrypt
import Cirradio.LinkSymmetry
import Cirradio.GpsHoldover
import Cirradio.SlotMaps
import Cirradio.TransecConfig
import Cirradio.Numerals
import Cirradio.CliShell
import Cirradio.ShellConsistency
import Cirradio.ShellNumbers
import Cirradio.PeerRoutes
import Cirradio.NextHops
import Cirradio.MeshForwarding
import Cirradio.Ad9361Tx
import Cirradio.ComponentManager
import Cirradio.BulkLifecycle
import Cirradio.CostasLoop
import Cirradio.GardnerTed
import Cirradio.OnceGuarded
import Cirradio.Tampering
import Cirradio.DriverRuns
import Cirradio.VoiceTraffic
import Cirradio.Pkcs11
import Cirradio.Pkcs11Hsm
import Cirradio.SoftHsm
import Cirradio.HandleInvariants
import Cirradio.SharedToken
import Cirradio.VendorHsm
import Cirradio.CounterWindows
import Cirradio.BeaconRotation

import GecRelay.Gec.ChannelRuns
import GecRelay.Gec.CtrReuse
import GecRelay.Gec.ReadBack
import GecRelay.Gcm.CipherBlocks
import GecRelay.Gcm.Collision
import GecRelay.Smaccm.UartIn
import GecRelay.Smaccm.Reassembly
import GecRelay.Curve25519.Donna
import GecRelay.Sts.Agreement
import GecRelay.Sts.Erasure
import GecRelay.KeyExchange.Run
import GecRelay.KeyExchange.Handover
import GecRelay.KeyExchange.Seed
import GecRelay.Relay.Transparent
import GecRelay.Relay.Laundering
import GecRelay.Relay.Reparse
import GecRelay.Relay.DecryptAgree
import GecRelay.Relay.Backlog
import GecRelay.Relay.DequeWords
import GecRelay.Relay.FitsBuffer
import GecRelay.Relay.RingCalls
import GecRelay.Uart.Forward
import GecRelay.Spi.Transfer
import GecRelay.Ground.Receive
import GecRelay.Ground.Resync
import GecRelay.Ground.PacketLoss

import TlZephyr.SpinelUnpackSafe
import TlZephyr.RcpRequest
import TlZephyr.FrameCrypto
import TlZephyr.Msgq
import TlZephyr.RingBufFifo
import TlZephyr.Pipe
import TlZephyr.Mpsc
import TlZephyr.SpscPbuf
import TlZephyr.Pbuf
import TlZephyr.StreamFlash
import TlZephyr.RbCorrect
import TlZephyr.MemBlocks
import TlZephyr.CoapRoundTrip
import TlZephyr.NetPktPull
import TlZephyr.FcbWalk
import TlZephyr.OmaTlvWalk
import TlZephyr.CoapParse
import TlZephyr.CoapBlock
import TlZephyr.KTimer
import TlZephyr.HashMapOa
import TlZephyr.OnoffAsserts
import TlZephyr.KPollNotify
import TlZephyr.HeapBuckets
import TlZephyr.OtbrMdns
import TlZephyr.WorkDelayed
import TlZephyr.TcpReno
import TlZephyr.CoapFind
import TlZephyr.CoapFull
import TlZephyr.TcpSend
import TlZephyr.BitarrayRegion
import TlZephyr.ModemCmux

import Libiapp.Runs
import Libiapp.Words
import Libiapp.Tiling
import Libiapp.Shm
import Libiapp.ShmTiling
import Libiapp.Kqueue
import Libiapp.Fde
import Libiapp.FdeEffect
import Libiapp.FdeRunloop
import Libiapp.FdeLists
import Libiapp.FdeGeneration
import Libiapp.FdeOrder
import Libiapp.FdeTime
import Libiapp.FdeTimers
import Libiapp.Batch
import Libiapp.Kernel
import Libiapp.KernelBatch
import Libiapp.KernelRegister
import Libiapp.KernelAgree
import Libiapp.Lifecycle
import Libiapp.Comm
import Libiapp.CommHandlers
import Libiapp.CommInvariant
import Libiapp.CommStream
import Libiapp.CommDatagram
import Libiapp.CommCalls
import Libiapp.CommFace
import Libiapp.CommOnce
import Libiapp.CommInput
import Libiapp.CommAnswer
import Libiapp.CommEffect
import Libiapp.CommQueue
import Libiapp.CommWakeup
import Libiapp.Clt
import Libiapp.CltConn
import Libiapp.CltPool
import Libiapp.CltTick
import Libiapp.CommClose
import Libiapp.CommFdes
import Libiapp.FdeOnce
import Libiapp.FdeTimeout
import Libiapp.FdeSleep
import Libiapp.CommIo
import Libiapp.CommFrame
import Libiapp.CommSilence
import Libiapp.CommLayer
import Libiapp.CommLate
import Libiapp.CommPrimed
import Libiapp.UdpClt
import Libiapp.UdpSend
import Libiapp.CommWire
import Libiapp.CommReport
import Libiapp.FdeUser
import Libiapp.ShmUniform
import Libiapp.Netbuf
import Libiapp.NetbufSafe
import Libiapp.Debug
import Libiapp.DebugLog
import Libiapp.Thr
import Libiapp.CommPort
import Libiapp.Conn
import Libiapp.ConnLife
import Libiapp.ConnComm
import Libiapp.ConnClient
import Libiapp.Custody
import Libiapp.Srv
import Libiapp.SrvClient
import Libiapp.SrvHandoff
import Libiapp.SrvCarries
import Libiapp.SrvRoster
import Libiapp.SrvListen
import Libiapp.FdeChanges
import Libiapp.FdeRecords
import Libiapp.FdeTimerLoop
import Libiapp.FdeServe
import Libiapp.ShmWrap
import Libiapp.SrvConfig
import Libiapp.SrvBuffers
import Libiapp.SrvFit

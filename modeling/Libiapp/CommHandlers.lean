import Libiapp.Comm
import Libiapp.Runs

/-! The handlers of comm.c, the calls of its clients, and the machine they make. -/
namespace Libiapp.Comm
open CommStatus hiding none
open Runs

def commCbRead (s : State) : State :=
  let s := { s with c.r.isReady := true }
  if !s.c.r.isActive then s else s.add .readCb

def stopReading (s : State) : State :=
  let s := s.delete .read
  { s with c.r.isRead := false, c.r.isReady := false }

-- comm_cb_read_cb behind its closing branch. The fd of a callback fde is -1.
def commCbReadIo (s : State) (sys : Sys) : State :=
  if !s.c.r.isActive then stopReading s else
    let s := { s with log := .readReturned sys.ret sys.errno::s.log }
    if sys.ret < 0 ∧ transient sys.errno then s else
      let s := { s with c.r.isActive := false }
      let st := if sys.ret = 0 then eof else if sys.ret < 0 then error else completed
      let s := if st ≠ completed then stopReading s else s
      s.invoke (.read s.c.r.cb (-1) s.c.r.cbdata st sys.ret) .tail

def commCbReadCb (s : State) (sys : Sys) : State :=
  if s.c.isClosing then
    let s := { s with c.r.isActive := false }
    s.invoke (.read s.c.r.cb (-1) s.c.r.cbdata closing 0) .readClosing
  else commCbReadIo s sys

def commCbReadClosed (s : State) (sys : Sys) : State :=
  let s := stopReading s
  if commIsCloseReady s.c then commStartCleanup s else commCbReadIo s sys

def commCbWrite (s : State) : State :=
  let s := { s with c.w.isReady := true }
  if !s.c.w.isActive then s else s.add .writeCb

def commCbWriteComplete (s : State) (ret : Int) : State :=
  if ret ≥ 0 ∧ s.c.w.offset < s.c.w.len then s else
    let s := { s with c.w.isActive := false }
    let st := if ret < 0 then error else if ret = 0 then eof else completed
    s.invoke (.write s.c.w.cb s.c.fd s.c.w.cbdata st s.c.w.offset) .tail

-- A write that takes everything is reported by the next one, which returns 0.
def commCbWriteIo (s : State) (sys : Sys) : State :=
  if !s.c.w.isActive || !s.c.w.isReady then s
  else if sys.ret < 0 ∧ transient sys.errno then s
  else
    let s := if sys.ret > 0 then { s with c.w.offset := s.c.w.offset + sys.ret } else s
    if sys.ret ≤ 0 then commCbWriteComplete s sys.ret else s

def commCbWriteCb (s : State) (sys : Sys) : State :=
  if s.c.isClosing then
    let s := { s with c.w.isActive := false, c.w.isReady := false }
    s.invoke (.write s.c.w.cb s.c.fd s.c.w.cbdata closing s.c.w.offset) .writeClosing
  else commCbWriteIo s sys

def commCbWriteClosed (s : State) (sys : Sys) : State :=
  if commIsCloseReady s.c then commStartCleanup s else commCbWriteIo s sys

-- One round of the accept() loop. errno is read again after fde_add(), which is taken to
-- leave it alone.
def commCbAcceptNext (s : State) (sys : Sys) : State :=
  if sys.ret < 0 then
    let s := s.add .accept
    if transient sys.errno then s
    else s.invoke (.accept s.c.a.cb s.c.fd s.c.a.cbdata error (-1) sys.errno) .tail
  else s.invoke (.accept s.c.a.cb s.c.fd s.c.a.cbdata completed sys.ret 0) .acceptLoop

def commCbAcceptIo (s : State) (sys : Sys) : State :=
  if !s.c.a.isActive then s else commCbAcceptNext s sys

def commCbAccept (s : State) (sys : Sys) : State :=
  if s.c.isClosing then
    let s := { s with c.a.isActive := false }
    s.invoke (.accept s.c.a.cb s.c.fd s.c.a.cbdata closing 0 0) .acceptClosing
  else commCbAcceptIo s sys

def commCbAcceptClosed (s : State) (sys : Sys) : State :=
  if commIsCloseReady s.c then commStartCleanup s else commCbAcceptIo s sys

-- The last part of comm_cb_cleanup: fde_free() of all ten fdes and free().
def commCbCleanupFree (s : State) : State :=
  { s with
    armed := fun _ => false
    freed := true
    log := if s.c.doClose then .closedFd s.c.fd::s.log else s.log }

def commCbCleanup (s : State) : State :=
  match s.c.c.cb with
  | none => commCbCleanupFree s
  | some cb => s.invoke (.close cb s.c.fd s.c.c.cbdata) .cleanup

-- There is no closing branch here.
def commCbConnect (s : State) (sys : Sys) : State :=
  let errno := if sys.ret = 0 then sys.soError else sys.errno
  if sys.ret = 0 ∧ errno = eInprogress then s.add .connect
  else
    let s := { s with c.co.isActive := false }
    if sys.ret = 0 ∧ errno = 0 then s.invoke (.connect s.c.co.cb s.c.fd s.c.co.cbdata completed 0) .tail
    else s.invoke (.connect s.c.co.cb s.c.fd s.c.co.cbdata error errno) .tail

def commCbConnectStartIo (s : State) (sys : Sys) : State :=
  if !s.c.co.isActive then s
  else if sys.ret < 0 ∧ sys.errno = eInprogress then s.add .connect
  else
    let s := { s with c.co.isActive := false }
    let st := if sys.ret < 0 then error else completed
    s.invoke (.connect s.c.co.cb s.c.fd s.c.co.cbdata st (if sys.ret = 0 then 0 else sys.errno)) .tail

def commCbConnectStart (s : State) (sys : Sys) : State :=
  if s.c.isClosing then
    let s := { s with c.co.isActive := false }
    s.invoke (.connect s.c.co.cb s.c.fd s.c.co.cbdata closing 0) .startClosing
  else commCbConnectStartIo s sys

def commCbConnectStartClosed (s : State) (sys : Sys) : State :=
  if commIsCloseReady s.c then commStartCleanup s else commCbConnectStartIo s sys

def commCbUdpReadIo (s : State) (sys : Sys) : State :=
  if !s.c.udpR.isActive then s else
    let s := s.add .udpRead
    match sys.frame with
    | none => s.invoke (.udpRead s.c.udpR.cb s.c.fd s.c.udpR.cbdata none error eNomem) .tail
    | some id =>
      if sys.ret < 0 then s.invoke (.udpRead s.c.udpR.cb s.c.fd s.c.udpR.cbdata none error sys.errno) .tail
      else s.invoke (.udpRead s.c.udpR.cb s.c.fd s.c.udpR.cbdata (some ⟨id,s.c.udpR.maxlen,sys.ret⟩) completed 0) .tail

def commCbUdpRead (s : State) (sys : Sys) : State :=
  if s.c.isClosing then
    let s := { s with c.udpR.isActive := false }
    s.invoke (.udpRead s.c.udpR.cb s.c.fd s.c.udpR.cbdata none closing eNomem) .udpReadClosing
  else commCbUdpReadIo s sys

def commCbUdpReadClosed (s : State) (sys : Sys) : State :=
  if commIsCloseReady s.c then commStartCleanup s else commCbUdpReadIo s sys

/- The frame at the head of w_q goes to the client. -/
def handFrame (s : State) (fr : Frame) (rest : List Frame) (st : CommStatus) (nwritten xerrno : Int) (ctl : Ctl) :
    State :=
  let s := { s with c.udpW.wQ := rest, c.udpW.qlen := s.c.udpW.qlen - 1 }
  s.invoke (.udpWrite s.c.udpW.cb s.c.fd s.c.udpW.cbdata fr st nwritten xerrno) ctl

-- One round of the sendto() loop. It ends with a re-prime if frames are left.
def commCbUdpWriteNext (s : State) (sys : Sys) : State :=
  match s.c.udpW.wQ with
  | [] => s
  | fr::rest =>
    if sys.ret < 0 then
      if transient sys.errno || sys.errno == eIntr then { s with c.udpW.isPrimed := true }.add .udpWrite
      else handFrame s fr rest error 0 sys.errno .udpSend
    else handFrame s fr rest (if sys.ret = fr.len then completed else error) sys.ret 0 .udpSend

def commCbUdpWriteIo (s : State) (sys : Sys) : State :=
  if !s.c.udpW.isActive || !s.c.udpW.isPrimed then s
  else commCbUdpWriteNext { s with c.udpW.isPrimed := false } sys

-- One round of the closing loop, and what follows it.
def commCbUdpWriteDrain (s : State) (sys : Sys) : State :=
  match s.c.udpW.wQ with
  | fr::rest => handFrame s fr rest closing 0 0 .udpDrain
  | [] =>
    let s := { s with c.udpW.isActive := false, c.udpW.isPrimed := false, log := .udpWriteStopped::s.log }
    if commIsCloseReady s.c then commStartCleanup s else commCbUdpWriteIo s sys

def commCbUdpWrite (s : State) (sys : Sys) : State :=
  if s.c.isClosing then commCbUdpWriteDrain s sys else commCbUdpWriteIo s sys

def startReading (s : State) : State :=
  let s := { s with c.r.isRead := true, log := if s.armed .read then s.log else .readRegistered::s.log }
  s.add .read

def commRead (s : State) (buf : Nat) (len : Int) (cb cbdata : Nat) : State × Int :=
  if s.c.r.isActive then (s,-1) else
    let s := { s with c.r.cb := cb, c.r.cbdata := cbdata, c.r.buf := buf, c.r.len := len, c.r.isActive := true }
    let s := if !s.c.r.isRead then startReading s else s
    (if s.c.r.isReady then s.add .readCb else s,1)

def commWrite (s : State) (nb : Nat) (nbStartOffset len : Int) (cb cbdata : Nat) : State × Int :=
  if s.c.w.isActive then (s,-1) else
    let s := { s with
      c.w.cb := cb, c.w.cbdata := cbdata, c.w.nb := nb, c.w.nbStartOffset := nbStartOffset
      c.w.len := len, c.w.offset := 0 }
    let s := if !s.c.w.isWrite then { s.add .write with c.w.isWrite := true } else s
    let s := { s with c.w.isActive := true }
    (if s.c.w.isReady then s.add .writeCb else s,0)

def commListen (s : State) (cb cbdata : Nat) : State × Int :=
  if s.c.a.isActive then (s,-1) else
    let s := { s with c.a.cb := cb, c.a.cbdata := cbdata }
    ({ s.add .accept with c.a.isActive := true },0)

def sizeofSockaddrStorage : Nat := 128

def commConnect (s : State) (sin slen cb cbdata : Nat) : State × Int :=
  if s.c.co.isActive then (s,-1)
  else if slen > sizeofSockaddrStorage then (s,-1)
  else
    let s := { s with c.co.cb := cb, c.co.cbdata := cbdata, c.co.sin := sin, c.co.slen := slen, c.co.isActive := true }
    (s.add .connectStart,0)

def commUdpRead (s : State) (cb cbdata : Nat) (maxlen : Int) : State × Int :=
  if s.c.udpR.isActive then (s,-1) else
    let s := { s with c.udpR.cb := cb, c.udpR.cbdata := cbdata, c.udpR.isActive := true, c.udpR.maxlen := maxlen }
    (s.add .udpRead,0)

def commUdpWriteSetup (s : State) (cb cbdata : Nat) (qlen : Int) : State × Int :=
  if s.c.udpW.isActive then (s,-1) else
    ({ s with
      c.udpW.cb := cb, c.udpW.cbdata := cbdata, c.udpW.isActive := true, c.udpW.isPrimed := false
      c.udpW.maxQlen := qlen, c.udpW.qlen := 0 },0)

def commUdpWrite (s : State) (fr : Frame) : State × Int :=
  if !s.c.udpW.isActive || s.c.isClosing then (s,-1)
  else if s.c.udpW.qlen ≥ s.c.udpW.maxQlen then (s,-1)
  else
    let s := { s with c.udpW.wQ := s.c.udpW.wQ ++ [fr], c.udpW.qlen := s.c.udpW.qlen + 1 }
    (if !s.c.udpW.isPrimed then { s with c.udpW.isPrimed := true }.add .udpWrite else s,0)

-- comm_close hands an active read or write to its handler and stops an idle one.
def closeReading (s : State) : State :=
  if s.c.r.isActive then s.add .readCb
  else if s.c.r.isRead then { s.delete .read with c.r.isRead := false } else s

def closeWriting (s : State) : State :=
  if s.c.w.isActive then s.add .writeCb
  else if s.c.w.isWrite then { s.delete .write with c.w.isWrite := false } else s

def commClose (s : State) : State :=
  if s.c.isClosing then s else
    let s := { s with c.isClosing := true }
    let s := closeReading s
    let s := closeWriting s
    if !commIsCloseReady s.c then s else commStartCleanup s

def commMarkNonclose (s : State) : State := { s with c.doClose := false }

-- A void function counts as returning 0.
def commCall (s : State) : Call → State × Int
  | .read buf len cb cbdata => commRead s buf len cb cbdata
  | .write nb nbStartOffset len cb cbdata => commWrite s nb nbStartOffset len cb cbdata
  | .listen cb cbdata => commListen s cb cbdata
  | .connect sin slen cb cbdata => commConnect s sin slen cb cbdata
  | .udpRead cb cbdata maxlen => commUdpRead s cb cbdata maxlen
  | .udpWriteSetup cb cbdata qlen => commUdpWriteSetup s cb cbdata qlen
  | .udpWrite fr => commUdpWrite s fr
  | .close => (commClose s,0)
  | .markNonclose => (commMarkNonclose s,0)

def client (s : State) (call : Call) : State :=
  let result := commCall s call
  { result.1 with log := .called call result.2::result.1.log }

def fired (s : State) (e : CommFde) : State :=
  { s with armed := if e.persist then s.armed else Function.update s.armed e false, log := .fired e::s.log }

def handle (s : State) (sys : Sys) : CommFde → State
  | .read => commCbRead s
  | .readCb => commCbReadCb s sys
  | .write => commCbWrite s
  | .writeCb => commCbWriteCb s sys
  | .accept => commCbAccept s sys
  | .connect => commCbConnect s sys
  | .connectStart => commCbConnectStart s sys
  | .cleanup => commCbCleanup s
  | .udpRead => commCbUdpRead s sys
  | .udpWrite => commCbUdpWrite s sys

def goOn (s : State) (sys : Sys) : Ctl → State
  | .idle | .tail => s
  | .readClosing => commCbReadClosed s sys
  | .writeClosing => commCbWriteClosed s sys
  | .acceptClosing => commCbAcceptClosed s sys
  | .acceptLoop => commCbAcceptNext s sys
  | .startClosing => commCbConnectStartClosed s sys
  | .udpReadClosing => commCbUdpReadClosed s sys
  | .udpDrain => commCbUdpWriteDrain s sys
  | .udpSend => commCbUdpWriteNext s sys
  | .cleanup => commCbCleanupFree s

inductive Act where
  | client (call : Call)
  | fire (e : CommFde) (sys : Sys)
  | resume (sys : Sys)
  deriving DecidableEq, Repr

def step (s : State) : Act → State
  | .client call => client s call
  | .fire e sys => handle (fired s e) sys e
  | .resume sys => goOn { s with ctl := .idle } sys s.ctl

/- Client code runs at any time while the object lives, an fde fires between
handlers and only while it is active, and callbacks return. -/
def Allowed (s : State) : Act → Prop
  | .client _ => s.freed = false
  | .fire e _ => s.ctl = .idle ∧ s.armed e = true
  | .resume _ => s.ctl ≠ .idle

instance (s : State) : (a : Act) → Decidable (Allowed s a)
  | .client _ => inferInstanceAs (Decidable (s.freed = false))
  | .fire e _ => inferInstanceAs (Decidable (s.ctl = .idle ∧ s.armed e = true))
  | .resume _ => inferInstanceAs (Decidable (s.ctl ≠ .idle))

def Created (s : State) : Prop := ∃ fd cb cbdata, s = commCreate fd cb cbdata

def commMachine : Machine State Act := ⟨Created,Allowed,step⟩

instance (s a) : Decidable (commMachine.allowed s a) := inferInstanceAs (Decidable (Allowed s a))

def Call.starts : Call → Bool
  | .close | .markNonclose => false
  | _ => true

/- No operation is started after comm_close. -/
def Disciplined (s : State) : Act → Prop
  | .client call => call.starts = true → s.c.isClosing = false
  | _ => True

instance (s : State) : (a : Act) → Decidable (Disciplined s a)
  | .client call => inferInstanceAs (Decidable (call.starts = true → s.c.isClosing = false))
  | .fire .. => isTrue trivial
  | .resume _ => isTrue trivial

def disciplinedMachine : Machine State Act := commMachine.guard Disciplined

instance (s a) : Decidable (disciplinedMachine.allowed s a) :=
  inferInstanceAs (Decidable ((commMachine.guard Disciplined).allowed s a))

/- The callback in which a handler has just stopped. -/
def calling (s : State) : Option Callback :=
  match s.ctl,s.log with
  | .idle,_ => Option.none
  | _,.invoked callback::_ => some callback
  | _,_ => Option.none

end Libiapp.Comm

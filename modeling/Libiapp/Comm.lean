import Mathlib.Logic.Function.Basic

/-! comm.c: the state of one fde_comm and its handlers. Of the fde layer a comm
object sees only which of its ten fdes are active (`armed`). Callbacks are client
code: a handler stops where it calls one, and `Ctl` says where it goes on. Flags
are Booleans, function pointers, buffers and addresses are numbers, and the
results of the system calls come from outside. `log` records what happened, the
newest first. -/
namespace Libiapp.Comm

inductive CommStatus where | none | completed | closing | error | eof | aborted
  deriving DecidableEq, Repr

def eIntr : Int := 4
def eNomem : Int := 12
def eAgain : Int := 35
def eWouldblock : Int := 35
def eInprogress : Int := 36

structure Frame where
  id : Nat
  size : Int
  len : Int
  deriving DecidableEq, Repr

structure ReadState where
  isActive : Bool
  isReady : Bool
  isRead : Bool
  buf : Nat
  len : Int
  cb : Nat
  cbdata : Nat
  deriving DecidableEq, Repr

structure WriteState where
  isActive : Bool
  isReady : Bool
  isWrite : Bool
  nb : Nat
  nbStartOffset : Int
  offset : Int
  len : Int
  cb : Nat
  cbdata : Nat
  deriving DecidableEq, Repr

structure CloseState where
  cb : Option Nat
  cbdata : Nat
  deriving DecidableEq, Repr

structure AcceptState where
  isActive : Bool
  cb : Nat
  cbdata : Nat
  deriving DecidableEq, Repr

structure ConnectState where
  isActive : Bool
  cb : Nat
  cbdata : Nat
  sin : Nat
  slen : Nat
  deriving DecidableEq, Repr

structure UdpReadState where
  maxlen : Int
  isActive : Bool
  cb : Nat
  cbdata : Nat
  deriving DecidableEq, Repr

structure UdpWriteState where
  isActive : Bool
  isPrimed : Bool
  maxQlen : Int
  qlen : Int
  wQ : List Frame
  cb : Nat
  cbdata : Nat
  deriving DecidableEq, Repr

structure FdeComm where
  fd : Int
  doClose : Bool
  isClosing : Bool
  isCleanup : Bool
  r : ReadState
  w : WriteState
  c : CloseState
  a : AcceptState
  co : ConnectState
  udpR : UdpReadState
  udpW : UdpWriteState
  deriving DecidableEq, Repr

inductive CommFde where
  | read | readCb | write | writeCb | accept | connect | connectStart | cleanup | udpRead | udpWrite
  deriving DecidableEq, Repr

-- FDE_F_PERSIST: only these two stay registered when they fire.
def CommFde.persist : CommFde → Bool
  | .read | .write => true
  | _ => false

inductive Call where
  | read (buf : Nat) (len : Int) (cb cbdata : Nat)
  | write (nb : Nat) (nbStartOffset len : Int) (cb cbdata : Nat)
  | listen (cb cbdata : Nat)
  | connect (sin slen cb cbdata : Nat)
  | udpRead (cb cbdata : Nat) (maxlen : Int)
  | udpWriteSetup (cb cbdata : Nat) (qlen : Int)
  | udpWrite (fr : Frame)
  | close
  | markNonclose
  deriving DecidableEq, Repr

inductive Callback where
  | read (cb : Nat) (fd : Int) (cbdata : Nat) (status : CommStatus) (retval : Int)
  | write (cb : Nat) (fd : Int) (cbdata : Nat) (status : CommStatus) (nwritten : Int)
  | accept (cb : Nat) (fd : Int) (cbdata : Nat) (status : CommStatus) (newfd xerrno : Int)
  | connect (cb : Nat) (fd : Int) (cbdata : Nat) (status : CommStatus) (retval : Int)
  | udpRead (cb : Nat) (fd : Int) (cbdata : Nat) (fr : Option Frame) (status : CommStatus) (xerrno : Int)
  | udpWrite (cb : Nat) (fd : Int) (cbdata : Nat) (fr : Frame) (status : CommStatus) (nwritten xerrno : Int)
  | close (cb : Nat) (fd : Int) (cbdata : Nat)
  deriving DecidableEq, Repr

inductive Ev where
  | called (call : Call) (ret : Int)
  | invoked (callback : Callback)
  | fired (e : CommFde)
  | readRegistered
  | readReturned (ret errno : Int)
  | udpWriteStopped
  | closedFd (fd : Int)
  deriving DecidableEq, Repr

/- Where a handler waits for a callback to return. `tail` is behind a callback that
is the handler's last statement. -/
inductive Ctl where
  | idle | tail | readClosing | writeClosing | acceptClosing | acceptLoop | startClosing
  | udpReadClosing | udpDrain | udpSend | cleanup
  deriving DecidableEq, Repr

structure State where
  c : FdeComm
  armed : CommFde → Bool
  ctl : Ctl
  freed : Bool
  log : List Ev

/- Results of the system call that a handler makes before it stops: its return value,
errno behind it, the SO_ERROR value, and the frame that malloc() gives. -/
structure Sys where
  ret : Int
  errno : Int
  soError : Int
  frame : Option Nat
  deriving DecidableEq, Repr

def transient (errno : Int) : Bool := errno == eAgain || errno == eWouldblock

-- fde_add and fde_delete
def State.add (s : State) (e : CommFde) : State := { s with armed := Function.update s.armed e true }

def State.delete (s : State) (e : CommFde) : State := { s with armed := Function.update s.armed e false }

def State.invoke (s : State) (callback : Callback) (ctl : Ctl) : State :=
  { s with ctl := ctl, log := .invoked callback::s.log }

def commIsCloseReady (c : FdeComm) : Bool :=
  if !c.isClosing then false else
    !c.r.isActive && !c.w.isActive && !c.a.isActive && !c.co.isActive && !c.udpR.isActive && !c.udpW.isActive

def commStartCleanup (s : State) : State :=
  if !s.c.isClosing then s
  else if s.c.isCleanup then s
  else if !commIsCloseReady s.c then s
  else { s with c.isCleanup := true }.add .cleanup

def commCreate (fd : Int) (cb : Option Nat) (cbdata : Nat) : State :=
  ⟨⟨fd,true,false,false,⟨false,false,false,0,0,0,0⟩,⟨false,false,false,0,0,0,0,0,0⟩,⟨cb,cbdata⟩,⟨false,0,0⟩,
    ⟨false,0,0,0,0⟩,⟨0,false,0,0⟩,⟨false,false,0,0,[],0,0⟩⟩,fun _ => false,.idle,false,[]⟩

end Libiapp.Comm

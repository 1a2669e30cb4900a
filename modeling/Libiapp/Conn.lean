import Libiapp.CommPort

/-! conn.c: a connection that writes one buffer over and over, its owner, and the two
deferred callbacks that end it. The owner is client code: in each state notification the
conn stops (`stack` says behind which ones it goes on) and the owner may call conn_close
before it returns. The fde_comm is the port of CommPort.lean. A call that would follow a
NULL pointer ends the run. -/
namespace Libiapp.Connection
open Runs Comm

inductive ConnState where | none | connecting | running | error | closing | freeing
  deriving DecidableEq, Repr

structure Conn where
  fd : Int
  comm : Option Nat
  state : ConnState
  bufSize : UInt64
  cb : Option Nat
  cbdata : Nat
  statsCb : Option Nat
  totalWritten : UInt64
  writeCloseThr : UInt64
  deriving DecidableEq, Repr

/- The notifications that conn.c makes. -/
inductive Note where | error | closing | freeing
  deriving DecidableEq, Repr

def Note.state : Note → ConnState
  | .error => .error
  | .closing => .closing
  | .freeing => .freeing

/- The callbacks that are given a conn. -/
inductive Entry where | write | close | cleanup
  deriving DecidableEq, Repr

inductive Ev where
  | entered (callback : Entry)
  | set (st : ConnState)
  | notified (note : Note)
  | stats (tx : Int)
  | commWrite (comm : Option Nat)
  | commClose (comm : Option Nat)
  | commNotNull
  | freed
  deriving DecidableEq, Repr

/- `evCleanup` is the pointer to the cleanup fde, with its is_active. -/
structure State where
  c : Conn
  port : Port
  evCleanup : Option Bool
  stack : List Note
  freed : Bool
  crashed : Bool
  log : List Ev
  deriving DecidableEq, Repr

def State.become (s : State) (st : ConnState) : State := { s with c.state := st, log := .set st::s.log }

def commWrite (s : State) : State :=
  { s with
    port := if s.c.comm.isSome then portStep s.port .write else s.port
    crashed := s.crashed || s.c.comm.isNone
    log := .commWrite s.c.comm::s.log }

def commClose (s : State) : State :=
  { s with
    port := if s.c.comm.isSome then portStep s.port .close else s.port
    crashed := s.crashed || s.c.comm.isNone
    log := .commClose s.c.comm::s.log }

-- conn_close behind its notification
def connCloseTail (s : State) : State := { commClose s with c.comm := none }

-- client_ev_cleanup_cb behind its notification
def clientEvCleanupTail (s : State) : State := { s with evCleanup := none, freed := true, log := .freed::s.log }

def behind (s : State) : Note → State
  | .error => s
  | .closing => connCloseTail s
  | .freeing => clientEvCleanupTail s

def notify (s : State) (note : Note) : State :=
  match s.c.cb with
  | none => behind s note
  | some _ => { s with stack := note::s.stack, log := .notified note::s.log }

def connClose (s : State) : State :=
  if s.c.state = .closing then s else notify (s.become .closing) .closing

def connFail (s : State) : State := notify (s.become .error) .error

-- nwritten is an int, and is converted where it meets a uint64_t or a size_t.
def connWriteCb (s : State) (status : CommStatus) (nwritten : Int) : State :=
  if s.c.state ≠ .running then s
  else if status ≠ .completed then connFail s
  else
    let s := { s with
      c.totalWritten := s.c.totalWritten + UInt64.ofInt nwritten
      log := if s.c.statsCb.isSome then .stats nwritten::s.log else s.log }
    if s.c.writeCloseThr ≠ 0 ∧ s.c.totalWritten > s.c.writeCloseThr then connClose s
    else if UInt64.ofInt nwritten ≠ s.c.bufSize then connFail s
    else commWrite s

-- fde_add does nothing for an fde that is active.
def clientEvCloseCb (s : State) : State :=
  { s with
    c.comm := none
    evCleanup := s.evCleanup.map (fun _ => true)
    crashed := s.crashed || s.evCleanup.isNone }

def clientEvCleanupCb (s : State) : State :=
  let s := if s.c.comm.isSome then { s with log := .commNotNull::s.log } else s
  notify s .freeing

/- Which of the allocations of conn_new succeed, those inside comm_create and fde_create
included. -/
structure Allocs where
  conn : Bool
  readBuf : Bool
  netbuf : Bool
  comm : Bool
  evCleanup : Bool
  deriving DecidableEq, Repr

def connNew (alloc : Allocs) (fd : Int) (comm : Nat) (ioSize : UInt64) (cb : Option Nat) (cbdata : Nat) : Option State :=
  if !alloc.conn || !alloc.readBuf || !alloc.netbuf then none else
    let c : Conn := ⟨fd,if alloc.comm then some comm else none,.none,ioSize,none,0,none,0,0⟩
    let s : State := ⟨c,⟨false,false,false⟩,if alloc.evCleanup then some false else none,[],false,false,[]⟩
    let s := s.become .running
    some (commWrite { s with c.cb := cb, c.cbdata := cbdata })

def connSetStatsCb (s : State) (cb : Option Nat) : State := { s with c.statsCb := cb }

inductive Act where
  | connClose
  | connSetStatsCb (cb : Option Nat)
  | setThreshold (thr : UInt64)
  | wrote (status : CommStatus) (nwritten : Int)
  | closed
  | cleanup
  | ret
  deriving DecidableEq, Repr

def State.enter (s : State) (callback : Entry) : State := { s with log := .entered callback::s.log }

def step (s : State) : Act → State
  | .connClose => connClose s
  | .connSetStatsCb cb => connSetStatsCb s cb
  | .setThreshold thr => { s with c.writeCloseThr := thr }
  | .wrote status nwritten =>
    connWriteCb { s.enter .write with port := portStep s.port (.wrote status nwritten) } status nwritten
  | .closed => clientEvCloseCb { s.enter .close with port := portStep s.port .closed }
  | .cleanup => clientEvCleanupCb { s.enter .cleanup with evCleanup := some false }
  | .ret =>
    match s.stack with
    | [] => s
    | note::rest => behind { s with stack := rest } note

/- The owner acts at any time until the conn is freed. The event loop calls back between
notifications: the comm as its port allows it, the cleanup fde while it is active. That the
conn still exists then is not assumed. -/
def Allowed (s : State) (a : Act) : Prop :=
  s.crashed = false ∧
    match a with
    | .connClose | .connSetStatsCb _ | .setThreshold _ => s.freed = false
    | .wrote status nwritten => s.stack = [] ∧ PortAllowed s.port (.wrote status nwritten)
    | .closed => s.stack = [] ∧ PortAllowed s.port .closed
    | .cleanup => s.stack = [] ∧ s.evCleanup = some true
    | .ret => s.stack ≠ []

instance (s : State) : (a : Act) → Decidable (Allowed s a)
  | .connClose => inferInstanceAs (Decidable (s.crashed = false ∧ s.freed = false))
  | .connSetStatsCb _ => inferInstanceAs (Decidable (s.crashed = false ∧ s.freed = false))
  | .setThreshold _ => inferInstanceAs (Decidable (s.crashed = false ∧ s.freed = false))
  | .wrote _ _ => inferInstanceAs (Decidable (s.crashed = false ∧ s.stack = [] ∧ s.port.writing = true))
  | .closed => inferInstanceAs (Decidable (s.crashed = false ∧ s.stack = [] ∧
      s.port.closing = true ∧ s.port.writing = false ∧ s.port.closed = false))
  | .cleanup => inferInstanceAs (Decidable (s.crashed = false ∧ s.stack = [] ∧ s.evCleanup = some true))
  | .ret => inferInstanceAs (Decidable (s.crashed = false ∧ s.stack ≠ []))

def allSucceed : Allocs := ⟨true,true,true,true,true⟩

def Created (s : State) : Prop := ∃ fd comm ioSize cb cbdata, connNew allSucceed fd comm ioSize cb cbdata = some s

def connMachine : Machine State Act := ⟨Created,Allowed,step⟩

instance (s a) : Decidable (connMachine.allowed s a) := inferInstanceAs (Decidable (Allowed s a))

end Libiapp.Connection

import Libiapp.CommWakeup

/-! clt.c: a client that keeps a number of connections open and reads from them. A timer
opens connections, a few at a time; a connection that fails or ends is closed, and freed
when its comm has gone. Each conn stands with its comm, whose callbacks run where its
handlers stop. A call on a NULL pointer, or a conn freed under its comm, is a `fault`.
conn_write_cb is not part of this: the program no longer writes. -/
namespace Libiapp.Clt
open Runs
open Libiapp.Comm (CommFde CommStatus Sys disciplinedMachine)

inductive ConnState where | none | connecting | running | error | closing | freeing
  deriving DecidableEq, Repr

/- `linked` says whether c->comm still points to the comm, and `evCleanup` is the pointer to
the cleanup fde with its is_active. -/
structure Conn where
  comm : Comm.State
  linked : Bool
  state : ConnState
  evCleanup : Option Bool
  totalRead : UInt64
  buf : Nat
  size : Int

structure CltApp where
  maxIoSize : Int
  nconns : Int
  connrate : Int
  numClients : Int
  totalRead : UInt64
  totalWritten : UInt64
  totalOpened : UInt64
  totalClosed : UInt64
  deriving DecidableEq, Repr

/- What the code of a conn works on. -/
structure Scope where
  c : Conn
  r : CltApp
  fault : Bool

-- The callbacks that a conn gives its comm, as numbers.
def connCloseCbFn : Nat := 1
def connConnectCbFn : Nat := 2
def connReadCbFn : Nat := 3

def connClose (x : Scope) : Scope :=
  if x.c.state = .closing then x else
    let x := { x with c.state := .closing }
    if !x.c.linked then { x with fault := true } else
      { x with
        c.comm := Comm.client x.c.comm .close
        c.linked := false
        r.totalClosed := x.r.totalClosed + 1 }

def commRead (x : Scope) : Scope :=
  if !x.c.linked then { x with fault := true } else
    { x with c.comm := Comm.client x.c.comm (.read x.c.buf x.c.size connReadCbFn 0) }

def thrcltConnUpdateCb (x : Scope) (newstate : ConnState) : Scope :=
  if newstate = .error then connClose x
  else if newstate = .freeing then
    if x.r.numClients = 0 then x else { x with r.numClients := x.r.numClients - 1 }
  else x

def connReadCb (x : Scope) (s : CommStatus) (retval : Int) : Scope :=
  if s ≠ .completed then connClose x
  else if retval > 0 then
    commRead { x with
      c.totalRead := x.c.totalRead + UInt64.ofInt retval
      r.totalRead := x.r.totalRead + UInt64.ofInt retval }
  else commRead x

def connCloseCb (x : Scope) : Scope :=
  match x.c.evCleanup with
  | none => { x with fault := true }
  | some _ => { x with c.evCleanup := some true }

def connConnectCb (x : Scope) (status : CommStatus) : Scope :=
  if status ≠ .completed then thrcltConnUpdateCb { x with c.state := .error } .error
  else
    let x := thrcltConnUpdateCb { x with c.state := .running } .running
    if x.c.state ≠ .running then x
    else commRead { x with r.totalOpened := x.r.totalOpened + 1 }

def enter (x : Scope) (comm : Comm.State) : Scope :=
  let x := { x with c.comm := comm }
  match Comm.calling comm with
  | some (.connect _ _ _ status _) => connConnectCb x status
  | some (.read _ _ _ status retval) => connReadCb x status retval
  | some (.close ..) => connCloseCb x
  | _ => x

/- A line of thrclt_stat_print. -/
structure Report where
  numClients : Int
  totalOpened : UInt64
  totalClosed : UInt64
  totalWritten : UInt64
  totalRead : UInt64
  deriving DecidableEq, Repr

/- `opening` is the counter of thrclt_ev_newconn_cb while its loop runs. -/
structure State where
  r : CltApp
  conns : List Conn
  evNewconn : Bool
  evStats : Bool
  opening : Option Int
  reports : List Report
  fault : Bool

/- What thrclt_open_new_conn meets: the lookup fails, memory is short, socket() fails,
comm_create fails, or there is a conn, with or without its cleanup fde. -/
inductive Open where
  | lookup
  | memory
  | socket
  | comm
  | conn (fd : Int) (buf : Nat) (event : Bool) (sin slen : Nat)
  deriving DecidableEq, Repr

def connNew (r : CltApp) (fd : Int) (buf : Nat) (event : Bool) : Conn :=
  ⟨Comm.commCreate fd (some connCloseCbFn) 0,true,.none,if event then some false else none,0,buf,r.maxIoSize⟩

-- When socket() fails the conn is freed and then read, and a NULL comm is made non-blocking.
def thrcltOpenNewConn (s : State) : Open → State × Int
  | .lookup | .memory => (s,-1)
  | .socket | .comm => ({ s with fault := true },-1)
  | .conn fd buf event sin slen =>
    let c := { connNew s.r fd buf event with state := .connecting }
    let c := { c with comm := Comm.client c.comm (.connect sin slen connConnectCbFn 0) }
    ({ s with conns := s.conns ++ [c], r.numClients := s.r.numClients + 1 },0)

-- The end of thrclt_ev_newconn_cb, which arms its timer again.
def State.opened (s : State) : State := { s with opening := none, evNewconn := true }

def State.loop (s : State) (i : Int) : State :=
  if s.r.numClients < s.r.nconns then { s with opening := some i } else s.opened

def openRound (s : State) (i : Int) (res : Open) : State :=
  let result := thrcltOpenNewConn s res
  if result.2 < 0 then result.1.opened
  else if i + 1 > s.r.connrate then result.1.opened
  else result.1.loop (i + 1)

def thrcltEvNewconnCb (s : State) : State := s.loop 0

def thrcltStatPrint (s : State) : State :=
  { s with
    reports := ⟨s.r.numClients,s.r.totalOpened,s.r.totalClosed,s.r.totalWritten,s.r.totalRead⟩::s.reports
    r.totalRead := 0, r.totalWritten := 0, r.totalOpened := 0, r.totalClosed := 0
    evStats := true }

-- The conn is freed after its owner was told.
def connEvCleanupCb (s : State) (i : Nat) (c : Conn) : State :=
  let x := thrcltConnUpdateCb ⟨{ c with evCleanup := some false },s.r,s.fault || !c.comm.freed⟩ .freeing
  { s with conns := s.conns.eraseIdx i, r := x.r, fault := x.fault }

structure Args where
  nconns : Int
  connrate : Int
  bufsize : Int
  deriving DecidableEq, Repr

def thrcltNew (args : Args) : State :=
  ⟨⟨args.bufsize,args.nconns,args.connrate,0,0,0,0,0⟩,[],true,true,none,[],false⟩

inductive Act where
  | newconn
  | round (res : Open)
  | stats
  | fire (i : Nat) (e : CommFde) (sys : Sys)
  | resume (i : Nat) (sys : Sys)
  | cleanup (i : Nat)
  deriving DecidableEq, Repr

def State.inConn (s : State) (i : Nat) (c : Conn) (a : Comm.Act) : State :=
  let x := enter ⟨c,s.r,s.fault⟩ (Comm.step c.comm a)
  { s with conns := s.conns.set i x.c, r := x.r, fault := x.fault }

def step (s : State) : Act → State
  | .newconn => thrcltEvNewconnCb { s with evNewconn := false }
  | .round res => openRound s (s.opening.getD 0) res
  | .stats => thrcltStatPrint { s with evStats := false }
  | .fire i e sys =>
    match s.conns[i]? with
    | none => s
    | some c => s.inConn i c (.fire e sys)
  | .resume i sys =>
    match s.conns[i]? with
    | none => s
    | some c => s.inConn i c (.resume sys)
  | .cleanup i =>
    match s.conns[i]? with
    | none => s
    | some c => connEvCleanupCb s i c

/- Between two callbacks of the event loop. -/
def Between (s : State) : Prop := s.opening = none ∧ ∀ c ∈ s.conns, c.comm.ctl = .idle

instance (s) : Decidable (Between s) := inferInstanceAs (Decidable (_ ∧ _))

-- An address that getaddrinfo() returns fits into a sockaddr_storage.
def Open.Fits : Open → Prop
  | .conn _ _ _ _ slen => slen ≤ Comm.sizeofSockaddrStorage
  | _ => True

instance : (res : Open) → Decidable res.Fits
  | .conn _ _ _ _ slen => inferInstanceAs (Decidable (slen ≤ Comm.sizeofSockaddrStorage))
  | .lookup | .memory | .socket | .comm => isTrue trivial

def Allowed (s : State) (a : Act) : Prop :=
  s.fault = false ∧
    match a with
    | .newconn => Between s ∧ s.evNewconn = true
    | .round res => s.opening.isSome = true ∧ res.Fits
    | .stats => Between s ∧ s.evStats = true
    | .fire i e _ => Between s ∧ ∃ c ∈ s.conns[i]?, c.comm.armed e = true
    | .resume i _ => ∃ c ∈ s.conns[i]?, c.comm.ctl ≠ .idle
    | .cleanup i => Between s ∧ ∃ c ∈ s.conns[i]?, c.evCleanup = some true

instance (s : State) : (a : Act) → Decidable (Allowed s a)
  | .newconn => inferInstanceAs (Decidable (s.fault = false ∧ Between s ∧ s.evNewconn = true))
  | .round res => inferInstanceAs (Decidable (s.fault = false ∧ s.opening.isSome = true ∧ res.Fits))
  | .stats => inferInstanceAs (Decidable (s.fault = false ∧ Between s ∧ s.evStats = true))
  | .fire i e _ => inferInstanceAs (Decidable (s.fault = false ∧ Between s ∧ ∃ c ∈ s.conns[i]?, c.comm.armed e = true))
  | .resume i _ => inferInstanceAs (Decidable (s.fault = false ∧ ∃ c ∈ s.conns[i]?, c.comm.ctl ≠ .idle))
  | .cleanup i =>
    inferInstanceAs (Decidable (s.fault = false ∧ Between s ∧ ∃ c ∈ s.conns[i]?, c.evCleanup = some true))

def cltMachine (args : Args) : Machine State Act := ⟨fun s => s = thrcltNew args,Allowed,step⟩

instance (args s a) : Decidable ((cltMachine args).allowed s a) := inferInstanceAs (Decidable (Allowed s a))

end Libiapp.Clt

import Libiapp.ConnLife
import Libiapp.Custody

/-! srv.c: server threads that accept on one listen socket, hand accepted descriptors to
each other, and serve each of them with a conn. A connection is named by how many were
accepted before it, for descriptors are used again. The lists of a thread are read and
written by the thread alone, newfd_list by others too, under newfd_lock; so what a callback
does to them is one step, and so is one round of the loop in thrsrv_run_deferred. -/
namespace Libiapp.Srv
open Runs Comm Connection

structure Cfg where
  numThreads : Nat
  ioSize : UInt64
  doFdAffinity : Int
  deriving DecidableEq, Repr

structure NewFd where
  id : Nat
  newfd : Int
  flowid : UInt32
  deriving DecidableEq, Repr

structure Client where
  id : Nat
  flowid : UInt32
  conn : Connection.State
  deriving DecidableEq, Repr

/- `newfdLock` says that the thread is inside thrsrv_run_deferred. -/
structure Thr where
  appId : Nat
  newfdList : List NewFd
  newfdLock : Bool
  connList : List Client
  numClients : Int
  deriving DecidableEq, Repr

/- `closed` has an entry for each close() of an accepted descriptor, `released` one for each
connection that nothing refers to any more. -/
structure Server where
  cfg : Cfg
  threads : List Thr
  accepted : Nat
  closed : List Nat
  released : List Nat
  crashed : Bool
  deriving DecidableEq, Repr

-- Callbacks are named by numbers.
def thrsrvConnUpdateCbId : Nat := 1
def thrsrvConnStatsUpdateCbId : Nat := 2

/- What calloc() and malloc() give in a step. -/
structure Memory where
  newfd : Bool
  conn : Allocs
  comm : Nat
  deriving DecidableEq, Repr

def Server.setThr (sys : Server) (i : Nat) (r : Thr) : Server := { sys with threads := sys.threads.set i r }

def Server.on (sys : Server) (i : Nat) (f : Thr → Server) : Server :=
  match sys.threads[i]? with
  | none => sys
  | some r => f r

-- close(newfd) where the connection is given up
def Server.giveUp (sys : Server) (id : Nat) : Server :=
  { sys with closed := id::sys.closed, released := id::sys.released }

def thrsrvNewfdEnqueue (mem : Memory) (new : NewFd) (dr : Thr) : Option Thr :=
  if mem.newfd then some { dr with newfdList := dr.newfdList ++ [new] } else none

def thrsrvFlowidToThread (flowid : UInt32) : Int := if flowid = 0 then -1 else (flowid &&& 7).toNat

def thrsrvFinishSetup (sys : Server) (mem : Memory) (i : Nat) (new : NewFd) : Server :=
  sys.on i fun r =>
    match connNew mem.conn new.newfd mem.comm sys.cfg.ioSize (some thrsrvConnUpdateCbId) i with
    | none => sys.giveUp new.id
    | some c =>
      if c.crashed then { sys with crashed := true } else
        let c := connSetStatsCb c (some thrsrvConnStatsUpdateCbId)
        sys.setThr i { r with connList := r.connList ++ [⟨new.id,new.flowid,c⟩], numClients := r.numClients + 1 }

/- The thread that thrsrv_acceptfd hands a connection to, if it does not keep it. -/
def destination (cfg : Cfg) (appId : Nat) (flowid : UInt32) : Option Nat :=
  let thrId := thrsrvFlowidToThread flowid
  if cfg.doFdAffinity = 1 ∧ thrId ≠ -1 ∧ thrId ≠ appId then some (thrId % cfg.numThreads).toNat else none

def thrsrvAcceptfd (sys : Server) (mem : Memory) (i : Nat) (s : CommStatus) (newfd : Int) (flowid : UInt32) : Server :=
  sys.on i fun r =>
    if s ≠ .completed then sys else
      let new : NewFd := ⟨sys.accepted,newfd,flowid⟩
      let sys := { sys with accepted := sys.accepted + 1 }
      match destination sys.cfg r.appId flowid with
      | some thrId => sys.on thrId fun dr =>
        match thrsrvNewfdEnqueue mem new dr with
        | none => sys.giveUp new.id
        | some dr => sys.setThr thrId dr
      | none => thrsrvFinishSetup sys mem i new

/- thrsrv_run_deferred: it takes the lock, empties newfd_list and gives the lock back. -/
def deferredLock (sys : Server) (i : Nat) : Server := sys.on i fun r => sys.setThr i { r with newfdLock := true }

def deferredRound (sys : Server) (mem : Memory) (i : Nat) : Server :=
  sys.on i fun r =>
    match r.newfdList with
    | [] => sys
    | th::rest => thrsrvFinishSetup (sys.setThr i { r with newfdList := rest }) mem i th

def deferredUnlock (sys : Server) (i : Nat) : Server := sys.on i fun r => sys.setThr i { r with newfdLock := false }

/- What thrsrv_conn_update_cb does to the conn. The CLOSING notification that its conn_close
makes is for the same callback, which ignores it. -/
def thrsrvConnUpdateCb (c : Connection.State) : Note → Connection.State
  | .error =>
    let c := connClose c
    match c.stack with
    | .closing::_ => Connection.step c .ret
    | _ => c
  | .closing | .freeing => c

def settle (c : Connection.State) : Connection.State :=
  match c.stack with
  | [] => c
  | note::_ => Connection.step (thrsrvConnUpdateCb c note) .ret

/- A callback of the event loop on the conn of a client. In a FREEING notification the owner
takes the client off its list; behind the close callback comm_cb_cleanup closes the descriptor. -/
def connCalled (sys : Server) (i k : Nat) (a : Connection.Act) : Server :=
  sys.on i fun r =>
    match r.connList[k]? with
    | none => sys
    | some c =>
      let called := Connection.step c.conn a
      let conn := settle called
      if conn.crashed then { sys with crashed := true }
      else if called.stack = [.freeing] then
        { sys.setThr i { r with connList := r.connList.eraseIdx k, numClients := r.numClients - 1 } with
          released := c.id::sys.released }
      else
        let sys := if a = .closed then { sys with closed := c.id::sys.closed } else sys
        sys.setThr i { r with connList := r.connList.set k { c with conn := conn } }

inductive Act where
  | accept (i : Nat) (s : CommStatus) (newfd : Int) (flowid : UInt32) (mem : Memory)
  | lock (i : Nat)
  | round (i : Nat) (mem : Memory)
  | unlock (i : Nat)
  | conn (i k : Nat) (a : Connection.Act)
  deriving DecidableEq, Repr

def step (sys : Server) : Act → Server
  | .accept i s newfd flowid mem => thrsrvAcceptfd sys mem i s newfd flowid
  | .lock i => deferredLock sys i
  | .round i mem => deferredRound sys mem i
  | .unlock i => deferredUnlock sys i
  | .conn i k a => connCalled sys i k a

def Server.locked (sys : Server) (i : Nat) : Bool := sys.threads[i]?.any Thr.newfdLock

-- The callbacks that a conn gets from the event loop.
def loops : Connection.Act → Bool
  | .wrote .. | .closed | .cleanup => true
  | _ => false

/- A thread runs one callback at a time, and newfd_lock keeps the others from its queue. -/
def Allowed (sys : Server) (a : Act) : Prop :=
  sys.crashed = false ∧
    match a with
    | .accept i s _ flowid mem => i < sys.threads.length ∧ sys.locked i = false ∧
        (s = .completed → mem.newfd = true → ∀ j ∈ destination sys.cfg i flowid, sys.locked j = false)
    | .lock i => i < sys.threads.length ∧ sys.locked i = false
    | .round i _ => ∃ r, sys.threads[i]? = some r ∧ r.newfdLock = true ∧ r.newfdList ≠ []
    | .unlock i => ∃ r, sys.threads[i]? = some r ∧ r.newfdLock = true ∧ r.newfdList = []
    | .conn i k a => loops a = true ∧ sys.locked i = false ∧
        ∃ r, sys.threads[i]? = some r ∧ ∃ c, r.connList[k]? = some c ∧ Connection.Allowed c.conn a

def started (cfg : Cfg) : Server :=
  ⟨cfg,(List.range cfg.numThreads).map fun i => ⟨i,[],false,[],0⟩,0,[],[],false⟩

def serverMachine : Machine Server Act := ⟨fun sys => ∃ cfg, sys = started cfg,Allowed,step⟩

end Libiapp.Srv

import Libiapp.SrvCarries

/-! The conn_lists of a server, as the numbers of the connections on them. A step puts one
connection on a list where conn_new succeeds, takes one off where client_ev_cleanup_cb frees
its conn, and else leaves the lists as they are. -/
namespace Libiapp.Srv
open Runs

/- The connections that a thread has conns for. -/
def clients (sys : Server) (i : Nat) : List Nat := sys.threads[i]?.elim [] fun r => r.connList.map Client.id

/- The connection that conn_new is called for. -/
def subject (sys : Server) : Act → Nat
  | .round i _ => ((sys.threads[i]?.bind fun r => r.newfdList.head?).map NewFd.id).getD 0
  | _ => sys.accepted

/- The connection whose conn client_ev_cleanup_cb frees. -/
def frees (sys : Server) : Act → Option Nat
  | .conn i k .cleanup => (sys.threads[i]?.bind fun r => r.connList[k]?).map Client.id
  | _ => none

section Clients
variable {sys : Server} {i : Nat} {r : Thr}

theorem clientsFound (found : sys.threads[i]? = some r) : clients sys i = r.connList.map Client.id := by
  simp only [clients,found,Option.elim_some]

theorem clientsSet (found : sys.threads[i]? = some r) (r' : Thr) :
    clients (sys.setThr i r') = Function.update (clients sys) i (r'.connList.map Client.id) := by
  funext j
  rcases eq_or_ne j i with rfl | other
  · rw [Function.update_self]
    exact clientsFound (List.getElem?_set_self (List.getElem?_eq_some_iff.mp found).1)
  · rw [Function.update_of_ne other]
    simp only [clients,Server.setThr,List.getElem?_set_ne other.symm]

theorem clientsSame (found : sys.threads[i]? = some r) {r' : Thr}
    (same : r'.connList.map Client.id = r.connList.map Client.id) : clients (sys.setThr i r') = clients sys := by
  rw [clientsSet found,same,← clientsFound found,Function.update_eq_self]

theorem clientsIds (found : sys.threads[i]? = some r) {id} (mem : id ∈ clients sys i) : id ∈ r.ids := by
  rw [clientsFound found] at mem
  exact List.mem_append_right _ mem

/- What is in hand is nobody's. -/
theorem clientsFresh {id hand} (keeps : Keeps (id::hand) sys) (j : Nat) : id ∉ clients sys j := by
  cases found : sys.threads[j]? with
  | none => simp [clients,found]
  | some r => exact fun mem => keepsFresh keeps found (clientsIds found mem)

theorem finishGiven {mem} {new : NewFd} (found : sys.threads[i]? = some r)
    (given : mem.conn.conn = true ∧ mem.conn.readBuf = true ∧ mem.conn.netbuf = true)
    (up : (thrsrvFinishSetup sys mem i new).crashed = false) :
    clients (thrsrvFinishSetup sys mem i new) = Function.update (clients sys) i (clients sys i ++ [new.id]) := by
  obtain ⟨conn,readBuf,netbuf⟩ := given
  rw [thrsrvFinishSetup,onFound _ found] at up ⊢
  split
  · rename_i none
    simp [Connection.connNew,conn,readBuf,netbuf] at none
  · rename_i c made
    simp only [made] at up
    split
    · rename_i crashed
      rw [if_pos crashed] at up
      contradiction
    · rw [clientsSet found,clientsFound found]
      simp

theorem finishRefused {mem} {new : NewFd} (found : sys.threads[i]? = some r)
    (refused : ¬ (mem.conn.conn = true ∧ mem.conn.readBuf = true ∧ mem.conn.netbuf = true)) :
    thrsrvFinishSetup sys mem i new = sys.giveUp new.id := by
  rw [thrsrvFinishSetup,onFound _ found]
  split
  · rfl
  · rename_i c made
    exact absurd (newSource made).1 refused

/- A step in which conn_new is called has the connection in hand there. -/
structure Finishes (sys : Server) (a : Act) (alloc : Connection.Allocs) (sys' : Server) (mem : Memory)
    (new : NewFd) : Prop where
  memory : mem.conn = alloc
  finish : step sys a = thrsrvFinishSetup sys' mem (actThread a) new
  own : new.id = subject sys a
  listed : clients sys' = clients sys
  keeps : Keeps [new.id] sys'
  found : ∃ r, sys'.threads[actThread a]? = some r
  alive : sys'.crashed = sys.crashed

theorem stepFinishes {a alloc} (keeps : Keeps [] sys) (allowed : Allowed sys a)
    (call : connNewCall sys a = some alloc) : ∃ sys' mem new, Finishes sys a alloc sys' mem new := by
  cases a with
  | accept i s newfd flowid mem =>
    have inside : i < sys.threads.length := allowed.2.1
    have found := List.getElem?_eq_getElem inside
    simp only [connNewCall] at call
    split at call <;> try contradiction
    rename_i here
    obtain ⟨completed,target⟩ := here
    cases Option.some.inj call
    refine ⟨{ sys with accepted := sys.accepted + 1 },mem,⟨sys.accepted,newfd,flowid⟩,rfl,?_,rfl,rfl,keeps.accept,?_,rfl⟩
    · simp only [step,thrsrvAcceptfd,onFound _ found,completed,(keeps.each i _ found).app,target,actThread]
      simp
    · exact ⟨_,found⟩
  | round i mem =>
    obtain ⟨_,r,found,_,busy⟩ := allowed
    cases Option.some.inj call
    obtain ⟨new,rest,queue⟩ := List.exists_cons_of_ne_nil busy
    refine ⟨sys.setThr i { r with newfdList := rest },mem,new,rfl,?_,?_,?_,keeps.dequeue found queue,?_,rfl⟩
    · simp only [step,deferredRound,onFound _ found,queue,actThread]
    · simp [subject,found,queue]
    · exact clientsSame found rfl
    · exact ⟨_,List.getElem?_set_self (List.getElem?_eq_some_iff.mp found).1⟩
  | _ => cases call

/- The other callbacks change no list of connections, and a cleanup takes one off its list. -/
theorem acceptQuiet {s newfd flowid mem} (call : connNewCall sys (.accept i s newfd flowid mem) = none)
    (found : sys.threads[i]? = some r) (app : r.appId = i) :
    clients (step sys (.accept i s newfd flowid mem)) = clients sys := by
  simp only [step,thrsrvAcceptfd,onFound _ found,app]
  split
  · rfl
  · rename_i completed
    cases target : destination sys.cfg i flowid with
    | none =>
      simp only [connNewCall,target,not_not.mp completed,and_self,if_true] at call
      contradiction
    | some j =>
      dsimp only
      cases dest : sys.threads[j]? with
      | none => simp only [Server.on,dest]; rfl
      | some dr =>
        rw [onFound { sys with accepted := sys.accepted + 1 } dest]
        unfold thrsrvNewfdEnqueue
        cases mem.newfd with
        | false => rfl
        | true => exact @clientsSame { sys with accepted := sys.accepted + 1 } j dr dest _ rfl

theorem calledQuiet {k a} (keeps : Keeps [] sys) (allowed : Allowed sys (.conn i k a)) (other : a ≠ .cleanup)
    (up : (connCalled sys i k a).crashed = false) : clients (connCalled sys i k a) = clients sys := by
  obtain ⟨alive,loop,_,r,found,c,client,possible⟩ := allowed
  obtain ⟨fine,marked⟩ := (keeps.each i r found).conns alive c (List.mem_of_getElem? client)
  obtain ⟨made,erred,stage,shape,_⟩ := fine.shape
  have open_ : c.conn.port.closed = false := by
    cases a with
    | wrote status nwritten =>
      have writing : c.conn.port.writing = true := possible.2.2
      refine Bool.eq_false_iff.mpr fun closed => ?_
      have idle := shape.idle (Or.inr (shape.closed.symm.trans closed))
      rw [writing] at idle
      contradiction
    | closed => exact possible.2.2.2.2
    | cleanup => exact absurd rfl other
    | _ => cases loop
  simp only [connCalled,onFound _ found,client] at up ⊢
  cases fineCalled fine loop possible with
  | ended crashed =>
    rw [if_pos crashed] at up
    contradiction
  | done _ _ closed =>
    rw [open_] at closed
    contradiction
  | served running kept =>
    rw [if_neg (by simp [running]),if_neg kept]
    obtain ⟨inside,rfl⟩ := List.getElem?_eq_some_iff.mp client
    have same : (r.connList.set k { r.connList[k] with conn := settle (Connection.step r.connList[k].conn a) }).map
        Client.id = r.connList.map Client.id := by
      have bound : k < (r.connList.map Client.id).length := by simpa using inside
      have own : r.connList[k].id = (r.connList.map Client.id)[k] := by simp
      rw [List.map_set]
      dsimp only
      rw [own,List.set_getElem_self]
    split
    · exact @clientsSame { sys with closed := _ } i r found _ same
    · exact clientsSame found same

theorem calledFreed {k c} (keeps : Keeps [] sys) (allowed : Allowed sys (.conn i k .cleanup))
    (found : sys.threads[i]? = some r) (client : r.connList[k]? = some c) :
    clients (connCalled sys i k .cleanup) = Function.update (clients sys) i ((r.connList.eraseIdx k).map Client.id) ∧
      (connCalled sys i k .cleanup).crashed = sys.crashed := by
  obtain ⟨alive,loop,_,r',found',c',client',possible⟩ := allowed
  cases Option.some.inj (found.symm.trans found')
  cases Option.some.inj (client.symm.trans client')
  obtain ⟨fine,_⟩ := (keeps.each i r found).conns alive c (List.mem_of_getElem? client)
  obtain ⟨made,erred,stage,shape,_⟩ := fine.shape
  obtain ⟨rfl,notifies⟩ := Connection.cleanupCases shape possible.2.2
  have freeing : Connection.Shape made erred .freeing (Connection.step c.conn .cleanup) := by
    rw [notifies.trans (notifyOwned fine.owner)]
    exact Connection.cleanupTold shape
  have running := (settleFreeing freeing).crashed
  have told : (Connection.step c.conn .cleanup).stack = [.freeing] := freeing.stack
  simp only [connCalled,onFound _ found,client]
  rw [if_neg (by simp [running]),if_pos told]
  exact ⟨clientsSet found _,rfl⟩

end Clients

theorem stepQuiet {sys a} (keeps : Keeps [] sys) (allowed : Allowed sys a) (call : connNewCall sys a = none)
    (stays : frees sys a = none) (up : (step sys a).crashed = false) : clients (step sys a) = clients sys := by
  cases a with
  | accept i s newfd flowid mem =>
    have found := List.getElem?_eq_getElem allowed.2.1
    exact acceptQuiet call found (keeps.each i _ found).app
  | lock i =>
    have found := List.getElem?_eq_getElem allowed.2.1
    simp only [step,deferredLock,onFound _ found]
    exact clientsSame found rfl
  | round i mem => cases call
  | unlock i =>
    obtain ⟨_,r,found,_⟩ := allowed
    simp only [step,deferredUnlock,onFound _ found]
    exact clientsSame found rfl
  | conn i k a =>
    refine calledQuiet keeps allowed ?_ up
    rintro rfl
    obtain ⟨_,_,_,r,found,c,client,_⟩ := allowed
    simp [frees,found,client] at stays

section Cfg
variable {sys : Server}

theorem onCfg {cfg i} {f : Thr → Server} (here : sys.cfg = cfg) (each : ∀ r, (f r).cfg = cfg) : (sys.on i f).cfg = cfg := by
  unfold Server.on
  split
  · exact here
  · exact each _

theorem finishCfg (mem i new) : (thrsrvFinishSetup sys mem i new).cfg = sys.cfg := by
  refine onCfg rfl fun r => ?_
  split
  · rfl
  · dsimp only
    split <;> rfl

theorem stepCfg (a) : (step sys a).cfg = sys.cfg := by
  cases a with
  | accept i s newfd flowid mem =>
    refine onCfg rfl fun r => ?_
    split
    · rfl
    · dsimp only
      split
      · refine onCfg rfl fun dr => ?_
        split <;> rfl
      · exact finishCfg mem i _
  | lock i => exact onCfg rfl fun r => rfl
  | round i mem =>
    refine onCfg rfl fun r => ?_
    split
    · rfl
    · exact finishCfg mem i _
  | unlock i => exact onCfg rfl fun r => rfl
  | conn i k a =>
    refine onCfg rfl fun r => ?_
    split
    · rfl
    · dsimp only
      repeat' split
      all_goals rfl

end Cfg

end Libiapp.Srv

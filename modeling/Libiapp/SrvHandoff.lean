import Libiapp.SrvPlaces

/-! What each callback of a server thread does with the connection it has in hand. None is
lost except in a conn_new whose comm_create failed: conn_new goes on with the null pointer. -/
namespace Libiapp.Srv
open Runs Comm Connection

theorem onFound (sys : Server) {i r} {f : Thr → Server} (found : sys.threads[i]? = some r) : sys.on i f = f r := by
  simp only [Server.on,found]

theorem newSource {alloc fd comm ioSize cb cbdata c} (made : connNew alloc fd comm ioSize cb cbdata = some c) :
    (alloc.conn = true ∧ alloc.readBuf = true ∧ alloc.netbuf = true) ∧ c.c.cb = cb ∧ c.stack = [] ∧
      c.crashed = !alloc.comm := by
  unfold connNew at made
  split at made <;> try contradiction
  rename_i given
  cases Option.some.inj made
  refine ⟨by simpa [and_assoc] using given,rfl,rfl,?_⟩
  cases alloc.comm <;> rfl

/- conn_new got its struct conn and its buffers but no fde_comm. -/
def Unlinked (alloc : Allocs) : Prop :=
  alloc.conn = true ∧ alloc.readBuf = true ∧ alloc.netbuf = true ∧ alloc.comm = false

theorem finishKeeps {sys : Server} {mem i r} {new : NewFd} (h : Keeps [new.id] sys) (found : sys.threads[i]? = some r)
    (fresh : new.id ∉ sys.closed) (home : Home sys.cfg i new.flowid) (linked : ¬ Unlinked mem.conn) :
    Keeps [] (thrsrvFinishSetup sys mem i new) := by
  rw [thrsrvFinishSetup,onFound _ found]
  split
  · exact h.giveUp fresh
  · rename_i c made
    obtain ⟨⟨conn,readBuf,netbuf⟩,cb,stack,_⟩ := newSource made
    have comm : mem.conn.comm = true := by
      by_contra missing
      exact linked ⟨conn,readBuf,netbuf,by simpa using missing⟩
    have shape := newShape made comm
    have fine : Fine (connSetStatsCb c (some thrsrvConnStatsUpdateCbId)) :=
      ⟨⟨_,_,_,{ shape with },nofun⟩,stack,by rw [connSetStatsCb,cb]; rfl⟩
    have opened : c.port.closed = false := shape.closed
    rw [if_neg (by simp [shape.crashed])]
    exact h.list ⟨new.id,new.flowid,connSetStatsCb c (some thrsrvConnStatsUpdateCbId)⟩ found
      (List.perm_append_singleton _ _) home fun _ => ⟨fine,by simp [fresh,connSetStatsCb,opened]⟩

theorem finishLost {sys : Server} {mem i r} {new : NewFd} (h : Keeps [new.id] sys) (found : sys.threads[i]? = some r)
    (unlinked : Unlinked mem.conn) : ¬ HandedOn (thrsrvFinishSetup sys mem i new) := by
  obtain ⟨conn,readBuf,netbuf,comm⟩ := unlinked
  rw [thrsrvFinishSetup,onFound _ found]
  split
  · rename_i none
    simp [connNew,conn,readBuf,netbuf] at none
  · rename_i c made
    obtain ⟨_,_,_,crashed⟩ := newSource made
    rw [crashed,comm]
    exact h.lost

section Destination
variable {cfg : Cfg} {i j : Nat} {flowid : UInt32}

theorem thrsrvFlowidNonzero (nonzero : flowid ≠ 0) : thrsrvFlowidToThread flowid = ((flowid &&& 7).toNat : Int) := by
  rw [thrsrvFlowidToThread,if_neg nonzero]

theorem destinationHome (target : destination cfg i flowid = some j) : Home cfg j flowid := by
  intro _ nonzero
  simp only [destination] at target
  split at target <;> try contradiction
  cases Option.some.inj target
  rw [thrsrvFlowidNonzero nonzero]
  rfl

theorem destinationInside (target : destination cfg i flowid = some j) (inside : i < cfg.numThreads) : j < cfg.numThreads := by
  simp only [destination] at target
  split at target <;> try contradiction
  cases Option.some.inj target
  have positive : (0 : Int) < cfg.numThreads := by omega
  have least := Int.emod_nonneg (thrsrvFlowidToThread flowid) (Int.ne_of_gt positive)
  have most := Int.emod_lt_of_pos (thrsrvFlowidToThread flowid) positive
  omega

/- A thread keeps a connection only if its own number is the one of the flow id. -/
theorem keptHome (keep : destination cfg i flowid = none) (inside : i < cfg.numThreads) : Home cfg i flowid := by
  intro affinity nonzero
  simp only [destination] at keep
  split at keep <;> try contradiction
  rename_i own
  rw [thrsrvFlowidNonzero nonzero] at own
  have same : (flowid &&& 7).toNat = i := by
    by_contra other
    exact own ⟨affinity,by omega,by omega⟩
  rw [same,Nat.mod_eq_of_lt inside]

end Destination

/- The conn_new that a callback calls, if it does. -/
def connNewCall (sys : Server) : Act → Option Allocs
  | .accept i s _ flowid mem => if s = .completed ∧ destination sys.cfg i flowid = none then some mem.conn else none
  | .round _ mem => some mem.conn
  | .lock _ | .unlock _ | .conn .. => none

def Linked (sys : Server) (a : Act) : Prop := ∀ alloc ∈ connNewCall sys a, ¬ Unlinked alloc

/- What a step does to a server: it calls conn_new with one connection in hand or keeps all by itself. -/
inductive Goes (sys : Server) (a : Act) : Prop where
  | keeps (call : connNewCall sys a = none) (keeps : Keeps [] (step sys a))
  | finishes {sys' mem i r new} (call : connNewCall sys a = some mem.conn)
      (finish : step sys a = thrsrvFinishSetup sys' mem i new) (keeps : Keeps [new.id] sys')
      (found : sys'.threads[i]? = some r) (fresh : new.id ∉ sys'.closed) (home : Home sys'.cfg i new.flowid)

section Goes
variable {sys : Server}

theorem acceptGoes {i s newfd flowid mem} (h : Keeps [] sys) (inside : i < sys.threads.length) :
    Goes sys (.accept i s newfd flowid mem) := by
  obtain ⟨r,found⟩ : ∃ r, sys.threads[i]? = some r := ⟨_,List.getElem?_eq_getElem inside⟩
  have accepts : step sys (.accept i s newfd flowid mem) = thrsrvAcceptfd sys mem i s newfd flowid := rfl
  rw [thrsrvAcceptfd,onFound _ found,(h.each i r found).app] at accepts
  have fresh : sys.accepted ∉ sys.closed := fun before => Nat.lt_irrefl _ (h.old _ before)
  have inside : i < sys.cfg.numThreads := h.size ▸ inside
  by_cases completed : s = .completed
  · rw [if_neg (not_not_intro completed)] at accepts
    cases target : destination sys.cfg i flowid with
    | none =>
      simp only [target] at accepts
      exact .finishes (by simp [connNewCall,completed,target]) accepts h.accept found fresh (keptHome target inside)
    | some j =>
      have there : j < sys.threads.length := h.size ▸ destinationInside target inside
      obtain ⟨dr,dest⟩ : ∃ dr, sys.threads[j]? = some dr := ⟨_,List.getElem?_eq_getElem there⟩
      refine .keeps (by simp [connNewCall,target]) ?_
      simp only [target] at accepts
      rw [accepts,onFound { sys with accepted := sys.accepted + 1 } dest,thrsrvNewfdEnqueue]
      cases mem.newfd with
      | false => exact h.accept.giveUp fresh
      | true => exact h.accept.enqueue ⟨sys.accepted,newfd,flowid⟩ dest fresh (destinationHome target)
  · rw [if_pos completed] at accepts
    refine .keeps (by simp [connNewCall,completed]) ?_
    rw [accepts]
    exact h

theorem lockKeeps {i r} (h : Keeps [] sys) (found : sys.threads[i]? = some r) (lock : Bool) :
    Keeps [] (sys.setThr i { r with newfdLock := lock }) :=
  h.set found { h.each i r found with } (List.Perm.refl _)

theorem roundGoes {i r mem} (h : Keeps [] sys) (found : sys.threads[i]? = some r) (busy : r.newfdList ≠ []) :
    Goes sys (.round i mem) := by
  obtain ⟨new,rest,queue⟩ := List.exists_cons_of_ne_nil busy
  obtain ⟨fresh,home⟩ := (h.each i r found).waiting new (queue ▸ List.mem_cons_self)
  have there := List.getElem?_set_self (a := { r with newfdList := rest }) (List.getElem?_eq_some_iff.mp found).1
  refine .finishes rfl ?_ (h.dequeue found queue) there fresh home
  simp only [step,deferredRound,onFound _ found,queue]

theorem calledKeeps {i k a} (h : Keeps [] sys) (allowed : Allowed sys (.conn i k a)) : Keeps [] (connCalled sys i k a) := by
  obtain ⟨alive,loop,_,r,found,c,client,allowed⟩ := allowed
  have thread := h.each i r found
  have listed := List.mem_of_getElem? client
  obtain ⟨fine,marked⟩ := thread.conns alive c listed
  simp only [connCalled,onFound _ found,client]
  cases fineCalled fine loop allowed with
  | ended crashed =>
    rw [if_pos crashed]
    exact h.crash
  | done running freed closed =>
    rw [if_neg (by simp [running]),if_pos freed]
    exact (h.unlist found client).release (marked.mpr closed)
  | served running kept fine closed once =>
    rw [if_neg (by simp [running]),if_neg kept]
    have inside := (List.getElem?_eq_some_iff.mp client).1
    have unlisted := h.unlist found client
    have home := thread.home c listed
    by_cases closes : a = .closed
    · have fresh : c.id ∉ sys.closed := by simp [marked,once closes]
      have closing : Keeps [c.id] (Server.setThr { sys with closed := c.id::sys.closed } i
          { r with connList := r.connList.eraseIdx k, numClients := r.numClients - 1 }) := unlisted.close fresh
      rw [if_pos closes]
      exact closing.relist ⟨c.id,c.flowid,settle (Connection.step c.conn a)⟩ found inside home
        ⟨fine,iff_of_true List.mem_cons_self (closed.trans (by simp [closes]))⟩
    · rw [if_neg closes]
      exact unlisted.relist ⟨c.id,c.flowid,settle (Connection.step c.conn a)⟩ found inside home
        ⟨fine,by simp [closed,closes,marked]⟩

theorem stepGoes {a} (h : Keeps [] sys) (allowed : Allowed sys a) : Goes sys a := by
  cases a with
  | accept => exact acceptGoes h allowed.2.1
  | lock i =>
    refine .keeps rfl ?_
    simp only [step,deferredLock]
    rw [onFound _ (List.getElem?_eq_getElem allowed.2.1)]
    exact lockKeeps h (List.getElem?_eq_getElem allowed.2.1) true
  | round =>
    obtain ⟨_,r,found,_,busy⟩ := allowed
    exact roundGoes h found busy
  | unlock i =>
    obtain ⟨_,r,found,_⟩ := allowed
    refine .keeps rfl ?_
    simp only [step,deferredUnlock,onFound _ found]
    exact lockKeeps h found false
  | conn => exact .keeps rfl (calledKeeps h allowed)

theorem stepKeeps {a} (h : Keeps [] sys) (allowed : Allowed sys a) (linked : Linked sys a) : Keeps [] (step sys a) := by
  cases stepGoes h allowed with
  | keeps _ keeps => exact keeps
  | finishes call finish keeps found fresh home =>
    rw [finish]
    exact finishKeeps keeps found fresh home (linked _ call)

theorem stepHandedOn {a} (h : Keeps [] sys) (allowed : Allowed sys a) : HandedOn (step sys a) ↔ Linked sys a := by
  refine ⟨?_,fun linked => keepsHandedOn (stepKeeps h allowed linked)⟩
  intro handed alloc call unlinked
  cases stepGoes h allowed with
  | keeps none _ =>
    rw [none] at call
    contradiction
  | finishes made finish keeps found _ _ =>
    cases Option.some.inj (made.symm.trans call)
    rw [finish] at handed
    exact finishLost keeps found unlinked handed

end Goes

theorem startedKeeps (cfg : Cfg) : Keeps [] (started cfg) where
  places := by
    have none : Custody.all Thr.ids (started cfg).threads = [] := by simp [Custody.all,started,Thr.ids]
    rw [Server.places,none]
    exact List.Perm.refl _
  closedOnce := List.nodup_nil
  old := by simp [started]
  released := by simp [started]
  size := by simp [started]
  each i r found := by
    simp only [started,List.getElem?_map,Option.map_eq_some_iff] at found
    obtain ⟨place,index,rfl⟩ := found
    obtain ⟨_,rfl⟩ := List.getElem?_eq_some_iff.mp index
    exact ⟨by simp,by simp,rfl,by simp,by simp⟩

theorem handedOnIff (cfg : Cfg) {actions} (possible : Possible serverMachine (started cfg) actions) :
    Along serverMachine HandedOn (started cfg) actions ↔ Each serverMachine Linked (started cfg) actions := by
  have here := startedKeeps cfg
  exact alongIffEach (fun _ _ => stepKeeps) (fun _ _ keeps allowed _ => stepHandedOn keeps allowed) here
    (keepsHandedOn here) possible

def plenty : Memory := ⟨true,⟨true,true,true,true,true⟩,0⟩

/- The first thread accepts a connection of the second one, where it is set up, fails in its
first write, is closed and freed. -/
def handing : List Act :=
  [.accept 0 .completed 5 9 plenty,.lock 1,.round 1 plenty,.unlock 1,.conn 1 0 (.wrote .error (-1)),.conn 1 0 .closed,
    .conn 1 0 .cleanup]

set_option maxRecDepth 8000 in
theorem handedOnHanding : Along serverMachine HandedOn (started ⟨2,1024,1⟩) handing ∧
    (run serverMachine (started ⟨2,1024,1⟩) handing).released = [0] := by
  have possible : Possible serverMachine (started ⟨2,1024,1⟩) handing :=
    ⟨⟨rfl,by decide,rfl,fun _ _ => by decide⟩,⟨rfl,by decide,rfl⟩,⟨rfl,_,rfl,rfl,by decide⟩,⟨rfl,_,rfl,rfl,rfl⟩,
      ⟨rfl,rfl,rfl,_,rfl,_,rfl,by decide⟩,⟨rfl,rfl,rfl,_,rfl,_,rfl,by decide⟩,⟨rfl,rfl,rfl,_,rfl,_,rfl,by decide⟩,trivial⟩
  refine ⟨(handedOnIff _ possible).mpr ?_,by decide⟩
  refine ⟨nofun,nofun,?_,nofun,nofun,nofun,nofun,trivial⟩
  intro alloc call unlinked
  cases Option.some.inj call
  exact absurd unlinked.2.2.2 (by decide)

/- comm_create fails in the conn_new that thrsrv_acceptfd ends in. -/
theorem acceptedLost : ∃ a, Possible serverMachine (started ⟨1,1024,0⟩) [a] ∧
    (serverMachine.step (started ⟨1,1024,0⟩) a).accepted = 1 ∧
    (serverMachine.step (started ⟨1,1024,0⟩) a).places = [] ∧
    (serverMachine.step (started ⟨1,1024,0⟩) a).crashed = true ∧
    ¬ HandedOn (serverMachine.step (started ⟨1,1024,0⟩) a) := by
  refine ⟨.accept 0 .completed 5 0 ⟨true,⟨true,true,true,false,true⟩,0⟩,?_,rfl,rfl,rfl,?_⟩
  · exact ⟨⟨rfl,by decide,rfl,fun _ _ => by decide⟩,trivial⟩
  · intro handed
    exact absurd handed.places.length_eq (by decide)

end Libiapp.Srv

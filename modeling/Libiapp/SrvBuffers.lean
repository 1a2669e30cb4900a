import Libiapp.NetbufSafe
import Libiapp.SrvRoster

/-! The write buffers of the server's connections. conn_new takes a netbuf from the allocator
of the thread that it runs on, and client_ev_cleanup_cb gives it back behind the FREEING
notification. Here iapp_netbuf_alloc answers for the step of Srv.lean in which it is asked,
and a free that assert() stops is `aborted`. -/
namespace Libiapp.SrvBuffers
open Runs Netbuf
open Libiapp.Srv (Server Keeps connNewCall actThread clients subject frees)

/- The allocator of each thread, and the netbuf of each connection that has a conn. -/
structure State where
  srv : Server
  sm : Nat → Shm.State
  nb : Nat → Option IappNetbuf
  aborted : Bool

/- conn_new comes to its netbuf when it has its struct conn and its read buffer. -/
def asks (sys : Server) (a : Srv.Act) : Bool := (connNewCall sys a).any fun alloc => alloc.conn && alloc.readBuf

def answered (given : Bool) : Srv.Act → Srv.Act
  | .accept i s newfd flowid mem => .accept i s newfd flowid { mem with conn.netbuf := given }
  | .round i mem => .round i { mem with conn.netbuf := given }
  | a => a

def step (atype : AllocType) (s : State) : Srv.Act × Memory → State
  | (a,mem) =>
    let i := actThread a
    if asks s.srv a then
      let (sm,nb) := iappNetbufAlloc (s.sm i) atype s.srv.cfg.ioSize mem
      { s with
        srv := Srv.step s.srv (answered nb.isSome a)
        sm := Function.update s.sm i sm
        nb := Function.update s.nb (subject s.srv a) nb }
    else
      match frees s.srv a with
      | none => { s with srv := Srv.step s.srv a }
      | some id =>
        match (s.nb id).bind (iappNetbufFree (s.sm i)) with
        | none => { s with aborted := true }
        | some sm =>
          { s with
            srv := Srv.step s.srv a
            sm := Function.update s.sm i sm
            nb := Function.update s.nb id none }

-- malloc() gives fresh nodes.
def Allowed (s : State) : Srv.Act × Memory → Prop
  | (a,mem) => s.aborted = false ∧ Srv.Allowed s.srv a ∧
    (asks s.srv a = true → ∀ node ∈ mem.node, (s.sm (actThread a)).allocs node = none)

def bufferMachine (atype : AllocType) (cfg : Srv.Cfg) (sm : Nat → Shm.State) : Machine State (Srv.Act × Memory) :=
  ⟨fun s => s = ⟨Srv.started cfg,sm,fun _ => none,false⟩,Allowed,step atype⟩

theorem answeredThread (given a) : actThread (answered given a) = actThread a := by cases a <;> rfl

theorem answeredSubject (sys : Server) (given a) : subject sys (answered given a) = subject sys a := by cases a <;> rfl

theorem answeredCall (sys : Server) (given a) :
    connNewCall sys (answered given a) = (connNewCall sys a).map fun alloc => { alloc with netbuf := given } := by
  cases a with
  | accept i s newfd flowid mem =>
    simp only [answered,connNewCall]
    split <;> rfl
  | _ => rfl

theorem answeredAllowed {sys given a} (allowed : Srv.Allowed sys a) : Srv.Allowed sys (answered given a) := by
  cases a <;> exact allowed

/- Each thread uses netbuf.c on its own, and holds the netbufs of its conns and no others. -/
structure Owned (atype : AllocType) (cfg : Srv.Cfg) (sm : Nat → Shm.State) (s : State) : Prop where
  server : Reach Srv.serverMachine s.srv
  fixed : s.srv.cfg = cfg
  safe : s.aborted = false
  holder : s.srv.crashed = false → ∀ i, ∃ held, Reach (holderMachine atype cfg.ioSize (sm i)) ⟨s.sm i,held⟩ ∧
    ((clients s.srv i).map s.nb).Perm (held.map some)

theorem mapOutside {f : Nat → Option IappNetbuf} {ids : List Nat} {id} (v) (outside : id ∉ ids) :
    ids.map (Function.update f id v) = ids.map f := by
  refine List.map_congr_left fun other mem => Function.update_of_ne ?_ _ _
  rintro rfl
  exact outside mem

section Step
variable {atype : AllocType} {cfg : Srv.Cfg} {sm : Nat → Shm.State} {s : State} {a : Srv.Act} {mem : Memory}

theorem holderAllocs {size sm₀ sm' held nb} {state : Shm.State}
    (reached : Reach (holderMachine atype size sm₀) ⟨state,held⟩) (fresh : ∀ node ∈ mem.node, state.allocs node = none)
    (result : iappNetbufAlloc state atype size mem = (sm',nb)) :
    Reach (holderMachine atype size sm₀) ⟨sm',nb.toList ++ held⟩ := by
  have allowed : (holderMachine atype size sm₀).allowed ⟨state,held⟩ (.alloc mem) := fresh
  have next : Reach (holderMachine atype size sm₀) (Netbuf.step atype size ⟨state,held⟩ (.alloc mem)) := .next reached allowed
  rw [Netbuf.step,result] at next
  cases nb <;> exact next

/- The conn_new that has come to its netbuf, with the answer that it gets. -/
theorem asksFinishes (given : Bool) (keeps : Keeps [] s.srv) (possible : Srv.Allowed s.srv a)
    (asked : asks s.srv a = true) :
    ∃ (alloc : Connection.Allocs) (sys' : Server) (mem' : Srv.Memory) (new : Srv.NewFd),
      alloc.conn = true ∧ alloc.readBuf = true ∧ new.id = subject s.srv a ∧ (∃ r, sys'.threads[actThread a]? = some r) ∧
      Srv.step s.srv (answered given a) = Srv.thrsrvFinishSetup sys' mem' (actThread a) new ∧
      Srv.Finishes s.srv (answered given a) { alloc with netbuf := given } sys' mem' new := by
  obtain ⟨alloc,call,ready⟩ := (Option.any_eq_true _ _).mp asked
  obtain ⟨conn,readBuf⟩ := Bool.and_eq_true_iff.mp ready
  have call' : connNewCall s.srv (answered given a) = some { alloc with netbuf := given } := by
    rw [answeredCall,call]
    rfl
  obtain ⟨sys',mem',new,finishes⟩ := Srv.stepFinishes keeps (answeredAllowed possible) call'
  have found := finishes.found
  have finish := finishes.finish
  rw [answeredThread] at found finish
  exact ⟨alloc,sys',mem',new,conn,readBuf,finishes.own.trans (answeredSubject _ _ _),found,finish,finishes⟩

theorem subjectFresh (keeps : Keeps [] s.srv) (possible : Srv.Allowed s.srv a) (asked : asks s.srv a = true) (j : Nat) :
    subject s.srv a ∉ clients s.srv j := by
  obtain ⟨_,_,_,_,_,_,own,_,_,finishes⟩ := asksFinishes true keeps possible asked
  rw [← own,← finishes.listed]
  exact Srv.clientsFresh finishes.keeps j

theorem givenLists (keeps : Keeps [] s.srv) (possible : Srv.Allowed s.srv a) (asked : asks s.srv a = true)
    (up : (Srv.step s.srv (answered true a)).crashed = false) :
    clients (Srv.step s.srv (answered true a)) =
      Function.update (clients s.srv) (actThread a) (clients s.srv (actThread a) ++ [subject s.srv a]) := by
  obtain ⟨alloc,sys',mem',new,conn,readBuf,own,⟨r,found⟩,finish,finishes⟩ := asksFinishes true keeps possible asked
  rw [finish] at up ⊢
  rw [← finishes.listed,← own]
  refine Srv.finishGiven found ?_ up
  rw [finishes.memory]
  exact ⟨conn,readBuf,rfl⟩

/- Without a netbuf thrsrv_finish_setup closes the descriptor. -/
theorem refusedLists (keeps : Keeps [] s.srv) (possible : Srv.Allowed s.srv a) (asked : asks s.srv a = true) :
    clients (Srv.step s.srv (answered false a)) = clients s.srv ∧
    subject s.srv a ∈ (Srv.step s.srv (answered false a)).closed ∧
    subject s.srv a ∈ (Srv.step s.srv (answered false a)).released ∧
    (Srv.step s.srv (answered false a)).crashed = s.srv.crashed := by
  obtain ⟨alloc,sys',mem',new,conn,readBuf,own,⟨r,found⟩,finish,finishes⟩ := asksFinishes false keeps possible asked
  rw [finish,Srv.finishRefused found (by rw [finishes.memory]; simp),← finishes.listed,← own]
  exact ⟨rfl,List.mem_cons_self,List.mem_cons_self,finishes.alive⟩

theorem asksOwned (h : Owned atype cfg sm s) (allowed : Allowed s (a,mem)) (asked : asks s.srv a = true) :
    Owned atype cfg sm (step atype s (a,mem)) := by
  obtain ⟨_,possible,fresh⟩ := allowed
  have alive : s.srv.crashed = false := possible.1
  have keeps := Srv.runningKeeps h.server alive
  have outside := subjectFresh keeps possible asked
  simp only [step,asked,if_true,h.fixed]
  generalize result : iappNetbufAlloc (s.sm (actThread a)) atype cfg.ioSize mem = answer
  obtain ⟨sm',nb⟩ := answer
  refine ⟨.next h.server (answeredAllowed possible),(Srv.stepCfg _).trans h.fixed,h.safe,?_⟩
  dsimp only
  intro up j
  obtain ⟨held,reached,perm⟩ := h.holder alive j
  have lists : clients (Srv.step s.srv (answered nb.isSome a)) = Function.update (clients s.srv) (actThread a)
      (clients s.srv (actThread a) ++ (nb.map fun _ => subject s.srv a).toList) := by
    cases nb with
    | some n => exact givenLists keeps possible asked up
    | none =>
      simp only [Option.map_none,Option.toList_none,List.append_nil,Function.update_eq_self]
      exact (refusedLists keeps possible asked).1
  rw [lists]
  rcases eq_or_ne j (actThread a) with rfl | other
  · refine ⟨nb.toList ++ held,?_,?_⟩
    · rw [Function.update_self]
      exact holderAllocs reached (fresh asked) result
    · rw [Function.update_self,List.map_append,mapOutside nb (outside _)]
      cases nb with
      | none => simpa using perm
      | some n =>
        simp only [Option.map_some,Option.toList_some,List.map_cons,List.map_nil,Function.update_self,List.singleton_append]
        exact (List.perm_append_singleton _ _).trans (perm.cons _)
  · refine ⟨held,?_,?_⟩
    · rw [Function.update_of_ne other]
      exact reached
    · rw [Function.update_of_ne other,mapOutside nb (outside j)]
      exact perm

/- A conn_new that gave up before it came to its netbuf changes no more than a callback that
does not call it. -/
theorem quietClients (keeps : Keeps [] s.srv) (possible : Srv.Allowed s.srv a) (silent : asks s.srv a = false)
    (stays : frees s.srv a = none) (up : (Srv.step s.srv a).crashed = false) :
    clients (Srv.step s.srv a) = clients s.srv := by
  cases call : connNewCall s.srv a with
  | none => exact Srv.stepQuiet keeps possible call stays up
  | some alloc =>
    obtain ⟨sys',mem',new,finishes⟩ := Srv.stepFinishes keeps possible call
    obtain ⟨r,found⟩ := finishes.found
    have refused : ¬ (mem'.conn.conn = true ∧ mem'.conn.readBuf = true ∧ mem'.conn.netbuf = true) := by
      rw [finishes.memory]
      rintro ⟨conn,readBuf,_⟩
      simp [asks,call,conn,readBuf] at silent
    rw [finishes.finish,Srv.finishRefused found refused,← finishes.listed]
    rfl

theorem quietOwned (h : Owned atype cfg sm s) (allowed : Allowed s (a,mem)) (silent : asks s.srv a = false)
    (stays : frees s.srv a = none) : Owned atype cfg sm (step atype s (a,mem)) := by
  obtain ⟨_,possible,_⟩ := allowed
  have keeps := Srv.runningKeeps h.server possible.1
  simp only [step,silent,Bool.false_eq_true,if_false,stays]
  refine ⟨.next h.server possible,(Srv.stepCfg _).trans h.fixed,h.safe,?_⟩
  intro up i
  have same := quietClients keeps possible silent stays up
  rw [same]
  exact h.holder possible.1 i

theorem holderFrees {size sm₀ sm' held n} {state : Shm.State}
    (reached : Reach (holderMachine atype size sm₀) ⟨state,held⟩) (own : n ∈ held)
    (freed : iappNetbufFree state n = some sm') : Reach (holderMachine atype size sm₀) ⟨sm',held.erase n⟩ := by
  have allowed : (holderMachine atype size sm₀).allowed ⟨state,held⟩ (.free n) := own
  have next : Reach (holderMachine atype size sm₀) (Netbuf.step atype size ⟨state,held⟩ (.free n)) := .next reached allowed
  rw [Netbuf.step,freed] at next
  exact next

theorem freesSource {sys id} (gone : frees sys a = some id) :
    ∃ i k r c, a = .conn i k .cleanup ∧ sys.threads[i]? = some r ∧ r.connList[k]? = some c ∧ c.id = id := by
  cases a with
  | conn i k a =>
    cases a with
    | cleanup =>
      obtain ⟨c,client,own⟩ := Option.map_eq_some_iff.mp gone
      obtain ⟨r,found,client⟩ := Option.bind_eq_some_iff.mp client
      exact ⟨i,k,r,c,rfl,found,client,own⟩
    | _ => cases gone
  | _ => cases gone

theorem freesOwned {id} (small : cfg.ioSize.toNat < 2^63) (initial : ∀ i, Safe atype cfg.ioSize ⟨sm i,[]⟩) (h : Owned atype cfg sm s)
    (allowed : Allowed s (a,mem)) (silent : asks s.srv a = false) (gone : frees s.srv a = some id) :
    Owned atype cfg sm (step atype s (a,mem)) := by
  obtain ⟨_,possible,_⟩ := allowed
  have alive : s.srv.crashed = false := possible.1
  have keeps := Srv.runningKeeps h.server alive
  obtain ⟨i,k,r,c,rfl,found,client,rfl⟩ := freesSource gone
  obtain ⟨inside,rfl⟩ := List.getElem?_eq_some_iff.mp client
  obtain ⟨lists,_⟩ := Srv.calledFreed keeps possible found client
  have order := (List.getElem_cons_eraseIdx_perm inside).map Srv.Client.id
  obtain ⟨held,reached,perm⟩ := h.holder alive i
  rw [Srv.clientsFound found] at perm
  have split := (order.map s.nb).trans perm
  -- The netbuf of the conn is one of those that the thread holds.
  obtain ⟨n,own,known⟩ := List.mem_map.mp (split.subset List.mem_cons_self)
  obtain ⟨sm',freed,_⟩ := safeFree (reachSafe small (initial i) reached) own
  have result : (s.nb r.connList[k].id).bind (iappNetbufFree (s.sm i)) = some sm' := by
    rw [← known]
    exact freed
  simp only [step,silent,Bool.false_eq_true,if_false,gone,actThread,result]
  have outside (j) : r.connList[k].id ∉ clients (Srv.connCalled s.srv i k .cleanup) j := by
    have unlisted := Srv.clientsFresh (keeps.unlist found client) j
    rwa [Srv.clientsSet found,← lists] at unlisted
  refine ⟨.next h.server possible,(Srv.stepCfg _).trans h.fixed,h.safe,?_⟩
  intro _ j
  have mapped := mapOutside (f := s.nb) none (outside j)
  simp only [Srv.step,mapped]
  rw [lists]
  rcases eq_or_ne j i with rfl | other
  · refine ⟨held.erase n,?_,?_⟩
    · rw [Function.update_self]
      exact holderFrees reached own freed
    · have left := (List.perm_cons_erase own).map some
      rw [List.map_cons,List.map_cons,← known] at split
      rw [Function.update_self]
      exact (split.trans left).cons_inv
  · rw [Function.update_of_ne other,Function.update_of_ne other]
    exact h.holder alive j

theorem stepOwned {a} (small : cfg.ioSize.toNat < 2^63) (initial : ∀ i, Safe atype cfg.ioSize ⟨sm i,[]⟩) (h : Owned atype cfg sm s)
    (allowed : Allowed s a) : Owned atype cfg sm (step atype s a) := by
  obtain ⟨a,mem⟩ := a
  cases asked : asks s.srv a with
  | true => exact asksOwned h allowed asked
  | false =>
    cases gone : frees s.srv a with
    | none => exact quietOwned h allowed asked gone
    | some id => exact freesOwned small initial h allowed asked gone

theorem startOwned : Owned atype cfg sm ⟨Srv.started cfg,sm,fun _ => none,false⟩ where
  server := .start ⟨cfg,rfl⟩
  fixed := rfl
  safe := rfl
  holder _ i := by
    have none : clients (Srv.started cfg) i = [] := by
      unfold clients Srv.started
      simp only [List.getElem?_map]
      cases (List.range cfg.numThreads)[i]? <;> rfl
    rw [none]
    exact ⟨[],.start rfl,List.Perm.refl _⟩

theorem reachOwned (small : cfg.ioSize.toNat < 2^63) (initial : ∀ i, Safe atype cfg.ioSize ⟨sm i,[]⟩)
    (h : Reach (bufferMachine atype cfg sm) s) : Owned atype cfg sm s :=
  reachInvariant (m := bufferMachine atype cfg sm) (fun s started => by cases started; exact startOwned)
    (fun _ _ owned allowed => stepOwned small initial owned allowed) h

end Step

end Libiapp.SrvBuffers

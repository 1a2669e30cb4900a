import Libiapp.CommFace
import Libiapp.CommIo
import Libiapp.SrvCarries

/-! The server of srv.c on its listeners. Each thread has a comm on each of the two listen
sockets; what their accept callbacks are given goes to thrsrv_acceptfd in the same step. So
the connections of Srv.lean are the descriptors that accept() returned, and each of them
keeps its own through the queues and the conns. -/
namespace Libiapp.SrvListen
open Runs Comm

inductive Family where | v4 | v6
  deriving DecidableEq, Repr

structure Listener where
  thread : Nat
  family : Family
  deriving DecidableEq, Repr

/- `fds` has what accept() returned, in this order. -/
structure State where
  srv : Srv.Server
  comm : Listener → Option Comm.State
  fds : List Int

def thrsrvAcceptfdId : Nat := 3

-- comm_create succeeds here.
def thrsrvListen (fd : Int) (i : Nat) : Comm.State :=
  client (client (commCreate fd none 0) .markNonclose) (.listen thrsrvAcceptfdId i)

def sockfd (fdV4 fdV6 : Int) : Family → Int
  | .v4 => fdV4
  | .v6 => fdV6

def thrsrvNew (cfg : Srv.Cfg) (fdV4 fdV6 : Int) : State where
  srv := Srv.started cfg
  comm l :=
    if l.thread < cfg.numThreads ∧ sockfd fdV4 fdV6 l.family ≠ -1
    then some (thrsrvListen (sockfd fdV4 fdV6 l.family) l.thread) else none
  fds := []

inductive Act where
  | listener (l : Listener) (a : Comm.Act) (flowid : UInt32) (mem : Srv.Memory)
  | srv (a : Srv.Act)
  deriving DecidableEq, Repr

def got (sys : Sys) : Syscall → Option Int
  | .accept _ => if 0 ≤ sys.ret then some sys.ret else none
  | _ => none

/- The descriptor that accept() returns in a step of a comm. -/
def taken (c : Comm.State) : Comm.Act → Option Int
  | .client _ => none
  | .fire e sys => (handleCall c sys e).bind (got sys)
  | .resume sys => (goOnCall c sys c.ctl).bind (got sys)

/- The call of thrsrv_acceptfd that a comm makes behind its step. -/
def acceptfd (c : Comm.State) (i : Nat) (flowid : UInt32) (mem : Srv.Memory) : Option Srv.Act :=
  match calling c with
  | some (.accept _ _ _ st newfd _) => some (.accept i st newfd flowid mem)
  | _ => none

def step (s : State) : Act → State
  | .listener l a flowid mem =>
    match s.comm l with
    | none => s
    | some c =>
      let c' := Comm.step c a
      ⟨(acceptfd c' l.thread flowid mem).elim s.srv (Srv.step s.srv),Function.update s.comm l (some c'),
        s.fds ++ (taken c a).toList⟩
  | .srv a => { s with srv := Srv.step s.srv a }

def Family.other : Family → Family
  | .v4 => .v6
  | .v6 => .v4

def State.idle (s : State) (l : Listener) : Bool := (s.comm l).all fun c => c.ctl == .idle

/- A thread runs one callback at a time, those of its listeners included. -/
def Allowed (s : State) : Act → Prop
  | .listener l a flowid mem =>
    s.srv.crashed = false ∧ s.srv.locked l.thread = false ∧
    s.idle ⟨l.thread,l.family.other⟩ = true ∧ ∃ c, s.comm l = some c ∧ (∀ call, a ≠ .client call) ∧ Comm.Allowed c a ∧
      ∀ b ∈ acceptfd (Comm.step c a) l.thread flowid mem, Srv.Allowed s.srv b
  | .srv a => Srv.Allowed s.srv a ∧ Srv.fromListener a = false ∧ s.idle ⟨Srv.actThread a,.v4⟩ = true ∧
    s.idle ⟨Srv.actThread a,.v6⟩ = true

def listenMachine : Machine State Act := ⟨fun s => ∃ cfg fdV4 fdV6, s = thrsrvNew cfg fdV4 fdV6,Allowed,step⟩

/- A comm that accepts and does nothing else, for ever. -/
structure Listening (c : Comm.State) : Prop where
  active : c.c.active = solely .accept
  opened : c.c.isClosing = false
  between : c.ctl = .idle ∨ c.ctl = .tail ∨ c.ctl = .acceptLoop

theorem listeningFace {c c'} (same : face c' = face c) (listens : Listening c) : Listening c' where
  active := (congrArg Face.active same).trans listens.active
  opened := (congrArg Face.isClosing same).trans listens.opened
  between := by
    rw [show c'.ctl = c.ctl from congrArg Face.ctl same]
    exact listens.between

/- What a listener calls back with, beside what accept() returned. -/
inductive Passes : Option Callback → Option Int → Prop where
  | quiet : Passes none none
  | failed {cb fd cbdata xerrno} : Passes (some (.accept cb fd cbdata .error (-1) xerrno)) none
  | passed {cb fd cbdata newfd} : Passes (some (.accept cb fd cbdata .completed newfd 0)) (some newfd)

theorem acceptRound {c : Comm.State} (sys) (active : c.c.active = solely .accept) (opened : c.c.isClosing = false)
    (idle : c.ctl = .idle) :
    Listening (commCbAcceptNext c sys) ∧ Passes (calling (commCbAcceptNext c sys)) (got sys (.accept c.c.fd)) := by
  unfold commCbAcceptNext got
  split
  · rename_i failed
    rw [if_neg (Int.not_le.mpr failed)]
    dsimp only
    split
    · rw [idleUncalled (s := c.add .accept) idle]
      exact ⟨⟨active,opened,Or.inl idle⟩,.quiet⟩
    · exact ⟨⟨active,opened,Or.inr (Or.inl rfl)⟩,.failed⟩
  · rename_i fresh
    rw [if_pos (Int.not_lt.mp fresh)]
    exact ⟨⟨active,opened,Or.inr (Or.inr rfl)⟩,.passed⟩

theorem listenerFires {c e sys} (inv : Inv False c) (listens : Listening c) (idle : c.ctl = .idle)
    (queued : c.armed e = true) :
    Listening (Comm.step c (.fire e sys)) ∧ Passes (calling (Comm.step c (.fire e sys))) (taken c (.fire e sys)) := by
  have on : c.c.a.isActive = true := congrFun listens.active .accept
  have noted (notes : e = .read ∨ e = .write) : Listening (Comm.step c (.fire e sys)) ∧
      Passes (calling (Comm.step c (.fire e sys))) (taken c (.fire e sys)) := by
    have same : face (Comm.step c (.fire e sys)) = face c := faceNoted notes
    refine ⟨listeningFace same listens,?_⟩
    rw [idleUncalled ((congrArg Face.ctl same).trans idle)]
    rcases notes with rfl | rfl <;> exact .quiet
  rcases solelyArmed inv listens.opened listens.active queued with notes | notes | kind
  · exact noted (Or.inl notes)
  · exact noted (Or.inr notes)
  · cases e with
    | accept =>
      have goes : Comm.step c (.fire .accept sys) = commCbAcceptNext (fired c .accept) sys := by
        simp only [Comm.step,handle,commCbAccept,commCbAcceptIo,fired,listens.opened,on,Bool.false_eq_true,if_false,
          Bool.not_true]
      have call : taken c (.fire .accept sys) = got sys (.accept c.c.fd) := by
        simp only [taken,handleCall,unlessClosing,acceptCall,listens.opened,on,Bool.false_eq_true,if_false,Bool.not_true,
          Option.bind_some]
      rw [goes,call]
      exact acceptRound sys listens.active listens.opened idle
    | _ => cases kind

theorem listenerResumes {c sys} (listens : Listening c) (inside : c.ctl ≠ .idle) :
    Listening (Comm.step c (.resume sys)) ∧ Passes (calling (Comm.step c (.resume sys))) (taken c (.resume sys)) := by
  rcases listens.between with idle | tail | loop
  · exact absurd idle inside
  · rw [resumeTail tail]
    refine ⟨⟨listens.active,listens.opened,Or.inl rfl⟩,?_⟩
    rw [idleUncalled rfl,taken,tail]
    exact .quiet
  · have goes : Comm.step c (.resume sys) = commCbAcceptNext { c with ctl := .idle } sys := by
      simp only [Comm.step,loop,goOn]
    have call : taken c (.resume sys) = got sys (.accept c.c.fd) := by
      simp only [taken,loop,goOnCall,Option.bind_some]
    rw [goes,call]
    exact acceptRound (c := { c with ctl := .idle }) sys listens.active listens.opened rfl

theorem listenerStep {c a} (inv : Inv False c) (listens : Listening c) (allowed : Comm.Allowed c a)
    (own : ∀ call, a ≠ .client call) :
    Listening (Comm.step c a) ∧ Passes (calling (Comm.step c a)) (taken c a) := by
  cases a with
  | client call => exact absurd rfl (own call)
  | fire e sys => exact listenerFires inv listens allowed.1 allowed.2
  | resume sys => exact listenerResumes listens allowed

/- Everything that holds between the server and its listeners. -/
structure Serves (s : State) : Prop where
  server : Reach Srv.serverMachine s.srv
  listeners : ∀ l, ∀ c ∈ s.comm l, Reach disciplinedMachine c ∧ Listening c
  carries : Srv.Carries s.fds s.srv

theorem newServes (cfg fdV4 fdV6) : Serves (thrsrvNew cfg fdV4 fdV6) where
  server := .start ⟨cfg,rfl⟩
  listeners := by
    intro l c there
    simp only [thrsrvNew,Option.mem_def] at there
    split at there <;> try contradiction
    cases Option.some.inj there
    have created : Reach disciplinedMachine (commCreate (sockfd fdV4 fdV6 l.family) none 0) := .start ⟨_,_,_,rfl⟩
    have possible : Possible disciplinedMachine (commCreate (sockfd fdV4 fdV6 l.family) none 0)
        [.client .markNonclose,.client (.listen thrsrvAcceptfdId l.thread)] :=
      ⟨⟨rfl,fun _ => rfl⟩,⟨rfl,fun _ => rfl⟩,trivial⟩
    refine ⟨reachRun created possible,⟨?_,rfl,Or.inl rfl⟩⟩
    funext k
    cases k <;> rfl
  carries := by
    refine ⟨rfl,?_⟩
    intro r mem
    obtain ⟨i,_,rfl⟩ := List.mem_map.mp mem
    exact ⟨by simp,by simp⟩

theorem listenerServes {s l a flowid mem} (h : Serves s) (allowed : Allowed s (.listener l a flowid mem)) :
    Serves (step s (.listener l a flowid mem)) := by
  obtain ⟨_,_,_,c,there,own,possible,induced⟩ := allowed
  obtain ⟨reached,listens⟩ := h.listeners l c there
  obtain ⟨still,passes⟩ := listenerStep (reachInv reached) listens possible own
  have next : Reach disciplinedMachine (Comm.step c a) := by
    refine .next reached ⟨possible,?_⟩
    cases a with
    | client call => exact absurd rfl (own call)
    | fire e sys => trivial
    | resume sys => trivial
  have listeners : ∀ l', ∀ c' ∈ Function.update s.comm l (some (Comm.step c a)) l',
      Reach disciplinedMachine c' ∧ Listening c' := by
    intro l' c' there'
    rcases eq_or_ne l' l with rfl | other
    · rw [Function.update_self] at there'
      cases Option.some.inj there'
      exact ⟨next,still⟩
    · rw [Function.update_of_ne other] at there'
      exact h.listeners l' c' there'
  simp only [step,there]
  generalize called : calling (Comm.step c a) = callback at passes
  generalize taken c a = fresh at passes
  cases passes with
  | quiet =>
    simp only [acceptfd,called] at induced ⊢
    exact ⟨h.server,listeners,by simpa using h.carries⟩
  | failed =>
    simp only [acceptfd,called] at induced ⊢
    exact ⟨.next h.server (induced _ rfl),listeners,by simpa [Srv.step] using Srv.refusedCarries h.carries⟩
  | passed =>
    simp only [acceptfd,called] at induced ⊢
    exact ⟨.next h.server (induced _ rfl),listeners,Srv.acceptCarries h.carries (induced _ rfl).2.1⟩

theorem stepServes {s a} (h : Serves s) (allowed : Allowed s a) : Serves (step s a) := by
  cases a with
  | listener l a flowid mem => exact listenerServes h allowed
  | srv a => exact ⟨.next h.server allowed.1,h.listeners,Srv.stepCarries h.carries allowed.2.1⟩

theorem reachServes {s} (h : Reach listenMachine s) : Serves s :=
  reachInvariant (m := listenMachine) (fun s ⟨cfg,fdV4,fdV6,new⟩ => by rw [new]; exact newServes cfg fdV4 fdV6)
    (fun _ _ => stepServes) h

theorem stepPresent (s : State) (a l) : ((step s a).comm l).isSome = (s.comm l).isSome := by
  cases a with
  | srv a => rfl
  | listener l' a flowid mem =>
    simp only [step]
    split
    · rfl
    · rename_i c there
      dsimp only
      rcases eq_or_ne l l' with rfl | other
      · rw [Function.update_self,there]
        rfl
      · rw [Function.update_of_ne other]

theorem runPresent (s : State) (actions l) : ((run listenMachine s actions).comm l).isSome = (s.comm l).isSome := by
  induction actions generalizing s with
  | nil => rfl
  | cons a rest ih => exact (ih (step s a)).trans (stepPresent s a l)

def again : Sys := ⟨-1,eAgain,0,none⟩

/- A connection comes in on the first thread, and goes over to the second one. -/
def handing : List Act :=
  [.listener ⟨0,.v4⟩ (.fire .accept ⟨5,0,0,none⟩) 9 Srv.plenty,.listener ⟨0,.v4⟩ (.resume again) 0 Srv.plenty,
    .srv (.lock 1),.srv (.round 1 Srv.plenty),.srv (.unlock 1)]

theorem handingPossible : Possible listenMachine (thrsrvNew ⟨2,1024,1⟩ 3 (-1)) handing := by
  refine ⟨⟨rfl,rfl,rfl,_,rfl,nofun,⟨rfl,rfl⟩,?_⟩,⟨rfl,rfl,rfl,_,rfl,nofun,by decide,?_⟩,⟨⟨rfl,by decide,rfl⟩,rfl,rfl,rfl⟩,
    ⟨⟨rfl,_,rfl,rfl,by decide⟩,rfl,rfl,rfl⟩,⟨⟨rfl,_,rfl,rfl,rfl⟩,rfl,rfl,rfl⟩,trivial⟩
  · intro b call
    cases Option.some.inj call
    exact ⟨rfl,by decide,rfl,fun _ _ => by decide⟩
  · intro b call
    contradiction

/- Each layer runs as it does on its own, and a thread that has a socket listens on it for ever. -/
theorem listenersStay (cfg : Srv.Cfg) (fdV4 fdV6 : Int) {actions}
    (possible : Possible listenMachine (thrsrvNew cfg fdV4 fdV6) actions) :
    Reach Srv.serverMachine (run listenMachine (thrsrvNew cfg fdV4 fdV6) actions).srv ∧
    ∀ l : Listener, l.thread < cfg.numThreads → sockfd fdV4 fdV6 l.family ≠ -1 →
      ∃ c, (run listenMachine (thrsrvNew cfg fdV4 fdV6) actions).comm l = some c ∧ Reach disciplinedMachine c ∧
        c.freed = false ∧ (c.armed .accept = true ∨ c.ctl = .acceptLoop) := by
  have serves := reachServes (reachRun (.start ⟨cfg,fdV4,fdV6,rfl⟩) possible)
  refine ⟨serves.server,?_⟩
  intro l inside opened
  have present := runPresent (thrsrvNew cfg fdV4 fdV6) actions l
  have first : ((thrsrvNew cfg fdV4 fdV6).comm l).isSome = true := by
    simp only [thrsrvNew,if_pos (And.intro inside opened),Option.isSome_some]
  obtain ⟨c,there⟩ := Option.isSome_iff_exists.mp (present.trans first)
  obtain ⟨reached,listens⟩ := serves.listeners l c there
  have inv := reachInv reached
  have on : c.c.a.isActive = true := congrFun listens.active .accept
  refine ⟨c,there,reached,?_,?_⟩
  · exact Bool.eq_false_iff.mpr fun freed => notCleanup inv listens.opened (inv.freed freed).2.2
  · rcases listens.between with idle | tail | loop
    · exact Or.inl (inv.waitAccept (by rw [idle]; rfl) on)
    · exact Or.inl (inv.waitAccept (by rw [tail]; rfl) on)
    · exact Or.inr loop

theorem listenersStayRun : ∃ c, (run listenMachine (thrsrvNew ⟨2,1024,1⟩ 3 (-1)) handing).comm ⟨0,.v4⟩ = some c ∧
    Reach disciplinedMachine c ∧ c.freed = false ∧ (c.armed .accept = true ∨ c.ctl = .acceptLoop) :=
  (listenersStay ⟨2,1024,1⟩ 3 (-1) handingPossible).2 ⟨0,.v4⟩ (by decide) (by decide)

/- Every descriptor that accept() returned is in one place of the server, under its own number. -/
theorem descriptorsAccounted {s} (h : Reach listenMachine s) (up : s.srv.crashed = false) :
    s.srv.places.Perm (List.range s.fds.length) ∧ s.srv.closed.Nodup ∧
    (∀ id ∈ s.srv.released, id ∈ s.srv.closed) ∧
    ∀ r ∈ s.srv.threads,
      (∀ new ∈ r.newfdList, s.fds[new.id]? = some new.newfd ∧ new.id ∉ s.srv.closed) ∧
      ∀ c ∈ r.connList, s.fds[c.id]? = some c.conn.c.fd ∧ (c.id ∈ s.srv.closed ↔ c.conn.port.closed = true) := by
  have serves := reachServes h
  have keeps := Srv.runningKeeps serves.server up
  have count := serves.carries.count
  refine ⟨by rw [← count]; exact keeps.places,keeps.closedOnce,keeps.released,?_⟩
  intro r mem
  obtain ⟨i,found⟩ := List.mem_iff_getElem?.mp mem
  have thread := keeps.each i r found
  have carries := serves.carries.threads r mem
  refine ⟨?_,?_⟩
  · intro new queued
    exact ⟨carries.queued new queued,(thread.waiting new queued).1⟩
  · intro c listed
    exact ⟨carries.served c listed,(thread.conns up c listed).2⟩

theorem descriptorsAccountedRun : ∃ s, Reach listenMachine s ∧ s.fds = [5] ∧ (s.srv.threads.map fun r => r.connList.length) = [0,1] ∧
    ∀ r ∈ s.srv.threads, ∀ c ∈ r.connList, s.fds[c.id]? = some c.conn.c.fd := by
  have reached : Reach listenMachine (run listenMachine (thrsrvNew ⟨2,1024,1⟩ 3 (-1)) handing) :=
    reachRun (.start ⟨_,_,_,rfl⟩) handingPossible
  refine ⟨_,reached,rfl,rfl,?_⟩
  intro r mem c listed
  exact (((descriptorsAccounted reached rfl).2.2.2 r mem).2 c listed).1

end Libiapp.SrvListen

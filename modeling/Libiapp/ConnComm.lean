import Libiapp.ConnLife
import Libiapp.CommFace
import Libiapp.CommWriter

/-! conn.c on top of comm.c. The conn of Conn.lean sees its comm as a port; here the comm is
the real one: what the conn calls is done to it, and its callbacks are those of the conn. -/
namespace Libiapp.ConnComm
open Runs
open Libiapp.Comm (Port Face face Ctl CommFde Sys disciplinedMachine portStep inactive)
open Libiapp.Connection (Ev Shape Stage connMachine)

structure State where
  conn : Connection.State
  comm : Comm.State

-- The callbacks that a conn gives its comm, and its netbuf, as numbers.
def clientEvCloseCbFn : Nat := 1
def connWriteCbFn : Nat := 2
def netbuf : Nat := 1

-- comm_write takes the size of the netbuf as an int.
def asked (size : UInt64) : Ev → Option Comm.Call
  | .commWrite (some _) => some (.write netbuf 0 (Int32.ofNat size.toNat).toInt connWriteCbFn 0)
  | .commClose (some _) => some .close
  | _ => none

/- What the conn has called since. -/
def calls (before after : Connection.State) : List Comm.Call :=
  (after.log.take (after.log.length - before.log.length)).reverse.filterMap (asked after.c.bufSize)

def State.act (s : State) (a : Connection.Act) : State :=
  let conn := Connection.step s.conn a
  ⟨conn,(calls s.conn conn).foldl Comm.client s.comm⟩

def enter (s : State) : State :=
  match Comm.calling s.comm with
  | some (.write _ _ _ status nwritten) => s.act (.wrote status nwritten)
  | some (.close ..) => s.act .closed
  | _ => s

def connNew (fd : Int) (comm : Nat) (ioSize : UInt64) (cb : Option Nat) (cbdata : Nat) : Option State :=
  (Connection.connNew Connection.allSucceed fd comm ioSize cb cbdata).map fun conn =>
    ⟨conn,(conn.log.reverse.filterMap (asked conn.c.bufSize)).foldl Comm.client
      (Comm.commCreate fd (some clientEvCloseCbFn) 0)⟩

inductive Act where
  | owner (a : Connection.Act)
  | fire (e : CommFde) (sys : Sys)
  | resume (sys : Sys)
  | cleanup
  deriving DecidableEq, Repr

def step (s : State) : Act → State
  | .owner a => s.act a
  | .fire e sys => enter { s with comm := Comm.step s.comm (.fire e sys) }
  | .resume sys => enter { s with comm := Comm.step s.comm (.resume sys) }
  | .cleanup => s.act .cleanup

/- What the owner does, and its returning from a notification. -/
def owned : Connection.Act → Bool
  | .connClose | .connSetStatsCb _ | .setThreshold _ | .ret => true
  | _ => false

/- The event loop, and what is left of a handler, go on when the conn has returned. -/
def Allowed (s : State) : Act → Prop
  | .owner a => owned a = true ∧ Connection.Allowed s.conn a
  | .fire e sys => s.conn.crashed = false ∧ s.conn.stack = [] ∧ Comm.Allowed s.comm (.fire e sys)
  | .resume sys => s.conn.crashed = false ∧ s.conn.stack = [] ∧ Comm.Allowed s.comm (.resume sys)
  | .cleanup => s.comm.ctl = .idle ∧ Connection.Allowed s.conn .cleanup

instance (s : State) : (a : Act) → Decidable (Allowed s a)
  | .owner a => inferInstanceAs (Decidable (owned a = true ∧ Connection.Allowed s.conn a))
  | .fire e sys =>
    inferInstanceAs (Decidable (s.conn.crashed = false ∧ s.conn.stack = [] ∧ Comm.Allowed s.comm (.fire e sys)))
  | .resume sys =>
    inferInstanceAs (Decidable (s.conn.crashed = false ∧ s.conn.stack = [] ∧ Comm.Allowed s.comm (.resume sys)))
  | .cleanup => inferInstanceAs (Decidable (s.comm.ctl = .idle ∧ Connection.Allowed s.conn .cleanup))

def Created (s : State) : Prop := ∃ fd comm ioSize cb cbdata, connNew fd comm ioSize cb cbdata = some s

def jointMachine : Machine State Act := ⟨Created,Allowed,step⟩

instance (s a) : Decidable (jointMachine.allowed s a) := inferInstanceAs (Decidable (Allowed s a))

/- A step of the conn from where its port is `p`: it may call comm_close, but not comm_write,
and counts nothing as written. -/
structure Does (s : Connection.State) (p : Port) (s' : Connection.State) (closes : Bool) : Prop where
  log : ∃ new, s'.log = new ++ s.log ∧ new.reverse.filterMap (asked s'.c.bufSize) = (if closes then [.close] else []) ∧
    ∀ e ∈ new, e.writes = false ∧ ∀ tx, e ≠ .stats tx
  port : s'.port = if closes then portStep p .close else p
  written : s'.c.totalWritten = s.c.totalWritten

theorem Does.calls {s p s' closes} (does : Does s p s' closes) : calls s s' = if closes then [.close] else [] := by
  obtain ⟨new,log,asks,_⟩ := does.log
  have length : s'.log.length - s.log.length = new.length := by
    rw [log,List.length_append]
    omega
  rw [ConnComm.calls,length,log,List.take_left',asks]
  rfl

/- One event that is no call, and what comes behind it. -/
theorem Does.behind {s t s' : Connection.State} {p closes ev} (does : Does t p s' closes) (log : t.log = ev::s.log)
    (plain : ∀ size, asked size ev = none) (silent : ev.writes = false ∧ ∀ tx, ev ≠ .stats tx)
    (written : t.c.totalWritten = s.c.totalWritten) : Does s p s' closes := by
  obtain ⟨⟨new,whole,asks,quiet⟩,port,total⟩ := does
  refine ⟨⟨new ++ [ev],?_,?_,?_⟩,port,total.trans written⟩
  · rw [whole,log,List.append_assoc]
    rfl
  · rw [List.reverse_append,List.reverse_singleton,List.singleton_append,List.filterMap_cons_none (plain _)]
    exact asks
  · intro e mem
    rcases List.mem_append.mp mem with new | last
    · exact quiet e new
    · rw [List.mem_singleton.mp last]
      exact silent

theorem doesNothing {s s' : Connection.State} {p} (log : s'.log = s.log) (port : s'.port = p)
    (written : s'.c.totalWritten = s.c.totalWritten) : Does s p s' false :=
  ⟨⟨[],log,rfl,nofun⟩,port,written⟩

theorem closeTailDoes {s : Connection.State} (linked : s.c.comm.isSome = true) :
    Does s s.port (Connection.connCloseTail s) true := by
  obtain ⟨comm,link⟩ := Option.isSome_iff_exists.mp linked
  refine ⟨⟨[.commClose s.c.comm],rfl,?_,?_⟩,?_,rfl⟩
  · simp only [link]
    rfl
  · simp [Ev.writes]
  · simp [Connection.connCloseTail,Connection.commClose,linked]

theorem behindDoes (s : Connection.State) (note) (linked : note = .closing → s.c.comm.isSome = true) :
    ∃ closes, Does s s.port (Connection.behind s note) closes ∧ (closes = true → note = .closing) := by
  cases note with
  | error => exact ⟨false,doesNothing rfl rfl rfl,nofun⟩
  | closing => exact ⟨true,closeTailDoes (linked rfl),fun _ => rfl⟩
  | freeing =>
    refine ⟨false,⟨⟨[.freed],rfl,rfl,?_⟩,rfl,rfl⟩,nofun⟩
    simp [Ev.writes]

theorem notifyDoes (s : Connection.State) (note) (linked : note = .closing → s.c.comm.isSome = true) :
    ∃ closes, Does s s.port (Connection.notify s note) closes ∧ (closes = true → note = .closing) := by
  unfold Connection.notify
  split
  · exact behindDoes s note linked
  · refine ⟨false,⟨⟨[.notified note],rfl,rfl,?_⟩,rfl,rfl⟩,nofun⟩
    simp [Ev.writes]

theorem becomeDoes (s : Connection.State) (st note) (linked : note = .closing → s.c.comm.isSome = true) :
    ∃ closes, Does s s.port (Connection.notify (s.become st) note) closes ∧ (closes = true → note = .closing) := by
  obtain ⟨closes,does,when⟩ := notifyDoes (s.become st) note linked
  refine ⟨closes,does.behind rfl (fun _ => rfl) ⟨rfl,nofun⟩ rfl,when⟩

theorem connCloseDoes {erred stage s} (h : Shape true erred stage s) : ∃ closes,
    Does s s.port (Connection.connClose s) closes ∧ (closes = true → s.port.closing = false ∧ s.port.closed = false) := by
  rcases Connection.connCloseCases h with same | ⟨opened,closes⟩
  · rw [same]
    exact ⟨false,doesNothing rfl rfl rfl,nofun⟩
  · have linked : s.c.comm.isSome = true ∧ s.port.closing = false ∧ s.port.closed = false := by
      rw [h.comm,h.closing,h.closed]
      rcases opened with rfl | rfl <;> exact ⟨rfl,rfl,rfl⟩
    rw [closes]
    obtain ⟨closes,does,_⟩ := becomeDoes s .closing .closing (fun _ => linked.1)
    exact ⟨closes,does,fun _ => linked.2⟩

/- The port as the callback that is entered leaves it. -/
def entering (p : Port) : Connection.Act → Port
  | .wrote status nwritten => portStep p (.wrote status nwritten)
  | .closed => portStep p .closed
  | _ => p

theorem failDoes (s : Connection.State) {status} (nwritten) (failed : status ≠ .completed) :
    Does s s.port (Connection.connWriteCb s status nwritten) false := by
  unfold Connection.connWriteCb
  split
  · exact doesNothing rfl rfl rfl
  · obtain ⟨closes,does,when⟩ := becomeDoes s .error .error nofun
    cases closes with
    | false => exact does
    | true => cases when rfl

theorem stepDoes {erred stage s a} (h : Shape true erred stage s) (allowed : Connection.Allowed s a)
    (failed : ∀ nwritten, a ≠ .wrote .completed nwritten) : ∃ closes,
    Does s (entering s.port a) (Connection.step s a) closes ∧
      (closes = true → (entering s.port a).closing = false ∧ (entering s.port a).closed = false) := by
  obtain ⟨_,allowed⟩ := allowed
  cases a with
  | connClose => exact connCloseDoes h
  | connSetStatsCb cb => exact ⟨false,doesNothing rfl rfl rfl,by simp⟩
  | setThreshold thr => exact ⟨false,doesNothing rfl rfl rfl,by simp⟩
  | wrote status nwritten =>
    have error : status ≠ .completed := fun same => failed nwritten (by rw [same])
    have does := failDoes { s.enter .write with port := portStep s.port (.wrote status nwritten) } nwritten error
    exact ⟨false,does.behind rfl (fun _ => rfl) ⟨rfl,by simp⟩ rfl,by simp⟩
  | closed =>
    refine ⟨false,⟨⟨[.entered .close],rfl,rfl,?_⟩,rfl,rfl⟩,by simp⟩
    simp [Ev.writes]
  | cleanup =>
    obtain ⟨rfl,notifies⟩ := Connection.cleanupCases h allowed.2
    rw [notifies]
    obtain ⟨closes,does,when⟩ := notifyDoes { s.enter .cleanup with evCleanup := some false } .freeing (by simp)
    exact ⟨closes,does.behind rfl (fun _ => rfl) ⟨rfl,by simp⟩ rfl,fun on => absurd (when on) (by simp)⟩
  | ret =>
    cases stack : s.stack with
    | nil => exact absurd stack allowed
    | cons note rest =>
      have inside := h.stack
      rw [stack] at inside
      have linked (is : note = .closing) : s.c.comm.isSome = true ∧ s.port.closing = false ∧ s.port.closed = false := by
        subst is
        have asked : stage = .asked := by cases stage <;> simp_all [Stage.stack]
        rw [h.comm,h.closing,h.closed,asked]
        exact ⟨rfl,rfl,rfl⟩
      simp only [Connection.step,stack]
      obtain ⟨closes,does,when⟩ := behindDoes { s with stack := rest } note (fun is => (linked is).1)
      exact ⟨closes,{ does with },fun on => (linked (when on)).2⟩

theorem behindState (s : Connection.State) (note) : (Connection.behind s note).c.state = s.c.state := by
  cases note <;> rfl

theorem notifyState (s : Connection.State) (note) : (Connection.notify s note).c.state = s.c.state := by
  unfold Connection.notify
  split
  · exact behindState s note
  · rfl

/- A write that has failed leaves no conn running. -/
theorem stillRunning {s : Connection.State} {a} (failed : ∀ nwritten, a ≠ .wrote .completed nwritten)
    (running : (Connection.step s a).c.state = .running) :
    s.c.state = .running ∧ (entering s.port a).writing = s.port.writing := by
  cases a with
  | connClose =>
    simp only [Connection.step,Connection.connClose] at running
    split at running
    · exact ⟨running,rfl⟩
    · rw [notifyState] at running
      cases running
  | connSetStatsCb cb => exact ⟨running,rfl⟩
  | setThreshold thr => exact ⟨running,rfl⟩
  | wrote status nwritten =>
    have error : status ≠ .completed := fun same => failed nwritten (by rw [same])
    simp only [Connection.step,Connection.connWriteCb,if_pos error] at running
    split at running
    · rename_i other
      exact absurd running other
    · rw [Connection.connFail,notifyState] at running
      cases running
  | closed => exact ⟨running,rfl⟩
  | cleanup =>
    simp only [Connection.step,Connection.clientEvCleanupCb] at running
    rw [notifyState] at running
    refine ⟨?_,rfl⟩
    split at running <;> exact running
  | ret =>
    refine ⟨?_,rfl⟩
    simp only [Connection.step] at running
    split at running
    · exact running
    · rw [behindState] at running
      exact running

/- A comm on which only writes are made, with a port that shows it. -/
structure Fits (f : Face) (p : Port) : Prop where
  writes : ∀ k, k ≠ .write → f.active k = false
  owner : f.cb = some clientEvCloseCbFn
  port : p = ⟨f.active .write,f.isClosing,f.freed || f.ctl.inCleanup⟩
  place : f.ctl = .idle ∨ f.ctl = .tail ∨ f.ctl = .writeClosing ∨ f.ctl = .cleanup
  carried : f.isClosing = true → f.active .write = false → f.ctl ≠ .writeClosing → f.isCleanup = true

structure Joined (s : State) : Prop where
  conn : Reach connMachine s.conn
  comm : Reach disciplinedMachine s.comm
  fits : Fits (face s.comm) s.conn.port
  busy : s.conn.c.state = .running → s.conn.port.writing = true
  once : s.conn.log.countP Ev.writes = 1
  unsaid : ∀ tx, .stats tx ∉ s.conn.log
  written : s.conn.c.totalWritten = 0

theorem closeFits {s p} (inv : Comm.Inv False s) (fits : Fits (face s) p) (opened : p.closing = false)
    (unclosed : p.closed = false) : s.freed = false ∧ Fits (face (Comm.client s .close)) (portStep p .close) := by
  have port := fits.port
  have alive : s.freed = false ∧ s.ctl.inCleanup = false := by
    rw [port] at unclosed
    exact Bool.or_eq_false_iff.mp unclosed
  have closing : s.c.isClosing = false := by
    rw [port] at opened
    exact opened
  refine ⟨alive.1,?_⟩
  rw [Comm.faceCloses inv alive.1 closing]
  exact {
    writes := fits.writes
    owner := fits.owner
    port := by rw [port]; rfl
    place := fits.place
    carried := fun _ off _ => by
      rw [Comm.readyIff rfl]
      intro k
      rcases eq_or_ne k .write with rfl | other
      · exact off
      · have quiet := fits.writes k other
        cases k <;> exact quiet }

/- What a conn does behind a callback or by the will of its owner, with its comm. -/
theorem actJoined {s : State} {a} (joined : Joined s) {comm} (run : Reach disciplinedMachine comm)
    (fits : Fits (face comm) (entering s.conn.port a)) (allowed : Connection.Allowed s.conn a)
    (failed : ∀ nwritten, a ≠ .wrote .completed nwritten) : Joined (State.act ⟨s.conn,comm⟩ a) := by
  obtain ⟨erred,stage,shape⟩ := Connection.reachShape joined.conn
  obtain ⟨closes,does,when⟩ := stepDoes shape allowed failed
  have goes := does.calls
  obtain ⟨⟨new,log,_,silent⟩,port,written⟩ := does
  have conn : Reach connMachine (Connection.step s.conn a) := .next joined.conn allowed
  have once : (Connection.step s.conn a).log.countP Ev.writes = 1 := by
    have none : new.countP Ev.writes = 0 := List.countP_eq_zero.mpr fun e mem => by simp [(silent e mem).1]
    rw [log,List.countP_append,none,joined.once]
  have unsaid (tx) : .stats tx ∉ (Connection.step s.conn a).log := by
    rw [log]
    intro mem
    rcases List.mem_append.mp mem with said | before
    · exact (silent _ said).2 tx rfl
    · exact joined.unsaid tx before
  have total := written.trans joined.written
  have busy : (Connection.step s.conn a).c.state = .running → (Connection.step s.conn a).port.writing = true := by
    intro running
    obtain ⟨before,same⟩ := stillRunning failed running
    rw [port]
    cases closes <;> exact same.trans (joined.busy before)
  simp only [State.act,goes]
  cases closes with
  | false => exact ⟨conn,run,port ▸ fits,busy,once,unsaid,total⟩
  | true =>
    obtain ⟨opened,unclosed⟩ := when rfl
    obtain ⟨alive,closed⟩ := closeFits (Comm.reachInv run) fits opened unclosed
    have asks : disciplinedMachine.allowed comm (.client .close) := ⟨alive,nofun⟩
    exact ⟨conn,.next run asks,port ▸ closed,busy,once,unsaid,total⟩

/- A step of the comm behind which no callback of the conn runs. -/
theorem quietJoined {s : State} (joined : Joined s) {comm} (run : Reach disciplinedMachine comm) (idle : comm.ctl = .idle)
    (fits : Fits (face comm) s.conn.port) : Joined (enter { s with comm := comm }) := by
  simp only [enter,Comm.idleUncalled idle]
  exact { joined with comm := run, fits := fits }

theorem fireJoined {s : State} {e sys} (joined : Joined s) (possible : Allowed s (.fire e sys)) :
    Joined (step s (.fire e sys)) := by
  obtain ⟨sound,returned,allowed⟩ := possible
  have inv := Comm.reachInv joined.comm
  have fits := joined.fits
  have can : disciplinedMachine.allowed s.comm (.fire e sys) := ⟨allowed,trivial⟩
  have run : Reach disciplinedMachine (Comm.step s.comm (.fire e sys)) := .next joined.comm can
  have idle : (face s.comm).ctl = .idle := allowed.1
  have alive : s.comm.freed = false := Bool.eq_false_iff.mpr fun gone => Comm.never (((inv.freed gone).1 e).symm.trans allowed.2)
  have port : s.conn.port = ⟨s.comm.c.w.isActive,s.comm.c.isClosing,false⟩ := by
    rw [fits.port,idle]
    simp only [face,alive]
    rfl
  rcases Comm.fireWriting inv allowed.2 fits.writes fits.owner with same | ⟨on,fn,fd,cbdata,st,n,calls,failed,shows⟩ | ⟨done,⟨fn,fd,cbdata,calls⟩,shows⟩
  · exact quietJoined joined run ((congrArg Face.ctl same).trans idle) (same ▸ fits)
  · simp only [step,enter,calls]
    have writing : Connection.Allowed s.conn (.wrote st n) := ⟨sound,returned,by rw [port]; exact on⟩
    refine actJoined joined run ?_ writing (fun _ same => failed (by cases same; rfl))
    rw [shows,entering,port]
    exact {
      writes := fun _ _ => rfl
      owner := fits.owner
      port := by
        simp only [portStep,face,alive]
        cases s.comm.c.isClosing <;> rfl
      place := by
        cases s.comm.c.isClosing
        · exact Or.inr (Or.inl rfl)
        · exact Or.inr (Or.inr (Or.inl rfl))
      carried := fun closing _ behind => absurd (if_pos closing) behind }
  · simp only [step,enter,calls]
    obtain ⟨closing,quiet⟩ := inv.cleanup done
    have closed : Connection.Allowed s.conn .closed := ⟨sound,returned,by rw [port]; exact ⟨closing,quiet .write,rfl⟩⟩
    refine actJoined joined run ?_ closed (by simp)
    rw [shows,entering,port]
    exact {
      writes := fits.writes
      owner := fits.owner
      port := by
        simp only [portStep,face,alive]
        rfl
      place := Or.inr (Or.inr (Or.inr rfl))
      carried := fun _ _ _ => done }

theorem resumeJoined {s : State} {sys} (joined : Joined s) (possible : Allowed s (.resume sys)) :
    Joined (step s (.resume sys)) := by
  obtain ⟨_,_,away⟩ := possible
  have inv := Comm.reachInv joined.comm
  have fits := joined.fits
  have can : disciplinedMachine.allowed s.comm (.resume sys) := ⟨away,trivial⟩
  have run : Reach disciplinedMachine (Comm.step s.comm (.resume sys)) := .next joined.comm can
  rcases fits.place with idle | tail | closing | cleanup
  · exact absurd idle away
  · have goes := @Comm.resumeTail _ sys tail
    refine quietJoined joined run (by rw [goes]) ?_
    rw [goes]
    exact { fits with
      port := by rw [fits.port,tail]; rfl
      place := Or.inl rfl
      carried := fun closing off _ => fits.carried closing off (by rw [tail]; nofun) }
  · have goes := @Comm.resumeWriting _ sys inv fits.writes closing
    refine quietJoined joined run (congrArg Face.ctl goes) ?_
    rw [goes]
    exact { fits with
      port := by rw [fits.port,closing]; rfl
      place := Or.inl rfl
      carried := fun _ _ _ => rfl }
  · have goes := @Comm.resumeCleanup _ sys cleanup
    refine quietJoined joined run (congrArg Face.ctl goes) ?_
    rw [goes]
    exact { fits with
      port := by rw [fits.port,cleanup]; simp [Ctl.inCleanup]
      place := Or.inl rfl
      carried := fun closing off _ => fits.carried closing off (by rw [cleanup]; nofun) }

theorem createdJoined {s : State} (created : Created s) : Joined s := by
  obtain ⟨fd,comm,ioSize,cb,cbdata,made⟩ := created
  let first := Comm.commCreate fd (some clientEvCloseCbFn) 0
  let write : Comm.Call := .write netbuf 0 (Int32.ofNat ioSize.toNat).toInt connWriteCbFn 0
  have begun : Reach disciplinedMachine first := .start ⟨fd,some clientEvCloseCbFn,0,rfl⟩
  have asks : disciplinedMachine.allowed first (.client write) := ⟨rfl,fun _ => rfl⟩
  have shows : face (Comm.client first write) =
      ⟨Function.update first.c.active .write true,false,false,false,.idle,some clientEvCloseCbFn⟩ :=
    Comm.faceWrite netbuf 0 (Int32.ofNat ioSize.toNat).toInt connWriteCbFn 0 (Comm.reachInv begun) rfl rfl rfl
  have goes : connNew fd comm ioSize cb cbdata = some ⟨⟨⟨fd,some comm,.running,ioSize,cb,cbdata,none,0,0⟩,
      ⟨true,false,false⟩,some false,[],false,false,[.commWrite (some comm),.set .running]⟩,Comm.client first write⟩ := rfl
  cases Option.some.inj (made.symm.trans goes)
  exact {
    conn := .start ⟨fd,comm,ioSize,cb,cbdata,rfl⟩
    comm := .next begun asks
    fits := by
      rw [shows]
      exact ⟨fun k other => by cases k <;> first | rfl | exact absurd rfl other,rfl,rfl,Or.inl rfl,nofun⟩
    busy := fun _ => rfl
    once := rfl
    unsaid := by simp
    written := rfl }

theorem reachJoined {s} (h : Reach jointMachine s) : Joined s := by
  refine reachInvariant (m := jointMachine) (fun _ => createdJoined) ?_ h
  intro s a joined possible
  cases a with
  | owner a =>
    have quiet : entering s.conn.port a = s.conn.port ∧ ∀ nwritten, a ≠ .wrote .completed nwritten := by
      have own := possible.1
      cases a <;> first | exact ⟨rfl,nofun⟩ | cases own
    exact actJoined joined joined.comm (by rw [quiet.1]; exact joined.fits) possible.2 quiet.2
  | fire e sys => exact fireJoined joined possible
  | resume sys => exact resumeJoined joined possible
  | cleanup => exact actJoined joined joined.comm joined.fits possible.2 nofun

/- conn.c and comm.c keep what each of them promises the other. -/
theorem connCommAgree {s} (h : Reach jointMachine s) :
    Reach connMachine s.conn ∧ Reach disciplinedMachine s.comm ∧
      s.conn.port = ⟨s.comm.c.w.isActive,s.comm.c.isClosing,s.comm.freed || s.comm.ctl.inCleanup⟩ := by
  have joined := reachJoined h
  exact ⟨joined.conn,joined.comm,joined.fits.port⟩

/- A buffer goes out, and its write ends in the end of the file. The owner closes. -/
def accepted : State := (connNew 5 1 10 (some 7) 0).get rfl

def onceRun : List Act :=
  [.fire .write ⟨0,0,0,none⟩,.fire .writeCb ⟨10,0,0,none⟩,.fire .write ⟨0,0,0,none⟩,.fire .writeCb ⟨0,0,0,none⟩,
    .owner .connClose,.owner .ret,.owner .ret,.resume ⟨0,0,0,none⟩]

def freedRun : List Act :=
  onceRun ++ [.fire .cleanup ⟨0,0,0,none⟩,.resume ⟨0,0,0,none⟩,.cleanup,.owner .ret]

theorem connCommAgreeRun :
    let s := run jointMachine accepted freedRun
    s.conn.freed = true ∧ s.comm.freed = true ∧ s.conn.port = ⟨false,true,true⟩ := by
  have reached : Reach jointMachine (run jointMachine accepted freedRun) :=
    reachRun (.start ⟨5,1,10,some 7,0,rfl⟩) (by decide)
  exact ⟨by decide,by decide,(connCommAgree reached).2.2.trans (by decide)⟩

/- A conn writes its buffer once. The callback of that write reports an error, or the end of
the file, or the close: nothing is counted, and there is no second write. -/
theorem writesOnce {s} (h : Reach jointMachine s) :
    s.conn.log.countP Ev.writes = 1 ∧ s.conn.c.totalWritten = 0 ∧ (∀ tx, .stats tx ∉ s.conn.log) ∧
      ∀ cb fd cbdata nwritten, .invoked (.write cb fd cbdata .completed nwritten) ∉ s.comm.log := by
  have joined := reachJoined h
  exact ⟨joined.once,joined.written,joined.unsaid,Comm.neverCompleted (reachUnguarded joined.comm)⟩

theorem writesOnceRun :
    let s := run jointMachine accepted freedRun
    s.conn.c.totalWritten = 0 ∧ .notified .error ∈ s.conn.log := by
  have reached : Reach jointMachine (run jointMachine accepted freedRun) :=
    reachRun (.start ⟨5,1,10,some 7,0,rfl⟩) (by decide)
  exact ⟨(writesOnce reached).2.1,by decide⟩

/- Between two callbacks a conn has an event to wait for, unless it waits for its owner. -/
theorem connCarried {s} (h : Reach jointMachine s) (returned : s.conn.stack = []) (between : s.comm.ctl = .idle) :
    s.conn.c.state = .running ∧ s.comm.armed .write = true ∨
    s.conn.c.state = .error ∨
    s.conn.c.state = .closing ∧ (s.comm.armed .writeCb = true ∨ s.comm.armed .cleanup = true ∨ s.conn.evCleanup = some true) ∨
    s.conn.freed = true := by
  have joined := reachJoined h
  have inv := Comm.reachInv joined.comm
  obtain ⟨erred,stage,shape⟩ := Connection.reachShape joined.conn
  have port := joined.fits.port
  have writing : s.conn.port.writing = s.comm.c.w.isActive := congrArg Port.writing port
  have closing : s.conn.port.closing = s.comm.c.isClosing := congrArg Port.closing port
  cases stage with
  | running =>
    have running : s.conn.c.state = .running := shape.state
    have opened : s.comm.c.isClosing = false := closing.symm.trans shape.closing
    exact Or.inl ⟨running,inv.waitWrite opened (writing.symm.trans (joined.busy running))⟩
  | failed => exact Or.inr (Or.inl shape.state)
  | asked =>
    have inside := shape.stack
    rw [returned] at inside
    simp [Stage.stack] at inside
  | waiting =>
    refine Or.inr (Or.inr (Or.inl ⟨shape.state,?_⟩))
    have asked : s.comm.c.isClosing = true := closing.symm.trans shape.closing
    have unclosed : (s.comm.freed || s.comm.ctl.inCleanup) = false := (congrArg Port.closed port).symm.trans shape.closed
    obtain ⟨alive,outside⟩ := Bool.or_eq_false_iff.mp unclosed
    cases active : s.comm.c.w.isActive with
    | true => exact Or.inl (inv.waitWriteCb asked active)
    | false =>
      have done := joined.fits.carried asked active (by rw [show (face s.comm).ctl = .idle from between]; nofun)
      exact Or.inr (Or.inl (inv.waitCleanup outside alive done))
  | closed => exact Or.inr (Or.inr (Or.inl ⟨shape.state,Or.inr (Or.inr shape.evCleanup)⟩))
  | freeing =>
    have inside := shape.stack
    rw [returned] at inside
    cases inside
  | freed => exact Or.inr (Or.inr (Or.inr shape.freed))

theorem connCarriedRun :
    let s := run jointMachine accepted onceRun
    s.conn.c.state = .closing ∧ (s.comm.armed .writeCb = true ∨ s.comm.armed .cleanup = true ∨ s.conn.evCleanup = some true) := by
  have reached : Reach jointMachine (run jointMachine accepted onceRun) :=
    reachRun (.start ⟨5,1,10,some 7,0,rfl⟩) (by decide)
  rcases connCarried reached (by decide) (by decide) with ⟨state,_⟩ | state | closing | freed
  · exact absurd state (by decide)
  · exact absurd state (by decide)
  · exact closing
  · exact absurd freed (by decide)

end Libiapp.ConnComm

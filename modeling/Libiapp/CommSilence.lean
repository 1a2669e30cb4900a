import Libiapp.CommIo
import Libiapp.CommOnce
import Libiapp.CommQueue
import Libiapp.CommWakeup

/-! What a comm still does behind comm_close. Every handler looks at is_closing when it
is entered, and what it falls through to finds its operation over; only the loops of
comm_cb_accept and comm_cb_udp_write go on as if nothing had happened. -/
namespace Libiapp.Comm
open Runs

def Silent (s : State) (a : Act) : Prop := ∀ call ∈ systemCall s a, call.io = false

/- A frame is handed over with a status that does not say that the comm is closing. -/
def handedOn : Ev → Bool
  | .invoked (.udpWrite _ _ _ _ st _ _) => st ≠ .closing
  | _ => false

/- Every frame that was on w_q in `s` is still there or has been handed back with
FDE_COMM_CB_CLOSING. -/
structure HandedBack (s s' : State) : Prop where
  frames : handed s'.log ++ s'.c.udpW.wQ = handed s.log ++ s.c.udpW.wQ
  none : s'.log.countP handedOn = s.log.countP handedOn

/- A callback is running behind which a loop goes on with another system call. -/
def Looping (s : State) : Prop := s.ctl = .acceptLoop ∨ (s.ctl = .udpSend ∧ s.c.udpW.wQ ≠ [])

structure Quiet (s s' : State) : Prop extends HandedBack s s' where
  out : ¬ Looping s'

theorem HandedBack.trans {s s' s''} (first : HandedBack s s') (second : HandedBack s' s'') : HandedBack s s'' :=
  ⟨second.frames.trans first.frames,second.none.trans first.none⟩

theorem notLooping {s : State} (accept : s.ctl ≠ .acceptLoop) (send : s.ctl ≠ .udpSend) : ¬ Looping s := by
  rintro (inside | ⟨inside,_⟩)
  · exact accept inside
  · exact send inside

theorem outAt {s : State} (ctl : Ctl) (here : s.ctl = ctl) (out : ctl ≠ .acceptLoop ∧ ctl ≠ .udpSend) : ¬ Looping s :=
  notLooping (here ▸ out.1) (here ▸ out.2)

theorem silentNone {s a} (none : systemCall s a = none) : Silent s a := by
  intro call made
  rw [none] at made
  contradiction

theorem startCleanupQuiet {s s' : State} (quiet : Quiet s s') : Quiet s (commStartCleanup s') := by
  unfold commStartCleanup
  split
  · exact quiet
  · split
    · exact quiet
    · split
      · exact quiet
      · exact { quiet with }

theorem checkQuiet {s s₁ s₂} (ready : Quiet s s₁) (other : Quiet s s₂) :
    Quiet s (if commIsCloseReady s₁.c then commStartCleanup s₁ else s₂) := by
  split
  · exact startCleanupQuiet ready
  · exact other

/- The loop that hands the frames back. -/
theorem drainQuiet (s : State) (sys) (idle : s.ctl = .idle) : Quiet s (commCbUdpWriteDrain s sys) := by
  unfold commCbUdpWriteDrain
  split
  · rename_i fr rest head
    refine ⟨⟨?_,rfl⟩,outAt .udpDrain rfl (by decide)⟩
    simp [handFrame,State.invoke,handed,handedFrame,head]
  · have stopped : Quiet s { s with
        c.udpW.isActive := false, c.udpW.isPrimed := false, log := .udpWriteStopped::s.log } :=
      ⟨⟨rfl,rfl⟩,outAt .idle idle (by decide)⟩
    exact checkQuiet stopped stopped

theorem connectQuiet (s : State) (sys) (idle : s.ctl = .idle) : Quiet s (commCbConnect s sys) := by
  have out : ¬ Looping s := outAt .idle idle (by decide)
  unfold commCbConnect
  generalize (if sys.ret = 0 then sys.soError else sys.errno) = errno
  dsimp only
  split
  · exact ⟨⟨rfl,rfl⟩,out⟩
  · split <;> exact ⟨⟨rfl,rfl⟩,outAt .tail rfl (by decide)⟩

theorem fireQuiet {s : State} (e : CommFde) (sys) (closing : s.c.isClosing = true) (idle : s.ctl = .idle) :
    Silent s (.fire e sys) ∧ Quiet s (handle (fired s e) sys e) := by
  have firedIdle : (fired s e).ctl = .idle := idle
  have out : ¬ Looping (fired s e) := outAt .idle firedIdle (by decide)
  have closed : (fired s e).c.isClosing = true := closing
  have uncalled (call) : unlessClosing s call = none := if_pos closing
  have entered : HandedBack s (fired s e) := ⟨rfl,rfl⟩
  cases e with
  | read =>
    refine ⟨silentNone rfl,?_⟩
    simp only [handle,commCbRead]
    split <;> exact ⟨⟨rfl,rfl⟩,out⟩
  | write =>
    refine ⟨silentNone rfl,?_⟩
    simp only [handle,commCbWrite]
    split <;> exact ⟨⟨rfl,rfl⟩,out⟩
  | cleanup =>
    refine ⟨silentNone rfl,?_⟩
    simp only [handle,commCbCleanup]
    split
    · unfold commCbCleanupFree
      split <;> exact ⟨⟨rfl,rfl⟩,out⟩
    · exact ⟨⟨rfl,rfl⟩,outAt .cleanup rfl (by decide)⟩
  | connect =>
    have quiet := connectQuiet _ sys firedIdle
    exact ⟨fun call made => by cases made; rfl,⟨entered.trans quiet.toHandedBack,quiet.out⟩⟩
  | udpWrite =>
    have quiet := drainQuiet _ sys firedIdle
    refine ⟨silentNone (by rw [systemCall,handleCall,uncalled]),?_⟩
    simp only [handle,commCbUdpWrite]
    rw [if_pos closed]
    exact ⟨entered.trans quiet.toHandedBack,quiet.out⟩
  | _ =>
    refine ⟨silentNone (by rw [systemCall,handleCall,uncalled]),?_⟩
    simp only [handle,commCbReadCb,commCbWriteCb,commCbAccept,commCbConnectStart,commCbUdpRead]
    rw [if_pos closed]
    exact ⟨⟨rfl,rfl⟩,outAt _ rfl (by simp [State.invoke])⟩

section Off
variable {s : State}

theorem readOff (off : s.c.r.isActive = false) : readCall s = none := if_pos (by simpa using off)

theorem writeOff (off : s.c.w.isActive = false) : writeCall s = none := if_pos (by simpa using Or.inl off)

theorem acceptOff (off : s.c.a.isActive = false) : acceptCall s = none := if_pos (by simpa using off)

theorem connectOff (off : s.c.co.isActive = false) : connectCall s = none := if_pos (by simpa using off)

theorem udpReadOff {sys} (off : s.c.udpR.isActive = false) : udpReadCall s sys = none := if_pos (by simpa using off)

end Off

theorem unlessReadyNone (s : State) {call : Option Syscall} (none : call = .none) : unlessReady s call = .none := by
  rw [unlessReady,none]
  split <;> rfl

/- Behind a closing callback the operation is over, and the rest of its handler does nothing. -/
theorem resumeQuiet {s : State} (sys) (inv : Inv False s) (out : ¬ Looping s) :
    Silent s (.resume sys) ∧ Quiet s (step s (.resume sys)) := by
  obtain ⟨c,armed,ctl,freed,log⟩ := s
  have returned : Quiet ⟨c,armed,ctl,freed,log⟩ ⟨c,armed,.idle,freed,log⟩ := ⟨⟨rfl,rfl⟩,outAt .idle rfl (by decide)⟩
  have place := inv.place
  cases ctl with
  | idle => exact ⟨silentNone rfl,returned⟩
  | tail => exact ⟨silentNone rfl,returned⟩
  | acceptLoop => exact absurd (Or.inl rfl) out
  | readClosing =>
    have stopped : Quiet ⟨c,armed,.readClosing,freed,log⟩ (stopReading ⟨c,armed,.idle,freed,log⟩) := { returned with }
    refine ⟨silentNone (unlessReadyNone _ (readOff place.2)),checkQuiet stopped ?_⟩
    rw [readOver]
    · exact { stopped with }
    · exact place.2
  | writeClosing =>
    refine ⟨silentNone (unlessReadyNone _ (writeOff place.2)),checkQuiet returned ?_⟩
    rw [writeOver]
    · exact returned
    · exact place.2
  | acceptClosing =>
    refine ⟨silentNone (unlessReadyNone _ (acceptOff place.2)),checkQuiet returned ?_⟩
    rw [acceptOver]
    · exact returned
    · exact place.2
  | startClosing =>
    refine ⟨silentNone (unlessReadyNone _ (connectOff place.2)),checkQuiet returned ?_⟩
    rw [connectStartOver]
    · exact returned
    · exact place.2
  | udpReadClosing =>
    refine ⟨silentNone (unlessReadyNone _ (udpReadOff place.2)),checkQuiet returned ?_⟩
    rw [udpReadOver]
    · exact returned
    · exact place.2
  | udpDrain =>
    have quiet := drainQuiet ⟨c,armed,.idle,freed,log⟩ sys rfl
    exact ⟨silentNone rfl,⟨returned.toHandedBack.trans quiet.toHandedBack,quiet.out⟩⟩
  | udpSend =>
    have empty : c.udpW.wQ = [] := by
      by_contra left
      exact out (Or.inr ⟨rfl,left⟩)
    have none : sendCall ⟨c,armed,.udpSend,freed,log⟩ = .none := by simp [sendCall,empty]
    refine ⟨silentNone none,?_⟩
    simp only [step,goOn,commCbUdpWriteNext]
    rw [empty]
    exact returned
  | cleanup =>
    refine ⟨silentNone rfl,?_⟩
    simp only [step,goOn,commCbCleanupFree]
    split <;> exact { returned with }

/- The calls that a disciplined client can still make. -/
theorem calledClosing {s : State} {call} (closing : s.c.isClosing = true) (disciplined : Disciplined s (.client call)) :
    (client s call).ctl = s.ctl ∧ (client s call).c.udpW = s.c.udpW ∧ HandedBack s (client s call) := by
  have idle : call.starts = true → False := fun starts => never ((disciplined starts).symm.trans closing)
  cases call with
  | close =>
    have same : commClose s = s := by simp [commClose,closing]
    have called : client s .close = { s with log := .called .close 0::s.log } := by simp only [client,commCall,same]
    rw [called]
    exact ⟨rfl,rfl,⟨rfl,rfl⟩⟩
  | markNonclose => exact ⟨rfl,rfl,⟨rfl,rfl⟩⟩
  | _ => exact (idle rfl).elim

theorem loopingSame {s s' : State} (ctl : s'.ctl = s.ctl) (udpW : s'.c.udpW = s.c.udpW) : Looping s' ↔ Looping s := by
  rw [Looping,Looping,ctl,udpW]

theorem quietStep {s a} (inv : Inv False s) (closing : s.c.isClosing = true) (allowed : Allowed s a)
    (disciplined : Disciplined s a) (out : ¬ Looping s) : Silent s a ∧ Quiet s (step s a) := by
  cases a with
  | client call =>
    obtain ⟨ctl,udpW,back⟩ := calledClosing closing disciplined
    exact ⟨nofun,⟨back,fun looping => out ((loopingSame ctl udpW).mp looping)⟩⟩
  | fire e sys => exact fireQuiet e sys closing allowed.1
  | resume sys => exact resumeQuiet sys inv out

/- A callback that returns into a loop is followed by accept() or sendto(). -/
theorem loopingResume {s : State} (sys) (looping : Looping s) : ¬ Silent s (.resume sys) := by
  obtain ⟨c,armed,ctl,freed,log⟩ := s
  intro silent
  rcases looping with inside | ⟨inside,left⟩
  · cases show ctl = .acceptLoop from inside
    exact never (silent (.accept c.fd) rfl).symm
  · cases show ctl = .udpSend from inside
    obtain ⟨fr,rest,head⟩ := List.exists_cons_of_ne_nil left
    have made : systemCall ⟨c,armed,.udpSend,freed,log⟩ (.resume sys) = some (.sendto c.fd fr) := by
      rw [show systemCall ⟨c,armed,.udpSend,freed,log⟩ (.resume sys) = c.udpW.wQ.head?.map (.sendto c.fd) from rfl,
        show c.udpW.wQ = fr::rest from head]
      rfl
    exact never (silent _ made).symm

theorem handedBackFrom {s s' s''} (first : HandedBack s s') : HandedBack s s'' ↔ HandedBack s' s'' :=
  ⟨fun whole => ⟨whole.frames.trans first.frames.symm,whole.none.trans first.none.symm⟩,first.trans⟩

theorem silentIff {s actions} (h : Reach disciplinedMachine s) (closing : s.c.isClosing = true)
    (possible : Possible disciplinedMachine s actions) :
    (Each disciplinedMachine Silent s actions ∧ HandedBack s (run disciplinedMachine s actions)) ↔
      (Looping s → ∀ sys, .resume sys ∉ actions) := by
  induction actions generalizing s with
  | nil => exact ⟨fun _ _ _ => List.not_mem_nil,fun _ => ⟨trivial,rfl,rfl⟩⟩
  | cons a rest ih =>
    obtain ⟨⟨allowed,disciplined⟩,later⟩ := possible
    have closed := closingStays (reachUnguarded h) allowed closing
    have next := ih (.next h ⟨allowed,disciplined⟩) closed later
    by_cases looping : Looping s
    · cases a with
      | client call =>
        obtain ⟨ctl,udpW,back⟩ := calledClosing closing disciplined
        have still : Looping (client s call) ↔ Looping s := loopingSame ctl udpW
        have rejected (sys) : Act.resume sys ∉ .client call::rest ↔ .resume sys ∉ rest := by simp
        simp only [rejected]
        rw [← still]
        refine Iff.trans ?_ next
        exact ⟨fun ⟨each,whole⟩ => ⟨each.2,(handedBackFrom back).mp whole⟩,
          fun ⟨each,whole⟩ => ⟨⟨nofun,each⟩,(handedBackFrom back).mpr whole⟩⟩
      | fire e sys =>
        rcases looping with inside | ⟨inside,_⟩ <;> exact nomatch inside.symm.trans allowed.1
      | resume sys =>
        refine iff_of_false ?_ ?_
        · rintro ⟨⟨silent,_⟩,_⟩
          exact loopingResume sys looping silent
        · exact fun none => none looping sys List.mem_cons_self
    · obtain ⟨silent,quiet⟩ := quietStep (reachInv h) closing allowed disciplined looping
      obtain ⟨each,whole⟩ := next.mpr fun inside => absurd inside quiet.out
      exact iff_of_true ⟨⟨silent,each⟩,quiet.toHandedBack.trans whole⟩ fun inside => absurd inside looping

/- comm_close calls nobody and leaves w_q alone. -/
structure Apart (s s' : State) : Prop where
  closing : s'.c.isClosing = true
  ctl : s'.ctl = s.ctl
  udpW : s'.c.udpW = s.c.udpW
  freed : s'.freed = s.freed
  log : s'.log = s.log

theorem closeApart (s : State) : Apart s (commClose s) := by
  have reading (s' : State) (apart : Apart s s') : Apart s (closeReading s') := by
    unfold closeReading
    split
    · exact { apart with }
    · split <;> exact { apart with }
  have writing (s' : State) (apart : Apart s s') : Apart s (closeWriting s') := by
    unfold closeWriting
    split
    · exact { apart with }
    · split <;> exact { apart with }
  have cleanup (s' : State) (apart : Apart s s') : Apart s (commStartCleanup s') := by
    unfold commStartCleanup
    split
    · exact apart
    · split
      · exact apart
      · split
        · exact apart
        · exact { apart with }
  unfold commClose
  split
  · rename_i closing
    exact ⟨closing,rfl,rfl,rfl,rfl⟩
  · have stopped := writing _ (reading { s with c.isClosing := true } ⟨rfl,rfl,rfl,rfl,rfl⟩)
    dsimp only
    split
    · exact stopped
    · exact cleanup _ stopped

theorem closeHandedBack (s : State) : HandedBack s (client s .close) := by
  have apart := closeApart s
  have log : (client s .close).log = .called .close 0::s.log := by rw [client,commCall,apart.log]
  refine ⟨?_,by rw [log]; rfl⟩
  rw [log,show (client s .close).c.udpW = s.c.udpW from apart.udpW]
  rfl

/- Behind a comm_close nothing but getsockopt() is called and the frames come back,
unless the close was called from a callback of one of the two loops and that callback
returns. -/
theorem silentAfterClose {s actions} (h : Reach disciplinedMachine s) (alive : s.freed = false)
    (possible : Possible disciplinedMachine (client s .close) actions) :
    (Each disciplinedMachine Silent (client s .close) actions ∧
      HandedBack s (run disciplinedMachine (client s .close) actions)) ↔
    (Looping s → ∀ sys, .resume sys ∉ actions) := by
  have allowed : disciplinedMachine.allowed s (.client .close) := ⟨alive,never⟩
  have closed : Reach disciplinedMachine (client s .close) := .next h allowed
  have apart := closeApart s
  have closing : (client s .close).c.isClosing = true := apart.closing
  have still : Looping (client s .close) ↔ Looping s := loopingSame apart.ctl apart.udpW
  rw [← still,← silentIff closed closing possible,handedBackFrom (closeHandedBack s)]

/- comm_close from the callback of an accept() that failed. -/
def silentRun : List Act :=
  [.client (.listen 1 2),.fire .accept ⟨-1,eNomem,0,none⟩]

theorem silentAfterCloseRun :
    let s := run disciplinedMachine (commCreate 5 none 0) silentRun
    let actions : List Act := [.resume quiet,.fire .accept quiet,.resume quiet,.fire .cleanup quiet]
    s.ctl = .tail ∧ Each disciplinedMachine Silent (client s .close) actions ∧
      (run disciplinedMachine (client s .close) actions).freed = true := by
  have reached : Reach disciplinedMachine (run disciplinedMachine (commCreate 5 none 0) silentRun) :=
    reachRun (.start ⟨5,none,0,rfl⟩) (by decide)
  have out : ¬ Looping (run disciplinedMachine (commCreate 5 none 0) silentRun) := notLooping (by decide) (by decide)
  exact ⟨by decide,((silentAfterClose reached (by decide) (by decide)).mpr (absurd · out)).1,by decide⟩

/- comm_close from the callback of an accepted connection, and from the callback of the
first of two frames: the next accept() and the next sendto() follow. -/
def acceptingRun : List Act := [.client (.listen 1 2),.fire .accept ⟨7,0,0,none⟩]

def sendingRun : List Act :=
  [.client (.udpWriteSetup 1 2 8),.client (.udpWrite ⟨1,64,10⟩),.client (.udpWrite ⟨2,64,20⟩),
    .fire .udpWrite ⟨10,0,0,none⟩]

theorem loudAfterClose :
    let accepting := run disciplinedMachine (commCreate 5 none 0) acceptingRun
    let sending := run disciplinedMachine (commCreate 5 none 0) sendingRun
    Reach disciplinedMachine accepting ∧ accepting.c.isClosing = false ∧
      systemCall (client accepting .close) (.resume ⟨8,0,0,none⟩) = some (.accept 5) ∧
    Reach disciplinedMachine sending ∧ sending.c.isClosing = false ∧
      systemCall (client sending .close) (.resume ⟨20,0,0,none⟩) = some (.sendto 5 ⟨2,64,20⟩) :=
  ⟨reachRun (.start ⟨5,none,0,rfl⟩) (by decide),by decide,by decide,
    reachRun (.start ⟨5,none,0,rfl⟩) (by decide),by decide,by decide⟩

end Libiapp.Comm

import Libiapp.CommIo
import Libiapp.CommOnce

/-! What comes in over a comm. A result of read(), accept(), connect(), recvfrom() or of the
look at SO_ERROR is either one to wait on or it is reported, in the same step and to the
callback of the request that the call was made for. The request is the last one of its kind
that comm.c accepted, so what the client is told depends on its own calls and on the results
of the system calls, and on nothing else. -/
namespace Libiapp.Comm
open CommStatus hiding none
open Runs

/- That a comm is closing is no news from the system. -/
def report : Ev → Option Callback
  | .invoked (.read cb fd cbdata st retval) => if st = closing then none else some (.read cb fd cbdata st retval)
  | .invoked (.accept cb fd cbdata st newfd xerrno) =>
    if st = closing then none else some (.accept cb fd cbdata st newfd xerrno)
  | .invoked (.connect cb fd cbdata st retval) => if st = closing then none else some (.connect cb fd cbdata st retval)
  | .invoked (.udpRead cb fd cbdata fr st xerrno) =>
    if st = closing then none else some (.udpRead cb fd cbdata fr st xerrno)
  | _ => none

def reports (s : State) : List Callback := s.log.filterMap report

def acceptedCall (k : Kind) : Ev → Option Call
  | .called call ret => if ret ≠ -1 ∧ call.kind = some k then some call else none
  | _ => none

def latest (k : Kind) (log : List Ev) : Option Call := log.findSome? (acceptedCall k)

def Syscall.kind : Syscall → Option Kind
  | .read .. => some .read
  | .accept _ => some .accept
  | .connect .. | .getsockopt _ => some .connect
  | .recvfrom .. => some .udpRead
  | .write .. | .sendto .. => none

/- What a request is told of a system call that was made with its arguments. -/
def answer (sys : Sys) : Call → Syscall → Option Callback
  | .read buf len cb cbdata,.read _ buf' len' =>
    if ¬ (buf' = buf ∧ len' = len) ∨ sys.ret < 0 ∧ transient sys.errno = true then none
    else some (.read cb (-1) cbdata (if sys.ret = 0 then eof else if sys.ret < 0 then error else completed) sys.ret)
  | .listen cb cbdata,.accept fd =>
    if 0 ≤ sys.ret then some (.accept cb fd cbdata completed sys.ret 0)
    else if transient sys.errno then none
    else some (.accept cb fd cbdata error (-1) sys.errno)
  | .connect sin slen cb cbdata,.connect fd sin' slen' =>
    if ¬ (sin' = sin ∧ slen' = slen) ∨ sys.ret < 0 ∧ sys.errno = eInprogress then none
    else some (.connect cb fd cbdata (if sys.ret < 0 then error else completed) (if sys.ret = 0 then 0 else sys.errno))
  | .connect _ _ cb cbdata,.getsockopt fd =>
    if sys.ret ≠ 0 then some (.connect cb fd cbdata error sys.errno)
    else if sys.soError = eInprogress then none
    else some (.connect cb fd cbdata (if sys.soError = 0 then completed else error) sys.soError)
  | .udpRead cb cbdata maxlen,.recvfrom fd _ size =>
    if size ≠ maxlen then none else
      match sys.frame with
      | none => some (.udpRead cb fd cbdata none error eNomem)
      | some id =>
        if 0 ≤ sys.ret then some (.udpRead cb fd cbdata (some ⟨id,maxlen,sys.ret⟩) completed 0)
        else some (.udpRead cb fd cbdata none error sys.errno)
  | _,_ => none

def reply (s : State) (sys : Sys) (call : Syscall) : Option Callback := do
  let k ← call.kind
  let request ← latest k s.log
  answer sys request call

-- A recvfrom() that has no memory for its frame is not made, and is reported all the same.
def Sys.framed (sys : Sys) : Sys := { sys with frame := some (sys.frame.getD 0) }

def answerOf (s : State) : Act → Option Callback
  | .client _ => none
  | .fire e sys => (handleCall s sys.framed e).bind (reply s sys)
  | .resume sys => (goOnCall s sys.framed s.ctl).bind (reply s sys)

def answers (s : State) : List Act → List Callback
  | [] => []
  | a::rest => (answerOf s a).toList ++ answers (step s a) rest

/- The request that the fields of a comm hold. -/
def FdeComm.request (c : FdeComm) : Kind → Call
  | .read => .read c.r.buf c.r.len c.r.cb c.r.cbdata
  | .write => .write c.w.nb c.w.nbStartOffset c.w.len c.w.cb c.w.cbdata
  | .accept => .listen c.a.cb c.a.cbdata
  | .connect => .connect c.co.sin c.co.slen c.co.cb c.co.cbdata
  | .udpRead => .udpRead c.udpR.cb c.udpR.cbdata c.udpR.maxlen
  | .udpWrite => .udpWriteSetup c.udpW.cb c.udpW.cbdata c.udpW.maxQlen

def Filed (s : State) (k : Kind) : Prop := latest k s.log = some (s.c.request k)

/- Where comm.c reads the fields of a request, they are those of the last one. -/
structure Desk (s : State) : Prop where
  active : ∀ k, s.c.active k = true → Filed s k
  accept : s.ctl = .acceptLoop → Filed s .accept
  connect : s.armed .connect = true → Filed s .connect

structure Turn (s s' : State) (told : Option Callback) : Prop where
  back : reports s' = told.toList ++ reports s
  calls : ∀ k, latest k s'.log = latest k s.log
  request : s'.c.request = s.c.request
  active : ∀ k, s'.c.active k = true → s.c.active k = true
  accept : s'.ctl = .acceptLoop → s.ctl = .acceptLoop ∨ Filed s .accept
  connect : s'.armed .connect = true → s.armed .connect = true ∨ Filed s .connect

theorem silent (s : State) : Turn s s none := ⟨rfl,fun _ => rfl,rfl,fun _ => id,Or.inl,Or.inl⟩

theorem Turn.filed {s s' told k} (turn : Turn s s' told) (filed : Filed s k) : Filed s' k := by
  rw [Filed,turn.calls,turn.request]
  exact filed

theorem Turn.filedBefore {s s' told k} (turn : Turn s s' told) (filed : Filed s' k) : Filed s k := by
  rw [Filed,turn.calls,turn.request] at filed
  exact filed

theorem Turn.then {s s' s'' told} (first : Turn s s' none) (second : Turn s' s'' told) : Turn s s'' told where
  back := second.back.trans (congrArg _ first.back)
  calls k := (second.calls k).trans (first.calls k)
  request := second.request.trans first.request
  active k := first.active k ∘ second.active k
  accept looping := (second.accept looping).elim first.accept fun filed => Or.inr (first.filedBefore filed)
  connect queued := (second.connect queued).elim first.connect fun filed => Or.inr (first.filedBefore filed)

theorem Turn.desk {s s' told} (turn : Turn s s' told) (desk : Desk s) : Desk s' where
  active k on := turn.filed (desk.active k (turn.active k on))
  accept looping := turn.filed ((turn.accept looping).elim desk.accept id)
  connect queued := turn.filed ((turn.connect queued).elim desk.connect id)

theorem reportCons (ev : Ev) (log : List Ev) :
    (ev::log).filterMap report = (report ev).toList ++ log.filterMap report := by
  rw [List.filterMap_cons]
  cases report ev <;> rfl

theorem invokeTurn (s : State) {callback ctl told} (same : report (.invoked callback) = told)
    (loops : ctl = .acceptLoop → Filed s .accept) : Turn s (s.invoke callback ctl) told :=
  { silent s with
    back := same ▸ reportCons _ _
    calls := fun _ => rfl
    accept := fun looping => Or.inr (loops looping) }

theorem replyFiled {s sys call k} (same : call.kind = some k) (filed : Filed s k) :
    reply s sys call = answer sys (s.c.request k) call := by
  have latest : latest k s.log = some (s.c.request k) := filed
  simp only [reply,same,Option.bind_eq_bind,Option.bind_some,latest]

theorem startCleanupTurn (s : State) : Turn s (commStartCleanup s) none := by
  unfold commStartCleanup
  repeat' split
  all_goals exact { silent s with }

section Handlers
variable {s : State} {sys : Sys}

theorem stopTurn : Turn s (stopReading s) none := { silent s with }

theorem readIoTurn (filed : s.c.r.isActive = true → Filed s .read) :
    Turn s (commCbReadIo s sys) ((readCall s).bind (reply s sys)) := by
  cases active : s.c.r.isActive with
  | false =>
    rw [readOver sys active,readCall,active]
    exact stopTurn
  | true =>
    have told : (readCall s).bind (reply s sys) = answer sys (s.c.request .read) (.read s.c.fd s.c.r.buf s.c.r.len) := by
      rw [readCall,active]
      exact replyFiled rfl (filed active)
    rw [told,commCbReadIo,if_neg (by simp [active])]
    dsimp only
    have logged : Turn s { s with log := .readReturned sys.ret sys.errno::s.log } none :=
      { silent s with back := rfl, calls := fun _ => rfl }
    have ended : Turn s { s with log := .readReturned sys.ret sys.errno::s.log, c.r.isActive := false } none :=
      { logged with active := fun k on => by cases k <;> first | exact on | exact never on }
    split
    · rename_i again
      rw [show answer sys (s.c.request .read) (.read s.c.fd s.c.r.buf s.c.r.len) = none from if_pos (Or.inr again)]
      exact logged
    · rename_i final
      have news : (if sys.ret = 0 then eof else if sys.ret < 0 then error else completed) ≠ closing := by
        repeat' split
        all_goals decide
      rw [show answer sys (s.c.request .read) (.read s.c.fd s.c.r.buf s.c.r.len) = some _ from if_neg (by simpa using final)]
      generalize (if sys.ret = 0 then eof else if sys.ret < 0 then error else completed) = st at news ⊢
      split
      · exact (ended.then stopTurn).then (invokeTurn _ (if_neg news) (by simp))
      · exact ended.then (invokeTurn _ (if_neg news) (by simp))

theorem acceptNextTurn (filed : Filed s .accept) :
    Turn s (commCbAcceptNext s sys) (reply s sys (.accept s.c.fd)) := by
  have waits : Turn s (s.add .accept) none := { silent s with }
  rw [replyFiled rfl filed,commCbAcceptNext]
  simp only [answer,FdeComm.request]
  split
  · rename_i failed
    rw [if_neg (Int.not_le.mpr failed)]
    split
    · exact waits
    · exact waits.then (invokeTurn _ rfl (by simp))
  · rename_i got
    rw [if_pos (Int.not_lt.mp got)]
    exact invokeTurn _ rfl fun _ => filed

theorem acceptIoTurn (filed : s.c.a.isActive = true → Filed s .accept) :
    Turn s (commCbAcceptIo s sys) ((acceptCall s).bind (reply s sys)) := by
  cases active : s.c.a.isActive with
  | false =>
    rw [acceptOver sys active,acceptCall,active]
    exact silent s
  | true =>
    rw [commCbAcceptIo,acceptCall,active]
    exact acceptNextTurn (filed active)

theorem connectEnds : Turn s { s with c.co.isActive := false } none :=
  { silent s with active := fun k on => by cases k <;> first | exact on | exact never on }

theorem connectWaits (filed : Filed s .connect) : Turn s (s.add .connect) none :=
  { silent s with connect := fun _ => Or.inr filed }

theorem connectTurn (filed : Filed s .connect) :
    Turn s (commCbConnect s sys) (reply s sys (.getsockopt s.c.fd)) := by
  rw [replyFiled rfl filed,commCbConnect]
  simp only [answer,FdeComm.request]
  by_cases got : sys.ret = 0
  · simp only [got,true_and,if_true,ne_eq,not_true,if_false]
    split
    · exact connectWaits filed
    · split
      · rename_i zero
        rw [zero]
        exact connectEnds.then (invokeTurn _ rfl (by simp))
      · exact connectEnds.then (invokeTurn _ rfl (by simp))
  · simp only [got,false_and,if_false,ne_eq,not_false_eq_true,if_true]
    exact connectEnds.then (invokeTurn _ rfl (by simp))

theorem connectStartIoTurn (filed : s.c.co.isActive = true → Filed s .connect) :
    Turn s (commCbConnectStartIo s sys) ((connectCall s).bind (reply s sys)) := by
  cases active : s.c.co.isActive with
  | false =>
    rw [connectStartOver sys active,connectCall,active]
    exact silent s
  | true =>
    have told : (connectCall s).bind (reply s sys) =
        answer sys (s.c.request .connect) (.connect s.c.fd s.c.co.sin s.c.co.slen) := by
      rw [connectCall,active]
      exact replyFiled rfl (filed active)
    rw [told,commCbConnectStartIo,if_neg (by simp [active])]
    split
    · rename_i again
      rw [show answer sys (s.c.request .connect) (.connect s.c.fd s.c.co.sin s.c.co.slen) = none from if_pos (Or.inr again)]
      exact connectWaits (filed active)
    · rename_i final
      have news : (if sys.ret < 0 then error else completed) ≠ closing := by
        split <;> decide
      rw [show answer sys (s.c.request .connect) (.connect s.c.fd s.c.co.sin s.c.co.slen) = some _ from
        if_neg (by simpa using final)]
      exact connectEnds.then (invokeTurn _ (if_neg news) (by simp))

theorem udpReadIoTurn (filed : s.c.udpR.isActive = true → Filed s .udpRead) :
    Turn s (commCbUdpReadIo s sys) ((udpReadCall s sys.framed).bind (reply s sys)) := by
  cases active : s.c.udpR.isActive with
  | false =>
    rw [udpReadOver sys active,udpReadCall,active]
    exact silent s
  | true =>
    have waits : Turn s (s.add .udpRead) none := { silent s with }
    have told : (udpReadCall s sys.framed).bind (reply s sys) =
        answer sys (s.c.request .udpRead) (.recvfrom s.c.fd (sys.frame.getD 0) s.c.udpR.maxlen) := by
      rw [udpReadCall,active]
      exact replyFiled rfl (filed active)
    rw [told,commCbUdpReadIo,if_neg (by simp [active])]
    simp only [answer,FdeComm.request,ne_eq,not_true,if_false]
    cases sys.frame with
    | none => exact waits.then (invokeTurn _ rfl (by simp))
    | some id =>
      dsimp only
      split
      · rename_i failed
        rw [if_neg (Int.not_le.mpr failed)]
        exact waits.then (invokeTurn _ rfl (by simp))
      · rename_i got
        rw [if_pos (Int.not_lt.mp got)]
        exact waits.then (invokeTurn _ rfl (by simp))

theorem cleanupTurn : Turn s (commCbCleanupFree s) none :=
  { silent s with
    back := by
      unfold commCbCleanupFree reports
      split <;> rfl
    calls := fun k => by
      unfold commCbCleanupFree
      split <;> rfl
    connect := never }

/- The writers report nothing of this kind. -/
theorem writeIoTurn : Turn s (commCbWriteIo s sys) ((writeCall s).bind (reply s sys)) := by
  have told : (writeCall s).bind (reply s sys) = none := by
    unfold writeCall
    split <;> rfl
  rw [told,commCbWriteIo]
  split
  · exact silent s
  · split
    · exact silent s
    · have moved : Turn s (if sys.ret > 0 then { s with c.w.offset := s.c.w.offset + sys.ret } else s) none := by
        split
        · exact { silent s with active := fun k on => by cases k <;> exact on }
        · exact silent s
      dsimp only
      generalize (if sys.ret > 0 then { s with c.w.offset := s.c.w.offset + sys.ret } else s) = s' at moved ⊢
      split
      · unfold commCbWriteComplete
        split
        · exact moved
        · have ended : Turn s' { s' with c.w.isActive := false } none :=
            { silent s' with active := fun k on => by cases k <;> first | exact on | exact never on }
          exact (moved.then ended).then (invokeTurn _ rfl (by simp))
      · exact moved

theorem handTurn {fr rest st nwritten xerrno ctl} (other : ctl ≠ .acceptLoop) :
    Turn s (handFrame s fr rest st nwritten xerrno ctl) none := by
  have taken : Turn s { s with c.udpW.wQ := rest, c.udpW.qlen := s.c.udpW.qlen - 1 } none :=
    { silent s with active := fun k on => by cases k <;> exact on }
  exact taken.then (invokeTurn _ rfl fun looping => absurd looping other)

theorem sendSilent : (sendCall s).bind (reply s sys) = none := by
  unfold sendCall
  cases s.c.udpW.wQ <;> rfl

theorem udpWriteNextTurn : Turn s (commCbUdpWriteNext s sys) ((sendCall s).bind (reply s sys)) := by
  rw [sendSilent,commCbUdpWriteNext]
  split
  · exact silent s
  · split
    · split
      · exact { silent s with active := fun k on => by cases k <;> exact on }
      · exact handTurn (by simp)
    · exact handTurn (by simp)

theorem udpWriteIoTurn : Turn s (commCbUdpWriteIo s sys) ((udpWriteCall s).bind (reply s sys)) := by
  have told : (udpWriteCall s).bind (reply s sys) = none := by
    unfold udpWriteCall
    split
    · rfl
    · exact sendSilent
  rw [told,commCbUdpWriteIo]
  split
  · exact silent s
  · have stopped : Turn s { s with c.udpW.isPrimed := false } none :=
      { silent s with active := fun k on => by cases k <;> exact on }
    have next := @udpWriteNextTurn { s with c.udpW.isPrimed := false } sys
    rw [sendSilent] at next
    exact stopped.then next

theorem udpDrainTurn : Turn s (commCbUdpWriteDrain s sys) none := by
  unfold commCbUdpWriteDrain
  split
  · exact handTurn (by simp)
  · have stopped : Turn s { s with c.udpW.isActive := false, c.udpW.isPrimed := false, log := .udpWriteStopped::s.log }
        none :=
      { silent s with
        back := rfl
        calls := fun _ => rfl
        active := fun k on => by cases k <;> first | exact on | exact never on }
    dsimp only
    split
    · exact stopped.then (startCleanupTurn _)
    · exact stopped.then udpWriteIoTurn

/- The branch for a closing comm makes no system call, nor does the one behind it. -/
theorem closingTurn {closed io call} (closes : Turn s closed none) (other : Turn s io (call.bind (reply s sys))) :
    Turn s (if s.c.isClosing then closed else io) ((unlessClosing s call).bind (reply s sys)) := by
  unfold unlessClosing
  split
  · exact closes
  · exact other

theorem readyTurn {io call} (other : Turn s io (call.bind (reply s sys))) :
    Turn s (if commIsCloseReady s.c then commStartCleanup s else io) ((unlessReady s call).bind (reply s sys)) := by
  unfold unlessReady
  split
  · exact startCleanupTurn s
  · exact other

theorem handleTurn (e : CommFde) (desk : Desk s) (queued : e = .connect → Filed s .connect) :
    Turn s (handle s sys e) ((handleCall s sys.framed e).bind (reply s sys)) := by
  have off {s' : State} {k : Kind} (same : s'.c.active = Function.update s.c.active k false) (j) (on : s'.c.active j = true) :
      s.c.active j = true := by
    rw [same,Function.update_apply] at on
    split at on
    · exact never on
    · exact on
  cases e with
  | read =>
    have ready : Turn s { s with c.r.isReady := true } none :=
      { silent s with active := fun k on => by cases k <;> exact on }
    simp only [handle,commCbRead]
    split
    · exact ready
    · exact { ready with }
  | write =>
    have ready : Turn s { s with c.w.isReady := true } none :=
      { silent s with active := fun k on => by cases k <;> exact on }
    simp only [handle,commCbWrite]
    split
    · exact ready
    · exact { ready with }
  | readCb =>
    have ended : Turn s { s with c.r.isActive := false } none :=
      { silent s with active := @off _ .read (by funext k; cases k <;> rfl) }
    exact closingTurn (ended.then (invokeTurn _ rfl (by simp))) (readIoTurn (desk.active .read))
  | writeCb =>
    have ended : Turn s { s with c.w.isActive := false, c.w.isReady := false } none :=
      { silent s with active := @off _ .write (by funext k; cases k <;> rfl) }
    exact closingTurn (ended.then (invokeTurn _ rfl (by simp))) writeIoTurn
  | accept =>
    have ended : Turn s { s with c.a.isActive := false } none :=
      { silent s with active := @off _ .accept (by funext k; cases k <;> rfl) }
    exact closingTurn (ended.then (invokeTurn _ rfl (by simp))) (acceptIoTurn (desk.active .accept))
  | connect => exact connectTurn (queued rfl)
  | connectStart =>
    exact closingTurn (connectEnds.then (invokeTurn _ rfl (by simp))) (connectStartIoTurn (desk.active .connect))
  | cleanup =>
    simp only [handle,commCbCleanup]
    cases s.c.c.cb with
    | none => exact cleanupTurn
    | some cb => exact invokeTurn _ rfl (by simp)
  | udpRead =>
    have ended : Turn s { s with c.udpR.isActive := false } none :=
      { silent s with active := @off _ .udpRead (by funext k; cases k <;> rfl) }
    exact closingTurn (ended.then (invokeTurn _ rfl (by simp))) (udpReadIoTurn (desk.active .udpRead))
  | udpWrite => exact closingTurn udpDrainTurn udpWriteIoTurn

theorem goOnTurn (ctl : Ctl) (desk : Desk s) (looping : ctl = .acceptLoop → Filed s .accept) :
    Turn s (goOn s sys ctl) ((goOnCall s sys.framed ctl).bind (reply s sys)) := by
  cases ctl with
  | idle => exact silent s
  | tail => exact silent s
  | readClosing =>
    have stopped : Desk (stopReading s) := stopTurn.desk desk
    exact stopTurn.then (readyTurn (readIoTurn (stopped.active .read)))
  | writeClosing => exact readyTurn writeIoTurn
  | acceptClosing => exact readyTurn (acceptIoTurn (desk.active .accept))
  | acceptLoop => exact acceptNextTurn (looping rfl)
  | startClosing => exact readyTurn (connectStartIoTurn (desk.active .connect))
  | udpReadClosing => exact readyTurn (udpReadIoTurn (desk.active .udpRead))
  | udpDrain => exact udpDrainTurn
  | udpSend => exact udpWriteNextTurn
  | cleanup => exact cleanupTurn

end Handlers

theorem firedTurn (s : State) (e : CommFde) : Turn s (fired s e) none :=
  { silent s with
    back := rfl
    calls := fun _ => rfl
    connect := fun on => by cases e <;> first | exact Or.inl on | exact never on }

end Libiapp.Comm

import Libiapp.CommHandlers
import Libiapp.Lifecycle

/-! What holds of an fde_comm between two steps. The handlers clear is_active and
call the client without a check of their own; what makes that right is that the
fde of a handler is active only while its operation is (`Wired`). The converse,
that an active operation has an fde to wait for, is `Waiting`. -/
namespace Libiapp.Comm
open Runs Lifecycle

inductive Kind where | read | write | accept | connect | udpRead | udpWrite
  deriving DecidableEq, Repr

def FdeComm.active (c : FdeComm) : Kind → Bool
  | .read => c.r.isActive
  | .write => c.w.isActive
  | .accept => c.a.isActive
  | .connect => c.co.isActive
  | .udpRead => c.udpR.isActive
  | .udpWrite => c.udpW.isActive

def Call.kind : Call → Option Kind
  | .read .. => some .read
  | .write .. => some .write
  | .listen .. => some .accept
  | .connect .. => some .connect
  | .udpRead .. => some .udpRead
  | .udpWriteSetup .. => some .udpWrite
  | .udpWrite _ | .close | .markNonclose => none

/- An accept or a UDP read goes on after its callbacks until one says that it is
closing. A UDP writer stops without a callback. -/
def lifeEvent : Ev → Option (Event Kind)
  | .called call ret => if ret = -1 then none else call.kind.map .start
  | .invoked (.read ..) => some (.finish .read)
  | .invoked (.write ..) => some (.finish .write)
  | .invoked (.accept _ _ _ st _ _) => some (if st = .closing then .finish .accept else .notify .accept)
  | .invoked (.connect ..) => some (.finish .connect)
  | .invoked (.udpRead _ _ _ _ st _) => some (if st = .closing then .finish .udpRead else .notify .udpRead)
  | .invoked (.udpWrite ..) => some (.notify .udpWrite)
  | .invoked (.close ..) => some .close
  | .udpWriteStopped => some (.finish .udpWrite)
  | .fired _ | .readRegistered | .readReturned .. | .closedFd _ => none

def lifeEvents (log : List Ev) : List (Event Kind) := log.filterMap lifeEvent

/- The loops in which a handler calls the client with its operation still active. -/
def Ctl.inAccept : Ctl → Bool
  | .acceptLoop => true
  | _ => false

def Ctl.inUdpWrite : Ctl → Bool
  | .udpDrain | .udpSend => true
  | _ => false

def Ctl.inCleanup : Ctl → Bool
  | .cleanup => true
  | _ => false

/- The callbacks behind which a handler looks whether it was the last one. -/
def Ctl.looksReady : Ctl → Bool
  | .readClosing | .writeClosing | .acceptClosing | .startClosing | .udpReadClosing => true
  | _ => false

/- What is known of the operation whose callback is running. -/
def Place (s : State) : Prop :=
  match s.ctl with
  | .idle | .tail => True
  | .readClosing => s.c.isClosing = true ∧ s.c.r.isActive = false
  | .writeClosing => s.c.isClosing = true ∧ s.c.w.isActive = false
  | .acceptClosing => s.c.isClosing = true ∧ s.c.a.isActive = false
  | .acceptLoop => s.c.a.isActive = true
  | .startClosing => s.c.isClosing = true ∧ s.c.co.isActive = false
  | .udpReadClosing => s.c.isClosing = true ∧ s.c.udpR.isActive = false
  | .udpDrain => s.c.isClosing = true ∧ s.c.udpW.isActive = true ∧ s.armed .udpWrite = false
  | .udpSend => s.c.udpW.isActive = true
  | .cleanup => s.c.isCleanup = true

structure Wired (s : State) : Prop where
  readCb : s.armed .readCb = true → s.c.r.isActive = true
  writeCb : s.armed .writeCb = true → s.c.w.isActive = true
  accept : s.armed .accept = true → s.c.a.isActive = true
  connect : s.armed .connect = true → s.c.co.isActive = true ∧ s.armed .connectStart = false
  connectStart : s.armed .connectStart = true → s.c.co.isActive = true
  udpRead : s.armed .udpRead = true → s.c.udpR.isActive = true
  udpWrite : s.armed .udpWrite = true → s.c.udpW.isActive = true
  cleanup : s.c.isCleanup = true → s.c.isClosing = true ∧ ∀ k, s.c.active k = false
  scheduled : s.armed .cleanup = true → s.c.isCleanup = true
  place : Place s
  freed : s.freed = true → (∀ e, s.armed e = false) ∧ s.ctl = .idle ∧ s.c.isCleanup = true
  life : ∃ closed, Trace (lifeEvents s.log) ⟨s.c.active,closed⟩ ∧
    (closed = true → s.ctl.inCleanup = true ∨ s.freed = true)

/- A comm_cb_read notification is unanswered until ev_read is registered anew or a
read() finds nothing left. -/
def unanswered : List Ev → Bool
  | [] => false
  | .fired .read::_ => true
  | .readRegistered::_ => false
  | .readReturned ret errno::log => if ret < 0 ∧ transient errno then false else unanswered log
  | _::log => unanswered log

structure Waiting (s : State) : Prop where
  waitRead : s.c.isClosing = false → s.c.r.isActive = true →
    s.armed .read = true ∧ (s.armed .readCb = true ∨ unanswered s.log = false)
  waitReadCb : s.c.isClosing = true → s.c.r.isActive = true → s.armed .readCb = true
  waitWrite : s.c.isClosing = false → s.c.w.isActive = true → s.armed .write = true
  waitWriteCb : s.c.isClosing = true → s.c.w.isActive = true → s.armed .writeCb = true
  waitAccept : s.ctl.inAccept = false → s.c.a.isActive = true → s.armed .accept = true
  waitConnect : s.c.co.isActive = true → s.armed .connectStart = true ∨ s.armed .connect = true
  waitUdpRead : s.c.udpR.isActive = true → s.armed .udpRead = true
  waitCleanup : s.ctl.inCleanup = false → s.freed = false → s.c.isCleanup = true → s.armed .cleanup = true
  isRead : s.c.isClosing = false → s.c.r.isRead = s.armed .read
  isWrite : s.c.isClosing = false → s.c.w.isWrite = s.armed .write
  ready : s.c.isClosing = false → s.armed .read = true → s.c.r.isReady = false → unanswered s.log = false

/- A close that can still come to its end. This is lost in some runs, so it is
carried only where `kept` says that the run has done nothing to lose it. -/
structure Carried (kept : Prop) (s : State) : Prop where
  waitUdpWrite : kept → s.ctl.inUdpWrite = false → s.c.isClosing = true → s.c.udpW.isActive = true →
    s.armed .udpWrite = true
  pending : kept → s.ctl.looksReady = false → s.c.isClosing = true → s.c.isCleanup = false →
    ∃ k, s.c.active k = true

structure Inv (kept : Prop) (s : State) : Prop extends Wired s, Waiting s, Carried kept s

theorem never {p : Prop} (h : false = true) : p := by contradiction

theorem lifeOpen {kept c armed ctl log} (inv : Inv kept ⟨c,armed,ctl,false,log⟩) (outside : ctl.inCleanup = false) :
    Trace (lifeEvents log) ⟨c.active,false⟩ := by
  obtain ⟨closed,trace,when⟩ := inv.life
  cases closed with
  | false => exact trace
  | true =>
    rcases when rfl with h | h
    · rw [show ctl.inCleanup = true from h] at outside; contradiction
    · exact never h

theorem begun {c c' : FdeComm} {log} (k : Kind) (trace : Trace (lifeEvents log) ⟨c.active,false⟩)
    (off : c.active k = false) (same : c'.active = Function.update c.active k true) :
    Trace (.start k::lifeEvents log) ⟨c'.active,false⟩ := by
  rw [same]
  exact .start trace rfl off

theorem finished {c c' : FdeComm} {log} (k : Kind) (trace : Trace (lifeEvents log) ⟨c.active,false⟩)
    (on : c.active k = true) (same : c'.active = Function.update c.active k false) :
    Trace (.finish k::lifeEvents log) ⟨c'.active,false⟩ := by
  rw [same]
  exact .finish trace rfl on

theorem busy {kept s} {p : Prop} (inv : Inv kept s) (k : Kind) (on : s.c.active k = true)
    (done : s.c.isCleanup = true) : p := by
  rw [(inv.cleanup done).2 k] at on; contradiction

theorem readyIff {c : FdeComm} (closing : c.isClosing = true) :
    commIsCloseReady c = true ↔ ∀ k, c.active k = false := by
  simp only [commIsCloseReady,closing,Bool.not_true,Bool.false_eq_true,if_false,Bool.and_eq_true,Bool.not_eq_true']
  constructor
  · rintro ⟨⟨⟨⟨⟨r,w⟩,a⟩,co⟩,udpR⟩,udpW⟩ k
    cases k <;> assumption
  · intro off
    exact ⟨⟨⟨⟨⟨off .read,off .write⟩,off .accept⟩,off .connect⟩,off .udpRead⟩,off .udpWrite⟩

/- The check for the last operation re-establishes what `Carried` asks of a close. -/
theorem checkReady {kept c armed ctl log} (inv : Inv False ⟨c,armed,ctl,false,log⟩) (closing : c.isClosing = true)
    (sending : kept → ctl.inUdpWrite = false → c.udpW.isActive = true → armed .udpWrite = true) :
    Inv kept (if commIsCloseReady c then commStartCleanup ⟨c,armed,ctl,false,log⟩ else ⟨c,armed,ctl,false,log⟩) := by
  split
  · rename_i ready
    unfold commStartCleanup
    rw [if_neg (by simp [closing])]
    split
    · rename_i done
      exact { inv with
        waitUdpWrite := fun h out _ => sending h out
        pending := fun _ _ _ h => never (h.symm.trans done) }
    · rw [if_neg (by simp [ready])]
      exact { inv with
        cleanup := fun _ => ⟨closing,(readyIff closing).mp ready⟩
        scheduled := fun _ => rfl
        freed := never
        waitCleanup := fun _ _ _ => rfl
        place := by
          have place := inv.place
          cases ctl <;> first | exact place | rfl
        waitUdpWrite := fun h out _ => sending h out
        pending := fun _ _ _ h => never h.symm }
  · rename_i notReady
    refine { inv with waitUdpWrite := fun h out _ => sending h out, pending := fun _ _ _ _ => ?_ }
    by_contra none
    exact notReady ((readyIff closing).mpr (fun k => by simpa using fun h => none ⟨k,h⟩))

/- Behind a closing callback the operation is over, so what is left of the handler
is the check. -/
theorem closedIdle {kept c armed ctl log} (inv : Inv kept ⟨c,armed,ctl,false,log⟩) (checks : ctl.looksReady = true)
    (closing : c.isClosing = true) : Inv kept (if commIsCloseReady c then commStartCleanup ⟨c,armed,.idle,false,log⟩
      else ⟨c,armed,.idle,false,log⟩) := by
  cases ctl <;> simp only [Ctl.looksReady,Bool.false_eq_true] at checks
  all_goals
    have stopped : Inv False ⟨c,armed,.idle,false,log⟩ :=
      { inv with place := trivial, freed := never, waitUdpWrite := False.elim, pending := False.elim }
    exact checkReady stopped closing (fun h _ on => inv.waitUdpWrite h rfl closing on)

/- What a handler falls through to when its operation is over. -/
section Over
variable {s : State} (sys : Sys)

theorem readOver (off : s.c.r.isActive = false) : commCbReadIo s sys = stopReading s := by
  rw [commCbReadIo,if_pos (by simpa using off)]

theorem writeOver (off : s.c.w.isActive = false) : commCbWriteIo s sys = s := by
  rw [commCbWriteIo,if_pos (by simpa using Or.inl off)]

theorem acceptOver (off : s.c.a.isActive = false) : commCbAcceptIo s sys = s := by
  rw [commCbAcceptIo,if_pos (by simpa using off)]

theorem connectStartOver (off : s.c.co.isActive = false) : commCbConnectStartIo s sys = s := by
  rw [commCbConnectStartIo,if_pos (by simpa using off)]

theorem udpReadOver (off : s.c.udpR.isActive = false) : commCbUdpReadIo s sys = s := by
  rw [commCbUdpReadIo,if_pos (by simpa using off)]

end Over

theorem cleanupFree {kept c armed ctl log log'} (inv : Inv kept ⟨c,armed,ctl,false,log⟩) (done : c.isCleanup = true)
    (same : lifeEvents log' = lifeEvents log) (armed') :
    Inv kept (commCbCleanupFree ⟨c,armed',.idle,false,log'⟩) := by
  obtain ⟨closing,all⟩ := inv.cleanup done
  obtain ⟨closed,trace,_⟩ := inv.life
  have events : lifeEvents (commCbCleanupFree ⟨c,armed',.idle,false,log'⟩).log = lifeEvents log := by
    unfold commCbCleanupFree
    dsimp only
    split <;> exact same
  exact {
    readCb := never
    writeCb := never
    accept := never
    connect := never
    connectStart := never
    udpRead := never
    udpWrite := never
    cleanup := fun _ => ⟨closing,all⟩
    scheduled := never
    place := trivial
    freed := fun _ => ⟨fun _ => rfl,rfl,done⟩
    life := ⟨closed,events ▸ trace,fun _ => Or.inr rfl⟩
    waitRead := fun h => never (h.symm.trans closing)
    waitReadCb := fun _ on => never ((all .read).symm.trans on)
    waitWrite := fun h => never (h.symm.trans closing)
    waitWriteCb := fun _ on => never ((all .write).symm.trans on)
    waitAccept := fun _ on => never ((all .accept).symm.trans on)
    waitConnect := fun on => never ((all .connect).symm.trans on)
    waitUdpRead := fun on => never ((all .udpRead).symm.trans on)
    waitCleanup := fun _ h => never h.symm
    isRead := fun h => never (h.symm.trans closing)
    isWrite := fun h => never (h.symm.trans closing)
    ready := fun h => never (h.symm.trans closing)
    waitUdpWrite := fun _ _ _ on => never ((all .udpWrite).symm.trans on)
    pending := fun _ _ _ h => never (h.symm.trans done) }

theorem fireCleanup {kept c armed log} (inv : Inv kept ⟨c,armed,.idle,false,log⟩) (queued : armed .cleanup = true) :
    Inv kept (commCbCleanup (fired ⟨c,armed,.idle,false,log⟩ .cleanup)) := by
  have done : c.isCleanup = true := inv.scheduled queued
  unfold commCbCleanup
  split
  · exact cleanupFree inv done (show lifeEvents (.fired .cleanup::log) = lifeEvents log from rfl) _
  · have closed : Trace (.close::lifeEvents log) ⟨c.active,true⟩ := .close (lifeOpen inv rfl) rfl (inv.cleanup done).2
    exact { inv with
      scheduled := never
      place := done
      freed := never
      life := ⟨true,closed,fun _ => Or.inl rfl⟩
      waitCleanup := fun h => never h.symm }

end Libiapp.Comm

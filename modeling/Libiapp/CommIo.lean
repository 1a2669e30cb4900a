import Libiapp.CommCalls

/-! The system calls of comm.c. A step of a comm makes at most one of them, behind the
tests of its handler; `systemCall` says which one and with what arguments. The close()
of comm_cb_cleanup is in the log. -/
namespace Libiapp.Comm
open Runs

inductive Syscall where
  | accept (fd : Int)
  | read (fd : Int) (buf : Nat) (len : Int)
  | write (fd : Int) (nb : Nat) (offset count : Int)
  | connect (fd : Int) (sin slen : Nat)
  | getsockopt (fd : Int)
  | recvfrom (fd : Int) (frame : Nat) (size : Int)
  | sendto (fd : Int) (fr : Frame)
  deriving DecidableEq, Repr

/- All but the look at SO_ERROR. -/
def Syscall.io : Syscall → Bool
  | .getsockopt _ => false
  | _ => true

def readCall (s : State) : Option Syscall :=
  if !s.c.r.isActive then none else some (.read s.c.fd s.c.r.buf s.c.r.len)

def writeCall (s : State) : Option Syscall :=
  if !s.c.w.isActive || !s.c.w.isReady then none
  else some (.write s.c.fd s.c.w.nb (s.c.w.nbStartOffset + s.c.w.offset) (s.c.w.len - s.c.w.offset))

def acceptCall (s : State) : Option Syscall :=
  if !s.c.a.isActive then none else some (.accept s.c.fd)

def connectCall (s : State) : Option Syscall :=
  if !s.c.co.isActive then none else some (.connect s.c.fd s.c.co.sin s.c.co.slen)

-- recvfrom() needs a frame to read into.
def udpReadCall (s : State) (sys : Sys) : Option Syscall :=
  if !s.c.udpR.isActive then none else sys.frame.map fun frame => .recvfrom s.c.fd frame s.c.udpR.maxlen

def sendCall (s : State) : Option Syscall := s.c.udpW.wQ.head?.map (.sendto s.c.fd)

def udpWriteCall (s : State) : Option Syscall :=
  if !s.c.udpW.isActive || !s.c.udpW.isPrimed then none else sendCall s

def unlessClosing (s : State) (call : Option Syscall) : Option Syscall := if s.c.isClosing then none else call

def handleCall (s : State) (sys : Sys) : CommFde → Option Syscall
  | .read | .write | .cleanup => none
  | .readCb => unlessClosing s (readCall s)
  | .writeCb => unlessClosing s (writeCall s)
  | .accept => unlessClosing s (acceptCall s)
  | .connect => some (.getsockopt s.c.fd)
  | .connectStart => unlessClosing s (connectCall s)
  | .udpRead => unlessClosing s (udpReadCall s sys)
  | .udpWrite => unlessClosing s (udpWriteCall s)

def unlessReady (s : State) (call : Option Syscall) : Option Syscall := if commIsCloseReady s.c then none else call

-- Behind the loop of `udpDrain` the writer is no longer active.
def goOnCall (s : State) (sys : Sys) : Ctl → Option Syscall
  | .idle | .tail | .udpDrain | .cleanup => none
  | .readClosing => unlessReady s (readCall s)
  | .writeClosing => unlessReady s (writeCall s)
  | .acceptClosing => unlessReady s (acceptCall s)
  | .acceptLoop => some (.accept s.c.fd)
  | .startClosing => unlessReady s (connectCall s)
  | .udpReadClosing => unlessReady s (udpReadCall s sys)
  | .udpSend => sendCall s

def systemCall (s : State) : Act → Option Syscall
  | .client _ => none
  | .fire e sys => handleCall s sys e
  | .resume sys => goOnCall s sys s.ctl

section Uncalled
variable {s : State} {sys sys' : Sys}

theorem guarded {off : Bool} {call : Syscall} (uncalled : (if off then none else some call) = none) : off = true := by
  cases off with
  | true => rfl
  | false => contradiction

theorem readUncalled (uncalled : readCall s = none) : commCbReadIo s sys = commCbReadIo s sys' := by
  have off := guarded uncalled
  rw [commCbReadIo,commCbReadIo,if_pos off,if_pos off]

theorem writeUncalled (uncalled : writeCall s = none) : commCbWriteIo s sys = commCbWriteIo s sys' := by
  have off := guarded uncalled
  rw [commCbWriteIo,commCbWriteIo,if_pos off,if_pos off]

theorem acceptUncalled (uncalled : acceptCall s = none) : commCbAcceptIo s sys = commCbAcceptIo s sys' := by
  have off := guarded uncalled
  rw [commCbAcceptIo,commCbAcceptIo,if_pos off,if_pos off]

theorem connectUncalled (uncalled : connectCall s = none) :
    commCbConnectStartIo s sys = commCbConnectStartIo s sys' := by
  have off := guarded uncalled
  rw [commCbConnectStartIo,commCbConnectStartIo,if_pos off,if_pos off]

theorem udpReadUncalled (same : sys'.frame = sys.frame) (uncalled : udpReadCall s sys = none) :
    commCbUdpReadIo s sys = commCbUdpReadIo s sys' := by
  unfold udpReadCall at uncalled
  split at uncalled
  · rename_i off
    rw [commCbUdpReadIo,commCbUdpReadIo,if_pos off,if_pos off]
  · have failed := Option.map_eq_none_iff.mp uncalled
    rw [commCbUdpReadIo,commCbUdpReadIo,same,failed]

theorem sendUncalled (uncalled : sendCall s = none) : commCbUdpWriteNext s sys = commCbUdpWriteNext s sys' := by
  have empty : s.c.udpW.wQ = [] := by simpa [sendCall] using uncalled
  rw [commCbUdpWriteNext,commCbUdpWriteNext,empty]

theorem udpWriteUncalled (uncalled : udpWriteCall s = none) : commCbUdpWriteIo s sys = commCbUdpWriteIo s sys' := by
  rw [commCbUdpWriteIo,commCbUdpWriteIo]
  unfold udpWriteCall at uncalled
  split at uncalled
  · rename_i off
    rw [if_pos off,if_pos off]
  · rename_i on
    rw [if_neg on,if_neg on]
    exact sendUncalled uncalled

theorem drainUncalled : commCbUdpWriteDrain s sys = commCbUdpWriteDrain s sys' := by
  rw [commCbUdpWriteDrain,commCbUdpWriteDrain]
  split
  · rfl
  · dsimp only
    split
    · rfl
    · exact udpWriteUncalled rfl

/- A handler that makes no call does not see the results of one, and the same holds of
what is left of it behind a callback. -/
theorem handleUncalled {e : CommFde} (same : sys'.frame = sys.frame) (uncalled : handleCall s sys e = none) :
    handle s sys e = handle s sys' e := by
  cases e with
  | read => rfl
  | write => rfl
  | cleanup => rfl
  | connect => contradiction
  | _ =>
    simp only [handleCall,unlessClosing] at uncalled
    simp only [handle,commCbReadCb,commCbWriteCb,commCbAccept,commCbConnectStart,commCbUdpRead,commCbUdpWrite]
    split at uncalled <;> rename_i closing
    · simp only [if_pos closing]
      try exact drainUncalled
    · simp only [if_neg closing]
      first
      | exact readUncalled uncalled
      | exact writeUncalled uncalled
      | exact acceptUncalled uncalled
      | exact connectUncalled uncalled
      | exact udpReadUncalled same uncalled
      | exact udpWriteUncalled uncalled

theorem goOnUncalled {ctl : Ctl} (same : sys'.frame = sys.frame) (uncalled : goOnCall s sys ctl = none) :
    goOn s sys ctl = goOn s sys' ctl := by
  cases ctl with
  | idle => rfl
  | tail => rfl
  | cleanup => rfl
  | udpDrain => exact drainUncalled
  | udpSend => exact sendUncalled uncalled
  | acceptLoop => contradiction
  | _ =>
    simp only [goOnCall,unlessReady] at uncalled
    simp only [goOn,commCbReadClosed,commCbWriteClosed,commCbAcceptClosed,commCbConnectStartClosed,commCbUdpReadClosed]
    split at uncalled <;> rename_i ready
    · have stopped : commIsCloseReady (stopReading s).c = true := ready
      simp only [ready,stopped,if_true]
    · have stopped : ¬ commIsCloseReady (stopReading s).c = true := ready
      simp only [ready,stopped]
      first
      | exact readUncalled uncalled
      | exact writeUncalled uncalled
      | exact acceptUncalled uncalled
      | exact connectUncalled uncalled
      | exact udpReadUncalled same uncalled

end Uncalled

end Libiapp.Comm

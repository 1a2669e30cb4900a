import Libiapp.CommInvariant

/-! What the handlers and calls of the other operations do to the UDP writer and to the
close of a comm: they leave the writer alone, do not take a close back, and schedule the
cleanup only when nothing is active. -/
namespace Libiapp.Comm
open Runs

def takenFrame : Ev → Option Frame
  | .called (.udpWrite fr) ret => if ret = 0 then some fr else none
  | _ => none

def handedFrame : Ev → Option Frame
  | .invoked (.udpWrite _ _ _ fr _ _ _) => some fr
  | _ => none

structure Untouched (s s' : State) : Prop where
  udpW : s'.c.udpW = s.c.udpW
  armed : s'.armed .udpWrite = s.armed .udpWrite
  taken : s'.log.filterMap takenFrame = s.log.filterMap takenFrame
  handed : s'.log.filterMap handedFrame = s.log.filterMap handedFrame
  closing : s'.c.isClosing = s.c.isClosing
  stays : s.c.isCleanup = true → s'.c.isCleanup = true
  cleanup : s'.c.isCleanup = true → s.c.isCleanup = true ∨ (s.c.isClosing = true ∧ s.c.udpW.isActive = false)
  scheduled : s'.armed .cleanup = true → s.armed .cleanup = true ∨ s'.c.isCleanup = true
  inCleanup : s'.ctl.inCleanup = true → s.ctl.inCleanup = true
  inUdpWrite : s'.ctl.inUdpWrite = true → s.ctl.inUdpWrite = true
  freed : s'.freed = s.freed

theorem untouched (s : State) : Untouched s s := ⟨rfl,rfl,rfl,rfl,rfl,id,Or.inl,Or.inl,id,id,rfl⟩

theorem Untouched.trans {s s' s''} (first : Untouched s s') (second : Untouched s' s'') : Untouched s s'' where
  udpW := second.udpW.trans first.udpW
  armed := second.armed.trans first.armed
  taken := second.taken.trans first.taken
  handed := second.handed.trans first.handed
  closing := second.closing.trans first.closing
  stays := second.stays ∘ first.stays
  cleanup done := by
    rcases second.cleanup done with before | ⟨closing,off⟩
    · exact first.cleanup before
    · exact Or.inr ⟨first.closing ▸ closing,first.udpW ▸ off⟩
  scheduled queued := by
    rcases second.scheduled queued with before | done
    · exact (first.scheduled before).imp_right second.stays
    · exact Or.inr done
  inCleanup := first.inCleanup ∘ second.inCleanup
  inUdpWrite := first.inUdpWrite ∘ second.inUdpWrite
  freed := second.freed.trans first.freed

theorem startCleanupUntouched (s : State) : Untouched s (commStartCleanup s) := by
  unfold commStartCleanup
  split
  · exact untouched s
  · rename_i closing
    split
    · exact untouched s
    · split
      · exact untouched s
      · rename_i ready
        have asked : s.c.isClosing = true := by simpa using closing
        have off : s.c.udpW.isActive = false := (readyIff asked).mp (by simpa using ready) .udpWrite
        exact { untouched s with
          stays := fun _ => rfl
          cleanup := fun _ => Or.inr ⟨asked,off⟩
          scheduled := fun _ => Or.inr rfl }

/- The check behind a closing callback, with whatever the handler goes on to. -/
theorem checkUntouched {s s₁ s₂} (ready : Untouched s s₁) (other : Untouched s s₂) :
    Untouched s (if commIsCloseReady s₁.c then commStartCleanup s₁ else s₂) := by
  split
  · exact ready.trans (startCleanupUntouched s₁)
  · exact other

theorem readIoUntouched (s : State) (sys) : Untouched s (commCbReadIo s sys) := by
  unfold commCbReadIo
  split
  · exact { untouched s with }
  · dsimp only
    split
    · exact { untouched s with }
    · generalize (if sys.ret = 0 then CommStatus.eof else if sys.ret < 0 then .error else .completed) = st
      split <;> exact { untouched s with inCleanup := never, inUdpWrite := never }

theorem writeIoUntouched (s : State) (sys) : Untouched s (commCbWriteIo s sys) := by
  unfold commCbWriteIo
  split
  · exact untouched s
  · split
    · exact untouched s
    · have bumped : Untouched s (if sys.ret > 0 then { s with c.w.offset := s.c.w.offset + sys.ret } else s) := by
        split
        · exact { untouched s with }
        · exact untouched s
      dsimp only
      generalize (if sys.ret > 0 then { s with c.w.offset := s.c.w.offset + sys.ret } else s) = s' at bumped ⊢
      split
      · unfold commCbWriteComplete
        split
        · exact bumped
        · exact { bumped with inCleanup := never, inUdpWrite := never }
      · exact bumped

theorem acceptNextUntouched (s : State) (sys) : Untouched s (commCbAcceptNext s sys) := by
  unfold commCbAcceptNext
  split
  · dsimp only
    split
    · exact { untouched s with }
    · exact { untouched s with inCleanup := never, inUdpWrite := never }
  · exact { untouched s with inCleanup := never, inUdpWrite := never }

theorem acceptIoUntouched (s : State) (sys) : Untouched s (commCbAcceptIo s sys) := by
  unfold commCbAcceptIo
  split
  · exact untouched s
  · exact acceptNextUntouched s sys

theorem connectUntouched (s : State) (sys) : Untouched s (commCbConnect s sys) := by
  unfold commCbConnect
  generalize (if sys.ret = 0 then sys.soError else sys.errno) = errno
  dsimp only
  split
  · exact { untouched s with }
  · split <;> exact { untouched s with inCleanup := never, inUdpWrite := never }

theorem connectStartIoUntouched (s : State) (sys) : Untouched s (commCbConnectStartIo s sys) := by
  unfold commCbConnectStartIo
  split
  · exact untouched s
  · split
    · exact { untouched s with }
    · exact { untouched s with inCleanup := never, inUdpWrite := never }

theorem udpReadIoUntouched (s : State) (sys) : Untouched s (commCbUdpReadIo s sys) := by
  unfold commCbUdpReadIo
  split
  · exact untouched s
  · dsimp only
    split
    · exact { untouched s with inCleanup := never, inUdpWrite := never }
    · split <;> exact { untouched s with inCleanup := never, inUdpWrite := never }

theorem firedUntouched (s : State) {e : CommFde} (other : e ≠ .udpWrite) : Untouched s (fired s e) := by
  cases e with
  | cleanup => exact { untouched s with scheduled := never }
  | udpWrite => exact absurd rfl other
  | _ => exact { untouched s with }

theorem handleUntouched (s : State) (sys) {e : CommFde} (sends : e ≠ .udpWrite) (cleans : e ≠ .cleanup) :
    Untouched s (handle s sys e) := by
  cases e with
  | read =>
    simp only [handle,commCbRead]
    split <;> exact { untouched s with }
  | readCb =>
    simp only [handle,commCbReadCb]
    split
    · exact { untouched s with inCleanup := never, inUdpWrite := never }
    · exact readIoUntouched s sys
  | write =>
    simp only [handle,commCbWrite]
    split <;> exact { untouched s with }
  | writeCb =>
    simp only [handle,commCbWriteCb]
    split
    · exact { untouched s with inCleanup := never, inUdpWrite := never }
    · exact writeIoUntouched s sys
  | accept =>
    simp only [handle,commCbAccept]
    split
    · exact { untouched s with inCleanup := never, inUdpWrite := never }
    · exact acceptIoUntouched s sys
  | connect => exact connectUntouched s sys
  | connectStart =>
    simp only [handle,commCbConnectStart]
    split
    · exact { untouched s with inCleanup := never, inUdpWrite := never }
    · exact connectStartIoUntouched s sys
  | cleanup => exact absurd rfl cleans
  | udpRead =>
    simp only [handle,commCbUdpRead]
    split
    · exact { untouched s with inCleanup := never, inUdpWrite := never }
    · exact udpReadIoUntouched s sys
  | udpWrite => exact absurd rfl sends

theorem goOnUntouched (s : State) (sys) {ctl : Ctl} (sends : ctl.inUdpWrite = false) (cleans : ctl.inCleanup = false) :
    Untouched s (goOn s sys ctl) := by
  cases ctl with
  | idle => exact untouched s
  | tail => exact untouched s
  | readClosing =>
    have stopped : Untouched s (stopReading s) := { untouched s with }
    exact checkUntouched stopped (stopped.trans (readIoUntouched _ sys))
  | writeClosing => exact checkUntouched (untouched s) (writeIoUntouched s sys)
  | acceptClosing => exact checkUntouched (untouched s) (acceptIoUntouched s sys)
  | acceptLoop => exact acceptNextUntouched s sys
  | startClosing => exact checkUntouched (untouched s) (connectStartIoUntouched s sys)
  | udpReadClosing => exact checkUntouched (untouched s) (udpReadIoUntouched s sys)
  | udpDrain => exact never sends.symm
  | udpSend => exact never sends.symm
  | cleanup => exact never cleans.symm

theorem closeReadingUntouched (s : State) : Untouched s (closeReading s) := by
  unfold closeReading
  split
  · exact { untouched s with }
  · split <;> exact { untouched s with }

theorem closeWritingUntouched (s : State) : Untouched s (closeWriting s) := by
  unfold closeWriting
  split
  · exact { untouched s with }
  · split <;> exact { untouched s with }

/- What a comm_close does once is_closing is set. -/
theorem closeUntouched (s : State) : Untouched s
    (if !commIsCloseReady (closeWriting (closeReading s)).c then closeWriting (closeReading s)
      else commStartCleanup (closeWriting (closeReading s))) := by
  have stopped := (closeReadingUntouched s).trans (closeWritingUntouched _)
  split
  · exact stopped
  · exact stopped.trans (startCleanupUntouched _)

/- The calls that are neither about the writer nor a close. -/
def Call.elsewhere : Call → Bool
  | .udpWriteSetup .. | .udpWrite _ | .close => false
  | _ => true

theorem callUntouched (s : State) {call : Call} (elsewhere : call.elsewhere = true) : Untouched s (client s call) := by
  cases call with
  | read buf len cb cbdata =>
    simp only [client,commCall,commRead,startReading]
    repeat' split
    all_goals exact { untouched s with }
  | write nb start len cb cbdata =>
    simp only [client,commCall,commWrite]
    repeat' split
    all_goals exact { untouched s with }
  | listen cb cbdata =>
    simp only [client,commCall,commListen]
    split <;> exact { untouched s with }
  | connect sin slen cb cbdata =>
    simp only [client,commCall,commConnect]
    split
    · exact { untouched s with }
    · split <;> exact { untouched s with }
  | udpRead cb cbdata maxlen =>
    simp only [client,commCall,commUdpRead]
    split <;> exact { untouched s with }
  | udpWriteSetup => exact never elsewhere
  | udpWrite => exact never elsewhere
  | close => exact never elsewhere
  | markNonclose => exact { untouched s with }

end Libiapp.Comm

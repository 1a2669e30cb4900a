import Libiapp.CommEffect

/-! The transmit queue of a UDP comm. Frames leave w_q at its head only, one for each
callback, and the queue is empty before the writer stops, so nothing is left in it
when the comm is cleaned up. No promise of the client about what it starts after
comm_close is needed here. -/
namespace Libiapp.Comm
open Runs

/- The frames that comm_udp_write accepted, and those that went to the client, the
oldest first. -/
def taken (log : List Ev) : List Frame := (log.filterMap takenFrame).reverse
def handed (log : List Ev) : List Frame := (log.filterMap handedFrame).reverse

/- `was` says whether a close has been asked for before. -/
structure Queue (was : Prop) (s : State) : Prop where
  fifo : taken s.log = handed s.log ++ s.c.udpW.wQ
  stopped : s.c.udpW.isActive = false → s.c.udpW.wQ = []
  cleanup : s.c.isCleanup = true → s.c.isClosing = true ∧ s.c.udpW.wQ = []
  scheduled : s.armed .cleanup = true → s.c.isCleanup = true
  place : s.ctl.inCleanup = true → s.c.isCleanup = true
  stays : was → s.c.isClosing = true

theorem untouchedQueue {was s s'} (same : Untouched s s') (q : Queue was s) : Queue was s' where
  fifo := by rw [taken,handed,same.taken,same.handed,same.udpW]; exact q.fifo
  stopped off := by
    rw [same.udpW] at off ⊢
    exact q.stopped off
  cleanup done := by
    rw [same.closing,same.udpW]
    rcases same.cleanup done with before | ⟨closing,off⟩
    · exact q.cleanup before
    · exact ⟨closing,q.stopped off⟩
  scheduled queued := by
    rcases same.scheduled queued with before | done
    · exact same.stays (q.scheduled before)
    · exact done
  place inside := same.stays (q.place (same.inCleanup inside))
  stays asked := same.closing.trans (q.stays asked)

/- The frame at the head moves from the queue to those handed over. -/
theorem handFrameQueue {was s fr rest st nwritten xerrno ctl} (q : Queue was s) (head : s.c.udpW.wQ = fr::rest)
    (outside : ctl.inCleanup = false) : Queue was (handFrame s fr rest st nwritten xerrno ctl) := by
  have moved : taken s.log = handed (.invoked (.udpWrite s.c.udpW.cb s.c.fd s.c.udpW.cbdata fr st nwritten xerrno)::s.log)
      ++ rest := by
    rw [q.fifo,head]
    simp [handed,handedFrame]
  exact { q with
    fifo := moved
    stopped := fun off => nomatch head.symm.trans (q.stopped off)
    cleanup := fun done => nomatch head.symm.trans (q.cleanup done).2
    place := fun inside => never (outside.symm.trans inside) }

theorem udpWriteNextQueue {was s} (sys) (q : Queue was s) : Queue was (commCbUdpWriteNext s sys) := by
  unfold commCbUdpWriteNext
  split
  · exact q
  · rename_i fr rest head
    split
    · split
      · exact { q with }
      · exact handFrameQueue q head rfl
    · exact handFrameQueue q head rfl

theorem udpWriteIoQueue {was s} (sys) (q : Queue was s) : Queue was (commCbUdpWriteIo s sys) := by
  unfold commCbUdpWriteIo
  split
  · exact q
  · exact udpWriteNextQueue sys { q with }

theorem udpWriteDrainQueue {was s} (sys) (q : Queue was s) : Queue was (commCbUdpWriteDrain s sys) := by
  unfold commCbUdpWriteDrain
  split
  · rename_i fr rest head
    exact handFrameQueue q head rfl
  · rename_i drained
    have off : Queue was { s with c.udpW.isActive := false, c.udpW.isPrimed := false, log := .udpWriteStopped::s.log } :=
      { q with stopped := fun _ => drained }
    dsimp only
    split
    · exact untouchedQueue (startCleanupUntouched _) off
    · exact udpWriteIoQueue sys off

theorem udpWriteFiredQueue {was s} (sys) (q : Queue was s) :
    Queue was (handle (fired s .udpWrite) sys .udpWrite) := by
  have off : Queue was (fired s .udpWrite) := { q with }
  simp only [handle,commCbUdpWrite]
  split
  · exact udpWriteDrainQueue sys off
  · exact udpWriteIoQueue sys off

theorem cleanupFreeQueue {was s} (q : Queue was s) : Queue was (commCbCleanupFree s) := by
  unfold commCbCleanupFree
  split <;> exact { q with scheduled := never }

theorem cleanupFiredQueue {was s} (sys) (q : Queue was s) (queued : s.armed .cleanup = true) :
    Queue was (handle (fired s .cleanup) sys .cleanup) := by
  have off : Queue was (fired s .cleanup) := { q with scheduled := never }
  simp only [handle,commCbCleanup]
  split
  · exact cleanupFreeQueue off
  · exact { off with place := fun _ => q.scheduled queued }

theorem fireQueue {was s} (e : CommFde) (sys) (q : Queue was s) (queued : s.armed e = true) :
    Queue was (handle (fired s e) sys e) := by
  by_cases sends : e = .udpWrite
  · subst e
    exact udpWriteFiredQueue sys q
  · by_cases cleans : e = .cleanup
    · subst e
      exact cleanupFiredQueue sys q queued
    · exact untouchedQueue ((firedUntouched s sends).trans (handleUntouched _ sys sends cleans)) q

theorem goOnQueue {was s} (sys) (ctl : Ctl) (q : Queue was s) : Queue was (goOn s sys ctl) := by
  cases ctl with
  | udpDrain => exact udpWriteDrainQueue sys q
  | udpSend => exact udpWriteNextQueue sys q
  | cleanup => exact cleanupFreeQueue q
  | _ => exact untouchedQueue (goOnUntouched s sys rfl rfl) q

theorem udpWriteQueue {was s} (fr : Frame) (q : Queue was s) : Queue was (client s (.udpWrite fr)) := by
  simp only [client,commCall,commUdpWrite]
  split
  · exact { q with }
  · rename_i accepts
    obtain ⟨on,opened⟩ : s.c.udpW.isActive = true ∧ s.c.isClosing = false := by simpa using accepts
    split
    · exact { q with }
    · have appended : taken (.called (.udpWrite fr) 0::s.log) = handed s.log ++ (s.c.udpW.wQ ++ [fr]) := by
        have before := q.fifo
        rw [taken] at before
        rw [taken,List.filterMap_cons_some (show takenFrame (.called (.udpWrite fr) 0) = some fr from rfl),
          List.reverse_cons,before,List.append_assoc]
      have queued : Queue was { s with
          c.udpW.wQ := s.c.udpW.wQ ++ [fr]
          c.udpW.qlen := s.c.udpW.qlen + 1
          log := .called (.udpWrite fr) 0::s.log } :=
        { q with
          fifo := appended
          stopped := fun off => never (off.symm.trans on)
          cleanup := fun done => never (opened.symm.trans (q.cleanup done).1) }
      split <;> exact { queued with }

theorem closeQueue {was s} (q : Queue was s) : Queue was (commClose s) := by
  unfold commClose
  split
  · exact q
  · have asked : Queue was { s with c.isClosing := true } :=
      { q with cleanup := fun done => ⟨rfl,(q.cleanup done).2⟩, stays := fun _ => rfl }
    exact untouchedQueue (closeUntouched _) asked

theorem callQueue {was s} (call : Call) (q : Queue was s) : Queue was (client s call) := by
  cases call with
  | udpWriteSetup cb cbdata qlen =>
    simp only [client,commCall,commUdpWriteSetup]
    split
    · exact { q with }
    · exact { q with stopped := fun off => never off.symm }
  | udpWrite fr => exact udpWriteQueue fr q
  | close =>
    have closed := closeQueue q
    exact { closed with }
  | _ => exact untouchedQueue (callUntouched s rfl) q

theorem stepQueue {was s a} (q : Queue was s) (allowed : Allowed s a) : Queue was (step s a) := by
  cases a with
  | client call => exact callQueue call q
  | fire e sys => exact fireQueue e sys q allowed.2
  | resume sys =>
    have returned : Queue was { s with ctl := .idle } := { q with place := never }
    exact goOnQueue sys s.ctl returned

theorem reachQueue {s} (h : Reach commMachine s) : Queue False s := by
  refine reachInvariant (m := commMachine) (fun s created => ?_) (fun _ _ => stepQueue) h
  obtain ⟨fd,cb,cbdata,rfl⟩ := created
  exact ⟨rfl,fun _ => rfl,never,never,never,False.elim⟩

/- A frame is linked into w_q by a field of its own, so it can be queued only once
at a time. -/
def Unqueued (s : State) : Act → Prop
  | .client (.udpWrite fr) => fr.id ∉ s.c.udpW.wQ.map Frame.id
  | _ => True

instance : (s : State) → (a : Act) → Decidable (Unqueued s a)
  | s,.client (.udpWrite fr) => inferInstanceAs (Decidable (fr.id ∉ s.c.udpW.wQ.map Frame.id))
  | _,.client (.read ..) | _,.client (.write ..) | _,.client (.listen ..) | _,.client (.connect ..)
  | _,.client (.udpRead ..) | _,.client (.udpWriteSetup ..) | _,.client .close | _,.client .markNonclose
  | _,.fire .. | _,.resume _ => isTrue trivial

def udpMachine : Machine State Act := commMachine.guard Unqueued

instance (s a) : Decidable (udpMachine.allowed s a) :=
  inferInstanceAs (Decidable ((commMachine.guard Unqueued).allowed s a))

theorem udpWriteRejected {s fr} (rejected : (commUdpWrite s fr).2 ≠ 0) : (commUdpWrite s fr).1 = s := by
  unfold commUdpWrite at rejected ⊢
  split
  · rfl
  · rename_i accepts
    rw [if_neg accepts] at rejected
    split
    · rfl
    · rename_i room
      rw [if_neg room] at rejected
      exact absurd rfl rejected

/- Accepted frames are those handed back, in their order, and then those still queued.
A refused frame changes nothing, and cleanup finds the queue empty. -/
theorem udpFifo {s} (h : Reach udpMachine s) :
    taken s.log = handed s.log ++ s.c.udpW.wQ ∧
    (∀ fr, (commUdpWrite s fr).2 ≠ 0 → (commUdpWrite s fr).1 = s) ∧
    (s.armed .cleanup = true ∨ s.ctl = .cleanup → s.c.udpW.wQ = []) := by
  have q := reachQueue (reachUnguarded h)
  refine ⟨q.fifo,fun fr => udpWriteRejected,fun cleanup => ?_⟩
  rcases cleanup with queued | inside
  · exact (q.cleanup (q.scheduled queued)).2
  · exact (q.cleanup (q.place (by rw [inside]; rfl))).2

/- The callback of the first frame queues a third one, the second frame cannot be sent
yet, and then the client closes. -/
def udpRun : List Act :=
  [.client (.udpWriteSetup 1 2 8),.client (.udpWrite ⟨1,64,10⟩),.client (.udpWrite ⟨2,64,20⟩),
    .fire .udpWrite ⟨10,0,0,none⟩,.client (.udpWrite ⟨3,64,30⟩),.resume ⟨-1,eAgain,0,none⟩,.client .close,
    .fire .udpWrite ⟨0,0,0,none⟩]

theorem udpFifoRun :
    let s := run udpMachine (commCreate 5 none 0) udpRun
    s.ctl = .udpDrain ∧ taken s.log = [⟨1,64,10⟩,⟨2,64,20⟩] ++ [⟨3,64,30⟩] := by
  have reached : Reach udpMachine (run udpMachine (commCreate 5 none 0) udpRun) :=
    reachRun (.start ⟨5,none,0,rfl⟩) (by decide)
  exact ⟨by decide,(udpFifo reached).1.trans (by decide)⟩

end Libiapp.Comm

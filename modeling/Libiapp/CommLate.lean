import Libiapp.CommFrame
import Libiapp.CommOnce
import Libiapp.CommQueue

/-! The time between the scheduling of the cleanup and comm_cb_cleanup itself. None of
the start calls looks at is_closing or is_cleanup, except comm_udp_write. -/
namespace Libiapp.Comm
open Runs

/- No operation is started once the cleanup is scheduled. -/
def Timely (s : State) : Act → Prop
  | .client call => call.kind.isSome = true → (commCall s call).2 ≠ -1 → s.c.isCleanup = false
  | _ => True

instance (s : State) : (a : Act) → Decidable (Timely s a)
  | .client call => inferInstanceAs (Decidable (call.kind.isSome = true → (commCall s call).2 ≠ -1 → s.c.isCleanup = false))
  | .fire .. => isTrue trivial
  | .resume _ => isTrue trivial

def timelyMachine : Machine State Act := commMachine.guard Timely

instance (s a) : Decidable (timelyMachine.allowed s a) :=
  inferInstanceAs (Decidable ((commMachine.guard Timely).allowed s a))

structure Tidy (s : State) : Prop where
  cleanup : s.c.isCleanup = true → ∀ k, s.c.active k = false
  scheduled : s.armed .cleanup = true → s.c.isCleanup = true
  place : s.ctl.inCleanup = true → s.c.isCleanup = true
  freed : s.freed = true → s.c.isCleanup = true

theorem windsTidy {writing s s'} (w : Winds writing s s') (tidy : Tidy s) : Tidy s' where
  cleanup done k := by
    rcases w.cleanup done with before | none
    · exact w.falls k (tidy.cleanup before k)
    · exact none k
  scheduled queued := by
    rcases w.scheduled queued with before | done
    · exact w.stays (tidy.scheduled before)
    · exact done
  place inside := w.stays (tidy.place (w.inCleanup inside))
  freed gone := w.stays (tidy.freed (w.freed ▸ gone))

theorem closeTidy {s} (tidy : Tidy s) : Tidy (commClose s) := by
  unfold commClose
  split
  · exact tidy
  · have asked : Tidy { s with c.isClosing := true } := { tidy with cleanup := tidy.cleanup }
    have stopped := windsTidy (closeWritingWinds _) (windsTidy (closeReadingWinds true _) asked)
    dsimp only
    split
    · exact stopped
    · exact windsTidy (startCleanupWinds true _) stopped

/- What a start call leaves alone. -/
structure Started (s s' : State) : Prop where
  cleanup : s'.c.isCleanup = s.c.isCleanup
  armed : s'.armed .cleanup = s.armed .cleanup
  ctl : s'.ctl = s.ctl
  freed : s'.freed = s.freed
  closing : s'.c.isClosing = s.c.isClosing
  back : s'.log.any closedBack = s.log.any closedBack

theorem started {s call} (starts : call.kind.isSome = true) :
    Started s (commCall s call).1 ∧ ((commCall s call).2 = -1 → (commCall s call).1 = s) := by
  have refused : Started s s ∧ ((-1 : Int) = -1 → s = s) := ⟨⟨rfl,rfl,rfl,rfl,rfl,rfl⟩,fun _ => rfl⟩
  have accepted {s'} (ret : Int) (kept : Started s s') (good : ret ≠ -1) : Started s s' ∧ (ret = -1 → s' = s) :=
    ⟨kept,fun failed => absurd failed good⟩
  cases call with
  | read buf len cb cbdata =>
    simp only [commCall,commRead,startReading]
    repeat' split
    all_goals first | exact refused | exact accepted 1 ⟨rfl,rfl,rfl,rfl,rfl,rfl⟩ (by decide)
  | write nb start len cb cbdata =>
    simp only [commCall,commWrite]
    repeat' split
    all_goals first | exact refused | exact accepted 0 ⟨rfl,rfl,rfl,rfl,rfl,rfl⟩ (by decide)
  | listen cb cbdata =>
    simp only [commCall,commListen]
    split
    · exact refused
    · exact accepted 0 ⟨rfl,rfl,rfl,rfl,rfl,rfl⟩ (by decide)
  | connect sin slen cb cbdata =>
    simp only [commCall,commConnect]
    split
    · exact refused
    · split
      · exact refused
      · exact accepted 0 ⟨rfl,rfl,rfl,rfl,rfl,rfl⟩ (by decide)
  | udpRead cb cbdata maxlen =>
    simp only [commCall,commUdpRead]
    split
    · exact refused
    · exact accepted 0 ⟨rfl,rfl,rfl,rfl,rfl,rfl⟩ (by decide)
  | udpWriteSetup cb cbdata qlen =>
    simp only [commCall,commUdpWriteSetup]
    split
    · exact refused
    · exact accepted 0 ⟨rfl,rfl,rfl,rfl,rfl,rfl⟩ (by decide)
  | udpWrite => exact never starts
  | close => exact never starts
  | markNonclose => exact never starts

theorem callTidy {s call} (tidy : Tidy s) (timely : Timely s (.client call)) : Tidy (commCall s call).1 := by
  cases starts : call.kind.isSome with
  | true =>
    obtain ⟨kept,refused⟩ := started starts
    by_cases rejected : (commCall s call).2 = -1
    · rw [refused rejected]
      exact tidy
    · have before := timely starts rejected
      have never {p : Prop} (done : s.c.isCleanup = true) : p := never (before.symm.trans done)
      exact {
        cleanup := fun done => never (kept.cleanup ▸ done)
        scheduled := fun queued => never (tidy.scheduled (kept.armed ▸ queued))
        place := fun inside => never (tidy.place (kept.ctl ▸ inside))
        freed := fun gone => never (tidy.freed (kept.freed ▸ gone)) }
  | false =>
    cases call with
    | udpWrite fr =>
      have queued : Winds true s { s with c.udpW.wQ := s.c.udpW.wQ ++ [fr], c.udpW.qlen := s.c.udpW.qlen + 1 } :=
        { winds true s with cleanup := Or.inl }
      simp only [commCall,commUdpWrite]
      split
      · exact tidy
      · split
        · exact tidy
        · split
          · exact windsTidy { queued with cleanup := Or.inl } tidy
          · exact windsTidy queued tidy
    | close => exact closeTidy tidy
    | markNonclose => exact windsTidy { winds true s with cleanup := Or.inl } tidy
    | _ => contradiction

theorem freeTidy {s : State} (tidy : Tidy s) (done : s.c.isCleanup = true) : Tidy (commCbCleanupFree s) :=
  { tidy with scheduled := never, freed := fun _ => done }

theorem stepTidy {s a} (tidy : Tidy s) (allowed : Allowed s a) (timely : Timely s a) : Tidy (step s a) := by
  cases a with
  | client call => exact { callTidy tidy timely with }
  | fire e sys =>
    have fires : Tidy (fired s e) := windsTidy (firedWinds s e) tidy
    by_cases cleans : e = .cleanup
    · subst e
      have done := tidy.scheduled allowed.2
      simp only [step,handle,commCbCleanup]
      split
      · exact freeTidy fires done
      · exact { fires with place := fun _ => done }
    · exact windsTidy (handleWinds _ sys cleans) fires
  | resume sys =>
    have returned : Tidy { s with ctl := .idle } := { tidy with place := never }
    by_cases cleans : s.ctl = .cleanup
    · have done := tidy.place (by rw [cleans]; rfl)
      simp only [step,cleans]
      exact freeTidy returned done
    · exact windsTidy (goOnWinds _ sys cleans) returned

theorem reachTidy {s} (h : Reach timelyMachine s) : Tidy s := by
  refine reachInvariant (m := timelyMachine) (fun s created => ?_)
    (fun _ _ tidy possible => stepTidy tidy possible.1 possible.2) h
  obtain ⟨fd,cb,cbdata,rfl⟩ := created
  exact ⟨never,never,never,never⟩

/- In a run that starts nothing once the cleanup is scheduled, the comm is freed with
nothing active and nothing queued. -/
theorem freedInactive {s} (h : Reach timelyMachine s) (gone : s.freed = true) :
    (∀ k, s.c.active k = false) ∧ s.c.udpW.wQ = [] := by
  have tidy := reachTidy h
  have done := tidy.freed gone
  exact ⟨tidy.cleanup done,((reachQueue (reachUnguarded h)).cleanup done).2⟩

/- A read is started behind the close, but the close still waits for a write. -/
def timelyRun : List Act :=
  [.client (.write 1 0 10 2 3),.client .close,.client (.read 1 10 2 3),.fire .writeCb quiet,.resume quiet,
    .fire .read quiet,.fire .readCb quiet,.resume quiet,.fire .cleanup quiet]

theorem freedInactiveRun :
    let s := run timelyMachine (commCreate 5 none 0) timelyRun
    s.freed = true ∧ accepted .read s.log = 1 ∧ s.c.active .read = false := by
  have reached : Reach timelyMachine (run timelyMachine (commCreate 5 none 0) timelyRun) :=
    reachRun (.start ⟨5,none,0,rfl⟩) (by decide)
  exact ⟨by decide,by decide,(freedInactive reached (by decide)).1 .read⟩

/- comm_close finds nothing active and schedules the cleanup; a read that is started
before it runs is accepted and then goes with the comm. -/
def lateRun : List Act := [.client .close,.client (.read 1 10 2 3),.fire .cleanup quiet]

theorem freedActive :
    let s := run commMachine (commCreate 5 none 0) lateRun
    Reach commMachine s ∧ s.freed = true ∧ accepted .read s.log = 1 ∧ answered .read s.log = 0 ∧
      s.c.active .read = true :=
  ⟨reachRun (.start ⟨5,none,0,rfl⟩) (by decide),by decide,by decide,by decide,by decide⟩

end Libiapp.Comm

import Libiapp.CommCalls
import Libiapp.CommQueue

/-! Wakeups of an open comm. Whatever the client does, an operation that is active
between two callbacks has an fde that will take it further. -/
namespace Libiapp.Comm
open Runs

theorem closingStays {s a} (h : Reach commMachine s) (allowed : Allowed s a) (closing : s.c.isClosing = true) :
    (step s a).c.isClosing = true := by
  have asked : Queue True s := { reachQueue h with stays := fun _ => closing }
  exact (stepQueue asked allowed).stays trivial

/- A comm that is still open has been so all the time, so no operation can have been
started after a close. -/
theorem openDisciplined {s} (h : Reach commMachine s) (opened : s.c.isClosing = false) : Reach disciplinedMachine s := by
  induction h with
  | start created => exact .start created
  | @next s a before allowed ih =>
    have earlier : s.c.isClosing = false :=
      Bool.eq_false_iff.mpr fun closing => never (opened.symm.trans (closingStays before allowed closing))
    have disciplined : Disciplined s a := by
      cases a with
      | client call => exact fun _ => earlier
      | _ => trivial
    exact .next (ih earlier) ⟨allowed,disciplined⟩

/- `unanswered` is false exactly when no comm_cb_read has come since ev_read was last
registered or a read() last found nothing. -/
theorem wakeupKept {s} (h : Reach commMachine s) (opened : s.c.isClosing = false) (between : s.ctl = .idle) :
    (s.c.r.isActive = true → s.armed .readCb = true ∨ (s.armed .read = true ∧ unanswered s.log = false)) ∧
    (s.c.w.isActive = true → s.armed .write = true) ∧
    (s.c.a.isActive = true → s.armed .accept = true) ∧
    (s.c.co.isActive = true → s.armed .connectStart = true ∨ s.armed .connect = true) ∧
    (s.c.udpR.isActive = true → s.armed .udpRead = true) ∧
    (s.c.r.isRead = true ↔ s.armed .read = true) ∧
    (s.c.w.isWrite = true ↔ s.armed .write = true) := by
  have inv := reachInv (openDisciplined h opened)
  have outside : s.ctl.inAccept = false := by rw [between]; rfl
  refine ⟨fun reading => ?_,inv.waitWrite opened,inv.waitAccept outside,inv.waitConnect,inv.waitUdpRead,?_,?_⟩
  · obtain ⟨armed,queued | quiet⟩ := inv.waitRead opened reading
    · exact Or.inl queued
    · exact Or.inr ⟨armed,quiet⟩
  · rw [inv.isRead opened]
  · rw [inv.isWrite opened]

/- A notification comes before the read; the read takes what there is, its callback
reads again, and the second read finds nothing. -/
def wakeupRun : List Act :=
  [.client (.read 1 10 2 3),.fire .read ⟨0,0,0,none⟩,.fire .readCb ⟨4,0,0,none⟩,.client (.read 1 10 2 3),
    .resume ⟨0,0,0,none⟩,.fire .readCb ⟨-1,eAgain,0,none⟩]

theorem wakeupKeptRun :
    let s := run commMachine (commCreate 5 none 0) wakeupRun
    s.c.r.isActive = true ∧ s.armed .readCb = false ∧ s.armed .read = true ∧ unanswered s.log = false := by
  have reached : Reach commMachine (run commMachine (commCreate 5 none 0) wakeupRun) :=
    reachRun (.start ⟨5,none,0,rfl⟩) (by decide)
  have waits := (wakeupKept reached (by decide) (by decide)).1 (by decide)
  have unqueued : (run commMachine (commCreate 5 none 0) wakeupRun).armed .readCb = false := by decide
  rcases waits with queued | ⟨armed,quiet⟩
  · exact never (unqueued.symm.trans queued)
  · exact ⟨by decide,unqueued,armed,quiet⟩

end Libiapp.Comm

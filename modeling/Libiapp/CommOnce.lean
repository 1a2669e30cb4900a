import Libiapp.CommCalls

/-! Callbacks of one fde_comm. Every accepted read, write and connect is answered
once, and the close callback comes once, behind all of them. -/
namespace Libiapp.Comm
open Runs Lifecycle

def Callback.kind : Callback → Option Kind
  | .read .. => some .read
  | .write .. => some .write
  | .accept .. => some .accept
  | .connect .. => some .connect
  | .udpRead .. => some .udpRead
  | .udpWrite .. => some .udpWrite
  | .close .. => none

/- The operations that end with their callback. -/
def Kind.once : Kind → Bool
  | .read | .write | .connect => true
  | _ => false

def acceptedAs (k : Kind) : Ev → Bool
  | .called call ret => ret ≠ -1 && call.kind == some k
  | _ => false

def answeredAs (k : Kind) : Ev → Bool
  | .invoked callback => callback.kind == some k
  | _ => false

def closedBack : Ev → Bool
  | .invoked (.close ..) => true
  | _ => false

def accepted (k : Kind) (log : List Ev) : Nat := log.countP (acceptedAs k)
def answered (k : Kind) (log : List Ev) : Nat := log.countP (answeredAs k)

theorem acceptedLife (k : Kind) (ev : Ev) : acceptedAs k ev = (lifeEvent ev == some (.start k)) := by
  cases ev with
  | called call ret =>
    by_cases refused : ret = -1
    · simp [acceptedAs,lifeEvent,refused]
    · cases call <;> cases k <;> simp [acceptedAs,lifeEvent,refused,Call.kind]
  | invoked callback => cases callback <;> simp only [acceptedAs,lifeEvent] <;> first | rfl | (split <;> rfl)
  | _ => rfl

theorem answeredLife {k : Kind} (once : k.once = true) (ev : Ev) :
    answeredAs k ev = (lifeEvent ev == some (.finish k)) := by
  cases k <;> simp only [Kind.once,Bool.false_eq_true] at once
  all_goals
    cases ev with
    | called call ret =>
      by_cases refused : ret = -1
      · simp [answeredAs,lifeEvent,refused]
      · cases call <;> simp [answeredAs,lifeEvent,refused,Call.kind]
    | invoked callback => cases callback <;> simp only [answeredAs,lifeEvent] <;> first | rfl | (split <;> rfl)
    | _ => rfl

theorem closedLife (ev : Ev) : closedBack ev = (lifeEvent ev == some .close) := by
  cases ev with
  | called call ret =>
    by_cases refused : ret = -1
    · simp [closedBack,lifeEvent,refused]
    · cases call <;> simp [closedBack,lifeEvent,refused,Call.kind]
  | invoked callback => cases callback <;> simp only [closedBack,lifeEvent] <;> first | rfl | (split <;> rfl)
  | _ => rfl

theorem lifeCount {p : Ev → Bool} {event : Event Kind} (life : ∀ ev, p ev = (lifeEvent ev == some event))
    (log : List Ev) :
    log.countP p = (lifeEvents log).count event := by
  rw [List.count,lifeEvents,List.countP_filterMap]
  congr 1
  funext ev
  rw [life]
  cases lifeEvent ev <;> rfl

/- One read, write or connect is outstanding at a time, and it is the active one. -/
theorem acceptedCount {k : Kind} {events : List Ev} {l : Life Kind} (once : k.once = true)
    (trace : Trace (lifeEvents events) l) :
    accepted k events = answered k events + (l.outstanding k).toNat := by
  rw [accepted,answered,lifeCount (acceptedLife k),lifeCount (answeredLife once)]
  exact traceCount trace k

theorem invokedLife (callback : Callback) : (lifeEvent (.invoked callback)).isSome = true := by
  cases callback <;> rfl

/- Accepted calls and callbacks match in every reachable state. The close callback
comes at most once; before it everything accepted has been answered, behind it
nothing is active and nothing is invoked. -/
theorem callbacksOnce {s} (h : Reach disciplinedMachine s) :
    (∀ k, k.once = true → accepted k s.log = answered k s.log + (s.c.active k).toNat) ∧
    s.log.countP closedBack ≤ 1 ∧
    ∀ after before cb fd cbdata, s.log = after ++ .invoked (.close cb fd cbdata)::before →
      (∀ k, k.once = true → accepted k before = answered k before) ∧ (∀ k, s.c.active k = false) ∧
      ∀ callback, .invoked callback ∉ after := by
  obtain ⟨closed,trace,_⟩ := (reachInv h).life
  refine ⟨fun k once => acceptedCount once trace,?_,?_⟩
  · rw [lifeCount closedLife]
    exact closedOnce trace
  · intro after before cb fd cbdata split
    have events : lifeEvents s.log = lifeEvents after ++ .close::lifeEvents before := by
      rw [split,lifeEvents,List.filterMap_append]
      rfl
    have mem : .close ∈ lifeEvents s.log := by simp [events]
    have settled : closed = true := (closedIff trace).mp mem
    obtain ⟨last,l,earlier,none⟩ := closeLast (events ▸ trace)
    refine ⟨fun k once => ?_,closedNone trace settled,fun callback invoked => ?_⟩
    · rw [acceptedCount once earlier,none k]
      rfl
    · have silent := List.filterMap_eq_nil_iff.mp last _ invoked
      have heard := invokedLife callback
      rw [silent] at heard
      contradiction

def quiet : Sys := ⟨0,0,0,none⟩

/- A read is completed, its callback reads again and closes; the second read is told
so, and the close callback follows. -/
def closingRun : List Act :=
  [.client (.read 1 10 2 3),.fire .read quiet,.fire .readCb ⟨4,0,0,none⟩,.client (.read 1 10 2 3),.client .close,
    .resume quiet,.fire .readCb quiet,.resume quiet,.fire .cleanup quiet,.resume quiet]

theorem callbacksOnceRun :
    let s := run disciplinedMachine (commCreate 5 (some 9) 0) closingRun
    accepted .read s.log = 2 ∧ answered .read s.log = 2 ∧ s.log.countP closedBack = 1 := by
  have reached : Reach disciplinedMachine (run disciplinedMachine (commCreate 5 (some 9) 0) closingRun) :=
    reachRun (.start ⟨5,some 9,0,rfl⟩) (by decide)
  have once := callbacksOnce reached
  exact ⟨by decide,(once.1 .read rfl).symm.trans (by decide),by decide⟩

end Libiapp.Comm

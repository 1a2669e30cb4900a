import Libiapp.Clt
import Libiapp.CommFace

/-! The life of a conn of clt.c. It is connecting, reading, or closing in three stages: its
comm is on the way to its cleanup, has called back from there, and is freed. What a step of
its comm makes of a conn is said once (`Moved`). -/
namespace Libiapp.Clt
open Runs
open Libiapp.Comm (Ctl Face face solely inactive calling client disciplinedMachine)

inductive Stage (c : Conn) : Prop where
  | dialing (state : c.state = .connecting) (linked : c.linked = true) (event : c.evCleanup ≠ some true)
      (shows : face c.comm = ⟨solely .connect,false,false,false,.idle,some connCloseCbFn⟩)
  | reading (state : c.state = .running) (linked : c.linked = true) (event : c.evCleanup ≠ some true) (ctl : Ctl)
      (between : ctl = .idle ∨ ctl = .tail)
      (shows : face c.comm = ⟨solely .read,false,false,false,ctl,some connCloseCbFn⟩)
  | closing (state : c.state = .closing) (linked : c.linked = false) (event : c.evCleanup ≠ some true) (ctl : Ctl)
      (between : ctl = .idle ∨ ctl = .tail)
      (shows : face c.comm = ⟨inactive,true,true,false,ctl,some connCloseCbFn⟩)
  | cleaning (state : c.state = .closing) (linked : c.linked = false) (event : c.evCleanup = some true)
      (shows : face c.comm = ⟨inactive,true,true,false,.cleanup,some connCloseCbFn⟩)
  | closed (state : c.state = .closing) (linked : c.linked = false) (event : c.evCleanup = some true)
      (shows : face c.comm = ⟨inactive,true,true,true,.idle,some connCloseCbFn⟩)

structure Seated (c : Conn) : Prop where
  run : Reach disciplinedMachine c.comm
  stage : Stage c

/- A conn is counted as closed from its conn_close on. -/
def Conn.isClosing (c : Conn) : Bool := c.state == .closing

structure Moved (x y : Scope) : Prop where
  seated : y.fault = false → Seated y.c
  event : y.c.evCleanup = none ↔ x.c.evCleanup = none
  fault : x.c.evCleanup ≠ none → y.fault = x.fault
  closed : ∃ n, y.r.totalClosed = x.r.totalClosed + UInt64.ofNat n ∧ y.c.isClosing.toNat = x.c.isClosing.toNat + n

/- An open comm whose operation has just called back. -/
structure Called (c : Conn) : Prop where
  run : Reach disciplinedMachine c.comm
  linked : c.linked = true
  event : c.evCleanup ≠ some true
  shows : face c.comm = ⟨inactive,false,false,false,.tail,some connCloseCbFn⟩

theorem Called.opened {c} (called : Called c) : c.comm.c.isClosing = false := congrArg Face.isClosing called.shows

theorem Called.alive {c} (called : Called c) : c.comm.freed = false := congrArg Face.freed called.shows

theorem Called.off {c} (called : Called c) : c.comm.c.active = inactive := congrArg Face.active called.shows

theorem closeMoved {x : Scope} (called : Called x.c) (state : x.c.state ≠ .closing) : Moved x (connClose x) := by
  have linked := called.linked
  have goes : connClose x = { x with
      c.state := .closing, c.comm := client x.c.comm .close, c.linked := false
      r.totalClosed := x.r.totalClosed + 1 } := by
    simp only [connClose,if_neg state,linked,Bool.not_true,Bool.false_eq_true,if_false]
  rw [goes]
  have shows := Comm.faceClose (Comm.reachInv called.run) called.alive called.opened called.off
  rw [called.shows] at shows
  have asks : disciplinedMachine.allowed x.c.comm (.client .close) := ⟨called.alive,nofun⟩
  exact {
    seated := fun _ => ⟨.next called.run asks,.closing rfl rfl called.event .tail (Or.inr rfl) shows⟩
    event := Iff.rfl
    fault := fun _ => rfl
    closed := ⟨1,rfl,by simp [Conn.isClosing,state]⟩ }

theorem readMoved {x : Scope} (called : Called x.c) (state : x.c.state = .running) : Moved x (commRead x) := by
  have linked := called.linked
  have goes : commRead x = { x with c.comm := client x.c.comm (.read x.c.buf x.c.size connReadCbFn 0) } := by
    simp only [commRead,linked,Bool.not_true,Bool.false_eq_true,if_false]
  rw [goes]
  have off : x.c.comm.c.r.isActive = false := congrFun called.off .read
  have shows := Comm.faceRead x.c.buf x.c.size connReadCbFn 0 (Comm.reachInv called.run) called.alive called.opened off
  have sole : Function.update x.c.comm.c.active .read true = solely .read := by
    rw [called.off]
    funext k
    cases k <;> rfl
  rw [sole,called.shows] at shows
  have asks : disciplinedMachine.allowed x.c.comm (.client (.read x.c.buf x.c.size connReadCbFn 0)) :=
    ⟨called.alive,fun _ => called.opened⟩
  exact {
    seated := fun _ => ⟨.next called.run asks,.reading state linked called.event .tail (Or.inr rfl) shows⟩
    event := Iff.rfl
    fault := fun _ => rfl
    closed := ⟨0,by simp,rfl⟩ }

theorem connectMoved {x : Scope} (called : Called x.c) (state : x.c.state = .connecting) (status) :
    Moved x (connConnectCb x status) := by
  have opened : x.c.isClosing = false := by simp [Conn.isClosing,state]
  unfold connConnectCb
  split
  · have moved : Moved { x with c.state := .error } (connClose { x with c.state := .error }) :=
      closeMoved ⟨called.run,called.linked,called.event,called.shows⟩ (by simp)
    exact { moved with closed := by rw [opened]; exact moved.closed }
  · simp only [thrcltConnUpdateCb,reduceCtorEq,if_false,ne_eq,not_true]
    have moved : Moved { x with c.state := .running, r.totalOpened := x.r.totalOpened + 1 }
        (commRead { x with c.state := .running, r.totalOpened := x.r.totalOpened + 1 }) :=
      readMoved ⟨called.run,called.linked,called.event,called.shows⟩ rfl
    exact { moved with closed := by rw [opened]; exact moved.closed }

theorem readCbMoved {x : Scope} (called : Called x.c) (state : x.c.state = .running) (s retval) :
    Moved x (connReadCb x s retval) := by
  unfold connReadCb
  split
  · exact closeMoved called (by simp [state])
  · split
    · have moved := readMoved (x := { x with
        c.totalRead := x.c.totalRead + UInt64.ofInt retval, r.totalRead := x.r.totalRead + UInt64.ofInt retval })
        ⟨called.run,called.linked,called.event,called.shows⟩ state
      exact { moved with }
    · exact readMoved called state

/- A step behind which no callback runs changes the comm alone. -/
theorem quietMoved {x : Scope} {comm} (idle : comm.ctl = .idle) (stays : Seated { x.c with comm := comm }) :
    Moved x (enter x comm) := by
  simp only [enter,Comm.idleUncalled idle]
  exact ⟨fun _ => stays,Iff.rfl,fun _ => rfl,0,by simp,rfl⟩

theorem fireMoved {x : Scope} {e sys} (seated : Seated x.c) (idle : x.c.comm.ctl = .idle)
    (queued : x.c.comm.armed e = true) : Moved x (enter x (Comm.step x.c.comm (.fire e sys))) := by
  have inv := Comm.reachInv seated.run
  have possible : disciplinedMachine.allowed x.c.comm (.fire e sys) := ⟨⟨idle,queued⟩,trivial⟩
  have run : Reach disciplinedMachine (Comm.step x.c.comm (.fire e sys)) := .next seated.run possible
  have between {ctl} (shows : (face x.c.comm).ctl = ctl) : ctl = .idle := shows.symm.trans idle
  cases seated.stage with
  | dialing state linked event shows =>
    rcases Comm.fireConnecting inv queued shows with same | ⟨⟨fn,fd,cbdata,st,xerrno,calls⟩,reported⟩
    · exact quietMoved ((congrArg Face.ctl same).trans idle) ⟨run,.dialing state linked event (same.trans shows)⟩
    · simp only [enter,calls]
      have moved := connectMoved (x := { x with c.comm := Comm.step x.c.comm (.fire e sys) })
        ⟨run,linked,event,reported⟩ state st
      exact { moved with }
  | reading state linked event ctl _ shows =>
    cases between (congrArg Face.ctl shows)
    rcases Comm.fireReading inv queued shows with same | ⟨⟨fn,fd,cbdata,st,ret,calls⟩,reported⟩
    · exact quietMoved ((congrArg Face.ctl same).trans idle)
        ⟨run,.reading state linked event .idle (Or.inl rfl) (same.trans shows)⟩
    · simp only [enter,calls]
      have moved := readCbMoved (x := { x with c.comm := Comm.step x.c.comm (.fire e sys) })
        ⟨run,linked,event,reported⟩ state st ret
      exact { moved with }
  | closing state linked event ctl _ shows =>
    cases between (congrArg Face.ctl shows)
    rcases Comm.fireClosing inv queued shows with same | ⟨⟨fn,fd,cbdata,calls⟩,reported⟩
    · exact quietMoved ((congrArg Face.ctl same).trans idle)
        ⟨run,.closing state linked event .idle (Or.inl rfl) (same.trans shows)⟩
    · simp only [enter,calls,connCloseCb]
      cases known : x.c.evCleanup with
      | none => exact ⟨nofun,by simp [known],fun some => absurd known some,0,by simp,rfl⟩
      | some queued => exact ⟨fun _ => ⟨run,.cleaning state linked rfl reported⟩,by simp [known],fun _ => rfl,0,by simp,rfl⟩
  | cleaning _ _ _ shows => exact absurd (between (congrArg Face.ctl shows)) (by decide)
  | closed _ _ _ shows =>
    have freed : x.c.comm.freed = true := congrArg Face.freed shows
    rw [(inv.freed freed).1 e] at queued
    contradiction

theorem resumeMoved {x : Scope} {sys} (seated : Seated x.c) (behind : x.c.comm.ctl ≠ .idle) :
    Moved x (enter x (Comm.step x.c.comm (.resume sys))) := by
  have possible : disciplinedMachine.allowed x.c.comm (.resume sys) := ⟨behind,trivial⟩
  have run : Reach disciplinedMachine (Comm.step x.c.comm (.resume sys)) := .next seated.run possible
  have tail {ctl} (shows : (face x.c.comm).ctl = ctl) (between : ctl = .idle ∨ ctl = .tail) :
      face (Comm.step x.c.comm (.resume sys)) = { face x.c.comm with ctl := .idle } := by
    rcases between with rfl | rfl
    · exact absurd shows behind
    · rw [Comm.resumeTail shows]
      rfl
  cases seated.stage with
  | dialing _ _ _ shows => exact absurd (congrArg Face.ctl shows) behind
  | reading state linked event ctl between shows =>
    have after := tail (congrArg Face.ctl shows) between
    exact quietMoved (congrArg Face.ctl after) ⟨run,.reading state linked event .idle (Or.inl rfl) (by rw [after,shows])⟩
  | closing state linked event ctl between shows =>
    have after := tail (congrArg Face.ctl shows) between
    exact quietMoved (congrArg Face.ctl after) ⟨run,.closing state linked event .idle (Or.inl rfl) (by rw [after,shows])⟩
  | cleaning state linked event shows =>
    have after : face (Comm.step x.c.comm (.resume sys)) = { face x.c.comm with freed := true, ctl := .idle } :=
      Comm.resumeCleanup (congrArg Face.ctl shows)
    exact quietMoved (congrArg Face.ctl after) ⟨run,.closed state linked event (by rw [after,shows])⟩
  | closed _ _ _ shows => exact absurd (congrArg Face.ctl shows) behind

/- A new conn is connecting. -/
theorem newSeated {r : CltApp} {fd buf event sin slen} (fits : slen ≤ Comm.sizeofSockaddrStorage) :
    let c := connNew r fd buf event
    Seated { c with state := .connecting, comm := client c.comm (.connect sin slen connConnectCbFn 0) } := by
  intro c
  have created : Reach disciplinedMachine c.comm := .start ⟨fd,some connCloseCbFn,0,rfl⟩
  have asks : disciplinedMachine.allowed c.comm (.client (.connect sin slen connConnectCbFn 0)) := ⟨rfl,fun _ => rfl⟩
  have shows : face (client c.comm (.connect sin slen connConnectCbFn 0)) =
      ⟨solely .connect,false,false,false,.idle,some connCloseCbFn⟩ := by
    rw [Comm.faceConnect sin slen connConnectCbFn 0 rfl fits]
    have sole : Function.update c.comm.c.active .connect true = solely .connect := by
      funext k
      cases k <;> rfl
    rw [sole]
    rfl
  have event : c.evCleanup ≠ some true := by
    cases event <;> simp [c,connNew]
  exact ⟨.next created asks,.dialing rfl rfl event shows⟩

end Libiapp.Clt

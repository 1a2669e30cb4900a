import Libiapp.Srv

/-! What a callback of the event loop does to the conn of a client, with the owner that
srv.c is: it closes the conn in an ERROR notification and ignores a CLOSING one. Behind the
callback the conn waits in none of its notifications. -/
namespace Libiapp.Srv
open Runs Comm Connection

theorem notifyOwned {c : Connection.State} {note} (owner : c.c.cb.isSome = true) : notify c note = told c note := by
  unfold notify told
  split
  · rename_i none
    rw [none] at owner
    contradiction
  · rename_i some
    simp [some]

/- The owner never changes. -/
theorem behindCb (c : Connection.State) (note) : (behind c note).c.cb = c.c.cb := by cases note <;> rfl

theorem notifyCb (c : Connection.State) (note) : (notify c note).c.cb = c.c.cb := by
  unfold notify
  split
  · exact behindCb c note
  · rfl

theorem connCloseCb (c : Connection.State) : (connClose c).c.cb = c.c.cb := by
  unfold connClose
  split
  · rfl
  · exact notifyCb _ _

theorem stepCb (c : Connection.State) (a) : (Connection.step c a).c.cb = c.c.cb := by
  cases a with
  | connClose => exact connCloseCb c
  | connSetStatsCb | setThreshold | closed => rfl
  | wrote status nwritten =>
    simp only [Connection.step,connWriteCb]
    repeat' split
    all_goals first | rfl | exact notifyCb _ _ | exact connCloseCb _
  | cleanup =>
    simp only [Connection.step,clientEvCleanupCb]
    split <;> exact notifyCb _ _
  | ret =>
    simp only [Connection.step]
    split
    · rfl
    · exact behindCb _ _

theorem settleCb (c : Connection.State) : (settle c).c.cb = c.c.cb := by
  have update (note) : (thrsrvConnUpdateCb c note).c.cb = c.c.cb := by
    cases note with
    | error =>
      simp only [thrsrvConnUpdateCb]
      split
      · rw [stepCb,connCloseCb]
      · exact connCloseCb c
    | closing | freeing => rfl
  unfold settle
  split
  · rfl
  · rw [stepCb,update]

section Settle
variable {made erred : Bool} {c : Connection.State}

theorem settleIdle (stack : c.stack = []) : settle c = c := by simp only [settle,stack]

theorem settleAsked (h : Shape made erred .asked c) (stack : c.stack = [.closing]) :
    Shape made erred .waiting (settle c) ∧ (settle c).stack = [] := by
  have shape := closeTailShape h (Or.inl rfl)
  simp only [settle,stack,thrsrvConnUpdateCb,Connection.step]
  exact ⟨shape,rfl⟩

theorem settleFailed (h : Shape made erred .failed c) (stack : c.stack = [.error]) (owner : c.c.cb.isSome = true) :
    Shape made true .waiting (settle c) ∧ (settle c).stack = [] := by
  have closes : connClose c = told (c.become .closing) .closing := by
    rw [connClose,if_neg (by rw [h.state]; nofun)]
    exact notifyOwned owner
  have asked : Shape made true .asked (connClose c) := by
    rw [closes]
    exact closeTold h (Or.inr rfl)
  have inside : (connClose c).stack = [.closing,.error] := by
    rw [closes]
    exact congrArg _ stack
  have shape := closeTailShape asked (Or.inr rfl)
  simp only [settle,stack,thrsrvConnUpdateCb,inside,Connection.step]
  exact ⟨{ shape with stack := Or.inl rfl },rfl⟩

theorem settleFreeing (h : Shape made erred .freeing c) : Shape made erred .freed (settle c) := by
  have stack : c.stack = [.freeing] := h.stack
  simp only [settle,stack,thrsrvConnUpdateCb,Connection.step]
  exact cleanupTailShape h

/- The two ways out of RUNNING. -/
theorem settleFail (h : Shape made erred .running c) (idle : c.port.writing = false) (owner : c.c.cb.isSome = true) :
    (connFail c).stack = [.error] ∧ Shape made true .waiting (settle (connFail c)) ∧ (settle (connFail c)).stack = [] := by
  have notifies : connFail c = told (c.become .error) .error := notifyOwned owner
  have failed : Shape made erred .failed (connFail c) := by
    rw [notifies]
    exact failTold h idle
  have stack : (connFail c).stack = [.error] := by
    rw [notifies]
    exact congrArg _ h.stack
  have kept : (connFail c).c.cb.isSome = true := by
    rw [notifies]
    exact owner
  exact ⟨stack,settleFailed failed stack kept⟩

theorem settleClose (h : Shape made erred .running c) (owner : c.c.cb.isSome = true) :
    (connClose c).stack = [.closing] ∧ Shape made false .waiting (settle (connClose c)) ∧
      (settle (connClose c)).stack = [] := by
  have notifies : connClose c = told (c.become .closing) .closing := by
    rw [connClose,if_neg (by rw [h.state]; nofun)]
    exact notifyOwned owner
  have asked : Shape made false .asked (connClose c) := by
    rw [notifies]
    exact closeTold h (Or.inl rfl)
  have stack : (connClose c).stack = [.closing] := by
    rw [notifies]
    exact congrArg _ h.stack
  exact ⟨stack,settleAsked asked stack⟩

end Settle

/- A conn of conn_list between two callbacks. -/
structure Fine (c : Connection.State) : Prop where
  shape : ∃ made erred stage, Shape made erred stage c ∧ stage ≠ .freed
  outside : c.stack = []
  owner : c.c.cb.isSome = true

/- It is served on, it is done with, or the process ends for want of a cleanup fde. -/
inductive Called (c : Connection.State) (a : Connection.Act) : Prop where
  | served (alive : (settle (Connection.step c a)).crashed = false) (kept : (Connection.step c a).stack ≠ [.freeing])
      (fine : Fine (settle (Connection.step c a)))
      (closed : (settle (Connection.step c a)).port.closed = (c.port.closed || decide (a = .closed)))
      (once : a = .closed → c.port.closed = false)
  | done (alive : (settle (Connection.step c a)).crashed = false) (freed : (Connection.step c a).stack = [.freeing])
      (closed : c.port.closed = true)
  | ended (crashed : (settle (Connection.step c a)).crashed = true)

section Called
variable {made erred : Bool} {stage : Stage} {c : Connection.State} {a : Connection.Act}

theorem servedCalled (stage : Stage) (fine : Fine c) (shape : Shape made erred stage (settle (Connection.step c a)))
    (outside : (settle (Connection.step c a)).stack = []) (kept : (Connection.step c a).stack ≠ [.freeing])
    (alive : stage ≠ .freed) (closed : stage.done = (c.port.closed || decide (a = .closed)))
    (once : a = .closed → c.port.closed = false) : Called c a := by
  have owner : (settle (Connection.step c a)).c.cb.isSome = true := by
    rw [settleCb,stepCb]
    exact fine.owner
  exact .served shape.crashed kept ⟨⟨made,erred,stage,shape,alive⟩,outside,owner⟩ (shape.closed.trans closed) once

/- Without a notification there is nothing to settle. -/
theorem quietCalled (stage : Stage) (fine : Fine c) (shape : Shape made erred stage (Connection.step c a))
    (outside : (Connection.step c a).stack = []) (alive : stage ≠ .freed)
    (closed : stage.done = (c.port.closed || decide (a = .closed))) (once : a = .closed → c.port.closed = false) :
    Called c a := by
  have settled := settleIdle outside
  have kept : (Connection.step c a).stack ≠ [.freeing] := by
    rw [outside]
    nofun
  have served : Shape made erred stage (settle (Connection.step c a)) := by rw [settled]; exact shape
  have idle : (settle (Connection.step c a)).stack = [] := by rw [settled]; exact outside
  exact servedCalled stage fine served idle kept alive closed once

theorem wroteCalled {status nwritten} (fine : Fine c) (h : Shape made erred stage c) (writing : c.port.writing = true) :
    Called c (.wrote status nwritten) := by
  have busy : stage.done = false := Bool.eq_false_iff.mpr fun done => never ((h.idle (Or.inr done)).symm.trans writing)
  have closed : false = (c.port.closed || decide (Act.wrote status nwritten = .closed)) := by
    rw [h.closed,busy]
    rfl
  have alive : stage ≠ .freed := by
    rintro rfl
    exact never busy.symm
  have answered : Shape made erred stage { c.enter .write with port := portStep c.port (.wrote status nwritten) } :=
    answeredShape h writing
  have left {s'} (called : Connection.step c (.wrote status nwritten) = s') {note} (stack : s'.stack = [note])
      (other : note ≠ .freeing) : (Connection.step c (.wrote status nwritten)).stack ≠ [.freeing] := by
    rw [called,stack]
    exact fun same => other (List.head_eq_of_cons_eq same)
  rcases writeCbCases answered status nwritten with same | ⟨s',running,port,cb,fails | closes | writes⟩
  · have called : Connection.step c (.wrote status nwritten) =
        { c.enter .write with port := portStep c.port (.wrote status nwritten) } := same
    exact quietCalled stage fine (called ▸ answered) (called ▸ fine.outside) alive (busy.trans closed) nofun
  · have called : Connection.step c (.wrote status nwritten) = connFail s' := fails
    have idle : s'.port.writing = false := by rw [port]; rfl
    have owner : s'.c.cb.isSome = true := by rw [cb]; exact fine.owner
    obtain ⟨stack,shape,outside⟩ := settleFail running idle owner
    exact servedCalled .waiting fine (called ▸ shape) (called ▸ outside) (left called stack nofun) nofun closed nofun
  · have called : Connection.step c (.wrote status nwritten) = connClose s' := closes
    have owner : s'.c.cb.isSome = true := by rw [cb]; exact fine.owner
    obtain ⟨stack,shape,outside⟩ := settleClose running owner
    exact servedCalled .waiting fine (called ▸ shape) (called ▸ outside) (left called stack nofun) nofun closed nofun
  · have called : Connection.step c (.wrote status nwritten) = commWrite s' := writes
    have stack : (commWrite s').stack = [] := running.stack
    exact quietCalled .running fine (called ▸ commWriteShape running) (called ▸ stack) nofun closed nofun

theorem closedCalled (fine : Fine c) (h : Shape made erred stage c) (allowed : PortAllowed c.port .closed) :
    Called c .closed := by
  have stack : (Connection.step c .closed).stack = [] := fine.outside
  cases made with
  | true =>
    exact quietCalled .closed fine (closedShape h allowed fine.outside rfl) stack nofun (by simp [Stage.done])
      (fun _ => allowed.2.2)
  | false =>
    obtain rfl := closedWaiting h allowed
    have missing : c.evCleanup = none := h.evCleanup
    refine .ended ?_
    rw [settleIdle stack]
    simp [Connection.step,clientEvCloseCb,State.enter,missing]

theorem cleanupCalled (fine : Fine c) (h : Shape made erred stage c) (armed : c.evCleanup = some true) :
    Called c .cleanup := by
  obtain ⟨rfl,notifies⟩ := cleanupCases h armed
  have told := notifies.trans (notifyOwned fine.owner)
  have freeing : Shape made erred .freeing (Connection.step c .cleanup) := by
    rw [told]
    exact cleanupTold h
  exact .done (settleFreeing freeing).crashed freeing.stack h.closed

theorem fineCalled (fine : Fine c) (loop : loops a = true) (allowed : Connection.Allowed c a) : Called c a := by
  obtain ⟨made,erred,stage,shape,_⟩ := fine.shape
  obtain ⟨_,allowed⟩ := allowed
  cases a with
  | wrote status nwritten => exact wroteCalled fine shape allowed.2
  | closed => exact closedCalled fine shape allowed.2
  | cleanup => exact cleanupCalled fine shape allowed.2
  | _ => exact never loop

end Called

end Libiapp.Srv

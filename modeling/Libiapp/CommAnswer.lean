import Libiapp.CommInput

/-! The requests of a comm over whole runs. The fields that a handler reads are those of the
last accepted request (`Desk`), whatever the client calls and whenever it does, so the reports
of a run are the answers to its system calls. -/
namespace Libiapp.Comm
open CommStatus hiding none
open Runs

theorem closeTurn (s : State) : Turn s (commClose s) none := by
  have reading (s : State) : Turn s (closeReading s) none := by
    unfold closeReading
    repeat' split
    all_goals exact { silent s with }
  have writing (s : State) : Turn s (closeWriting s) none := by
    unfold closeWriting
    repeat' split
    all_goals exact { silent s with }
  have asked : Turn s { s with c.isClosing := true } none := { silent s with active := fun k on => by cases k <;> exact on }
  have stopped := (asked.then (reading _)).then (writing _)
  unfold commClose
  dsimp only
  repeat' split
  · exact silent s
  · exact stopped
  · exact stopped.then (startCleanupTurn _)

theorem notedTurn (s : State) {call : Call} {ret : Int} (unfiled : ∀ k, acceptedCall k (.called call ret) = none) :
    Turn s { s with log := .called call ret::s.log } none :=
  { silent s with
    back := rfl
    calls := fun k => by rw [latest,List.findSome?_cons,unfiled]; rfl }

theorem refusedTurn (s : State) (call : Call) : Turn s { s with log := .called call (-1)::s.log } none :=
  notedTurn s fun k => by simp [acceptedCall]

/- An accepted request takes the place of the last one of its kind. -/
structure Granted (s s' : State) (k : Kind) (call : Call) : Prop where
  request : s'.c.request = Function.update s.c.request k call
  active : s'.c.active = Function.update s.c.active k true
  ctl : s'.ctl = s.ctl
  connect : s'.armed .connect = s.armed .connect
  log : s'.log = s.log ∨ s'.log = .readRegistered::s.log

theorem Granted.desk {s s' k call ret} (granted : Granted s s' k call) (desk : Desk s) (kind : call.kind = some k)
    (accepted : ret ≠ -1) : Desk { s' with log := .called call ret::s'.log } ∧
      reports { s' with log := .called call ret::s'.log } = reports s := by
  have calls (j) : latest j s'.log = latest j s.log := by
    rcases granted.log with same | same
    · rw [same]
    · rw [same]
      rfl
  have filed {j} (before : Filed s j ∨ j = k) : Filed { s' with log := .called call ret::s'.log } j := by
    rw [Filed,latest,List.findSome?_cons,acceptedCall,kind,granted.request]
    by_cases own : k = j
    · subst own
      rw [if_pos ⟨accepted,rfl⟩,Function.update_self]
    · have old : Filed s j := before.resolve_right (Ne.symm own)
      rw [if_neg fun both => own (Option.some.inj both.2),Function.update_of_ne (Ne.symm own)]
      exact (calls j).trans old
  refine ⟨{ active := fun j on => filed ?_, accept := fun looping => filed ?_, connect := fun queued => filed ?_ },?_⟩
  · rw [granted.active,Function.update_apply] at on
    split at on
    · exact Or.inr ‹_›
    · exact Or.inl (desk.active j on)
  · exact Or.inl (desk.accept (granted.ctl.symm.trans looping))
  · exact Or.inl (desk.connect (granted.connect.symm.trans queued))
  · rcases granted.log with same | same <;> simp only [reports,same] <;> rfl

theorem readGranted (s : State) (buf len cb cbdata) (off : s.c.r.isActive = false) :
    Granted s (commRead s buf len cb cbdata).1 .read (.read buf len cb cbdata) ∧ (commRead s buf len cb cbdata).2 ≠ -1 := by
  have filled : Granted s { s with
      c.r.cb := cb, c.r.cbdata := cbdata, c.r.buf := buf, c.r.len := len, c.r.isActive := true } .read
      (.read buf len cb cbdata) :=
    ⟨by funext k; cases k <;> rfl,by funext k; cases k <;> rfl,rfl,rfl,Or.inl rfl⟩
  have begun {s'} (granted : Granted s s' .read (.read buf len cb cbdata)) (same : s'.log = s.log) :
      Granted s (startReading s') .read (.read buf len cb cbdata) :=
    { granted with
      log := by
        simp only [startReading,State.add,same]
        split
        · exact Or.inl rfl
        · exact Or.inr rfl }
  simp only [commRead,off,Bool.false_eq_true,if_false]
  refine ⟨?_,by decide⟩
  repeat' split
  · exact { begun filled rfl with }
  · exact begun filled rfl
  · exact { filled with }
  · exact filled

theorem writeGranted (s : State) (nb start len cb cbdata) (off : s.c.w.isActive = false) :
    Granted s (commWrite s nb start len cb cbdata).1 .write (.write nb start len cb cbdata) ∧
      (commWrite s nb start len cb cbdata).2 ≠ -1 := by
  simp only [commWrite,off,Bool.false_eq_true,if_false]
  refine ⟨?_,by decide⟩
  repeat' split
  all_goals exact ⟨by funext k; cases k <;> rfl,by funext k; cases k <;> rfl,rfl,rfl,Or.inl rfl⟩

theorem clientDesk {s : State} (desk : Desk s) (call : Call) : Desk (client s call) ∧ reports (client s call) = reports s := by
  have quiet {s' : State} {ret : Int} (turn : Turn s s' none) (unfiled : ∀ k, acceptedCall k (.called call ret) = none) :
      Desk { s' with log := .called call ret::s'.log } ∧ reports { s' with log := .called call ret::s'.log } = reports s :=
    have noted := turn.then (notedTurn s' unfiled)
    ⟨noted.desk desk,noted.back⟩
  have refused : Desk { s with log := .called call (-1)::s.log } ∧
      reports { s with log := .called call (-1)::s.log } = reports s :=
    ⟨(refusedTurn s call).desk desk,rfl⟩
  have zero : (0 : Int) ≠ -1 := by decide
  cases call with
  | read buf len cb cbdata =>
    cases off : s.c.r.isActive with
    | true =>
      simp only [client,commCall,commRead,off,if_true]
      exact refused
    | false =>
      have granted := readGranted s buf len cb cbdata off
      exact granted.1.desk desk rfl granted.2
  | write nb start len cb cbdata =>
    cases off : s.c.w.isActive with
    | true =>
      simp only [client,commCall,commWrite,off,if_true]
      exact refused
    | false =>
      have granted := writeGranted s nb start len cb cbdata off
      exact granted.1.desk desk rfl granted.2
  | listen cb cbdata =>
    simp only [client,commCall,commListen]
    split
    · exact refused
    · have granted : Granted s ({ s with c.a.cb := cb, c.a.cbdata := cbdata, c.a.isActive := true }.add .accept) .accept
          (.listen cb cbdata) :=
        ⟨by funext k; cases k <;> rfl,by funext k; cases k <;> rfl,rfl,rfl,Or.inl rfl⟩
      exact granted.desk desk rfl zero
  | connect sin slen cb cbdata =>
    simp only [client,commCall,commConnect]
    repeat' split
    · exact refused
    · exact refused
    · have granted : Granted s ({ s with
          c.co.cb := cb, c.co.cbdata := cbdata, c.co.sin := sin, c.co.slen := slen, c.co.isActive := true }.add .connectStart)
          .connect (.connect sin slen cb cbdata) :=
        ⟨by funext k; cases k <;> rfl,by funext k; cases k <;> rfl,rfl,rfl,Or.inl rfl⟩
      exact granted.desk desk rfl zero
  | udpRead cb cbdata maxlen =>
    simp only [client,commCall,commUdpRead]
    split
    · exact refused
    · have granted : Granted s ({ s with
          c.udpR.cb := cb, c.udpR.cbdata := cbdata, c.udpR.isActive := true, c.udpR.maxlen := maxlen }.add .udpRead)
          .udpRead (.udpRead cb cbdata maxlen) :=
        ⟨by funext k; cases k <;> rfl,by funext k; cases k <;> rfl,rfl,rfl,Or.inl rfl⟩
      exact granted.desk desk rfl zero
  | udpWriteSetup cb cbdata qlen =>
    simp only [client,commCall,commUdpWriteSetup]
    split
    · exact refused
    · have granted : Granted s { s with
          c.udpW.cb := cb, c.udpW.cbdata := cbdata, c.udpW.isActive := true, c.udpW.isPrimed := false
          c.udpW.maxQlen := qlen, c.udpW.qlen := 0 } .udpWrite (.udpWriteSetup cb cbdata qlen) :=
        ⟨by funext k; cases k <;> rfl,by funext k; cases k <;> rfl,rfl,rfl,Or.inl rfl⟩
      exact granted.desk desk rfl zero
  | udpWrite fr =>
    have unfiled (ret) (k) : acceptedCall k (.called (.udpWrite fr) ret) = none := by simp [acceptedCall,Call.kind]
    simp only [client,commCall,commUdpWrite]
    repeat' split
    · exact refused
    · exact refused
    · exact quiet { silent s with active := fun k on => by cases k <;> exact on } (unfiled 0)
    · exact quiet { silent s with active := fun k on => by cases k <;> exact on } (unfiled 0)
  | close => exact quiet (closeTurn s) fun k => by simp [acceptedCall,Call.kind]
  | markNonclose =>
    exact quiet { silent s with active := fun k on => by cases k <;> exact on } fun k => by simp [acceptedCall,Call.kind]

theorem stepReports {s a} (desk : Desk s) (allowed : Allowed s a) :
    Desk (step s a) ∧ reports (step s a) = (answerOf s a).toList ++ reports s := by
  cases a with
  | client call => exact clientDesk desk call
  | fire e sys =>
    have entered := firedTurn s e
    have queued (own : e = .connect) : Filed (fired s e) .connect :=
      entered.filed (desk.connect (own ▸ allowed.2))
    have handled := @handleTurn (fired s e) sys e (entered.desk desk) queued
    have turn := entered.then handled
    exact ⟨turn.desk desk,turn.back⟩
  | resume sys =>
    have entered : Turn s { s with ctl := .idle } none := { silent s with accept := fun h => by simp at h }
    have resumed := @goOnTurn { s with ctl := .idle } sys s.ctl (entered.desk desk) desk.accept
    have turn := entered.then resumed
    exact ⟨turn.desk desk,turn.back⟩

theorem createdDesk (fd cb cbdata) : Desk (commCreate fd cb cbdata) where
  active k on := by cases k <;> exact never on
  accept looping := by simp [commCreate] at looping
  connect := never

theorem runReports {s acts} (desk : Desk s) (possible : Possible commMachine s acts) :
    reports (run commMachine s acts) = (answers s acts).reverse ++ reports s := by
  induction acts generalizing s with
  | nil => rfl
  | cons a rest ih =>
    obtain ⟨next,told⟩ := stepReports desk possible.1
    have later := ih next possible.2
    rw [answers,List.reverse_append,List.append_assoc]
    show reports (run commMachine (step s a) rest) = _
    rw [later,told]
    cases answerOf s a <;> rfl

/- The reports of a comm are the answers to its system calls, each once and in their order. -/
theorem inputsReported {fd cb cbdata acts} (possible : Possible commMachine (commCreate fd cb cbdata) acts) :
    (reports (run commMachine (commCreate fd cb cbdata) acts)).reverse = answers (commCreate fd cb cbdata) acts := by
  rw [runReports (createdDesk fd cb cbdata) possible,show reports (commCreate fd cb cbdata) = [] from rfl,
    List.append_nil,List.reverse_reverse]

/- A connect that takes a while, a read that comes too early and one that gets its bytes, and
a listener that takes two descriptors. -/
def inputRun : List Act :=
  [.client (.connect 9 16 1 5),.fire .connectStart ⟨-1,eInprogress,0,none⟩,.fire .connect ⟨0,0,eInprogress,none⟩,
    .fire .connect ⟨0,0,0,none⟩,.client (.read 40 64 2 6),.resume quiet,.fire .read quiet,
    .fire .readCb ⟨-1,eAgain,0,none⟩,.fire .read quiet,.fire .readCb ⟨12,0,0,none⟩,.resume quiet,.client (.listen 3 7),
    .fire .accept ⟨21,0,0,none⟩,.resume ⟨22,0,0,none⟩,.resume ⟨-1,eAgain,0,none⟩]

theorem inputsReportedRun :
    (reports (run commMachine (commCreate 8 none 0) inputRun)).reverse =
      [.connect 1 8 5 completed 0,.read 2 (-1) 6 completed 12,.accept 3 8 7 completed 21 0,
        .accept 3 8 7 completed 22 0] := by
  have told := inputsReported (show Possible commMachine (commCreate 8 none 0) inputRun by decide)
  exact told.trans (by decide)

end Libiapp.Comm

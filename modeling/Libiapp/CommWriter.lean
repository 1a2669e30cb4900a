import Libiapp.CommIo
import Libiapp.CommFrame

/-! The stream writer of a comm. Whatever the client does and whenever it closes, a step
of the comm does one of six things to the write that is under way. -/
namespace Libiapp.Comm
open Runs

structure Job where
  nb : Nat
  start : Int
  len : Int
  offset : Int
  deriving DecidableEq, Repr

def WriteState.job (w : WriteState) : Option Job :=
  if w.isActive then some ⟨w.nb,w.nbStartOffset,w.len,w.offset⟩ else none

def Job.call (j : Job) (fd : Int) : Syscall := .write fd j.nb (j.start + j.offset) (j.len - j.offset)

def Act.ret : Act → Int
  | .client _ => 0
  | .fire _ sys | .resume sys => sys.ret

/- The write that an accepted comm_write posts. -/
def posting (s : State) : Act → Option Job
  | .client (.write nb start len cb cbdata) =>
    if (commWrite s nb start len cb cbdata).2 = -1 then none else some ⟨nb,start,len,0⟩
  | _ => none

def isWriteCall : Syscall → Bool
  | .write .. => true
  | _ => false

def writes (s : State) (a : Act) : Bool := (systemCall s a).any isWriteCall

def backs (s : State) : List (CommStatus × Int) := s.log.filterMap writeBack

inductive Progress (s : State) (a : Act) (s' : State) : Prop where
  | kept (same : s'.c.w.job = s.c.w.job) (back : backs s' = backs s) (silent : writes s a = false)
      (none : posting s a = none)
  | started {j} (posted : posting s a = some j) (fresh : j.offset = 0) (idle : s.c.w.job = none)
      (after : s'.c.w.job = some j) (back : backs s' = backs s) (silent : writes s a = false)
  | wrote {j} (before : s.c.w.job = some j) (opened : s.c.isClosing = false)
      (call : systemCall s a = some (j.call s.c.fd)) (positive : 0 < a.ret)
      (after : s'.c.w.job = some { j with offset := j.offset + a.ret }) (back : backs s' = backs s)
      (none : posting s a = none)
  | waited {j} (before : s.c.w.job = some j) (opened : s.c.isClosing = false)
      (call : systemCall s a = some (j.call s.c.fd)) (nothing : a.ret ≤ 0)
      (same : s'.c.w.job = s.c.w.job) (back : backs s' = backs s) (none : posting s a = none)
  | finished {j st} (before : s.c.w.job = some j) (opened : s.c.isClosing = false)
      (call : systemCall s a = some (j.call s.c.fd)) (nothing : a.ret ≤ 0)
      (status : st = if a.ret < 0 then .error else .eof) (late : 0 ≤ a.ret → j.len ≤ j.offset)
      (after : s'.c.w.job = none) (back : backs s' = (st,j.offset)::backs s) (none : posting s a = none)
  | closed {j} (before : s.c.w.job = some j) (closing : s.c.isClosing = true) (after : s'.c.w.job = none)
      (back : backs s' = (.closing,j.offset)::backs s) (silent : writes s a = false) (none : posting s a = none)

/- comm_cb_write_cb is queued only while a write is under way, and its closing branch
does not fall through to write(). -/
structure Fit (s : State) : Prop where
  queued : s.armed .writeCb = true → s.c.w.isActive = true
  inside : s.ctl = .writeClosing → s.c.w.isReady = false

theorem elsewhere {s : State} {p : Prop} (ctl : Ctl) (here : s.ctl = ctl) (other : ctl ≠ .writeClosing) :
    s.ctl = .writeClosing → p :=
  fun inside => absurd (here.symm.trans inside) other

theorem jobOff {w : WriteState} (off : w.isActive = false) : w.job = none := by rw [WriteState.job,off]; rfl

theorem jobOn {w : WriteState} (on : w.isActive = true) : w.job = some ⟨w.nb,w.nbStartOffset,w.len,w.offset⟩ := by
  rw [WriteState.job,on]
  rfl

theorem jobNone {w : WriteState} (job : w.job = none) : w.isActive = false := by
  cases active : w.isActive with
  | false => rfl
  | true => exact nomatch job.symm.trans (jobOn active)

theorem jobActive {w : WriteState} {j} (job : w.job = some j) : w.isActive = true := by
  cases active : w.isActive with
  | true => rfl
  | false => exact nomatch (jobOff active).symm.trans job

/- A step that leaves the writer alone. -/
theorem windsProgress {s s' : State} {a} (w : Winds false s s') (silent : writes s a = false) (none : posting s a = none) :
    Progress s a s' :=
  .kept (by rw [w.w rfl]) (w.back rfl) silent none

theorem windsFit {s s' : State} (w : Winds false s s') (fit : Fit s) : Fit s' where
  queued on := by
    rw [w.writeCb rfl] at on
    rw [w.w rfl]
    exact fit.queued on
  inside inside := by
    rw [w.w rfl]
    exact fit.inside (w.inWrite rfl inside)

theorem writeProgress {s : State} (nb start len cb cbdata) (fit : Fit s) :
    Progress s (.client (.write nb start len cb cbdata)) (client s (.write nb start len cb cbdata)) ∧
      Fit (client s (.write nb start len cb cbdata)) := by
  cases active : s.c.w.isActive with
  | true =>
    have refused : commWrite s nb start len cb cbdata = (s,-1) := if_pos active
    have none : posting s (.client (.write nb start len cb cbdata)) = none := by simp [posting,refused]
    simp only [client,commCall,refused]
    exact ⟨.kept rfl rfl rfl none,{ fit with }⟩
  | false =>
    have posted : posting s (.client (.write nb start len cb cbdata)) = some ⟨nb,start,len,0⟩ := by
      simp [posting,commWrite,active]
    have off : ¬ s.c.w.isActive = true := by simp [active]
    simp only [client,commCall,commWrite]
    rw [if_neg off]
    dsimp only
    repeat' split
    all_goals exact ⟨.started posted rfl (jobOff active) rfl rfl rfl,⟨fun _ => rfl,fit.inside⟩⟩

/- comm_close queues comm_cb_write_cb for an active write and changes nothing else of it. -/
theorem closeWriter {s : State} (fit : Fit s) :
    (commClose s).c.w.job = s.c.w.job ∧ backs (commClose s) = backs s ∧ Fit (commClose s) := by
  have writing (s' : State) (fit : Fit s') : (closeWriting s').c.w.job = s'.c.w.job ∧ backs (closeWriting s') = backs s' ∧
      Fit (closeWriting s') := by
    unfold closeWriting
    split
    · rename_i on
      exact ⟨rfl,rfl,{ fit with queued := fun _ => on }⟩
    · split <;> exact ⟨rfl,rfl,{ fit with }⟩
  unfold commClose
  split
  · exact ⟨rfl,rfl,fit⟩
  · have asked : Fit { s with c.isClosing := true } := { fit with }
    have first := closeReadingWinds false { s with c.isClosing := true }
    obtain ⟨job,back,stopped⟩ := writing _ (windsFit first asked)
    rw [first.w rfl] at job
    have same := back.trans (first.back rfl)
    dsimp only
    split
    · exact ⟨job,same,stopped⟩
    · have last := startCleanupWinds false (closeWriting (closeReading { s with c.isClosing := true }))
      exact ⟨by rw [last.w rfl]; exact job,(last.back rfl).trans same,windsFit last stopped⟩

theorem closeProgress {s : State} (fit : Fit s) : Progress s (.client .close) (client s .close) ∧ Fit (client s .close) := by
  obtain ⟨job,back,after⟩ := closeWriter fit
  exact ⟨.kept job back rfl rfl,{ after with }⟩

theorem otherCallWinds (s : State) {call : Call} (other : call.kind ≠ some .write) (opens : call ≠ .close) :
    (client s call).c.w = s.c.w ∧ (client s call).armed .writeCb = s.armed .writeCb ∧
      backs (client s call) = backs s ∧ (client s call).ctl = s.ctl := by
  cases call with
  | read buf len cb cbdata =>
    simp only [client,commCall,commRead,startReading]
    repeat' split
    all_goals exact ⟨rfl,rfl,rfl,rfl⟩
  | write => exact absurd rfl other
  | listen cb cbdata =>
    simp only [client,commCall,commListen]
    split <;> exact ⟨rfl,rfl,rfl,rfl⟩
  | connect sin slen cb cbdata =>
    simp only [client,commCall,commConnect]
    split
    · exact ⟨rfl,rfl,rfl,rfl⟩
    · split <;> exact ⟨rfl,rfl,rfl,rfl⟩
  | udpRead cb cbdata maxlen =>
    simp only [client,commCall,commUdpRead]
    split <;> exact ⟨rfl,rfl,rfl,rfl⟩
  | udpWriteSetup cb cbdata qlen =>
    simp only [client,commCall,commUdpWriteSetup]
    split <;> exact ⟨rfl,rfl,rfl,rfl⟩
  | udpWrite fr =>
    simp only [client,commCall,commUdpWrite]
    split
    · exact ⟨rfl,rfl,rfl,rfl⟩
    · split
      · exact ⟨rfl,rfl,rfl,rfl⟩
      · split <;> exact ⟨rfl,rfl,rfl,rfl⟩
  | close => exact absurd rfl opens
  | markNonclose => exact ⟨rfl,rfl,rfl,rfl⟩

theorem otherCallProgress {s : State} {call : Call} (other : call.kind ≠ some .write) (opens : call ≠ .close)
    (none : posting s (.client call) = none) (fit : Fit s) :
    Progress s (.client call) (client s call) ∧ Fit (client s call) := by
  obtain ⟨w,armed,back,ctl⟩ := otherCallWinds s other opens
  refine ⟨.kept (by rw [w]) back rfl none,⟨fun on => ?_,fun inside => ?_⟩⟩
  · rw [armed] at on
    rw [w]
    exact fit.queued on
  · rw [ctl] at inside
    rw [w]
    exact fit.inside inside

theorem callProgress {s : State} (call : Call) (fit : Fit s) :
    Progress s (.client call) (client s call) ∧ Fit (client s call) := by
  cases call with
  | write nb start len cb cbdata => exact writeProgress nb start len cb cbdata fit
  | close => exact closeProgress fit
  | _ => exact otherCallProgress nofun nofun rfl fit

/- The write() of comm_cb_write_cb. -/
theorem writeIoProgress {s s₀ : State} {a : Act} {sys} (on : s.c.w.isActive = true) (ready : s.c.w.isReady = true)
    (opened : s₀.c.isClosing = false)
    (outside : s.ctl ≠ .writeClosing) (unqueued : s.armed .writeCb = false)
    (same : s.c = s₀.c) (back : backs s = backs s₀) (ret : a.ret = sys.ret) (none : posting s₀ a = none)
    (call : systemCall s₀ a = writeCall s) :
    Progress s₀ a (commCbWriteIo s sys) ∧ Fit (commCbWriteIo s sys) := by
  have before : s₀.c.w.job = some ⟨s.c.w.nb,s.c.w.nbStartOffset,s.c.w.len,s.c.w.offset⟩ := by rw [← same]; exact jobOn on
  have made : systemCall s₀ a = some (Job.call ⟨s.c.w.nb,s.c.w.nbStartOffset,s.c.w.len,s.c.w.offset⟩ s₀.c.fd) := by
    rw [call,← same]
    exact if_neg (by simp [on,ready])
  have unchanged : s.c.w.job = s₀.c.w.job := by rw [same]
  have idle {armed : Bool} {p : Prop} (off : armed = false) (queued : armed = true) : p := never (off.symm.trans queued)
  have still : Fit s := ⟨idle unqueued,fun inside => absurd inside outside⟩
  unfold commCbWriteIo
  rw [if_neg (by simp [on,ready])]
  split
  · rename_i again
    exact ⟨.waited before opened made (by omega) unchanged back none,still⟩
  · rename_i settled
    dsimp only
    split
    · rename_i nothing
      rw [if_neg (by omega)]
      unfold commCbWriteComplete
      split
      · exact ⟨.waited before opened made (by omega) unchanged back none,still⟩
      · rename_i done
        have status : (if sys.ret < 0 then CommStatus.error else if sys.ret = 0 then .eof else .completed) =
            if a.ret < 0 then .error else .eof := by
          rw [ret]
          split
          · rfl
          · rw [if_pos (by omega)]
        refine ⟨.finished before opened made (by omega) status (by dsimp only; omega) (jobOff rfl) ?_ none,⟨idle unqueued,nofun⟩⟩
        rw [← back]
        rfl
    · rename_i some
      rw [if_pos (by omega)]
      refine ⟨.wrote before opened made (by omega) ?_ back none,⟨idle unqueued,fun inside => absurd inside outside⟩⟩
      rw [ret]
      exact jobOn on

theorem writeFiredProgress {s : State} (sys) (fit : Fit s) (idle : s.ctl = .idle) :
    Progress s (.fire .write sys) (step s (.fire .write sys)) ∧ Fit (step s (.fire .write sys)) := by
  have outside : s.ctl ≠ .writeClosing := by rw [idle]; nofun
  simp only [step,handle,commCbWrite]
  split
  · exact ⟨.kept rfl rfl rfl rfl,⟨fit.queued,fun inside => absurd inside outside⟩⟩
  · rename_i active
    have on : s.c.w.isActive = true := by simpa [fired] using active
    exact ⟨.kept rfl rfl rfl rfl,⟨fun _ => on,fun inside => absurd inside outside⟩⟩

theorem writeCbFiredProgress {s : State} (sys) (fit : Fit s) (idle : s.ctl = .idle) (queued : s.armed .writeCb = true) :
    Progress s (.fire .writeCb sys) (step s (.fire .writeCb sys)) ∧ Fit (step s (.fire .writeCb sys)) := by
  have on := fit.queued queued
  have outside : s.ctl ≠ .writeClosing := by rw [idle]; nofun
  have call : systemCall s (.fire .writeCb sys) = unlessClosing s (writeCall s) := rfl
  simp only [step,handle,commCbWriteCb]
  split
  · rename_i closing
    have silent : writes s (.fire .writeCb sys) = false := by
      rw [writes,call,show unlessClosing s (writeCall s) = none from if_pos closing]
      rfl
    exact ⟨.closed (jobOn on) closing (jobOff rfl) rfl silent rfl,⟨never,fun _ => rfl⟩⟩
  · rename_i opened
    have open_ : unlessClosing s (writeCall s) = writeCall s := if_neg opened
    cases ready : s.c.w.isReady with
    | true => exact writeIoProgress on ready (by simpa [fired] using opened) outside rfl rfl rfl rfl rfl (call.trans open_)
    | false =>
      have silent : writes s (.fire .writeCb sys) = false := by
        rw [writes,call,open_,writeCall,if_pos (by simp [ready])]
        rfl
      have unready : (!(fired s .writeCb).c.w.isActive || !(fired s .writeCb).c.w.isReady) = true := by
        simp [fired,ready]
      rw [commCbWriteIo,if_pos unready]
      exact ⟨.kept rfl rfl silent rfl,⟨never,elsewhere .idle idle (by decide)⟩⟩

section NoWrite
variable {s : State} {sys : Sys}

theorem readNoWrite : (readCall s).any isWriteCall = false := by unfold readCall; split <;> rfl

theorem acceptNoWrite : (acceptCall s).any isWriteCall = false := by unfold acceptCall; split <;> rfl

theorem connectNoWrite : (connectCall s).any isWriteCall = false := by unfold connectCall; split <;> rfl

theorem udpReadNoWrite : (udpReadCall s sys).any isWriteCall = false := by
  unfold udpReadCall
  split
  · rfl
  · cases sys.frame <;> rfl

theorem sendNoWrite : (sendCall s).any isWriteCall = false := by
  unfold sendCall
  cases s.c.udpW.wQ <;> rfl

theorem unlessNoWrite {p : Prop} [Decidable p] {call : Option Syscall} (quiet : call.any isWriteCall = false) :
    (if p then none else call).any isWriteCall = false := by
  split
  · rfl
  · exact quiet

theorem fireSilent {e : CommFde} (other : e.writes = false) : writes s (.fire e sys) = false := by
  cases e with
  | read => rfl
  | readCb => exact unlessNoWrite readNoWrite
  | write => exact never other.symm
  | writeCb => exact never other.symm
  | accept => exact unlessNoWrite acceptNoWrite
  | connect => rfl
  | connectStart => exact unlessNoWrite connectNoWrite
  | cleanup => rfl
  | udpRead => exact unlessNoWrite udpReadNoWrite
  | udpWrite => exact unlessNoWrite (unlessNoWrite sendNoWrite)

theorem goOnSilent {ctl : Ctl} (other : ctl ≠ .writeClosing) : (goOnCall s sys ctl).any isWriteCall = false := by
  cases ctl with
  | readClosing => exact unlessNoWrite readNoWrite
  | writeClosing => exact absurd rfl other
  | acceptClosing => exact unlessNoWrite acceptNoWrite
  | startClosing => exact unlessNoWrite connectNoWrite
  | udpReadClosing => exact unlessNoWrite udpReadNoWrite
  | udpSend => exact sendNoWrite
  | _ => rfl

end NoWrite

theorem fireProgress {s : State} {e : CommFde} (sys) (fit : Fit s) (allowed : Allowed s (.fire e sys)) :
    Progress s (.fire e sys) (step s (.fire e sys)) ∧ Fit (step s (.fire e sys)) := by
  obtain ⟨idle,queued⟩ := allowed
  have others (other : e.writes = false) (cleans : e ≠ .cleanup) :
      Progress s (.fire e sys) (step s (.fire e sys)) ∧ Fit (step s (.fire e sys)) := by
    have entered : Winds false s (fired s e) := by
      have fires := firedWinds s e
      cases e with
      | writeCb => exact never other.symm
      | _ => exact fires
    have handled := handleWinds (fired s e) sys cleans
    rw [other] at handled
    have w := entered.trans handled
    exact ⟨windsProgress w (fireSilent other) rfl,windsFit w fit⟩
  cases e with
  | write => exact writeFiredProgress sys fit idle
  | writeCb => exact writeCbFiredProgress sys fit idle queued
  | cleanup =>
    simp only [step,handle,commCbCleanup]
    split
    · unfold commCbCleanupFree
      split <;> exact ⟨.kept rfl rfl rfl rfl,⟨never,elsewhere .idle idle (by decide)⟩⟩
    · exact ⟨.kept rfl rfl rfl rfl,⟨fit.queued,elsewhere .cleanup rfl (by decide)⟩⟩
  | _ => exact others rfl (by decide)

theorem resumeProgress {s : State} (sys) (fit : Fit s) :
    Progress s (.resume sys) (step s (.resume sys)) ∧ Fit (step s (.resume sys)) := by
  have returned : Winds false s { s with ctl := .idle } := { winds false s with inCleanup := never, inWrite := fun _ => elsewhere .idle rfl (by decide) }
  by_cases inside : s.ctl = .writeClosing
  · have unready := fit.inside inside
    have silent : writes s (.resume sys) = false := by
      have off : writeCall s = none := if_pos (by simp [unready])
      simp only [writes,systemCall,inside,goOnCall,unlessReady,off]
      split <;> rfl
    have off : (!{ s with ctl := .idle }.c.w.isActive || !{ s with ctl := .idle }.c.w.isReady) = true := by
      simp [unready]
    simp only [step,inside,goOn,commCbWriteClosed]
    rw [commCbWriteIo,if_pos off]
    have w := checkWinds returned returned
    exact ⟨windsProgress w silent rfl,windsFit w fit⟩
  · by_cases cleans : s.ctl = .cleanup
    · have silent : writes s (.resume sys) = false := by simp only [writes,systemCall,cleans,goOnCall,Option.any_none]
      simp only [step,cleans,goOn]
      unfold commCbCleanupFree
      split <;> exact ⟨.kept rfl rfl silent rfl,⟨never,elsewhere .idle rfl (by decide)⟩⟩
    · have goes := goOnWinds { s with ctl := .idle } sys cleans
      rw [decide_eq_false inside] at goes
      have w := returned.trans goes
      exact ⟨windsProgress w (goOnSilent inside) rfl,windsFit w fit⟩

theorem stepProgress {s a} (fit : Fit s) (allowed : Allowed s a) : Progress s a (step s a) ∧ Fit (step s a) := by
  cases a with
  | client call => exact callProgress call fit
  | fire e sys => exact fireProgress sys fit allowed
  | resume sys => exact resumeProgress sys fit

/- write() is called for the rest of the write under way. -/
theorem writesJob {s a fd nb offset count} (fit : Fit s) (allowed : Allowed s a)
    (asked : systemCall s a = some (.write fd nb offset count)) :
    ∃ j, s.c.w.job = some j ∧ j.call s.c.fd = .write fd nb offset count := by
  have made : writes s a = true := by rw [writes,asked]; rfl
  cases (stepProgress fit allowed).1 with
  | kept _ _ silent => exact never (silent.symm.trans made)
  | started _ _ _ _ _ silent => exact never (silent.symm.trans made)
  | wrote before _ call => exact ⟨_,before,Option.some.inj (call.symm.trans asked)⟩
  | waited before _ call => exact ⟨_,before,Option.some.inj (call.symm.trans asked)⟩
  | finished before _ call => exact ⟨_,before,Option.some.inj (call.symm.trans asked)⟩
  | closed _ _ _ _ silent => exact never (silent.symm.trans made)

theorem Progress.uncompleted {s a s'} (progress : Progress s a s') (before : ∀ told ∈ backs s, told.1 ≠ .completed) :
    ∀ told ∈ backs s', told.1 ≠ .completed := by
  cases progress with
  | kept _ back => exact back ▸ before
  | started _ _ _ _ back => exact back ▸ before
  | wrote _ _ _ _ _ back => exact back ▸ before
  | waited _ _ _ _ _ back => exact back ▸ before
  | finished _ _ _ _ status _ _ back =>
    rw [back,status]
    refine List.forall_mem_cons.mpr ⟨?_,before⟩
    split <;> nofun
  | closed _ _ _ back =>
    rw [back]
    exact List.forall_mem_cons.mpr ⟨nofun,before⟩

theorem reachFit {s} (h : Reach commMachine s) : Fit s := by
  refine reachInvariant (m := commMachine) ?_ (fun _ _ fit possible => (stepProgress fit possible).2) h
  rintro s ⟨fd,cb,cbdata,rfl⟩
  exact ⟨never,nofun⟩

/- No write callback is ever told FDE_COMM_CB_COMPLETED. -/
theorem neverCompleted {s} (h : Reach commMachine s) (cb : Nat) (fd : Int) (cbdata : Nat) (nwritten : Int) :
    .invoked (.write cb fd cbdata .completed nwritten) ∉ s.log := by
  have told : ∀ told ∈ backs s, told.1 ≠ .completed := by
    induction h with
    | start created =>
      obtain ⟨_,_,_,rfl⟩ := created
      exact nofun
    | next before allowed ih => exact (stepProgress (reachFit before) allowed).1.uncompleted ih
  exact fun mem => told _ (List.mem_filterMap.mpr ⟨_,mem,rfl⟩) rfl

end Libiapp.Comm

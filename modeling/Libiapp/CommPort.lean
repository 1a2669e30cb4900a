import Libiapp.CommLate
import Libiapp.CommSilence
import Libiapp.CommWriter

/-! A comm as the client of its stream writer sees it: at most one write is under way, it
is answered by one callback, and the close callback comes behind a comm_close, once, when
no write is under way. Every disciplined run of the comm machine is a run of this one. -/
namespace Libiapp.Comm
open Runs Lifecycle

structure Port where
  writing : Bool
  closing : Bool
  closed : Bool
  deriving DecidableEq, Repr

inductive PortAct where
  | write
  | close
  | wrote (status : CommStatus) (nwritten : Int)
  | closed
  deriving DecidableEq, Repr

def portStep (p : Port) : PortAct → Port
  | .write => { p with writing := true }
  | .close => { p with closing := true }
  | .wrote _ _ => { p with writing := false }
  | .closed => { p with closed := true }

/- The first two are what a client owes, the others what it may rely on. -/
def PortAllowed (p : Port) : PortAct → Prop
  | .write => p.closing = false
  | .close => p.closed = false
  | .wrote _ _ => p.writing = true
  | .closed => p.closing = true ∧ p.writing = false ∧ p.closed = false

instance (p : Port) : (a : PortAct) → Decidable (PortAllowed p a)
  | .write => inferInstanceAs (Decidable (p.closing = false))
  | .close => inferInstanceAs (Decidable (p.closed = false))
  | .wrote _ _ => inferInstanceAs (Decidable (p.writing = true))
  | .closed => inferInstanceAs (Decidable (p.closing = true ∧ p.writing = false ∧ p.closed = false))

def portMachine : Machine Port PortAct := ⟨fun p => p = ⟨false,false,false⟩,PortAllowed,portStep⟩

def PortAct.told : PortAct → Option (CommStatus × Int)
  | .wrote status nwritten => some (status,nwritten)
  | _ => none

def State.port (s : State) : Port := ⟨s.c.w.isActive,s.c.isClosing,s.log.any closedBack⟩

theorem closedBackWhen {s} (inv : Inv False s) (back : s.log.any closedBack = true) :
    s.ctl.inCleanup = true ∨ s.freed = true := by
  obtain ⟨closed,trace,when⟩ := inv.life
  obtain ⟨ev,mem,close⟩ := List.any_eq_true.mp back
  rw [closedLife,beq_iff_eq] at close
  exact when ((closedIff trace).mp (List.mem_filterMap.mpr ⟨ev,mem,close⟩))

theorem notClosedBack {s} (inv : Inv False s) (outside : s.ctl.inCleanup = false) (alive : s.freed = false) :
    s.log.any closedBack = false := by
  refine Bool.eq_false_iff.mpr fun back => ?_
  rcases closedBackWhen inv back with inside | gone
  · exact never (outside.symm.trans inside)
  · exact never (alive.symm.trans gone)

/- What a step of the comm is to its port, with the write callbacks it makes. -/
def Shows (s : State) (acts : List PortAct) (s' : State) : Prop :=
  Possible portMachine s.port acts ∧ run portMachine s.port acts = s'.port ∧
    backs s' = acts.filterMap PortAct.told ++ backs s

theorem showsNothing {s s' : State} (w : s'.c.w.isActive = s.c.w.isActive) (closing : s'.c.isClosing = s.c.isClosing)
    (closed : s'.log.any closedBack = s.log.any closedBack) (back : backs s' = backs s) : Shows s [] s' := by
  refine ⟨trivial,?_,back⟩
  simp only [run,List.foldl_nil,State.port,w,closing,closed]

theorem jobSame {w w' : WriteState} (same : w'.job = w.job) : w'.isActive = w.isActive := by
  cases job : w.job with
  | none => rw [jobNone job,jobNone (same.trans job)]
  | some j => rw [jobActive job,jobActive (same.trans job)]

/- A step that leaves the close alone. -/
theorem progressShows {s s' : State} {a} (progress : Progress s a s') (none : posting s a = none)
    (closing : s'.c.isClosing = s.c.isClosing) (closed : s'.log.any closedBack = s.log.any closedBack) :
    ∃ acts, Shows s acts s' := by
  have answered {j st} (before : s.c.w.job = some j) (after : s'.c.w.job = .none)
      (back : backs s' = (st,j.offset)::backs s) : ∃ acts, Shows s acts s' := by
    refine ⟨[.wrote st j.offset],⟨jobActive before,trivial⟩,?_,back⟩
    simp only [run,List.foldl_cons,List.foldl_nil,portMachine,portStep,State.port,jobNone after,closing,closed]
  cases progress with
  | kept same back => exact ⟨[],showsNothing (jobSame same) closing closed back⟩
  | started posted => rw [none] at posted; contradiction
  | wrote before _ _ _ after back =>
    exact ⟨[],showsNothing (by rw [jobActive before,jobActive after]) closing closed back⟩
  | waited _ _ _ _ same back => exact ⟨[],showsNothing (jobSame same) closing closed back⟩
  | finished before _ _ _ _ _ after back => exact answered before after back
  | closed before _ after back => exact answered before after back

theorem callPlain (s : State) {call : Call} (opens : call ≠ .close) : (client s call).c.isClosing = s.c.isClosing ∧
    (client s call).log.any closedBack = s.log.any closedBack := by
  cases starts : call.kind.isSome with
  | true =>
    obtain ⟨kept,_⟩ := started (s := s) starts
    exact ⟨kept.closing,kept.back⟩
  | false =>
    cases call with
    | close => exact absurd rfl opens
    | markNonclose => exact ⟨rfl,rfl⟩
    | udpWrite fr =>
      simp only [client,commCall,commUdpWrite]
      repeat' split
      all_goals exact ⟨rfl,rfl⟩
    | _ => contradiction

theorem cleaningClosing {s : State} (inv : Inv False s) (back : s.log.any closedBack = true) : s.c.isClosing = true := by
  rcases closedBackWhen inv back with inside | gone
  · have place := inv.place
    cases ctl : s.ctl <;> rw [ctl] at inside <;> try exact never inside
    simp only [Place,ctl] at place
    exact (inv.cleanup place).1
  · exact (inv.cleanup (inv.freed gone).2.2).1

theorem closeShows {s : State} (inv : Inv False s) (fit : Fit s) : ∃ acts, Shows s acts (client s .close) := by
  obtain ⟨job,back,_⟩ := closeWriter fit
  have apart := closeApart s
  have log : (client s .close).log.any closedBack = s.log.any closedBack := by
    rw [client,commCall,apart.log]
    rfl
  cases closing : s.c.isClosing with
  | true => exact ⟨[],showsNothing (jobSame job) (apart.closing.trans closing.symm) log back⟩
  | false =>
    have notClosed : s.log.any closedBack = false :=
      Bool.eq_false_iff.mpr fun back => never (closing.symm.trans (cleaningClosing inv back))
    refine ⟨[.close],⟨notClosed,trivial⟩,?_,back⟩
    have same : (client s .close).c.w.isActive = s.c.w.isActive := jobSame job
    have asked : (client s .close).c.isClosing = true := apart.closing
    simp only [run,List.foldl_cons,List.foldl_nil,portMachine,portStep,State.port,same,asked,log]

theorem writeShows {s : State} {call j} (fit : Fit s) (disciplined : Disciplined s (.client call))
    (posted : posting s (.client call) = some j) : ∃ acts, Shows s acts (client s call) := by
  have starts : call.starts = true ∧ call ≠ .close := by cases call <;> first | contradiction | exact ⟨rfl,nofun⟩
  have opened := disciplined starts.1
  obtain ⟨closing,closed⟩ := callPlain s starts.2
  have other {p : Prop} (none : posting s (.client call) = none) : p := nomatch posted.symm.trans none
  cases (callProgress call fit).1 with
  | started _ _ _ after back =>
    refine ⟨[.write],⟨opened,trivial⟩,?_,back⟩
    simp only [run,List.foldl_cons,List.foldl_nil,portMachine,portStep,State.port,jobActive after,closing,closed]
  | kept _ _ _ none => exact other none
  | wrote _ _ _ _ _ _ none => exact other none
  | waited _ _ _ _ _ _ none => exact other none
  | finished _ _ _ _ _ _ _ _ none => exact other none
  | closed _ _ _ _ _ none => exact other none

theorem callShows {s : State} {call} (inv : Inv False s) (fit : Fit s) (disciplined : Disciplined s (.client call)) :
    ∃ acts, Shows s acts (client s call) := by
  cases posted : posting s (.client call) with
  | some j => exact writeShows fit disciplined posted
  | none =>
    by_cases closes : call = .close
    · subst call
      exact closeShows inv fit
    · obtain ⟨closing,closed⟩ := callPlain s closes
      exact progressShows (callProgress call fit).1 posted closing closed

theorem cleanupShows {s : State} {sys} (inv : Inv False s) (allowed : Allowed s (.fire .cleanup sys)) :
    ∃ acts, Shows s acts (step s (.fire .cleanup sys)) := by
  obtain ⟨idle,queued⟩ := allowed
  have alive : s.freed = false := Bool.eq_false_iff.mpr fun gone => never (((inv.freed gone).1 .cleanup).symm.trans queued)
  have notClosed := notClosedBack inv (by rw [idle]; rfl) alive
  obtain ⟨closing,none⟩ := inv.cleanup (inv.scheduled queued)
  simp only [step,handle,commCbCleanup]
  split
  · refine ⟨[],showsNothing rfl rfl ?_ ?_⟩
    · unfold commCbCleanupFree
      split <;> rfl
    · unfold commCbCleanupFree
      split <;> rfl
  · refine ⟨[.closed],⟨⟨closing,none .write,notClosed⟩,trivial⟩,?_,rfl⟩
    simp only [run,List.foldl_cons,List.foldl_nil,portMachine,portStep,State.port]
    rfl

/- The close callback is made by comm_cb_cleanup only, so behind any other step it has been
made exactly if it had been before. -/
theorem plainShows {s : State} {a} (inv : Inv False s) (inv' : Inv False (step s a)) (progress : Progress s a (step s a))
    (none : posting s a = none) (closing : (step s a).c.isClosing = s.c.isClosing)
    (outside : s.ctl.inCleanup = false) (alive : s.freed = false)
    (inCleanup : (step s a).ctl.inCleanup = true → s.ctl.inCleanup = true) (freed : (step s a).freed = s.freed) :
    ∃ acts, Shows s acts (step s a) := by
  have before := notClosedBack inv outside alive
  have after := notClosedBack inv' (Bool.eq_false_iff.mpr fun inside => never (outside.symm.trans (inCleanup inside)))
    (freed.trans alive)
  exact progressShows progress none closing (after.trans before.symm)

theorem stepShows {s a} (h : Reach disciplinedMachine s) (allowed : disciplinedMachine.allowed s a) :
    ∃ acts, Shows s acts (step s a) := by
  have inv := reachInv h
  have inv' : Inv False (step s a) := reachInv (.next h allowed)
  obtain ⟨allowed,disciplined⟩ := allowed
  have fit := reachFit (reachUnguarded h)
  have progress := (stepProgress fit allowed).1
  cases a with
  | client call => exact callShows inv fit disciplined
  | fire e sys =>
    by_cases cleans : e = .cleanup
    · subst e
      exact cleanupShows inv allowed
    · have fires := firedWinds s e
      have handles := handleWinds (fired s e) sys cleans
      refine plainShows inv inv' progress rfl (handles.closing.trans fires.closing) (by rw [allowed.1]; rfl) ?_
        (fires.inCleanup ∘ handles.inCleanup) (handles.freed.trans fires.freed)
      exact Bool.eq_false_iff.mpr fun gone => never (((inv.freed gone).1 e).symm.trans allowed.2)
  | resume sys =>
    have alive : s.freed = false := Bool.eq_false_iff.mpr fun gone => allowed (inv.freed gone).2.1
    by_cases cleans : s.ctl = .cleanup
    · refine ⟨[],showsNothing ?_ ?_ ?_ ?_⟩ <;> simp only [step,cleans,goOn,commCbCleanupFree] <;> try rfl
      · split <;> rfl
      · split <;> rfl
    · have goes := goOnWinds { s with ctl := .idle } sys cleans
      refine plainShows inv inv' progress rfl goes.closing ?_ alive (fun inside => never (goes.inCleanup inside)) goes.freed
      exact Bool.eq_false_iff.mpr fun inside => cleans (by cases ctl : s.ctl <;> rw [ctl] at inside <;> first | rfl | exact never inside)

/- The comm layer keeps what its clients rely on. -/
theorem reachPort {s} (h : Reach disciplinedMachine s) : Reach portMachine s.port := by
  induction h with
  | start initially =>
    obtain ⟨fd,cb,cbdata,rfl⟩ := initially
    exact .start rfl
  | next before allowed ih =>
    obtain ⟨acts,possible,after,_⟩ := stepShows before allowed
    have reached := reachRun ih possible
    rw [after] at reached
    exact reached

end Libiapp.Comm

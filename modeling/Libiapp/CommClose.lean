import Libiapp.CommCalls
import Libiapp.CommEffect

/-! What becomes of a comm that is closing. comm_close reaches reads and writes; it
relies on the handlers of the other operations, and comm_cb_connect and the sendto()
loop of comm_cb_udp_write do not look at is_closing. The close is lost for good in
exactly the steps that are not `Unstranded`. -/
namespace Libiapp.Comm
open Runs

/- The fde whose handler ends an operation of a closing comm is queued or armed. -/
def handlerWaits (s : State) : Kind → Bool
  | .read => s.armed .readCb
  | .write => s.armed .writeCb
  | .accept => s.armed .accept
  | .connect => s.armed .connectStart || s.armed .connect
  | .udpRead => s.armed .udpRead
  | .udpWrite => s.armed .udpWrite

def Carries (s : State) : Prop :=
  s.armed .cleanup = true ∨
    ((∃ k, s.c.active k = true) ∧ ∀ k, s.c.active k = true → handlerWaits s k = true)

/- Between callbacks, a close that has not come to its cleanup can still do so. -/
def CloseCarried (s : State) : Prop :=
  s.c.isClosing = true → s.ctl = .idle → s.freed = false → Carries s

/- A writer that no event will stop. -/
structure Abandoned (s : State) : Prop where
  closing : s.c.isClosing = true
  on : s.c.udpW.isActive = true
  off : s.armed .udpWrite = false
  outside : s.ctl.inUdpWrite = false

/- Nothing is active, and nobody is left to see it. -/
structure Forgotten (s : State) : Prop where
  closing : s.c.isClosing = true
  none : ∀ k, s.c.active k = false
  missed : s.c.isCleanup = false
  outside : s.ctl.looksReady = false

def Stranded (s : State) : Prop := Abandoned s ∨ Forgotten s

theorem untouchedAbandoned {s s'} (same : Untouched s s') (abandoned : Abandoned s) : Abandoned s' where
  closing := same.closing.trans abandoned.closing
  on := by rw [same.udpW]; exact abandoned.on
  off := same.armed.trans abandoned.off
  outside := Bool.eq_false_iff.mpr fun inside => never (abandoned.outside.symm.trans (same.inUdpWrite inside))

/- While its writer is active a comm is not cleaned up. -/
theorem abandonedUncleaned {s} (inv : Inv False s) (abandoned : Abandoned s) : s.c.isCleanup = false :=
  Bool.eq_false_iff.mpr fun done => busy inv .udpWrite abandoned.on done

theorem abandonedStays {s a} (inv : Inv False s) (allowed : Allowed s a) (disciplined : Disciplined s a)
    (abandoned : Abandoned s) : Abandoned (step s a) := by
  have uncleaned := abandonedUncleaned inv abandoned
  cases a with
  | client call =>
    have idle : call.starts = true → False := fun starts => never ((disciplined starts).symm.trans abandoned.closing)
    cases call with
    | close =>
      have same : commClose s = s := by simp [commClose,abandoned.closing]
      simp only [step,client,commCall,same]
      exact { abandoned with }
    | markNonclose => exact { abandoned with }
    | _ => exact (idle rfl).elim
  | fire e sys =>
    have sends : e ≠ .udpWrite := by
      rintro rfl
      exact never (abandoned.off.symm.trans allowed.2)
    have cleans : e ≠ .cleanup := by
      rintro rfl
      exact never (uncleaned.symm.trans (inv.scheduled allowed.2))
    exact untouchedAbandoned ((firedUntouched s sends).trans (handleUntouched _ sys sends cleans)) abandoned
  | resume sys =>
    have cleans : s.ctl.inCleanup = false := by
      have place := inv.place
      unfold Place at place
      cases inside : s.ctl <;> simp only [inside] at place <;> try rfl
      exact never (uncleaned.symm.trans place)
    have returned : Abandoned { s with ctl := .idle } := { abandoned with outside := rfl }
    exact untouchedAbandoned (goOnUntouched _ sys abandoned.outside cleans) returned

theorem forgottenStays {s a} (inv : Inv False s) (allowed : Allowed s a) (disciplined : Disciplined s a)
    (forgotten : Forgotten s) : Forgotten (step s a) := by
  have idle (k) {p : Prop} (on : s.c.active k = true) : p := never ((forgotten.none k).symm.trans on)
  have uncleaned {p : Prop} (done : s.c.isCleanup = true) : p := never (forgotten.missed.symm.trans done)
  cases a with
  | client call =>
    have refuses : call.starts = true → False := fun starts => never ((disciplined starts).symm.trans forgotten.closing)
    cases call with
    | close =>
      have same : commClose s = s := by simp [commClose,forgotten.closing]
      simp only [step,client,commCall,same]
      exact { forgotten with }
    | markNonclose =>
      exact { forgotten with none := fun k => by have off := forgotten.none k; cases k <;> exact off }
    | _ => exact (refuses rfl).elim
  | fire e sys =>
    -- Only ev_read and ev_write, which persist, can still be armed.
    obtain ⟨_,armed⟩ := allowed
    cases e with
    | read =>
      simp only [step,handle,commCbRead]
      split <;> exact { forgotten with none := fun k => by have off := forgotten.none k; cases k <;> exact off }
    | write =>
      simp only [step,handle,commCbWrite]
      split <;> exact { forgotten with none := fun k => by have off := forgotten.none k; cases k <;> exact off }
    | readCb => exact idle .read (inv.readCb armed)
    | writeCb => exact idle .write (inv.writeCb armed)
    | accept => exact idle .accept (inv.accept armed)
    | connect => exact idle .connect (inv.connect armed).1
    | connectStart => exact idle .connect (inv.connectStart armed)
    | cleanup => exact uncleaned (inv.scheduled armed)
    | udpRead => exact idle .udpRead (inv.udpRead armed)
    | udpWrite => exact idle .udpWrite (inv.udpWrite armed)
  | resume sys =>
    obtain ⟨c,armed,ctl,freed,log⟩ := s
    have place := inv.place
    cases ctl with
    | idle => exact forgotten
    | tail => exact { forgotten with outside := rfl }
    | acceptLoop => exact idle .accept place
    | udpDrain => exact idle .udpWrite place.2.1
    | udpSend => exact idle .udpWrite place
    | cleanup => exact uncleaned place
    | _ => exact never forgotten.outside.symm

theorem strandedStays {s a} (inv : Inv False s) (allowed : Allowed s a) (disciplined : Disciplined s a)
    (stranded : Stranded s) : Stranded (step s a) :=
  stranded.imp (abandonedStays inv allowed disciplined) (forgottenStays inv allowed disciplined)

theorem strandedUncleaned {s} (inv : Inv False s) (stranded : Stranded s) :
    s.c.isClosing = true ∧ s.c.isCleanup = false := by
  rcases stranded with abandoned | forgotten
  · exact ⟨abandoned.closing,abandonedUncleaned inv abandoned⟩
  · exact ⟨forgotten.closing,forgotten.missed⟩

theorem strandedNotCarried {s} (inv : Inv False s) (stranded : Stranded s) (between : s.ctl = .idle) :
    ¬ CloseCarried s := by
  intro carried
  obtain ⟨closing,uncleaned⟩ := strandedUncleaned inv stranded
  have alive : s.freed = false :=
    Bool.eq_false_iff.mpr fun gone => never (uncleaned.symm.trans (inv.freed gone).2.2)
  rcases carried closing between alive with scheduled | ⟨⟨k,on⟩,waits⟩
  · exact never (uncleaned.symm.trans (inv.scheduled scheduled))
  · rcases stranded with abandoned | forgotten
    · exact never (abandoned.off.symm.trans (waits .udpWrite abandoned.on))
    · exact never ((forgotten.none k).symm.trans on)

/- What is left of the invariant once no close has been stranded. -/
theorem notStranded {s} (inv : Inv False s) : Inv True s ↔ ¬ Stranded s := by
  constructor
  · rintro whole (abandoned | forgotten)
    · exact never (abandoned.off.symm.trans (whole.waitUdpWrite trivial abandoned.outside abandoned.closing abandoned.on))
    · obtain ⟨k,on⟩ := whole.pending trivial forgotten.outside forgotten.closing forgotten.missed
      exact never ((forgotten.none k).symm.trans on)
  · intro free
    refine { inv with waitUdpWrite := fun _ outside closing on => ?_, pending := fun _ outside closing missed => ?_ }
    · by_contra off
      exact free (Or.inl ⟨closing,on,by simpa using off,outside⟩)
    · by_contra none
      exact free (Or.inr ⟨closing,fun k => by simpa using fun on => none ⟨k,on⟩,missed,outside⟩)

theorem activeWaits {s k} (inv : Inv True s) (closing : s.c.isClosing = true) (between : s.ctl = .idle)
    (on : s.c.active k = true) : handlerWaits s k = true := by
  cases k with
  | read => exact inv.waitReadCb closing on
  | write => exact inv.waitWriteCb closing on
  | accept => exact inv.waitAccept (by rw [between]; rfl) on
  | connect => exact Bool.or_eq_true_iff.mpr (inv.waitConnect on)
  | udpRead => exact inv.waitUdpRead on
  | udpWrite => exact inv.waitUdpWrite trivial (by rw [between]; rfl) closing on

theorem carriedWhole {s} (inv : Inv True s) : CloseCarried s := by
  intro closing between alive
  cases done : s.c.isCleanup with
  | true => exact Or.inl (inv.waitCleanup (by rw [between]; rfl) alive done)
  | false =>
    have left := inv.pending trivial (by rw [between]; rfl) closing done
    exact Or.inr ⟨left,fun k => activeWaits inv closing between⟩

theorem closeStrands {s} (opened : s.c.isClosing = false) (outside : s.ctl.inUdpWrite = false)
    (on : s.c.udpW.isActive = true) (off : s.armed .udpWrite = false) : Abandoned (client s .close) := by
  have asked : Abandoned { s with c.isClosing := true } := ⟨rfl,on,off,outside⟩
  have closed : Abandoned (commClose s) := by
    rw [commClose,if_neg (by simp [opened])]
    exact untouchedAbandoned (closeUntouched _) asked
  exact { closed with }

theorem connectStrands {s : State} {sys : Sys} (inv : Inv False s) (armed : s.armed .connect = true)
    (closing : s.c.isClosing = true) (finished : ¬ (sys.ret = 0 ∧ sys.soError = eInprogress))
    (alone : ¬ ∃ k, k ≠ .connect ∧ s.c.active k = true) :
    Forgotten (handle (fired s .connect) sys .connect) := by
  have missed : s.c.isCleanup = false :=
    Bool.eq_false_iff.mpr fun done => busy inv .connect (inv.connect armed).1 done
  have none : ∀ k, { s.c with co.isActive := false }.active k = false := by
    intro k
    by_cases this : k = .connect
    · subst k
      rfl
    · have off : s.c.active k = false := Bool.eq_false_iff.mpr fun on => alone ⟨k,this,on⟩
      cases k <;> first | exact off | exact absurd rfl this
  have done : ¬ (sys.ret = 0 ∧ (if sys.ret = 0 then sys.soError else sys.errno) = eInprogress) := by
    rintro ⟨zero,progress⟩
    exact finished ⟨zero,by simpa [zero] using progress⟩
  simp only [handle,commCbConnect]
  generalize (if sys.ret = 0 then sys.soError else sys.errno) = errno at done ⊢
  rw [if_neg done]
  split <;> exact ⟨closing,none,missed,rfl⟩

/- A step that is not `Unstranded` strands the close there and then. -/
theorem strands {s a} (inv : Inv False s) (allowed : Allowed s a) (lost : ¬ Unstranded s a) : Stranded (step s a) := by
  cases a with
  | client call =>
    simp only [Unstranded,not_forall] at lost
    obtain ⟨rfl,opened,outside,on,off⟩ := lost
    exact Or.inl (closeStrands opened outside on (by simpa using off))
  | fire e sys =>
    simp only [Unstranded,not_forall] at lost
    obtain ⟨rfl,closing,finished,alone⟩ := lost
    exact Or.inr (connectStrands inv allowed.2 closing finished alone)
  | resume sys =>
    simp only [Unstranded,not_forall] at lost
    obtain ⟨sending,closing,drained,off⟩ := lost
    obtain ⟨c,armed,ctl,freed,log⟩ := s
    cases show ctl = .udpSend from sending
    have on : c.udpW.isActive = true := inv.place
    have ended : step ⟨c,armed,.udpSend,freed,log⟩ (.resume sys) = ⟨c,armed,.idle,freed,log⟩ := by
      simp only [step,goOn,commCbUdpWriteNext]
      rw [show c.udpW.wQ = [] from drained]
    rw [ended]
    exact Or.inl ⟨closing,on,by simpa using off,rfl⟩

/- A run that meets the condition in every step carries its close in every state, and
a run that ends between callbacks and has carried it has met the condition. -/
theorem closeCarriedIff {fd cb cbdata actions}
    (possible : Possible disciplinedMachine (commCreate fd cb cbdata) actions) :
    (Each disciplinedMachine Unstranded (commCreate fd cb cbdata) actions →
      Along disciplinedMachine CloseCarried (commCreate fd cb cbdata) actions) ∧
    ((run disciplinedMachine (commCreate fd cb cbdata) actions).ctl = .idle →
      Along disciplinedMachine CloseCarried (commCreate fd cb cbdata) actions →
      Each disciplinedMachine Unstranded (commCreate fd cb cbdata) actions) := by
  have kept : ∀ s a, Inv False s → disciplinedMachine.allowed s a → Inv False (disciplinedMachine.step s a) :=
    fun s a inv allowed => stepInv inv allowed.1 allowed.2 False.elim
  have loses : ∀ s a, Inv False s → disciplinedMachine.allowed s a → ¬ Stranded s →
      (¬ Stranded (disciplinedMachine.step s a) ↔ Unstranded s a) := by
    intro s a inv allowed free
    constructor
    · exact fun later => by_contra fun lost => later (strands inv allowed.1 lost)
    · intro ok
      have whole := stepInv ((notStranded inv).mpr free) allowed.1 allowed.2 (fun _ => ok)
      exact (notStranded (kept s a inv allowed)).mp whole
  have here : Inv False (commCreate fd cb cbdata) := createdInv ⟨fd,cb,cbdata,rfl⟩
  have free : ¬ Stranded (commCreate fd cb cbdata) := (notStranded here).mp (createdInv ⟨fd,cb,cbdata,rfl⟩)
  have exactly := alongIffEach (fun s a inv allowed _ => kept s a inv allowed) loses here free possible
  constructor
  · intro each
    refine alongMono kept (fun s inv out => ?_) here possible (exactly.mpr each)
    exact carriedWhole ((notStranded inv).mpr out)
  · intro between carried
    refine exactly.mp (alongNever kept (fun s a inv allowed => ?_) here possible ?_)
    · exact strandedStays inv allowed.1 allowed.2
    · have ended : Inv False (run disciplinedMachine (commCreate fd cb cbdata) actions) :=
        reachInv (reachRun (.start ⟨fd,cb,cbdata,rfl⟩) possible)
      exact fun stranded => strandedNotCarried ended stranded between (alongEnd carried)

/- A read and a connect are pending at the close; the connect completes first. -/
def carriedRun : List Act :=
  [.client (.read 1 10 2 3),.client (.connect 7 16 4 5),.fire .connectStart ⟨-1,eInprogress,0,none⟩,.client .close,
    .fire .connect ⟨0,0,0,none⟩,.resume ⟨0,0,0,none⟩]

theorem closeCarriedRun : Along disciplinedMachine CloseCarried (commCreate 5 none 0) carriedRun := by
  have careful : Each disciplinedMachine Unstranded (commCreate 5 none 0) carriedRun :=
    ⟨nofun,nofun,nofun,fun _ _ _ => never,fun _ _ _ => ⟨.read,nofun,rfl⟩,nofun,trivial⟩
  have possible : Possible disciplinedMachine (commCreate 5 none 0) carriedRun := by decide
  exact (closeCarriedIff possible).1 careful

/- The same close without the read: comm_cb_connect reports the connection and leaves
nothing behind that could schedule the cleanup. -/
def strandedRun : List Act :=
  [.client (.connect 7 16 4 5),.fire .connectStart ⟨-1,eInprogress,0,none⟩,.client .close,
    .fire .connect ⟨0,0,0,none⟩,.resume ⟨0,0,0,none⟩]

theorem closeStranded :
    let s := run disciplinedMachine (commCreate 5 none 0) strandedRun
    Reach disciplinedMachine s ∧ s.c.isClosing = true ∧ s.ctl = .idle ∧ s.freed = false ∧ ¬ Carries s := by
  refine ⟨reachRun (.start ⟨5,none,0,rfl⟩) (by decide),by decide,by decide,by decide,?_⟩
  rintro (scheduled | ⟨⟨k,on⟩,_⟩)
  · exact never scheduled
  · cases k <;> exact never on

end Libiapp.Comm

import Libiapp.CommStream
import Libiapp.CommDatagram

/-! Client calls keep the invariant, and so does every step of a disciplined run. -/
namespace Libiapp.Comm
open Runs Lifecycle

/- A call that changes nothing: refused, or without effect. -/
theorem refused {kept s} (inv : Inv kept s) (call) : Inv kept { s with log := .called call (-1)::s.log } :=
  { inv with }

theorem outsideCleanup {kept c armed ctl log} (inv : Inv kept ⟨c,armed,ctl,false,log⟩) (opened : c.isClosing = false) :
    ctl.inCleanup = false := by
  cases ctl <;> try rfl
  have done : c.isCleanup = true := inv.place
  exact never (opened.symm.trans (inv.cleanup done).1)

theorem notCleanup {kept s} (inv : Inv kept s) (opened : s.c.isClosing = false) (done : s.c.isCleanup = true) :
    False := never (opened.symm.trans (inv.cleanup done).1)

/- The start of an operation ends none, and before a close only the two loops that
keep their operation active call the client back. -/
theorem placeStarted {kept c c' armed armed' ctl log log'} (inv : Inv kept ⟨c,armed,ctl,false,log⟩)
    (opened : c.isClosing = false) (accept : c.a.isActive = true → c'.a.isActive = true)
    (send : c.udpW.isActive = true → c'.udpW.isActive = true) : Place ⟨c',armed',ctl,false,log'⟩ := by
  have place := inv.place
  cases ctl with
  | idle => trivial
  | tail => trivial
  | acceptLoop => exact accept place
  | udpSend => exact send place
  | cleanup => exact (notCleanup inv opened place).elim
  | _ => exact never (opened.symm.trans place.1)

/- What an accepted comm_read does while the comm is open. -/
theorem readAccepted {kept c armed ctl log} (buf len cb cbdata) (inv : Inv kept ⟨c,armed,ctl,false,log⟩)
    (opened : c.isClosing = false) (off : c.r.isActive = false) :
    client ⟨c,armed,ctl,false,log⟩ (.read buf len cb cbdata) =
      ⟨{ c with r := ⟨true,c.r.isReady,true,buf,len,cb,cbdata⟩ },
        Function.update (Function.update armed .read true) .readCb c.r.isReady,ctl,false,
        .called (.read buf len cb cbdata) 1::if armed .read then log else .readRegistered::log⟩ := by
  have isRead : c.r.isRead = armed .read := inv.isRead opened
  have unqueued : armed .readCb = false := by
    cases queued : armed .readCb with
    | false => rfl
    | true => exact never (off.symm.trans (inv.readCb queued))
  simp only [client,commCall,commRead,off,Bool.false_eq_true,if_false,startReading,State.add,isRead]
  cases armedRead : armed .read <;> cases ready : c.r.isReady <;>
    simp only [Bool.not_true,Bool.not_false,Bool.false_eq_true,if_true,if_false]
  all_goals
    congr 1
    funext e
    cases e <;> simp [armedRead,unqueued]

theorem callRead {kept c armed ctl log} (buf len cb cbdata) (inv : Inv kept ⟨c,armed,ctl,false,log⟩)
    (opened : c.isClosing = false) : Inv kept (client ⟨c,armed,ctl,false,log⟩ (.read buf len cb cbdata)) := by
  have closing {p : Prop} (h : c.isClosing = true) : p := never (opened.symm.trans h)
  cases active : c.r.isActive with
  | true =>
    have same : client ⟨c,armed,ctl,false,log⟩ (.read buf len cb cbdata) =
        ⟨c,armed,ctl,false,.called (.read buf len cb cbdata) (-1)::log⟩ := by
      simp [client,commCall,commRead,active]
    rw [same]
    exact refused inv _
  | false =>
    rw [readAccepted buf len cb cbdata inv opened active]
    have started : Trace (.start .read::lifeEvents log)
        ⟨{ c with r := ⟨true,c.r.isReady,true,buf,len,cb,cbdata⟩ }.active,false⟩ :=
      begun .read (lifeOpen inv (outsideCleanup inv opened)) active (by funext k; cases k <;> rfl)
    have quiet : c.r.isReady = false → unanswered (if armed .read then log else .readRegistered::log) = false := by
      intro h
      split
      · rename_i armedRead
        exact inv.ready opened armedRead h
      · rfl
    exact { inv with
      readCb := fun _ => rfl
      cleanup := fun h => (notCleanup inv opened h).elim
      place := placeStarted inv opened id id
      freed := never
      life := ⟨false,by split <;> exact started,never⟩
      waitRead := fun _ _ => by
        cases ready : c.r.isReady with
        | true => exact ⟨rfl,Or.inl rfl⟩
        | false => exact ⟨rfl,Or.inr (quiet ready)⟩
      waitReadCb := fun h => closing h
      isRead := fun _ => rfl
      ready := fun _ _ => quiet
      pending := fun _ _ h => closing h }

theorem writeAccepted {kept c armed ctl log} (nb start len cb cbdata) (inv : Inv kept ⟨c,armed,ctl,false,log⟩)
    (opened : c.isClosing = false) (off : c.w.isActive = false) :
    client ⟨c,armed,ctl,false,log⟩ (.write nb start len cb cbdata) =
      ⟨{ c with w := ⟨true,c.w.isReady,true,nb,start,0,len,cb,cbdata⟩ },
        Function.update (Function.update armed .write true) .writeCb c.w.isReady,ctl,false,
        .called (.write nb start len cb cbdata) 0::log⟩ := by
  have isWrite : c.w.isWrite = armed .write := inv.isWrite opened
  have unqueued : armed .writeCb = false := by
    cases queued : armed .writeCb with
    | false => rfl
    | true => exact never (off.symm.trans (inv.writeCb queued))
  simp only [client,commCall,commWrite,off,Bool.false_eq_true,if_false,State.add,isWrite]
  cases armedWrite : armed .write <;> cases ready : c.w.isReady <;>
    simp only [Bool.not_true,Bool.not_false,Bool.false_eq_true,if_true,if_false]
  all_goals
    congr 1
    funext e
    cases e <;> simp [armedWrite,unqueued]

theorem callWrite {kept c armed ctl log} (nb start len cb cbdata) (inv : Inv kept ⟨c,armed,ctl,false,log⟩)
    (opened : c.isClosing = false) : Inv kept (client ⟨c,armed,ctl,false,log⟩ (.write nb start len cb cbdata)) := by
  have closing {p : Prop} (h : c.isClosing = true) : p := never (opened.symm.trans h)
  cases active : c.w.isActive with
  | true =>
    have same : client ⟨c,armed,ctl,false,log⟩ (.write nb start len cb cbdata) =
        ⟨c,armed,ctl,false,.called (.write nb start len cb cbdata) (-1)::log⟩ := by
      simp [client,commCall,commWrite,active]
    rw [same]
    exact refused inv _
  | false =>
    rw [writeAccepted nb start len cb cbdata inv opened active]
    have started : Trace (.start .write::lifeEvents log)
        ⟨{ c with w := ⟨true,c.w.isReady,true,nb,start,0,len,cb,cbdata⟩ }.active,false⟩ :=
      begun .write (lifeOpen inv (outsideCleanup inv opened)) active (by funext k; cases k <;> rfl)
    exact { inv with
      writeCb := fun _ => rfl
      cleanup := fun h => (notCleanup inv opened h).elim
      place := placeStarted inv opened id id
      freed := never
      life := ⟨false,started,never⟩
      waitWrite := fun _ _ => rfl
      waitWriteCb := fun h => closing h
      isWrite := fun _ => rfl
      pending := fun _ _ h => closing h }

theorem callListen {kept c armed ctl log} (cb cbdata) (inv : Inv kept ⟨c,armed,ctl,false,log⟩)
    (opened : c.isClosing = false) : Inv kept (client ⟨c,armed,ctl,false,log⟩ (.listen cb cbdata)) := by
  have closing {p : Prop} (h : c.isClosing = true) : p := never (opened.symm.trans h)
  unfold client commCall commListen
  dsimp only
  split
  · exact refused inv _
  · rename_i idle
    have off : c.a.isActive = false := by simpa using idle
    have started : Trace (.start .accept::lifeEvents log) ⟨{ c with a := ⟨true,cb,cbdata⟩ }.active,false⟩ :=
      begun .accept (lifeOpen inv (outsideCleanup inv opened)) off (by funext k; cases k <;> rfl)
    exact { inv with
      accept := fun _ => rfl
      cleanup := fun h => (notCleanup inv opened h).elim
      place := placeStarted inv opened (fun _ => rfl) id
      freed := never
      life := ⟨false,started,never⟩
      waitAccept := fun _ _ => rfl
      pending := fun _ _ h => closing h }

theorem callConnect {kept c armed ctl log} (sin slen cb cbdata) (inv : Inv kept ⟨c,armed,ctl,false,log⟩)
    (opened : c.isClosing = false) : Inv kept (client ⟨c,armed,ctl,false,log⟩ (.connect sin slen cb cbdata)) := by
  have closing {p : Prop} (h : c.isClosing = true) : p := never (opened.symm.trans h)
  unfold client commCall commConnect
  dsimp only
  split
  · exact refused inv _
  · rename_i idle
    have off : c.co.isActive = false := by simpa using idle
    split
    · exact refused inv _
    · have started : Trace (.start .connect::lifeEvents log) ⟨{ c with co := ⟨true,cb,cbdata,sin,slen⟩ }.active,false⟩ :=
        begun .connect (lifeOpen inv (outsideCleanup inv opened)) off (by funext k; cases k <;> rfl)
      exact { inv with
        connect := fun h => never (off.symm.trans (inv.connect h).1)
        connectStart := fun _ => rfl
        cleanup := fun h => (notCleanup inv opened h).elim
        place := placeStarted inv opened id id
        freed := never
        life := ⟨false,started,never⟩
        waitConnect := fun _ => Or.inl rfl
        pending := fun _ _ h => closing h }

theorem callUdpRead {kept c armed ctl log} (cb cbdata maxlen) (inv : Inv kept ⟨c,armed,ctl,false,log⟩)
    (opened : c.isClosing = false) : Inv kept (client ⟨c,armed,ctl,false,log⟩ (.udpRead cb cbdata maxlen)) := by
  have closing {p : Prop} (h : c.isClosing = true) : p := never (opened.symm.trans h)
  unfold client commCall commUdpRead
  dsimp only
  split
  · exact refused inv _
  · rename_i idle
    have off : c.udpR.isActive = false := by simpa using idle
    have started : Trace (.start .udpRead::lifeEvents log) ⟨{ c with udpR := ⟨maxlen,true,cb,cbdata⟩ }.active,false⟩ :=
      begun .udpRead (lifeOpen inv (outsideCleanup inv opened)) off (by funext k; cases k <;> rfl)
    exact { inv with
      udpRead := fun _ => rfl
      cleanup := fun h => (notCleanup inv opened h).elim
      place := placeStarted inv opened id id
      freed := never
      life := ⟨false,started,never⟩
      waitUdpRead := fun _ => rfl
      pending := fun _ _ h => closing h }

theorem callUdpWriteSetup {kept c armed ctl log} (cb cbdata qlen) (inv : Inv kept ⟨c,armed,ctl,false,log⟩)
    (opened : c.isClosing = false) : Inv kept (client ⟨c,armed,ctl,false,log⟩ (.udpWriteSetup cb cbdata qlen)) := by
  have closing {p : Prop} (h : c.isClosing = true) : p := never (opened.symm.trans h)
  unfold client commCall commUdpWriteSetup
  dsimp only
  split
  · exact refused inv _
  · rename_i idle
    have off : c.udpW.isActive = false := by simpa using idle
    have started : Trace (.start .udpWrite::lifeEvents log)
        ⟨{ c with udpW := ⟨true,false,qlen,0,c.udpW.wQ,cb,cbdata⟩ }.active,false⟩ :=
      begun .udpWrite (lifeOpen inv (outsideCleanup inv opened)) off (by funext k; cases k <;> rfl)
    exact { inv with
      udpWrite := fun _ => rfl
      cleanup := fun h => (notCleanup inv opened h).elim
      place := placeStarted inv opened id (fun _ => rfl)
      freed := never
      life := ⟨false,started,never⟩
      waitUdpWrite := fun _ _ h => closing h
      pending := fun _ _ h => closing h }

theorem callUdpWrite {kept c armed ctl log} (fr) (inv : Inv kept ⟨c,armed,ctl,false,log⟩) :
    Inv kept (client ⟨c,armed,ctl,false,log⟩ (.udpWrite fr)) := by
  unfold client commCall commUdpWrite
  dsimp only
  split
  · exact refused inv _
  · rename_i accepts
    obtain ⟨on,opened⟩ : c.udpW.isActive = true ∧ c.isClosing = false := by simpa using accepts
    have closing {p : Prop} (h : c.isClosing = true) : p := never (opened.symm.trans h)
    split
    · exact refused inv _
    · split
      · exact { inv with
          udpWrite := fun _ => on
          place := placeStarted inv opened id id
          freed := never
          waitUdpWrite := fun _ _ h => closing h
          pending := fun _ _ h => closing h }
      · exact { inv with place := placeStarted inv opened id id, pending := fun _ _ h => closing h }

theorem bothOff {queued active : Bool} (quiet : queued = true → active = true) (off : ¬ active = true) :
    queued = active := by
  rw [Bool.eq_false_iff.mpr off]
  exact Bool.eq_false_iff.mpr fun on => off (quiet on)

theorem readingClosed {c armed ctl log} (quiet : armed .readCb = true → c.r.isActive = true) :
    ∃ isRead registered, closeReading ⟨c,armed,ctl,false,log⟩ = ⟨{ c with r.isRead := isRead },
      Function.update (Function.update armed .read registered) .readCb c.r.isActive,ctl,false,log⟩ := by
  unfold closeReading
  split
  · rename_i on
    refine ⟨c.r.isRead,armed .read,?_⟩
    rw [Function.update_eq_self,show c.r.isActive = true from on]
    rfl
  · rename_i off
    have unqueued : armed .readCb = c.r.isActive := bothOff quiet off
    split
    · refine ⟨false,false,?_⟩
      rw [← unqueued,Function.update_comm (by decide),Function.update_eq_self]
      rfl
    · refine ⟨c.r.isRead,armed .read,?_⟩
      rw [← unqueued,Function.update_eq_self,Function.update_eq_self]

theorem writingClosed {c armed ctl log} (quiet : armed .writeCb = true → c.w.isActive = true) :
    ∃ isWrite registered, closeWriting ⟨c,armed,ctl,false,log⟩ = ⟨{ c with w.isWrite := isWrite },
      Function.update (Function.update armed .write registered) .writeCb c.w.isActive,ctl,false,log⟩ := by
  unfold closeWriting
  split
  · rename_i on
    refine ⟨c.w.isWrite,armed .write,?_⟩
    rw [Function.update_eq_self,show c.w.isActive = true from on]
    rfl
  · rename_i off
    have unqueued : armed .writeCb = c.w.isActive := bothOff quiet off
    split
    · refine ⟨false,false,?_⟩
      rw [← unqueued,Function.update_comm (by decide),Function.update_eq_self]
      rfl
    · refine ⟨c.w.isWrite,armed .write,?_⟩
      rw [← unqueued,Function.update_eq_self,Function.update_eq_self]

/- A comm_close queues the handlers of the two operations it can reach. A UDP writer
is left to whatever has armed its fde. -/
theorem callClose {kept c armed ctl log} (inv : Inv kept ⟨c,armed,ctl,false,log⟩)
    (sending : kept → c.isClosing = false → ctl.inUdpWrite = false → c.udpW.isActive = true → armed .udpWrite = true) :
    Inv kept (client ⟨c,armed,ctl,false,log⟩ .close) := by
  cases opened : c.isClosing with
  | true =>
    have same : commClose ⟨c,armed,ctl,false,log⟩ = ⟨c,armed,ctl,false,log⟩ := by simp [commClose,opened]
    simp only [client,commCall,same]
    exact { inv with }
  | false =>
    have readCb : armed .readCb = true → { c with isClosing := true }.r.isActive = true := inv.readCb
    have writeCb : armed .writeCb = true → { c with isClosing := true }.w.isActive = true := inv.writeCb
    obtain ⟨isRead,reading,read⟩ := @readingClosed _ _ ctl log readCb
    obtain ⟨isWrite,writing,write⟩ := @writingClosed { c with isClosing := true, r.isRead := isRead }
      (Function.update (Function.update armed .read reading) .readCb c.r.isActive) ctl log writeCb
    have begun : Inv False ⟨{ c with isClosing := true, r.isRead := isRead, w.isWrite := isWrite },
        Function.update (Function.update (Function.update (Function.update armed .read reading) .readCb c.r.isActive)
          .write writing) .writeCb c.w.isActive,ctl,false,log⟩ :=
      { inv with
        readCb := id
        writeCb := id
        cleanup := fun h => (notCleanup inv opened h).elim
        place := placeStarted inv opened id id
        freed := never
        waitRead := fun h => never h.symm
        waitReadCb := fun _ => id
        waitWrite := fun h => never h.symm
        waitWriteCb := fun _ => id
        isRead := fun h => never h.symm
        isWrite := fun h => never h.symm
        ready := fun h => never h.symm
        waitUdpWrite := False.elim
        pending := False.elim }
    have closed : Inv kept (commClose ⟨c,armed,ctl,false,log⟩) := by
      rw [commClose,if_neg (by simp [opened])]
      dsimp only
      rw [read,write]
      have checked := checkReady begun rfl (fun h => sending h opened)
      split at checked <;> rename_i ready
      · rw [if_neg (by simp [ready])]
        exact checked
      · rw [if_pos (by simp [ready])]
        exact checked
    exact { closed with }

theorem callMarkNonclose {kept c armed ctl log} (inv : Inv kept ⟨c,armed,ctl,false,log⟩) :
    Inv kept (client ⟨c,armed,ctl,false,log⟩ .markNonclose) :=
  { inv with }

theorem callInv {kept c armed ctl log} (call : Call) (inv : Inv kept ⟨c,armed,ctl,false,log⟩)
    (disciplined : call.starts = true → c.isClosing = false)
    (sending : kept → call = .close → c.isClosing = false → ctl.inUdpWrite = false → c.udpW.isActive = true →
      armed .udpWrite = true) : Inv kept (client ⟨c,armed,ctl,false,log⟩ call) := by
  cases call with
  | read buf len cb cbdata => exact callRead buf len cb cbdata inv (disciplined rfl)
  | write nb start len cb cbdata => exact callWrite nb start len cb cbdata inv (disciplined rfl)
  | listen cb cbdata => exact callListen cb cbdata inv (disciplined rfl)
  | connect sin slen cb cbdata => exact callConnect sin slen cb cbdata inv (disciplined rfl)
  | udpRead cb cbdata maxlen => exact callUdpRead cb cbdata maxlen inv (disciplined rfl)
  | udpWriteSetup cb cbdata qlen => exact callUdpWriteSetup cb cbdata qlen inv (disciplined rfl)
  | udpWrite fr => exact callUdpWrite fr inv
  | close => exact callClose inv (fun h => sending h rfl)
  | markNonclose => exact callMarkNonclose inv

/- The steps behind which a close still has an event to wait for. -/
def Unstranded (s : State) : Act → Prop
  | .client call => call = .close → s.c.isClosing = false → s.ctl.inUdpWrite = false → s.c.udpW.isActive = true →
      s.armed .udpWrite = true
  | .fire e sys => e = .connect → s.c.isClosing = true → ¬ (sys.ret = 0 ∧ sys.soError = eInprogress) →
      ∃ k, k ≠ .connect ∧ s.c.active k = true
  | .resume _ => s.ctl = .udpSend → s.c.isClosing = true → s.c.udpW.wQ = [] → s.armed .udpWrite = true

theorem fireInv {kept c armed log} {e : CommFde} {sys : Sys} (inv : Inv kept ⟨c,armed,.idle,false,log⟩)
    (queued : armed e = true) (others : kept → Unstranded ⟨c,armed,.idle,false,log⟩ (.fire e sys)) :
    Inv kept (handle (fired ⟨c,armed,.idle,false,log⟩ e) sys e) := by
  cases e with
  | read => exact fireRead inv
  | readCb => exact fireReadCb sys inv queued
  | write => exact fireWrite inv
  | writeCb => exact fireWriteCb sys inv queued
  | accept => exact fireAccept sys inv queued
  | connect => exact fireConnect inv queued (fun h => others h rfl)
  | connectStart => exact fireConnectStart sys inv queued
  | cleanup => exact fireCleanup inv queued
  | udpRead => exact fireUdpRead sys inv queued
  | udpWrite => exact fireUdpWrite sys inv queued

theorem resumeInv {kept c armed ctl log} {sys : Sys} (inv : Inv kept ⟨c,armed,ctl,false,log⟩)
    (left : kept → Unstranded ⟨c,armed,ctl,false,log⟩ (.resume sys)) :
    Inv kept (goOn ⟨c,armed,.idle,false,log⟩ sys ctl) := by
  cases ctl with
  | idle => exact inv
  | tail => exact { inv with place := trivial, freed := never }
  | readClosing => exact resumeReadClosing sys inv
  | writeClosing => exact resumeWriteClosing sys inv
  | acceptClosing => exact resumeAcceptClosing sys inv
  | acceptLoop => exact acceptNext sys inv
  | startClosing => exact resumeStartClosing sys inv
  | udpReadClosing => exact resumeUdpReadClosing sys inv
  | udpDrain => exact udpWriteDrain sys inv
  | udpSend => exact udpWriteNext sys inv (fun h => left h rfl)
  | cleanup => exact cleanupFree inv inv.place rfl armed

theorem stepInv {kept s a} (inv : Inv kept s) (allowed : Allowed s a) (disciplined : Disciplined s a)
    (unstranded : kept → Unstranded s a) : Inv kept (step s a) := by
  obtain ⟨c,armed,ctl,freed,log⟩ := s
  cases freed with
  | true =>
    -- Nothing is armed and no callback is running: the object is gone.
    obtain ⟨none,idle,_⟩ := inv.freed rfl
    cases a with
    | client call => exact never allowed.symm
    | fire e sys => exact never ((none e).symm.trans allowed.2)
    | resume sys => exact absurd idle allowed
  | false =>
    cases a with
    | client call => exact callInv call inv disciplined unstranded
    | fire e sys =>
      obtain ⟨idle,queued⟩ := allowed
      cases show ctl = .idle from idle
      exact fireInv inv queued unstranded
    | resume sys => exact resumeInv inv unstranded

theorem createdInv {kept s} (created : Created s) : Inv kept s := by
  obtain ⟨fd,cb,cbdata,rfl⟩ := created
  exact {
    readCb := never
    writeCb := never
    accept := never
    connect := never
    connectStart := never
    udpRead := never
    udpWrite := never
    cleanup := never
    scheduled := never
    place := trivial
    freed := never
    life := ⟨false,by
      rw [show (commCreate fd cb cbdata).c.active = fun _ => false from by funext k; cases k <;> rfl]
      exact .nil,never⟩
    waitRead := fun _ h => never h
    waitReadCb := never
    waitWrite := fun _ h => never h
    waitWriteCb := never
    waitAccept := fun _ h => never h
    waitConnect := never
    waitUdpRead := never
    waitCleanup := fun _ _ h => never h
    isRead := fun _ => rfl
    isWrite := fun _ => rfl
    ready := fun _ h => never h
    waitUdpWrite := fun _ _ h => never h
    pending := fun _ _ h => never h }

theorem reachInv {s} (h : Reach disciplinedMachine s) : Inv False s :=
  reachInvariant (m := disciplinedMachine) (fun _ => createdInv)
    (fun _ _ inv possible => stepInv inv possible.1 possible.2 False.elim) h

end Libiapp.Comm

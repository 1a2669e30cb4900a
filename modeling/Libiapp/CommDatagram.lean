import Libiapp.CommInvariant

/-! The datagram handlers keep the invariant. The writer has two loops that call the
client with frames still queued; a close that comes in the send loop is left to
the next ev_udp_write, if there is one. -/
namespace Libiapp.Comm
open Runs Lifecycle

theorem fireUdpRead {kept c armed log} (sys) (inv : Inv kept ⟨c,armed,.idle,false,log⟩)
    (queued : armed .udpRead = true) : Inv kept (commCbUdpRead (fired ⟨c,armed,.idle,false,log⟩ .udpRead) sys) := by
  have on : c.udpR.isActive = true := inv.udpRead queued
  have trace := lifeOpen inv rfl
  unfold commCbUdpRead
  split
  · rename_i closing
    have done : Trace (.finish .udpRead::lifeEvents log) ⟨{ c with udpR.isActive := false }.active,false⟩ :=
      finished .udpRead trace on (by funext k; cases k <;> rfl)
    exact { inv with
      udpRead := never
      cleanup := fun h => busy inv .udpRead on h
      place := ⟨closing,rfl⟩
      freed := never
      life := ⟨false,done,never⟩
      waitUdpRead := fun h => never h
      pending := fun _ h => never h.symm }
  · have told {st : CommStatus} (open_ : st ≠ .closing) : Trace
        ((if st = .closing then .finish .udpRead else .notify .udpRead)::lifeEvents log) ⟨c.active,false⟩ := by
      rw [if_neg open_]
      exact .notify trace rfl on
    have after (fr st xerrno) (open_ : st ≠ CommStatus.closing) : Inv kept (State.invoke
        ((fired ⟨c,armed,.idle,false,log⟩ .udpRead).add .udpRead)
        (.udpRead c.udpR.cb c.fd c.udpR.cbdata fr st xerrno) .tail) :=
      { inv with
        udpRead := fun _ => on
        place := trivial
        freed := never
        life := ⟨false,told open_,never⟩
        waitUdpRead := fun _ => rfl }
    unfold commCbUdpReadIo
    rw [if_neg (by simp [fired,on])]
    dsimp only
    split
    · exact after none .error eNomem (by decide)
    · split
      · exact after none .error sys.errno (by decide)
      · exact after _ .completed 0 (by decide)

theorem resumeUdpReadClosing {kept c armed log} (sys) (inv : Inv kept ⟨c,armed,.udpReadClosing,false,log⟩) :
    Inv kept (commCbUdpReadClosed ⟨c,armed,.idle,false,log⟩ sys) := by
  obtain ⟨closing,off⟩ := inv.place
  have settled : commCbUdpReadIo ⟨c,armed,.idle,false,log⟩ sys = ⟨c,armed,.idle,false,log⟩ := udpReadOver sys off
  rw [commCbUdpReadClosed,settled]
  exact closedIdle inv rfl closing

theorem udpWriteNext {kept c armed log} (sys) (inv : Inv kept ⟨c,armed,.udpSend,false,log⟩)
    (left : kept → c.isClosing = true → c.udpW.wQ = [] → armed .udpWrite = true) :
    Inv kept (commCbUdpWriteNext ⟨c,armed,.idle,false,log⟩ sys) := by
  have on : c.udpW.isActive = true := inv.place
  have told : Trace (.notify .udpWrite::lifeEvents log) ⟨c.active,false⟩ := .notify (lifeOpen inv rfl) rfl on
  unfold commCbUdpWriteNext
  split
  · rename_i empty
    exact { inv with
      place := trivial, freed := never, waitUdpWrite := fun h _ closing _ => left h closing empty }
  · split
    · split
      · exact { inv with
          udpWrite := fun _ => on, place := trivial, freed := never, waitUdpWrite := fun _ _ _ _ => rfl }
      · exact { inv with freed := never, life := ⟨false,told,never⟩ }
    · exact { inv with freed := never, life := ⟨false,told,never⟩ }

theorem udpWriteDrain {kept c armed log} (sys) (inv : Inv kept ⟨c,armed,.udpDrain,false,log⟩) :
    Inv kept (commCbUdpWriteDrain ⟨c,armed,.idle,false,log⟩ sys) := by
  obtain ⟨closing,on,off⟩ := inv.place
  have trace := lifeOpen inv rfl
  unfold commCbUdpWriteDrain
  split
  · have told : Trace (.notify .udpWrite::lifeEvents log) ⟨c.active,false⟩ := .notify trace rfl on
    exact { inv with freed := never, life := ⟨false,told,never⟩ }
  · have done : Trace (.finish .udpWrite::lifeEvents log)
        ⟨{ c with udpW.isActive := false, udpW.isPrimed := false }.active,false⟩ :=
      finished .udpWrite trace on (by funext k; cases k <;> rfl)
    have stopped : Inv False ⟨{ c with udpW.isActive := false, udpW.isPrimed := false },armed,.idle,false,
        .udpWriteStopped::log⟩ :=
      { inv with
        udpWrite := fun h => never (off.symm.trans h)
        cleanup := fun h => busy inv .udpWrite on h
        place := trivial
        freed := never
        life := ⟨false,done,never⟩
        waitUdpWrite := False.elim
        pending := False.elim }
    exact checkReady stopped closing (fun _ _ h => never h)

theorem fireUdpWrite {kept c armed log} (sys) (inv : Inv kept ⟨c,armed,.idle,false,log⟩)
    (queued : armed .udpWrite = true) : Inv kept (commCbUdpWrite (fired ⟨c,armed,.idle,false,log⟩ .udpWrite) sys) := by
  have on : c.udpW.isActive = true := inv.udpWrite queued
  unfold commCbUdpWrite
  split
  · rename_i closing
    have entered : Inv kept ⟨c,Function.update armed .udpWrite false,.udpDrain,false,.fired .udpWrite::log⟩ :=
      { inv with
        udpWrite := never
        place := ⟨closing,on,rfl⟩
        freed := never
        waitUdpWrite := fun _ h => never h.symm }
    exact udpWriteDrain sys entered
  · rename_i open_
    have opened : c.isClosing = false := by simpa [fired] using open_
    unfold commCbUdpWriteIo
    split
    · exact { inv with
        udpWrite := never, freed := never, waitUdpWrite := fun _ _ h => never (opened.symm.trans h) }
    · have entered : Inv kept ⟨{ c with udpW.isPrimed := false },Function.update armed .udpWrite false,.udpSend,false,
          .fired .udpWrite::log⟩ :=
        { inv with udpWrite := never, place := on, freed := never, waitUdpWrite := fun _ h => never h.symm }
      exact udpWriteNext sys entered (fun _ h => never (opened.symm.trans h))

end Libiapp.Comm

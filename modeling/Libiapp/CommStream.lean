import Libiapp.CommInvariant

/-! The stream handlers keep the invariant: reads, writes, accepts and connects,
when their fde fires and when a callback returns into them. -/
namespace Libiapp.Comm
open Runs Lifecycle

theorem fireRead {kept c armed log} (inv : Inv kept ⟨c,armed,.idle,false,log⟩) :
    Inv kept (commCbRead (fired ⟨c,armed,.idle,false,log⟩ .read)) := by
  unfold commCbRead
  dsimp only
  split
  · rename_i active
    have off : c.r.isActive = false := by simpa [fired] using active
    exact { inv with
      waitRead := fun _ on => never (off.symm.trans on)
      ready := fun _ _ h => never h.symm }
  · rename_i active
    have on : c.r.isActive = true := by simpa [fired] using active
    exact { inv with
      readCb := fun _ => on
      waitRead := fun opened _ => ⟨(inv.waitRead opened on).1,Or.inl rfl⟩
      waitReadCb := fun _ _ => rfl
      freed := never
      ready := fun _ _ h => never h.symm }

/- The read() of comm_cb_read_cb, with the fde gone from the queue. -/
theorem readIo {kept c armed log} (sys) (inv : Inv kept ⟨c,armed,.idle,false,log⟩) (on : c.r.isActive = true)
    (opened : c.isClosing = false)
    (done : Trace (.finish .read::lifeEvents log) ⟨{ c with r.isActive := false }.active,false⟩) :
    Inv kept (commCbReadIo (fired ⟨c,armed,.idle,false,log⟩ .readCb) sys) := by
  have notDone : c.isCleanup = true → False := busy inv .read on
  unfold commCbReadIo
  rw [if_neg (by simp [fired,on])]
  dsimp only
  split
  · rename_i again
    exact { inv with
      readCb := never
      freed := never
      waitRead := fun _ _ => ⟨(inv.waitRead opened on).1,Or.inr (by simp [unanswered,again])⟩
      waitReadCb := fun h => never (opened.symm.trans h)
      ready := fun _ _ _ => by simp [unanswered,again] }
  · rename_i notAgain
    generalize (if sys.ret = 0 then CommStatus.eof else if sys.ret < 0 then CommStatus.error
      else CommStatus.completed) = st
    have seen : unanswered (.readReturned sys.ret sys.errno::log) = unanswered log := by
      simp [unanswered,notAgain]
    split
    · exact { inv with
        readCb := never
        cleanup := fun h => (notDone h).elim
        place := trivial
        freed := never
        life := ⟨false,done,never⟩
        waitRead := fun _ h => never h
        waitReadCb := fun _ h => never h
        isRead := fun _ => rfl
        ready := fun _ h => never h
        pending := fun _ _ h => never (opened.symm.trans h) }
    · exact { inv with
        readCb := never
        cleanup := fun h => (notDone h).elim
        place := trivial
        freed := never
        life := ⟨false,done,never⟩
        waitRead := fun _ h => never h
        waitReadCb := fun _ h => never h
        ready := fun h armed off => seen.trans (inv.ready h armed off)
        pending := fun _ _ h => never (opened.symm.trans h) }

theorem fireReadCb {kept c armed log} (sys) (inv : Inv kept ⟨c,armed,.idle,false,log⟩) (queued : armed .readCb = true) :
    Inv kept (commCbReadCb (fired ⟨c,armed,.idle,false,log⟩ .readCb) sys) := by
  have on : c.r.isActive = true := inv.readCb queued
  have done : Trace (.finish .read::lifeEvents log) ⟨{ c with r.isActive := false }.active,false⟩ :=
    finished .read (lifeOpen inv rfl) on (by funext k; cases k <;> rfl)
  have notDone : c.isCleanup = true → False := busy inv .read on
  unfold commCbReadCb
  split
  · rename_i closing
    exact { inv with
      readCb := never
      cleanup := fun h => (notDone h).elim
      place := ⟨closing,rfl⟩
      freed := never
      life := ⟨false,done,never⟩
      waitRead := fun _ h => never h
      waitReadCb := fun _ h => never h
      pending := fun _ h => never h.symm }
  · rename_i open_
    have opened : c.isClosing = false := by simpa [fired] using open_
    exact readIo sys inv on opened done

theorem fireWrite {kept c armed log} (inv : Inv kept ⟨c,armed,.idle,false,log⟩) :
    Inv kept (commCbWrite (fired ⟨c,armed,.idle,false,log⟩ .write)) := by
  unfold commCbWrite
  dsimp only
  split
  · exact { inv with }
  · rename_i active
    have on : c.w.isActive = true := by simpa [fired] using active
    exact { inv with writeCb := fun _ => on, waitWriteCb := fun _ _ => rfl, freed := never }

/- The write() of comm_cb_write_cb. A short write leaves the operation to the next event. -/
theorem writeIo {kept c armed log} (sys) (inv : Inv kept ⟨c,armed,.idle,false,log⟩) (on : c.w.isActive = true)
    (opened : c.isClosing = false) : Inv kept (commCbWriteIo (fired ⟨c,armed,.idle,false,log⟩ .writeCb) sys) := by
  have notDone : c.isCleanup = true → False := busy inv .write on
  have waits : Inv kept (fired ⟨c,armed,.idle,false,log⟩ .writeCb) :=
    { inv with writeCb := never, freed := never, waitWriteCb := fun h => never (opened.symm.trans h) }
  unfold commCbWriteIo
  split
  · exact waits
  · split
    · exact waits
    · have moved : Inv kept (if sys.ret > 0
          then { fired ⟨c,armed,.idle,false,log⟩ .writeCb with c.w.offset := c.w.offset + sys.ret }
          else fired ⟨c,armed,.idle,false,log⟩ .writeCb) := by
        split
        · exact { waits with }
        · exact waits
      dsimp only
      split
      · rename_i short
        rw [if_neg (by omega)]
        unfold commCbWriteComplete
        split
        · exact waits
        · have done : Trace (.finish .write::lifeEvents log) ⟨{ c with w.isActive := false }.active,false⟩ :=
            finished .write (lifeOpen inv rfl) on (by funext k; cases k <;> rfl)
          exact { waits with
            writeCb := never
            cleanup := fun h => (notDone h).elim
            place := trivial
            freed := never
            life := ⟨false,done,never⟩
            waitWrite := fun _ h => never h
            waitWriteCb := fun _ h => never h
            pending := fun _ _ h => never (opened.symm.trans h) }
      · exact moved

theorem fireWriteCb {kept c armed log} (sys) (inv : Inv kept ⟨c,armed,.idle,false,log⟩)
    (queued : armed .writeCb = true) : Inv kept (commCbWriteCb (fired ⟨c,armed,.idle,false,log⟩ .writeCb) sys) := by
  have on : c.w.isActive = true := inv.writeCb queued
  have notDone : c.isCleanup = true → False := busy inv .write on
  unfold commCbWriteCb
  split
  · rename_i closing
    have done : Trace (.finish .write::lifeEvents log)
        ⟨{ c with w.isActive := false, w.isReady := false }.active,false⟩ :=
      finished .write (lifeOpen inv rfl) on (by funext k; cases k <;> rfl)
    exact { inv with
      writeCb := never
      cleanup := fun h => (notDone h).elim
      place := ⟨closing,rfl⟩
      freed := never
      life := ⟨false,done,never⟩
      waitWrite := fun _ h => never h
      waitWriteCb := fun _ h => never h
      pending := fun _ h => never h.symm }
  · rename_i open_
    exact writeIo sys inv on (by simpa [fired] using open_)

theorem acceptNext {kept c armed log} (sys) (inv : Inv kept ⟨c,armed,.acceptLoop,false,log⟩) :
    Inv kept (commCbAcceptNext ⟨c,armed,.idle,false,log⟩ sys) := by
  have on : c.a.isActive = true := inv.place
  have told : Trace (.notify .accept::lifeEvents log) ⟨c.active,false⟩ := .notify (lifeOpen inv rfl) rfl on
  unfold commCbAcceptNext
  split
  · dsimp only
    split
    · exact { inv with
        accept := fun _ => on, place := trivial, freed := never, waitAccept := fun _ _ => rfl }
    · exact { inv with
        accept := fun _ => on
        place := trivial
        freed := never
        life := ⟨false,told,never⟩
        waitAccept := fun _ _ => rfl }
  · exact { inv with freed := never, life := ⟨false,told,never⟩ }

theorem fireAccept {kept c armed log} (sys) (inv : Inv kept ⟨c,armed,.idle,false,log⟩)
    (queued : armed .accept = true) : Inv kept (commCbAccept (fired ⟨c,armed,.idle,false,log⟩ .accept) sys) := by
  have on : c.a.isActive = true := inv.accept queued
  unfold commCbAccept
  split
  · rename_i closing
    have done : Trace (.finish .accept::lifeEvents log) ⟨{ c with a.isActive := false }.active,false⟩ :=
      finished .accept (lifeOpen inv rfl) on (by funext k; cases k <;> rfl)
    exact { inv with
      accept := never
      cleanup := fun h => busy inv .accept on h
      place := ⟨closing,rfl⟩
      freed := never
      life := ⟨false,done,never⟩
      waitAccept := fun _ h => never h
      pending := fun _ h => never h.symm }
  · have entered : Inv kept ⟨c,Function.update armed .accept false,.acceptLoop,false,.fired .accept::log⟩ :=
      { inv with accept := never, place := on, freed := never, waitAccept := fun h => never h.symm }
    unfold commCbAcceptIo
    rw [if_neg (by simp [fired,on])]
    exact acceptNext sys entered

theorem fireConnect {kept c armed log} {sys : Sys} (inv : Inv kept ⟨c,armed,.idle,false,log⟩)
    (queued : armed .connect = true) (others : kept → c.isClosing = true →
      ¬ (sys.ret = 0 ∧ sys.soError = eInprogress) → ∃ k, k ≠ .connect ∧ c.active k = true) :
    Inv kept (commCbConnect (fired ⟨c,armed,.idle,false,log⟩ .connect) sys) := by
  obtain ⟨on,started⟩ := inv.connect queued
  unfold commCbConnect
  dsimp only
  generalize errno : (if sys.ret = 0 then sys.soError else sys.errno) = x
  split
  · exact { inv with connect := fun _ => ⟨on,started⟩, freed := never, waitConnect := fun _ => Or.inr rfl }
  · rename_i finishes
    have settled : ¬ (sys.ret = 0 ∧ sys.soError = eInprogress) := by
      rintro ⟨zero,progress⟩
      exact finishes ⟨zero,by rw [← errno,if_pos zero]; exact progress⟩
    have done : Trace (.finish .connect::lifeEvents log) ⟨{ c with co.isActive := false }.active,false⟩ :=
      finished .connect (lifeOpen inv rfl) on (by funext k; cases k <;> rfl)
    have other (h : kept) (closing : c.isClosing = true) : ∃ k, { c with co.isActive := false }.active k = true := by
      obtain ⟨k,apart,active⟩ := others h closing settled
      refine ⟨k,?_⟩
      cases k <;> first | exact active | exact absurd rfl apart
    have after (st retval) : Inv kept (State.invoke
        { fired ⟨c,armed,.idle,false,log⟩ .connect with c.co.isActive := false }
        (.connect c.co.cb c.fd c.co.cbdata st retval) .tail) :=
      { inv with
        connect := never
        connectStart := fun h => never (started.symm.trans h)
        cleanup := fun h => busy inv .connect on h
        place := trivial
        freed := never
        life := ⟨false,done,never⟩
        waitConnect := fun h => never h
        pending := fun h _ closing _ => other h closing }
    split
    · exact after .completed 0
    · exact after .error x

theorem fireConnectStart {kept c armed log} (sys) (inv : Inv kept ⟨c,armed,.idle,false,log⟩)
    (queued : armed .connectStart = true) :
    Inv kept (commCbConnectStart (fired ⟨c,armed,.idle,false,log⟩ .connectStart) sys) := by
  have on : c.co.isActive = true := inv.connectStart queued
  have unconnected : armed .connect = true → False := fun h => never ((inv.connect h).2.symm.trans queued)
  have done : Trace (.finish .connect::lifeEvents log) ⟨{ c with co.isActive := false }.active,false⟩ :=
    finished .connect (lifeOpen inv rfl) on (by funext k; cases k <;> rfl)
  unfold commCbConnectStart
  split
  · rename_i closing
    exact { inv with
      connect := fun h => (unconnected h).elim
      connectStart := never
      cleanup := fun h => busy inv .connect on h
      place := ⟨closing,rfl⟩
      freed := never
      life := ⟨false,done,never⟩
      waitConnect := fun h => never h
      pending := fun _ h => never h.symm }
  · rename_i open_
    have opened : c.isClosing = false := by simpa [fired] using open_
    unfold commCbConnectStartIo
    rw [if_neg (by simp [fired,on])]
    split
    · exact { inv with
        connect := fun _ => ⟨on,rfl⟩, connectStart := never, freed := never, waitConnect := fun _ => Or.inr rfl }
    · exact { inv with
        connect := fun h => (unconnected h).elim
        connectStart := never
        cleanup := fun h => busy inv .connect on h
        place := trivial
        freed := never
        life := ⟨false,done,never⟩
        waitConnect := fun h => never h
        pending := fun _ _ h => never (opened.symm.trans h) }

theorem resumeReadClosing {kept c armed log} (sys) (inv : Inv kept ⟨c,armed,.readClosing,false,log⟩) :
    Inv kept (commCbReadClosed ⟨c,armed,.idle,false,log⟩ sys) := by
  obtain ⟨closing,off⟩ := inv.place
  have stopped : Inv kept { stopReading ⟨c,armed,.idle,false,log⟩ with ctl := .readClosing } :=
    { inv with
      freed := never
      waitRead := fun h => never (h.symm.trans closing)
      isRead := fun h => never (h.symm.trans closing)
      ready := fun h => never (h.symm.trans closing) }
  have checked := closedIdle stopped rfl closing
  unfold commCbReadClosed
  dsimp only
  split
  · rename_i ready
    rw [if_pos ready] at checked
    exact checked
  · rename_i notReady
    rw [if_neg notReady] at checked
    have idle : Inv kept (stopReading ⟨c,armed,.idle,false,log⟩) := checked
    rw [readOver sys (show (stopReading ⟨c,armed,.idle,false,log⟩).c.r.isActive = false from off)]
    exact { idle with
      freed := never
      waitRead := fun h => never (h.symm.trans closing)
      isRead := fun h => never (h.symm.trans closing)
      ready := fun h => never (h.symm.trans closing) }

theorem resumeWriteClosing {kept c armed log} (sys) (inv : Inv kept ⟨c,armed,.writeClosing,false,log⟩) :
    Inv kept (commCbWriteClosed ⟨c,armed,.idle,false,log⟩ sys) := by
  obtain ⟨closing,off⟩ := inv.place
  have settled : commCbWriteIo ⟨c,armed,.idle,false,log⟩ sys = ⟨c,armed,.idle,false,log⟩ := writeOver sys off
  rw [commCbWriteClosed,settled]
  exact closedIdle inv rfl closing

theorem resumeAcceptClosing {kept c armed log} (sys) (inv : Inv kept ⟨c,armed,.acceptClosing,false,log⟩) :
    Inv kept (commCbAcceptClosed ⟨c,armed,.idle,false,log⟩ sys) := by
  obtain ⟨closing,off⟩ := inv.place
  have settled : commCbAcceptIo ⟨c,armed,.idle,false,log⟩ sys = ⟨c,armed,.idle,false,log⟩ := acceptOver sys off
  rw [commCbAcceptClosed,settled]
  exact closedIdle inv rfl closing

theorem resumeStartClosing {kept c armed log} (sys) (inv : Inv kept ⟨c,armed,.startClosing,false,log⟩) :
    Inv kept (commCbConnectStartClosed ⟨c,armed,.idle,false,log⟩ sys) := by
  obtain ⟨closing,off⟩ := inv.place
  have settled : commCbConnectStartIo ⟨c,armed,.idle,false,log⟩ sys = ⟨c,armed,.idle,false,log⟩ := connectStartOver sys off
  rw [commCbConnectStartClosed,settled]
  exact closedIdle inv rfl closing

end Libiapp.Comm

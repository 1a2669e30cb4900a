import Libiapp.CommInvariant

/-! What the handlers of a comm do in any state, whatever the client has started: they
end operations and start none, they schedule the cleanup only when nothing is active,
and those of the other operations leave the stream writer alone. -/
namespace Libiapp.Comm
open Runs

/- What a write callback is told. -/
def writeBack : Ev → Option (CommStatus × Int)
  | .invoked (.write _ _ _ st nwritten) => some (st,nwritten)
  | _ => none

structure Winds (writing : Bool) (s s' : State) : Prop where
  grows : s.log <:+ s'.log
  read : s'.c.r.isActive = true → s.c.r.isActive = true
  write : s'.c.w.isActive = true → s.c.w.isActive = true
  accept : s'.c.a.isActive = true → s.c.a.isActive = true
  connect : s'.c.co.isActive = true → s.c.co.isActive = true
  udpRead : s'.c.udpR.isActive = true → s.c.udpR.isActive = true
  udpWrite : s'.c.udpW.isActive = true → s.c.udpW.isActive = true
  stays : s.c.isCleanup = true → s'.c.isCleanup = true
  cleanup : s'.c.isCleanup = true → s.c.isCleanup = true ∨ ∀ k, s'.c.active k = false
  scheduled : s'.armed .cleanup = true → s.armed .cleanup = true ∨ s'.c.isCleanup = true
  inCleanup : s'.ctl.inCleanup = true → s.ctl.inCleanup = true
  freed : s'.freed = s.freed
  closing : s'.c.isClosing = s.c.isClosing
  w : writing = false → s'.c.w = s.c.w
  writeCb : writing = false → s'.armed .writeCb = s.armed .writeCb
  back : writing = false → s'.log.filterMap writeBack = s.log.filterMap writeBack
  inWrite : writing = false → s'.ctl = .writeClosing → s.ctl = .writeClosing

theorem winds (writing) (s : State) : Winds writing s s where
  grows := List.suffix_refl _
  read := id
  write := id
  accept := id
  connect := id
  udpRead := id
  udpWrite := id
  stays := id
  cleanup := Or.inl
  scheduled := Or.inl
  inCleanup := id
  freed := rfl
  closing := rfl
  w _ := rfl
  writeCb _ := rfl
  back _ := rfl
  inWrite _ := id

theorem Winds.falls {writing s s'} (w : Winds writing s s') (k : Kind) (off : s.c.active k = false) :
    s'.c.active k = false := by
  refine Bool.eq_false_iff.mpr fun on => never (off.symm.trans ?_)
  cases k with
  | read => exact w.read on
  | write => exact w.write on
  | accept => exact w.accept on
  | connect => exact w.connect on
  | udpRead => exact w.udpRead on
  | udpWrite => exact w.udpWrite on

theorem Winds.trans {writing s s' s''} (first : Winds writing s s') (second : Winds writing s' s'') :
    Winds writing s s'' where
  grows := first.grows.trans second.grows
  read := first.read ∘ second.read
  write := first.write ∘ second.write
  accept := first.accept ∘ second.accept
  connect := first.connect ∘ second.connect
  udpRead := first.udpRead ∘ second.udpRead
  udpWrite := first.udpWrite ∘ second.udpWrite
  stays := second.stays ∘ first.stays
  cleanup done := by
    rcases second.cleanup done with before | none
    · exact (first.cleanup before).imp_right fun none k => second.falls k (none k)
    · exact Or.inr none
  scheduled queued := by
    rcases second.scheduled queued with before | done
    · exact (first.scheduled before).imp_right second.stays
    · exact Or.inr done
  inCleanup := first.inCleanup ∘ second.inCleanup
  freed := second.freed.trans first.freed
  closing := second.closing.trans first.closing
  w leaves := (second.w leaves).trans (first.w leaves)
  writeCb leaves := (second.writeCb leaves).trans (first.writeCb leaves)
  back leaves := (second.back leaves).trans (first.back leaves)
  inWrite leaves := first.inWrite leaves ∘ second.inWrite leaves

/- A callback that is not one of the close or of the writer. -/
theorem invokeWinds {writing} (s : State) {callback ctl} (silent : writeBack (.invoked callback) = none)
    (outside : ctl.inCleanup = false) (other : ctl ≠ .writeClosing) : Winds writing s (s.invoke callback ctl) :=
  { winds writing s with
    grows := List.suffix_cons _ _
    inCleanup := fun inside => never (outside.symm.trans inside)
    back := fun _ => List.filterMap_cons_none silent
    inWrite := fun _ inside => absurd inside other }

theorem startCleanupWinds (writing) (s : State) : Winds writing s (commStartCleanup s) := by
  unfold commStartCleanup
  split
  · exact winds _ s
  · rename_i closing
    split
    · exact winds _ s
    · split
      · exact winds _ s
      · rename_i ready
        have asked : s.c.isClosing = true := by simpa using closing
        have none := (readyIff asked).mp (by simpa using ready)
        exact { winds writing s with
          stays := fun _ => rfl
          cleanup := fun _ => Or.inr fun k => by have off := none k; cases k <;> exact off
          scheduled := fun _ => Or.inr rfl }

theorem checkWinds {writing s s₁ s₂} (ready : Winds writing s s₁) (other : Winds writing s s₂) :
    Winds writing s (if commIsCloseReady s₁.c then commStartCleanup s₁ else s₂) := by
  split
  · exact ready.trans (startCleanupWinds writing s₁)
  · exact other

theorem readIoWinds (s : State) (sys) : Winds false s (commCbReadIo s sys) := by
  have stops (s : State) : Winds false s (stopReading s) := { winds false s with cleanup := Or.inl }
  unfold commCbReadIo
  split
  · exact stops s
  · have logged : Winds false s { s with log := .readReturned sys.ret sys.errno::s.log } :=
      { winds false s with grows := List.suffix_cons _ _ }
    have ended : Winds false s { s with log := .readReturned sys.ret sys.errno::s.log, c.r.isActive := false } :=
      { logged with read := never, cleanup := Or.inl }
    dsimp only
    split
    · exact logged
    · generalize (if sys.ret = 0 then CommStatus.eof else if sys.ret < 0 then .error else .completed) = st
      split
      · exact (ended.trans (stops _)).trans (invokeWinds _ rfl rfl nofun)
      · exact ended.trans (invokeWinds _ rfl rfl nofun)

theorem writeIoWinds (s : State) (sys) : Winds true s (commCbWriteIo s sys) := by
  unfold commCbWriteIo
  split
  · exact winds _ s
  · split
    · exact winds _ s
    · have bumped : Winds true s (if sys.ret > 0 then { s with c.w.offset := s.c.w.offset + sys.ret } else s) := by
        split
        · exact { winds true s with cleanup := Or.inl, w := nofun }
        · exact winds _ s
      dsimp only
      generalize (if sys.ret > 0 then { s with c.w.offset := s.c.w.offset + sys.ret } else s) = s' at bumped ⊢
      split
      · unfold commCbWriteComplete
        split
        · exact bumped
        · exact bumped.trans { winds true s' with
            grows := List.suffix_cons _ _, write := never, cleanup := Or.inl, inCleanup := never
            w := nofun, back := nofun, inWrite := nofun }
      · exact bumped

theorem acceptNextWinds (s : State) (sys) : Winds false s (commCbAcceptNext s sys) := by
  have waits : Winds false s (s.add .accept) := { winds false s with }
  unfold commCbAcceptNext
  split
  · dsimp only
    split
    · exact waits
    · exact waits.trans (invokeWinds _ rfl rfl nofun)
  · exact invokeWinds _ rfl rfl nofun

theorem acceptIoWinds (s : State) (sys) : Winds false s (commCbAcceptIo s sys) := by
  unfold commCbAcceptIo
  split
  · exact winds _ s
  · exact acceptNextWinds s sys

theorem connectOffWinds (s : State) : Winds false s { s with c.co.isActive := false } :=
  { winds false s with connect := never, cleanup := Or.inl }

theorem connectWinds (s : State) (sys) : Winds false s (commCbConnect s sys) := by
  unfold commCbConnect
  generalize (if sys.ret = 0 then sys.soError else sys.errno) = errno
  dsimp only
  split
  · exact { winds false s with }
  · split <;> exact (connectOffWinds s).trans (invokeWinds _ rfl rfl nofun)

theorem connectStartIoWinds (s : State) (sys) : Winds false s (commCbConnectStartIo s sys) := by
  unfold commCbConnectStartIo
  split
  · exact winds _ s
  · split
    · exact { winds false s with }
    · exact (connectOffWinds s).trans (invokeWinds _ rfl rfl nofun)

theorem udpReadIoWinds (s : State) (sys) : Winds false s (commCbUdpReadIo s sys) := by
  have waits : Winds false s (s.add .udpRead) := { winds false s with }
  unfold commCbUdpReadIo
  split
  · exact winds _ s
  · dsimp only
    split
    · exact waits.trans (invokeWinds _ rfl rfl nofun)
    · split <;> exact waits.trans (invokeWinds _ rfl rfl nofun)

theorem handFrameWinds (s : State) {fr rest st nwritten xerrno ctl} (outside : ctl.inCleanup = false)
    (other : ctl ≠ .writeClosing) : Winds false s (handFrame s fr rest st nwritten xerrno ctl) := by
  have shorter : Winds false s { s with c.udpW.wQ := rest, c.udpW.qlen := s.c.udpW.qlen - 1 } :=
    { winds false s with cleanup := Or.inl }
  exact shorter.trans (invokeWinds _ rfl outside other)

theorem udpWriteNextWinds (s : State) (sys) : Winds false s (commCbUdpWriteNext s sys) := by
  unfold commCbUdpWriteNext
  split
  · exact winds _ s
  · split
    · split
      · exact { winds false s with cleanup := Or.inl }
      · exact handFrameWinds s rfl nofun
    · exact handFrameWinds s rfl nofun

theorem udpWriteIoWinds (s : State) (sys) : Winds false s (commCbUdpWriteIo s sys) := by
  have unprimed : Winds false s { s with c.udpW.isPrimed := false } := { winds false s with cleanup := Or.inl }
  unfold commCbUdpWriteIo
  split
  · exact winds _ s
  · exact unprimed.trans (udpWriteNextWinds _ sys)

theorem udpWriteDrainWinds (s : State) (sys) : Winds false s (commCbUdpWriteDrain s sys) := by
  unfold commCbUdpWriteDrain
  split
  · exact handFrameWinds s rfl nofun
  · have stopped : Winds false s { s with
        c.udpW.isActive := false, c.udpW.isPrimed := false, log := .udpWriteStopped::s.log } :=
      { winds false s with grows := List.suffix_cons _ _, udpWrite := never, cleanup := Or.inl }
    exact checkWinds stopped (stopped.trans (udpWriteIoWinds _ sys))

theorem firedWinds (s : State) (e : CommFde) : Winds (e = .writeCb) s (fired s e) := by
  have logged : Winds (e = .writeCb) s { s with log := .fired e::s.log } :=
    { winds _ s with grows := List.suffix_cons _ _ }
  cases e with
  | cleanup => exact { logged with scheduled := never }
  | writeCb => exact { logged with writeCb := fun other => never other.symm }
  | _ => exact { logged with }

/- The two fdes of the writer. -/
def CommFde.writes : CommFde → Bool
  | .write | .writeCb => true
  | _ => false

theorem handleWinds (s : State) (sys) {e : CommFde} (cleans : e ≠ .cleanup) : Winds e.writes s (handle s sys e) := by
  cases e with
  | read =>
    have told : Winds false s { s with c.r.isReady := true } := { winds false s with cleanup := Or.inl }
    simp only [handle,commCbRead]
    split
    · exact told
    · exact { told with }
  | readCb =>
    simp only [handle,commCbReadCb]
    split
    · have ended : Winds false s { s with c.r.isActive := false } :=
        { winds false s with read := never, cleanup := Or.inl }
      exact ended.trans (invokeWinds _ rfl rfl nofun)
    · exact readIoWinds s sys
  | write =>
    have told : Winds true s { s with c.w.isReady := true } := { winds true s with cleanup := Or.inl, w := nofun }
    simp only [handle,commCbWrite]
    split
    · exact told
    · exact { told with writeCb := nofun }
  | writeCb =>
    simp only [handle,commCbWriteCb]
    split
    · exact { winds true s with
        grows := List.suffix_cons _ _, write := never, cleanup := Or.inl, inCleanup := never
        w := nofun, back := nofun, inWrite := nofun }
    · exact writeIoWinds s sys
  | accept =>
    simp only [handle,commCbAccept]
    split
    · have ended : Winds false s { s with c.a.isActive := false } :=
        { winds false s with accept := never, cleanup := Or.inl }
      exact ended.trans (invokeWinds _ rfl rfl nofun)
    · exact acceptIoWinds s sys
  | connect => exact connectWinds s sys
  | connectStart =>
    simp only [handle,commCbConnectStart]
    split
    · exact (connectOffWinds s).trans (invokeWinds _ rfl rfl nofun)
    · exact connectStartIoWinds s sys
  | cleanup => exact absurd rfl cleans
  | udpRead =>
    simp only [handle,commCbUdpRead]
    split
    · have ended : Winds false s { s with c.udpR.isActive := false } :=
        { winds false s with udpRead := never, cleanup := Or.inl }
      exact ended.trans (invokeWinds _ rfl rfl nofun)
    · exact udpReadIoWinds s sys
  | udpWrite =>
    simp only [handle,commCbUdpWrite]
    split
    · exact udpWriteDrainWinds s sys
    · exact udpWriteIoWinds s sys

theorem goOnWinds (s : State) (sys) {ctl : Ctl} (cleans : ctl ≠ .cleanup) :
    Winds (ctl = .writeClosing) s (goOn s sys ctl) := by
  cases ctl with
  | idle => exact winds _ s
  | tail => exact winds _ s
  | readClosing =>
    have stopped : Winds false s (stopReading s) := { winds false s with cleanup := Or.inl }
    exact checkWinds stopped (stopped.trans (readIoWinds _ sys))
  | writeClosing => exact checkWinds (winds true s) (writeIoWinds s sys)
  | acceptClosing => exact checkWinds (winds false s) (acceptIoWinds s sys)
  | acceptLoop => exact acceptNextWinds s sys
  | startClosing => exact checkWinds (winds false s) (connectStartIoWinds s sys)
  | udpReadClosing => exact checkWinds (winds false s) (udpReadIoWinds s sys)
  | udpDrain => exact udpWriteDrainWinds s sys
  | udpSend => exact udpWriteNextWinds s sys
  | cleanup => exact absurd rfl cleans

theorem closeReadingWinds (writing) (s : State) : Winds writing s (closeReading s) := by
  unfold closeReading
  split
  · exact { winds writing s with }
  · split
    · exact { winds writing s with cleanup := Or.inl }
    · exact winds writing s

theorem closeWritingWinds (s : State) : Winds true s (closeWriting s) := by
  unfold closeWriting
  split
  · exact { winds true s with writeCb := nofun }
  · split
    · exact { winds true s with cleanup := Or.inl, w := nofun }
    · exact winds true s

end Libiapp.Comm

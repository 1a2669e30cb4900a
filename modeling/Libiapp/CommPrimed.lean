import Libiapp.CommLate

/-! The write event of a UDP comm. Between handlers is_primed says whether ev_udp_write is
active, and a frame in w_q has it active, so a queued frame is never left without an event
to send it. Inside comm_cb_udp_write both may be off while frames wait, and in its closing
loop is_primed is still set for the event that has fired. -/
namespace Libiapp.Comm
open Runs

/- What holds of the writer wherever its handler is. -/
structure Counted (s : State) : Prop where
  len : s.c.udpW.qlen = s.c.udpW.wQ.length
  most : s.c.udpW.qlen ≤ max 0 s.c.udpW.maxQlen
  active : s.c.udpW.isPrimed = true → s.c.udpW.isActive = true
  cleanup : s.c.isCleanup = true → s.c.udpW.isPrimed = false

structure Primed (s : State) : Prop extends Counted s where
  inside : s.ctl.inUdpWrite = true → s.c.udpW.isActive = true ∧ s.c.isCleanup = false
  drain : s.ctl = .udpDrain → s.c.isClosing = true ∧ s.armed .udpWrite = false
  flag : s.ctl ≠ .udpDrain → s.c.udpW.isPrimed = s.armed .udpWrite
  waits : s.ctl.inUdpWrite = false → s.c.udpW.wQ ≠ [] → s.c.udpW.isPrimed = true

theorem Counted.unprimed {s} (counted : Counted s) (off : s.c.udpW.isActive = false) : s.c.udpW.isPrimed = false :=
  Bool.eq_false_iff.mpr fun primed => never (off.symm.trans (counted.active primed))

theorem notDraining {ctl : Ctl} (out : ctl.inUdpWrite = false) : ctl ≠ .udpDrain := by
  intro here
  rw [here] at out
  exact never out.symm

theorem startCleanupCtl (s : State) : (commStartCleanup s).ctl = s.ctl := by
  unfold commStartCleanup
  repeat' split
  all_goals rfl

theorem closeCtl (s : State) : (commClose s).ctl = s.ctl := by
  have reading (s : State) : (closeReading s).ctl = s.ctl := by
    unfold closeReading
    repeat' split
    all_goals rfl
  have writing (s : State) : (closeWriting s).ctl = s.ctl := by
    unfold closeWriting
    repeat' split
    all_goals rfl
  have stopped : (closeWriting (closeReading { s with c.isClosing := true })).ctl = s.ctl :=
    (writing _).trans (reading _)
  unfold commClose
  split
  · rfl
  · dsimp only
    split
    · exact stopped
    · exact (startCleanupCtl _).trans stopped

theorem untouchedPrimed {s s'} (same : Untouched s s') (place : s.ctl.inUdpWrite = true → s'.ctl = s.ctl)
    (p : Primed s) : Primed s' where
  len := by rw [same.udpW]; exact p.len
  most := by rw [same.udpW]; exact p.most
  active := by rw [same.udpW]; exact p.active
  cleanup done := by
    rw [same.udpW]
    rcases same.cleanup done with before | ⟨_,off⟩
    · exact p.cleanup before
    · exact p.unprimed off
  inside here := by
    obtain ⟨on,kept⟩ := p.inside (same.inUdpWrite here)
    refine ⟨same.udpW ▸ on,Bool.eq_false_iff.mpr fun done => ?_⟩
    rcases same.cleanup done with before | ⟨_,off⟩
    · exact never (kept.symm.trans before)
    · exact never (off.symm.trans on)
  drain here := by
    have was : s.ctl.inUdpWrite = true := same.inUdpWrite (by rw [here]; rfl)
    rw [same.closing,same.armed]
    exact p.drain ((place was).symm.trans here)
  flag out := by
    rw [same.udpW,same.armed]
    exact p.flag fun was => out ((place (by rw [was]; rfl)).trans was)
  waits out := by
    rw [same.udpW]
    refine p.waits (Bool.eq_false_iff.mpr fun was => ?_)
    rw [place was] at out
    exact never (out.symm.trans was)

theorem handFrameCounted {s fr rest st nwritten xerrno ctl} (counted : Counted s) (head : s.c.udpW.wQ = fr::rest) :
    Counted (handFrame s fr rest st nwritten xerrno ctl) := by
  have len : s.c.udpW.qlen = rest.length + 1 := by
    rw [counted.len,head]
    rfl
  have most := counted.most
  exact { counted with
    len := show s.c.udpW.qlen - 1 = rest.length by omega
    most := show s.c.udpW.qlen - 1 ≤ max 0 s.c.udpW.maxQlen by omega }

/- The sendto() loop: a frame that it hands over leaves it inside the handler, and one
that it cannot send yet is given a new event. -/
theorem udpWriteNextPrimed {s} (sys) (counted : Counted s) (out : s.ctl.inUdpWrite = false)
    (on : s.c.udpW.isActive = true) (kept : s.c.isCleanup = false)
    (flag : s.c.udpW.isPrimed = s.armed .udpWrite) : Primed (commCbUdpWriteNext s sys) := by
  have handed {fr rest st nwritten xerrno} (head : s.c.udpW.wQ = fr::rest) :
      Primed (handFrame s fr rest st nwritten xerrno .udpSend) :=
    { handFrameCounted counted head with
      inside := fun _ => ⟨on,kept⟩
      drain := fun here => absurd (show Ctl.udpSend = .udpDrain from here) (by decide)
      flag := fun _ => flag
      waits := never ∘ Eq.symm }
  unfold commCbUdpWriteNext
  split
  · rename_i empty
    exact { counted with
      inside := fun here => never (out.symm.trans here)
      drain := fun here => absurd here (notDraining out)
      flag := fun _ => flag
      waits := fun _ waiting => absurd empty waiting }
  · rename_i fr rest head
    split
    · split
      · exact { counted with
          active := fun _ => on
          cleanup := fun done => never (kept.symm.trans done)
          inside := fun _ => ⟨on,kept⟩
          drain := fun here => absurd here (notDraining out)
          flag := fun _ => rfl
          waits := fun _ _ => rfl }
      · exact handed head
    · exact handed head

/- The closing loop. It is left with the writer off, so what follows it returns. -/
theorem udpWriteDrainPrimed {s} (sys) (counted : Counted s) (out : s.ctl.inUdpWrite = false)
    (on : s.c.udpW.isActive = true) (kept : s.c.isCleanup = false) (closing : s.c.isClosing = true)
    (fired : s.armed .udpWrite = false) : Primed (commCbUdpWriteDrain s sys) := by
  unfold commCbUdpWriteDrain
  split
  · rename_i fr rest head
    exact { handFrameCounted counted head with
      inside := fun _ => ⟨on,kept⟩
      drain := fun _ => ⟨closing,fired⟩
      flag := fun out => absurd rfl out
      waits := never ∘ Eq.symm }
  · rename_i empty
    have off : Primed { s with c.udpW.isActive := false, c.udpW.isPrimed := false, log := .udpWriteStopped::s.log } :=
      { counted with
        active := never
        cleanup := fun _ => rfl
        inside := fun here => never (out.symm.trans here)
        drain := fun here => absurd here (notDraining out)
        flag := fun _ => fired.symm
        waits := fun _ waiting => absurd empty waiting }
    dsimp only
    split
    · exact untouchedPrimed (startCleanupUntouched _) (fun here => never (out.symm.trans here)) off
    · exact off

theorem udpWriteFiredPrimed {s} (sys) (p : Primed s) (out : s.ctl.inUdpWrite = false)
    (armed : s.armed .udpWrite = true) : Primed (handle (fired s .udpWrite) sys .udpWrite) := by
  have primed : s.c.udpW.isPrimed = true := (p.flag (notDraining out)).trans armed
  have on := p.active primed
  have kept : s.c.isCleanup = false :=
    Bool.eq_false_iff.mpr fun done => never ((p.cleanup done).symm.trans primed)
  have counted : Counted (fired s .udpWrite) := { p.toCounted with }
  simp only [handle,commCbUdpWrite]
  split
  · rename_i closing
    exact udpWriteDrainPrimed sys counted out on kept closing rfl
  · have ready : (!s.c.udpW.isActive || !s.c.udpW.isPrimed) = false := by rw [on,primed]; rfl
    have sends : commCbUdpWriteIo (fired s .udpWrite) sys =
        commCbUdpWriteNext { fired s .udpWrite with c.udpW.isPrimed := false } sys := by
      simp only [commCbUdpWriteIo,fired,ready,Bool.false_eq_true,if_false]
    have cleared : Counted { fired s .udpWrite with c.udpW.isPrimed := false } :=
      { counted with active := never, cleanup := fun _ => rfl }
    rw [sends]
    exact udpWriteNextPrimed sys cleared out on kept rfl

/- Freeing the fdes takes the write event away, of a writer that is not primed. -/
theorem cleanupFreePrimed {s} (p : Primed s) (out : s.ctl.inUdpWrite = false) (done : s.c.isCleanup = true) :
    Primed (commCbCleanupFree s) :=
  { p with
    drain := fun here => absurd here (notDraining out)
    flag := fun _ => p.cleanup done }

theorem cleanupFiredPrimed {s} (sys) (p : Primed s) (out : s.ctl.inUdpWrite = false) (done : s.c.isCleanup = true) :
    Primed (handle (fired s .cleanup) sys .cleanup) := by
  have off : Primed (fired s .cleanup) := { p with }
  simp only [handle,commCbCleanup]
  split
  · exact cleanupFreePrimed off out done
  · exact { off with
      inside := never
      drain := fun here => absurd here (notDraining rfl)
      flag := fun _ => p.flag (notDraining out)
      waits := fun _ => p.waits out }

theorem firePrimed {s} (e : CommFde) (sys) (q : Queue False s) (p : Primed s) (idle : s.ctl = .idle)
    (armed : s.armed e = true) : Primed (handle (fired s e) sys e) := by
  have out : s.ctl.inUdpWrite = false := by rw [idle]; rfl
  by_cases sends : e = .udpWrite
  · subst e
    exact udpWriteFiredPrimed sys p out armed
  · by_cases cleans : e = .cleanup
    · subst e
      exact cleanupFiredPrimed sys p out (q.scheduled armed)
    · have same := (firedUntouched s sends).trans (handleUntouched _ sys sends cleans)
      exact untouchedPrimed same (fun here => never (out.symm.trans here)) p

theorem resumePrimed {s} (sys) (q : Queue False s) (p : Primed s) :
    Primed (goOn { s with ctl := .idle } sys s.ctl) := by
  have counted : Counted { s with ctl := .idle } := { p.toCounted with }
  have returned (out : s.ctl.inUdpWrite = false) : Primed { s with ctl := .idle } :=
    { counted with
      inside := never
      drain := fun here => absurd here (notDraining rfl)
      flag := fun _ => p.flag (notDraining out)
      waits := fun _ => p.waits out }
  cases place : s.ctl with
  | udpDrain =>
    obtain ⟨on,kept⟩ := p.inside (by rw [place]; rfl)
    obtain ⟨closing,fired⟩ := p.drain place
    exact udpWriteDrainPrimed sys counted rfl on kept closing fired
  | udpSend =>
    obtain ⟨on,kept⟩ := p.inside (by rw [place]; rfl)
    exact udpWriteNextPrimed sys counted rfl on kept (p.flag (by rw [place]; decide))
  | cleanup => exact cleanupFreePrimed (returned (by rw [place]; rfl)) rfl (q.place (by rw [place]; rfl))
  | _ => exact untouchedPrimed (goOnUntouched _ sys rfl rfl) never (returned (by rw [place]; rfl))

/- A frame can be queued while its handler sends others, but not in the closing loop. -/
theorem udpWritePrimed {s} (fr : Frame) (q : Queue False s) (p : Primed s) : Primed (client s (.udpWrite fr)) := by
  simp only [client,commCall,commUdpWrite]
  split
  · exact { p with }
  · rename_i accepts
    obtain ⟨on,opened⟩ : s.c.udpW.isActive = true ∧ s.c.isClosing = false := by simpa using accepts
    split
    · exact { p with }
    · rename_i room
      have len : s.c.udpW.qlen + 1 = ((s.c.udpW.wQ ++ [fr]).length : Int) := by
        rw [p.len,List.length_append]
        rfl
      have most : s.c.udpW.qlen + 1 ≤ max 0 s.c.udpW.maxQlen := by omega
      have sending : s.ctl ≠ .udpDrain := fun here => never (opened.symm.trans (p.drain here).1)
      split
      · rename_i unprimed
        exact { p with
          len := len
          most := most
          active := fun _ => on
          cleanup := fun done => never (opened.symm.trans (q.cleanup done).1)
          drain := fun here => absurd here sending
          flag := fun _ => rfl
          waits := fun _ _ => rfl }
      · rename_i primed
        have already : s.c.udpW.isPrimed = true := by simpa using primed
        exact { p with
          len := len
          most := most
          waits := fun _ _ => already }

theorem udpWriteSetupPrimed {s} (cb cbdata : Nat) (qlen : Int) (q : Queue False s) (p : Primed s) :
    Primed (client s (.udpWriteSetup cb cbdata qlen)) := by
  simp only [client,commCall,commUdpWriteSetup]
  split
  · exact { p with }
  · rename_i inactive
    have off : s.c.udpW.isActive = false := by simpa using inactive
    have outside : s.ctl.inUdpWrite = true → False := fun here => never (off.symm.trans (p.inside here).1)
    have sending : s.ctl ≠ .udpDrain := fun here => outside (by rw [here]; rfl)
    have empty := q.stopped off
    exact { p with
      len := show (0 : Int) = s.c.udpW.wQ.length by rw [empty]; rfl
      most := show (0 : Int) ≤ max 0 qlen by omega
      active := never
      cleanup := fun _ => rfl
      inside := fun here => (outside here).elim
      flag := fun _ => (p.unprimed off).symm.trans (p.flag sending)
      waits := fun _ waiting => absurd empty waiting }

theorem closePrimed {s} (p : Primed s) : Primed (commClose s) := by
  have ctl := closeCtl s
  unfold commClose at ctl ⊢
  split
  · exact p
  · rename_i opened
    rw [if_neg opened] at ctl
    have asked : Primed { s with c.isClosing := true } := { p with drain := fun here => ⟨rfl,(p.drain here).2⟩ }
    exact untouchedPrimed (closeUntouched _) (fun _ => ctl) asked

theorem callPrimed {s} (call : Call) (q : Queue False s) (p : Primed s) : Primed (client s call) := by
  cases call with
  | udpWriteSetup cb cbdata qlen => exact udpWriteSetupPrimed cb cbdata qlen q p
  | udpWrite fr => exact udpWritePrimed fr q p
  | close =>
    have closed := closePrimed p
    exact { closed with }
  | markNonclose => exact { p with }
  | _ => exact untouchedPrimed (callUntouched s rfl) (fun _ => (started rfl).1.ctl) p

theorem stepPrimed {s a} (q : Queue False s) (p : Primed s) (allowed : Allowed s a) : Primed (step s a) := by
  cases a with
  | client call => exact callPrimed call q p
  | fire e sys => exact firePrimed e sys q p allowed.1 allowed.2
  | resume sys => exact resumePrimed sys q p

theorem reachPrimed {s} (h : Reach commMachine s) : Primed s := by
  induction h with
  | start created =>
    obtain ⟨fd,cb,cbdata,rfl⟩ := created
    exact ⟨⟨rfl,Int.le_refl 0,never,never⟩,never,fun here => absurd here (notDraining rfl),fun _ => rfl,
      fun _ waiting => absurd rfl waiting⟩
  | next before allowed ih => exact stepPrimed (reachQueue before) ih allowed

/- Between handlers qlen is the number of queued frames, never above the limit that
comm_udp_write_setup was given, and is_primed says whether the write event is active,
which it is while a frame is queued. -/
theorem udpWriterPrimed {s} (h : Reach commMachine s) (between : s.ctl = .idle) :
    s.c.udpW.qlen = s.c.udpW.wQ.length ∧ s.c.udpW.qlen ≤ max 0 s.c.udpW.maxQlen ∧
    (s.c.udpW.isPrimed = true ↔ s.armed .udpWrite = true) ∧
    (s.c.udpW.wQ ≠ [] → s.c.udpW.isPrimed = true ∧ s.armed .udpWrite = true) := by
  have p := reachPrimed h
  have out : s.ctl.inUdpWrite = false := by rw [between]; rfl
  have flag := p.flag (notDraining out)
  refine ⟨p.len,p.most,by rw [flag],fun waiting => ?_⟩
  have primed := p.waits out waiting
  exact ⟨primed,flag.symm.trans primed⟩

/- The run above up to the close: a frame that could not be sent and the one that a
callback has queued wait for the next event. -/
theorem udpWriterPrimedRun :
    let s := run commMachine (commCreate 5 none 0) (udpRun.take 6)
    s.c.udpW.wQ = [⟨2,64,20⟩,⟨3,64,30⟩] ∧ s.c.udpW.isPrimed = true ∧ s.armed .udpWrite = true := by
  have reached : Reach commMachine (run commMachine (commCreate 5 none 0) (udpRun.take 6)) :=
    reachRun (.start ⟨5,none,0,rfl⟩) (by decide)
  exact ⟨by decide,(udpWriterPrimed reached (by decide)).2.2.2 (by decide)⟩

end Libiapp.Comm

import Libiapp.CommCalls

/-! What a program that owns a comm needs to know of it: which operations are active and how
far the close has come. For an open comm with one operation, and for one that is on its way
to being freed, this says what each event can do. -/
namespace Libiapp.Comm
open Runs

structure Face where
  active : Kind → Bool
  isClosing : Bool
  isCleanup : Bool
  freed : Bool
  ctl : Ctl
  cb : Option Nat

def face (s : State) : Face := ⟨s.c.active,s.c.isClosing,s.c.isCleanup,s.freed,s.ctl,s.c.c.cb⟩

def solely (k : Kind) : Kind → Bool := fun j => j == k

def inactive : Kind → Bool := fun _ => false

/- The operation in whose course an fde is active. -/
def CommFde.kind : CommFde → Option Kind
  | .readCb => some .read
  | .writeCb => some .write
  | .accept => some .accept
  | .connect | .connectStart => some .connect
  | .udpRead => some .udpRead
  | .udpWrite => some .udpWrite
  | .read | .write | .cleanup => none

theorem armedActive {kept s e k} (inv : Inv kept s) (queued : s.armed e = true) (same : e.kind = some k) :
    s.c.active k = true := by
  cases e <;> cases same
  · exact inv.readCb queued
  · exact inv.writeCb queued
  · exact inv.accept queued
  · exact (inv.connect queued).1
  · exact inv.connectStart queued
  · exact inv.udpRead queued
  · exact inv.udpWrite queued

@[simp] theorem faceAdd (s : State) (e) : face (s.add e) = face s := rfl

@[simp] theorem faceFired (s : State) (e) : face (fired s e) = face s := rfl

theorem idleUncalled {s} (idle : s.ctl = .idle) : calling s = none := by
  unfold calling
  rw [idle]

theorem callingInvoke {ctl : Ctl} (s : State) (callback) (away : ctl ≠ .idle) :
    calling (s.invoke callback ctl) = some callback := by
  cases ctl <;> first | exact absurd rfl away | rfl

theorem faceNoted {s e sys} (notes : e = .read ∨ e = .write) : face (step s (.fire e sys)) = face s := by
  rcases notes with rfl | rfl
  · simp only [step,handle,commCbRead]
    split <;> rfl
  · simp only [step,handle,commCbWrite]
    split <;> rfl

theorem faceRead {kept s} (buf len cb cbdata) (inv : Inv kept s) (alive : s.freed = false)
    (opened : s.c.isClosing = false) (off : s.c.r.isActive = false) :
    face (client s (.read buf len cb cbdata)) = { face s with active := Function.update s.c.active .read true } := by
  obtain ⟨c,armed,ctl,freed,log⟩ := s
  cases show freed = false from alive
  rw [readAccepted buf len cb cbdata inv opened off]
  have begun : { c with r := ⟨true,c.r.isReady,true,buf,len,cb,cbdata⟩ }.active =
      Function.update c.active .read true := by
    funext k
    cases k <;> rfl
  simp only [face,begun]

theorem faceWrite {kept s} (nb start len cb cbdata) (inv : Inv kept s) (alive : s.freed = false)
    (opened : s.c.isClosing = false) (off : s.c.w.isActive = false) :
    face (client s (.write nb start len cb cbdata)) = { face s with active := Function.update s.c.active .write true } := by
  obtain ⟨c,armed,ctl,freed,log⟩ := s
  cases show freed = false from alive
  rw [writeAccepted nb start len cb cbdata inv opened off]
  have begun : { c with w := ⟨true,c.w.isReady,true,nb,start,0,len,cb,cbdata⟩ }.active =
      Function.update c.active .write true := by
    funext k
    cases k <;> rfl
  simp only [face,begun]

theorem faceConnect {s} (sin slen cb cbdata) (off : s.c.co.isActive = false) (fits : slen ≤ sizeofSockaddrStorage) :
    face (client s (.connect sin slen cb cbdata)) =
      { face s with active := Function.update s.c.active .connect true } := by
  have begun : { s.c with co := ⟨true,cb,cbdata,sin,slen⟩ }.active = Function.update s.c.active .connect true := by
    funext k
    cases k <;> rfl
  simp only [client,commCall,commConnect,off,Bool.false_eq_true,if_false,if_neg (Nat.not_lt.mpr fits)]
  simp only [face,State.add,begun]

/- comm_close schedules the cleanup itself if there is nothing to wait for. -/
theorem faceCloses {kept s} (inv : Inv kept s) (alive : s.freed = false) (opened : s.c.isClosing = false) :
    face (client s .close) =
      { face s with isClosing := true, isCleanup := commIsCloseReady { s.c with isClosing := true } } := by
  obtain ⟨c,armed,ctl,freed,log⟩ := s
  cases show freed = false from alive
  have readCb : armed .readCb = true → { c with isClosing := true }.r.isActive = true := inv.readCb
  have writeCb : armed .writeCb = true → { c with isClosing := true }.w.isActive = true := inv.writeCb
  obtain ⟨isRead,reading,read⟩ := @readingClosed _ _ ctl log readCb
  obtain ⟨isWrite,writing,write⟩ := @writingClosed { c with isClosing := true, r.isRead := isRead }
    (Function.update (Function.update armed .read reading) .readCb c.r.isActive) ctl log writeCb
  have fresh : c.isCleanup = false := Bool.eq_false_iff.mpr fun done => notCleanup inv opened done
  have same (isCleanup) : { c with isClosing := true, isCleanup := isCleanup, r.isRead := isRead, w.isWrite := isWrite }.active =
      c.active := by
    funext k
    cases k <;> rfl
  have ready : commIsCloseReady { c with isClosing := true, r.isRead := isRead, w.isWrite := isWrite } =
      commIsCloseReady { c with isClosing := true } := rfl
  have closed : face (commClose ⟨c,armed,ctl,false,log⟩) = { face ⟨c,armed,ctl,false,log⟩ with
      isClosing := true, isCleanup := commIsCloseReady { c with isClosing := true } } := by
    rw [commClose,if_neg (by simp [show c.isClosing = false from opened])]
    dsimp only
    rw [read,write]
    cases idle : commIsCloseReady { c with isClosing := true } with
    | false =>
      rw [if_pos (by simp [ready,idle])]
      simp only [face,same,fresh]
    | true =>
      rw [if_neg (by simp [ready,idle]),commStartCleanup,if_neg (by simp),if_neg (by simp [fresh]),
        if_neg (by simp [ready,idle])]
      simp only [face,State.add,same]
  exact closed

theorem faceClose {kept s} (inv : Inv kept s) (alive : s.freed = false) (opened : s.c.isClosing = false)
    (off : s.c.active = inactive) : face (client s .close) = { face s with isClosing := true, isCleanup := true } := by
  have ready : commIsCloseReady { s.c with isClosing := true } = true := by
    rw [readyIff rfl]
    intro k
    have quiet := congrFun off k
    cases k <;> exact quiet
  rw [faceCloses inv alive opened,ready]

theorem connectGoes (s : State) (sys) : commCbConnect s sys = s.add .connect ∨
    ∃ st xerrno, commCbConnect s sys =
      { s with c.co.isActive := false }.invoke (.connect s.c.co.cb s.c.fd s.c.co.cbdata st xerrno) .tail := by
  unfold commCbConnect
  dsimp only
  generalize (if sys.ret = 0 then sys.soError else sys.errno) = errno
  split
  · exact Or.inl rfl
  · split <;> exact Or.inr ⟨_,_,rfl⟩

theorem connectStartGoes {s : State} (sys) (opened : s.c.isClosing = false) (on : s.c.co.isActive = true) :
    commCbConnectStart s sys = s.add .connect ∨
    ∃ st xerrno, commCbConnectStart s sys =
      { s with c.co.isActive := false }.invoke (.connect s.c.co.cb s.c.fd s.c.co.cbdata st xerrno) .tail := by
  rw [commCbConnectStart,if_neg (by simp [opened]),commCbConnectStartIo,if_neg (by simp [on])]
  split
  · exact Or.inl rfl
  · exact Or.inr ⟨_,_,rfl⟩

theorem readGoes {s : State} (sys) (opened : s.c.isClosing = false) (on : s.c.r.isActive = true) :
    (∃ log, commCbReadCb s sys = { s with log := log }) ∨
    ∃ log armed isReady isRead st ret, commCbReadCb s sys =
      { s with c.r.isActive := false, c.r.isReady := isReady, c.r.isRead := isRead, armed := armed, log := log }.invoke
        (.read s.c.r.cb (-1) s.c.r.cbdata st ret) .tail := by
  rw [commCbReadCb,if_neg (by simp [opened]),commCbReadIo,if_neg (by simp [on])]
  dsimp only
  split
  · exact Or.inl ⟨_,rfl⟩
  · right
    generalize (if sys.ret = 0 then CommStatus.eof else if sys.ret < 0 then .error else .completed) = st
    split
    · exact ⟨_,_,_,_,_,_,rfl⟩
    · exact ⟨_,s.armed,s.c.r.isReady,s.c.r.isRead,_,_,rfl⟩

/- What stays behind when the only active operation calls back. -/
theorem solelyDone {c c' : FdeComm} {k} (sole : c.active = solely k)
    (done : c'.active = Function.update c.active k false) : c'.active = inactive := by
  rw [done,sole]
  funext j
  rcases eq_or_ne j k with rfl | other
  · simp [inactive]
  · simp [inactive,solely,other]

theorem soleReported {s s' : State} {k cb} (shows : face s = ⟨solely k,false,false,false,.idle,cb⟩)
    (behind : face s' = { face s with active := s'.c.active, ctl := .tail })
    (done : s'.c.active = Function.update s.c.active k false) : face s' = ⟨inactive,false,false,false,.tail,cb⟩ := by
  have sole : s.c.active = solely k := congrArg Face.active shows
  rw [behind,solelyDone sole done,shows]

theorem solelyArmed {kept s e k} (inv : Inv kept s) (opened : s.c.isClosing = false) (sole : s.c.active = solely k)
    (queued : s.armed e = true) : e = .read ∨ e = .write ∨ e.kind = some k := by
  cases kind : e.kind with
  | none =>
    cases e with
    | read => exact Or.inl rfl
    | write => exact Or.inr (Or.inl rfl)
    | cleanup => exact (notCleanup inv opened (inv.scheduled queued)).elim
    | _ => cases kind
  | some j =>
    have on := armedActive inv queued kind
    rw [sole] at on
    exact Or.inr (Or.inr (congrArg some (by simpa [solely] using on)))

/- A connect() and a getsockopt() that are still in progress leave everything as it is. -/
theorem fireConnecting {s e sys cb} (inv : Inv False s) (queued : s.armed e = true)
    (shows : face s = ⟨solely .connect,false,false,false,.idle,cb⟩) :
    face (step s (.fire e sys)) = face s ∨
      (∃ fn fd cbdata st xerrno, calling (step s (.fire e sys)) = some (.connect fn fd cbdata st xerrno)) ∧
      face (step s (.fire e sys)) = ⟨inactive,false,false,false,.tail,cb⟩ := by
  have sole : s.c.active = solely .connect := congrArg Face.active shows
  have opened : s.c.isClosing = false := congrArg Face.isClosing shows
  have on : s.c.co.isActive = true := congrFun sole .connect
  rcases solelyArmed inv opened sole queued with notes | notes | kind
  · exact Or.inl (faceNoted (Or.inl notes))
  · exact Or.inl (faceNoted (Or.inr notes))
  · have goes : step s (.fire e sys) = (fired s e).add .connect ∨
        ∃ st xerrno, step s (.fire e sys) = { fired s e with c.co.isActive := false }.invoke
          (.connect s.c.co.cb s.c.fd s.c.co.cbdata st xerrno) .tail := by
      cases e with
      | connect => exact connectGoes (fired s .connect) sys
      | connectStart => exact connectStartGoes sys opened on
      | _ => cases kind
    rcases goes with same | ⟨st,xerrno,called⟩
    · rw [same]
      exact Or.inl rfl
    · rw [called]
      exact Or.inr ⟨⟨_,_,_,_,_,rfl⟩,soleReported shows rfl (by funext k; cases k <;> rfl)⟩

theorem fireReading {s e sys cb} (inv : Inv False s) (queued : s.armed e = true)
    (shows : face s = ⟨solely .read,false,false,false,.idle,cb⟩) :
    face (step s (.fire e sys)) = face s ∨
      (∃ fn fd cbdata st ret, calling (step s (.fire e sys)) = some (.read fn fd cbdata st ret)) ∧
      face (step s (.fire e sys)) = ⟨inactive,false,false,false,.tail,cb⟩ := by
  have sole : s.c.active = solely .read := congrArg Face.active shows
  have opened : s.c.isClosing = false := congrArg Face.isClosing shows
  have on : s.c.r.isActive = true := congrFun sole .read
  rcases solelyArmed inv opened sole queued with notes | notes | kind
  · exact Or.inl (faceNoted (Or.inl notes))
  · exact Or.inl (faceNoted (Or.inr notes))
  · cases e with
    | readCb =>
      rcases readGoes (s := fired s .readCb) sys opened on with ⟨log,same⟩ | ⟨log,armed,isReady,isRead,st,ret,called⟩
      · simp only [step,handle,same]
        exact Or.inl rfl
      · simp only [step,handle,called]
        exact Or.inr ⟨⟨_,_,_,_,_,rfl⟩,soleReported shows rfl (by funext k; cases k <;> rfl)⟩
    | _ => cases kind

/- The cleanup of a comm that shows no other sign of life. -/
theorem fireClosing {s e sys cb} (inv : Inv False s) (queued : s.armed e = true)
    (shows : face s = ⟨inactive,true,true,false,.idle,some cb⟩) :
    face (step s (.fire e sys)) = face s ∨
      (∃ fn fd cbdata, calling (step s (.fire e sys)) = some (.close fn fd cbdata)) ∧
      face (step s (.fire e sys)) = ⟨inactive,true,true,false,.cleanup,some cb⟩ := by
  have off : s.c.active = inactive := congrArg Face.active shows
  have calls : s.c.c.cb = some cb := congrArg Face.cb shows
  have absent {k} (same : e.kind = some k) : False := by
    have on := armedActive inv queued same
    rw [off] at on
    exact never on
  cases e with
  | read => exact Or.inl (faceNoted (Or.inl rfl))
  | write => exact Or.inl (faceNoted (Or.inr rfl))
  | cleanup =>
    have called : step s (.fire .cleanup sys) = (fired s .cleanup).invoke (.close cb s.c.fd s.c.c.cbdata) .cleanup := by
      simp only [step,handle,commCbCleanup,fired,calls]
    rw [called]
    refine Or.inr ⟨⟨_,_,_,rfl⟩,?_⟩
    exact congrArg (fun shown : Face => { shown with ctl := .cleanup }) shows
  | _ => exact (absent rfl).elim

theorem resumeTail {s sys} (behind : s.ctl = .tail) : step s (.resume sys) = { s with ctl := .idle } := by
  simp only [step,behind,goOn]

theorem resumeCleanup {s sys} (behind : s.ctl = .cleanup) :
    face (step s (.resume sys)) = { face s with freed := true, ctl := .idle } := by
  simp only [step,behind,goOn,commCbCleanupFree,face]

/- A write callback never reports FDE_COMM_CB_COMPLETED: what completes a write is a write()
that returns 0. -/
theorem writeGoes {s : State} (sys) (on : s.c.w.isActive = true) :
    (∃ w, w.isActive = true ∧ commCbWriteCb s sys = { s with c.w := w }) ∨
    ∃ w st nwritten ctl, w.isActive = false ∧ st ≠ .completed ∧ ctl = (if s.c.isClosing then .writeClosing else .tail) ∧
      commCbWriteCb s sys = { s with c.w := w }.invoke (.write s.c.w.cb s.c.fd s.c.w.cbdata st nwritten) ctl := by
  unfold commCbWriteCb
  split
  · exact Or.inr ⟨{ s.c.w with isActive := false, isReady := false },.closing,s.c.w.offset,.writeClosing,rfl,nofun,rfl,rfl⟩
  · have same : (∃ w, w.isActive = true ∧ s = { s with c.w := w }) := ⟨s.c.w,on,rfl⟩
    unfold commCbWriteIo
    split
    · exact Or.inl same
    · split
      · exact Or.inl same
      · dsimp only
        split
        · rename_i failed
          rw [if_neg (by omega)]
          unfold commCbWriteComplete
          split
          · exact Or.inl same
          · dsimp only
            refine Or.inr ⟨{ s.c.w with isActive := false },_,_,.tail,rfl,?_,rfl,rfl⟩
            split
            · nofun
            · rw [if_pos (by omega)]
              nofun
        · rename_i wrote
          rw [if_pos (by omega)]
          exact Or.inl ⟨{ s.c.w with offset := s.c.w.offset + sys.ret },on,rfl⟩

/- No operation but a write. -/
def Writes (s : State) : Prop := ∀ k, k ≠ .write → s.c.active k = false

theorem writesOff {s : State} (writes : Writes s) (off : s.c.w.isActive = false) : s.c.active = inactive := by
  funext k
  rcases eq_or_ne k .write with rfl | other
  · exact off
  · exact writes k other

theorem fireWriting {s e sys cb} (inv : Inv False s) (queued : s.armed e = true) (writes : Writes s)
    (calls : s.c.c.cb = some cb) :
    face (step s (.fire e sys)) = face s ∨
    (s.c.w.isActive = true ∧
      ∃ fn fd cbdata st nwritten, calling (step s (.fire e sys)) = some (.write fn fd cbdata st nwritten) ∧ st ≠ .completed ∧
        face (step s (.fire e sys)) =
          { face s with active := inactive, ctl := if s.c.isClosing then .writeClosing else .tail }) ∨
    (s.c.isCleanup = true ∧ (∃ fn fd cbdata, calling (step s (.fire e sys)) = some (.close fn fd cbdata)) ∧
      face (step s (.fire e sys)) = { face s with ctl := .cleanup }) := by
  have other {k} (same : e.kind = some k) (apart : k ≠ .write) : False := by
    have on := armedActive inv queued same
    rw [writes k apart] at on
    contradiction
  cases e with
  | read => exact Or.inl (faceNoted (Or.inl rfl))
  | write => exact Or.inl (faceNoted (Or.inr rfl))
  | cleanup =>
    refine Or.inr (Or.inr ⟨inv.scheduled queued,?_⟩)
    have called : step s (.fire .cleanup sys) = (fired s .cleanup).invoke (.close cb s.c.fd s.c.c.cbdata) .cleanup := by
      simp only [step,handle,commCbCleanup,fired,calls]
    rw [called]
    exact ⟨⟨_,_,_,rfl⟩,rfl⟩
  | writeCb =>
    have on : s.c.w.isActive = true := inv.writeCb queued
    have busy (w : WriteState) (active : w.isActive = true) : { s.c with w := w }.active = s.c.active := by
      funext k
      cases k <;> first | exact active.trans on.symm | rfl
    have done (w : WriteState) (off : w.isActive = false) : { s.c with w := w }.active = inactive := by
      funext k
      rcases eq_or_ne k .write with rfl | apart
      · exact off
      · cases k <;> first | exact absurd rfl apart | exact writes _ apart
    rcases writeGoes (s := fired s .writeCb) sys on with ⟨w,active,goes⟩ | ⟨w,st,nwritten,ctl,off,status,behind,goes⟩
    · left
      simp only [step,handle,goes]
      exact congrArg (fun active => { face s with active := active }) (busy w active)
    · right
      left
      refine ⟨on,s.c.w.cb,s.c.fd,s.c.w.cbdata,st,nwritten,?_,status,?_⟩
      · simp only [step,handle,goes]
        refine callingInvoke _ _ ?_
        rw [behind]
        cases (fired s .writeCb).c.isClosing <;> decide
      · simp only [step,handle,goes,behind]
        exact congrArg (fun active => ({ face s with
          active := active, ctl := if s.c.isClosing then .writeClosing else .tail } : Face)) (done w off)
  | _ => exact (other rfl (by decide)).elim

theorem resumeWriting {s sys} (inv : Inv False s) (writes : Writes s) (behind : s.ctl = .writeClosing) :
    face (step s (.resume sys)) = { face s with ctl := .idle, isCleanup := true } := by
  have place := inv.place
  simp only [Place,behind] at place
  have off := writesOff writes place.2
  have ready : commIsCloseReady s.c = true := (readyIff place.1).mpr (congrFun off)
  have goes : step s (.resume sys) = commStartCleanup { s with ctl := .idle } := by
    simp only [step,behind,goOn,commCbWriteClosed]
    exact if_pos ready
  rw [goes,commStartCleanup,if_neg (by simp [place.1])]
  split
  · rename_i done
    exact congrArg (fun isCleanup => ({ face s with ctl := .idle, isCleanup := isCleanup } : Face)) done
  · rw [if_neg (by simp [ready])]
    rfl

end Libiapp.Comm

import Libiapp.CltConn
import Mathlib.Data.UInt

/-! All conns of clt.c together: how many there are, that none is lost, and that nothing is
used after it was freed as long as sockets, comms and fdes can be had. -/
namespace Libiapp.Clt
open Runs
open Libiapp.Comm (Ctl Face face)

theorem enterApp (x : Scope) (comm) : ∃ read opened closed,
    (enter x comm).r = { x.r with totalRead := read, totalOpened := opened, totalClosed := closed } := by
  have close (x : Scope) : ∃ closed, (connClose x).r = { x.r with totalClosed := closed } := by
    unfold connClose
    split
    · exact ⟨_,rfl⟩
    · dsimp only
      split <;> exact ⟨_,rfl⟩
  have read (x : Scope) : (commRead x).r = x.r := by
    unfold commRead
    split <;> rfl
  unfold enter
  dsimp only
  split
  · rename_i status _ _
    unfold connConnectCb
    split
    · obtain ⟨closed,app⟩ := close { x with c.comm := comm, c.state := .error }
      exact ⟨_,_,closed,app⟩
    · simp only [thrcltConnUpdateCb,reduceCtorEq,if_false,ne_eq,not_true,read]
      exact ⟨_,_,_,rfl⟩
  · unfold connReadCb
    split
    · obtain ⟨closed,app⟩ := close { x with c.comm := comm }
      exact ⟨_,_,closed,app⟩
    · split
      · rw [read]
        exact ⟨_,_,_,rfl⟩
      · rw [read]
        exact ⟨_,_,_,rfl⟩
  · unfold connCloseCb
    split <;> exact ⟨_,_,_,rfl⟩
  · exact ⟨_,_,_,rfl⟩

def Open.isConn : Open → Bool
  | .conn .. => true
  | _ => false

/- The steps of a comm. -/
def Act.ofComm : Act → Bool
  | .fire .. | .resume .. => true
  | _ => false

/- sockets, comms and fdes can be had. -/
def Open.Served : Open → Prop
  | .socket | .comm => False
  | .conn _ _ event _ _ => event = true
  | .lookup | .memory => True

instance : (res : Open) → Decidable res.Served
  | .socket | .comm => isFalse id
  | .conn _ _ event _ _ => inferInstanceAs (Decidable (event = true))
  | .lookup | .memory => isTrue trivial

def State.grown (s : State) (c : Conn) : State :=
  { s with conns := s.conns ++ [c], r.numClients := s.r.numClients + 1 }

/- What one step can do. -/
inductive Stepped (s : State) : Act → State → Prop where
  | tick : Stepped s .newconn ({ s with evNewconn := false }.loop 0)
  | failed {i res} (fault : Bool) (counter : s.opening = some i) (none : res.isConn = false)
      (cause : res.Served → fault = false) : Stepped s (.round res) { s with fault := fault }.opened
  | made {i fd buf event sin slen} (c : Conn) (counter : s.opening = some i) (seated : Seated c)
      (fresh : c.state = .connecting) (served : event = true → c.evCleanup ≠ none) :
      Stepped s (.round (.conn fd buf event sin slen))
        (if i + 1 > s.r.connrate then (s.grown c).opened else (s.grown c).loop (i + 1))
  | stats : Stepped s .stats (thrcltStatPrint { s with evStats := false })
  | moved {a i c y} (here : s.conns[i]? = some c) (moved : Moved ⟨c,s.r,s.fault⟩ y)
      (app : ∃ read opened closed, y.r = { s.r with totalRead := read, totalOpened := opened, totalClosed := closed })
      (own : a.ofComm = true) :
      Stepped s a { s with conns := s.conns.set i y.c, r := y.r, fault := y.fault }
  | freed {i c} (here : s.conns[i]? = some c) (between : Between s) (queued : c.evCleanup = some true) :
      Stepped s (.cleanup i) (connEvCleanupCb s i c)

theorem stepped {s a} (seats : ∀ c ∈ s.conns, Seated c) (possible : Allowed s a) : Stepped s a (step s a) := by
  obtain ⟨sound,allowed⟩ := possible
  cases a with
  | newconn => exact .tick
  | stats => exact .stats
  | round res =>
    obtain ⟨running,fits⟩ := allowed
    obtain ⟨i,counter⟩ := Option.isSome_iff_exists.mp running
    simp only [step,openRound,counter,Option.getD_some]
    cases res with
    | lookup => exact .failed s.fault counter rfl (fun _ => sound)
    | memory => exact .failed s.fault counter rfl (fun _ => sound)
    | socket => exact .failed true counter rfl False.elim
    | comm => exact .failed true counter rfl False.elim
    | conn fd buf event sin slen =>
      exact .made _ counter (newSeated fits) rfl (fun on => by simp [connNew,on])
  | fire i e sys =>
    obtain ⟨between,c,here,queued⟩ := allowed
    have known : s.conns[i]? = some c := here
    have member := List.mem_of_getElem? known
    simp only [step,known]
    exact .moved known (fireMoved (x := ⟨c,s.r,s.fault⟩) (seats c member) (between.2 c member) queued) (enterApp _ _) rfl
  | resume i sys =>
    obtain ⟨c,here,behind⟩ := allowed
    have known : s.conns[i]? = some c := here
    simp only [step,known]
    exact .moved known (resumeMoved (x := ⟨c,s.r,s.fault⟩) (seats c (List.mem_of_getElem? known)) behind) (enterApp _ _)
      rfl
  | cleanup i =>
    obtain ⟨between,c,here,queued⟩ := allowed
    have known : s.conns[i]? = some c := here
    simp only [step,known]
    exact .freed known between queued

structure Members (args : Args) (s : State) : Prop where
  seats : s.fault = false → ∀ c ∈ s.conns, Seated c
  clients : s.r.numClients = s.conns.length
  nconns : s.r.nconns = args.nconns
  connrate : s.r.connrate = args.connrate
  limit : s.r.numClients ≤ max 0 args.nconns
  stats : s.evStats = true

structure Pool (args : Args) (s : State) : Prop extends Members args s where
  room : ∀ i, s.opening = some i → s.r.numClients < args.nconns ∧ 0 ≤ i ∧ i ≤ max 0 args.connrate
  timer : s.opening = none → s.evNewconn = true

theorem newPool (args : Args) : Pool args (thrcltNew args) where
  seats := fun _ _ member => (nomatch member)
  clients := rfl
  nconns := rfl
  connrate := rfl
  limit := Int.le_max_left 0 _
  stats := rfl
  room := nofun
  timer := fun _ => rfl

theorem openedPool {args s} (members : Members args s) : Pool args s.opened :=
  { members with room := nofun, timer := fun _ => rfl }

theorem loopPool {args s} {i : Int} (members : Members args s) (low : 0 ≤ i) (high : i ≤ max 0 args.connrate) :
    Pool args (s.loop i) := by
  unfold State.loop
  split
  · rename_i less
    have room : s.r.numClients < args.nconns := members.nconns ▸ less
    exact { members with
      room := fun j counter => by cases counter; exact ⟨room,low,high⟩
      timer := nofun }
  · exact openedPool members

theorem grownMembers {args s c} (members : Members args s) (room : s.r.numClients < args.nconns) (seated : Seated c) :
    Members args (s.grown c) where
  seats := fun sound d member => by
    rcases List.mem_append.mp member with old | new
    · exact members.seats sound d old
    · rw [List.mem_singleton.mp new]
      exact seated
  clients := by simp [State.grown,members.clients]
  nconns := members.nconns
  connrate := members.connrate
  limit := by
    have grows : (s.grown c).r.numClients = s.r.numClients + 1 := rfl
    omega
  stats := members.stats

/- A conn is freed while it is in the list, so the count is not 0. -/
theorem freedMembers {args s i c} (members : Members args s) (here : s.conns[i]? = some c) :
    Members args (connEvCleanupCb s i c) ∧ (connEvCleanupCb s i c).r.numClients = s.r.numClients - 1 := by
  have inside : i < s.conns.length := (List.getElem?_eq_some_iff.mp here).1
  have some : s.r.numClients ≠ 0 := by
    rw [members.clients]
    omega
  have goes : connEvCleanupCb s i c = { s with
      conns := s.conns.eraseIdx i, r.numClients := s.r.numClients - 1, fault := s.fault || !c.comm.freed } := by
    simp only [connEvCleanupCb,thrcltConnUpdateCb,reduceCtorEq,if_false,if_true,if_neg some]
  rw [goes]
  refine ⟨?_,rfl⟩
  exact {
    seats := fun sound d member =>
      members.seats (Bool.or_eq_false_iff.mp sound).1 d (List.mem_of_mem_eraseIdx member)
    clients := by
      show s.r.numClients - 1 = ((s.conns.eraseIdx i).length : Int)
      rw [members.clients,List.length_eraseIdx_of_lt inside]
      omega
    nconns := members.nconns
    connrate := members.connrate
    limit := by
      have := members.limit
      show s.r.numClients - 1 ≤ _
      omega
    stats := members.stats }

theorem steppedPool {args s a s'} (pool : Pool args s) (sound : s.fault = false) (goes : Stepped s a s') :
    Pool args s' := by
  cases goes with
  | tick =>
    have members : Members args { s with evNewconn := false } := { pool with }
    exact loopPool members (Int.le_refl 0) (Int.le_max_left 0 _)
  | failed fault counter none cause =>
    have members : Members args { s with fault := fault } := { pool with seats := fun _ => pool.seats sound }
    exact openedPool members
  | @made i _ _ _ _ _ c counter seated fresh served =>
    obtain ⟨room,low,high⟩ := pool.room i counter
    have members := grownMembers pool.toMembers room seated
    split
    · exact openedPool members
    · rename_i more
      rw [pool.connrate] at more
      exact loopPool members (by omega) (by omega)
  | stats => exact { pool with stats := rfl }
  | @moved _ i c y here moved app own =>
    obtain ⟨read,opened,closed,app⟩ := app
    have same : y.r.numClients = s.r.numClients ∧ y.r.nconns = s.r.nconns ∧ y.r.connrate = s.r.connrate := by
      rw [app]
      exact ⟨rfl,rfl,rfl⟩
    exact {
      seats := fun still d member => by
        rcases List.mem_or_eq_of_mem_set member with old | rfl
        · exact pool.seats sound d old
        · exact moved.seated still
      clients := by rw [List.length_set]; exact same.1.trans pool.clients
      nconns := same.2.1.trans pool.nconns
      connrate := same.2.2.trans pool.connrate
      limit := same.1 ▸ pool.limit
      stats := pool.stats
      room := fun j counter => same.1 ▸ pool.room j counter
      timer := pool.timer }
  | freed here between queued =>
    have members := (freedMembers pool.toMembers here).1
    exact { members with
      room := fun i counter => by cases between.1.symm.trans counter
      timer := fun _ => pool.timer between.1 }

theorem stepPool {args s a} (pool : Pool args s) (allowed : Allowed s a) : Pool args (step s a) :=
  steppedPool pool allowed.1 (stepped (pool.seats allowed.1) allowed)

theorem reachPool {args s} (h : Reach (cltMachine args) s) : Pool args s := by
  refine reachInvariant (m := cltMachine args) ?_ (fun _ _ => stepPool) h
  rintro _ rfl
  exact newPool args

/- num_clients is the number of conns in the list, and stays within the limit. -/
theorem clientsCounted {args s} (h : Reach (cltMachine args) s) :
    s.r.numClients = s.conns.length ∧ s.r.numClients ≤ max 0 args.nconns := by
  have pool := reachPool h
  exact ⟨pool.clients,pool.limit⟩

/- Two conns: one is connected and reads, the other is refused and freed. -/
def talkArgs : Args := ⟨2,1,16⟩

def talkRun : List Act :=
  [.newconn,.round (.conn 5 1 true 9 16),.round (.conn 6 2 true 9 16),
    .fire 0 .connectStart ⟨-1,Comm.eInprogress,0,none⟩,.fire 0 .connect ⟨0,0,0,none⟩,.resume 0 ⟨0,0,0,none⟩,
    .fire 0 .read ⟨0,0,0,none⟩,.fire 0 .readCb ⟨10,0,0,none⟩,.resume 0 ⟨0,0,0,none⟩,
    .fire 1 .connectStart ⟨-1,61,0,none⟩,.resume 1 ⟨0,0,0,none⟩,.fire 1 .cleanup ⟨0,0,0,none⟩,
    .resume 1 ⟨0,0,0,none⟩,.cleanup 1,.stats]

theorem clientsCountedRun :
    let s := run (cltMachine talkArgs) (thrcltNew talkArgs) talkRun
    s.conns.length = 1 ∧ s.r.numClients = s.conns.length ∧ s.r.numClients ≤ max 0 talkArgs.nconns := by
  have reached : Reach (cltMachine talkArgs) (run (cltMachine talkArgs) (thrcltNew talkArgs) talkRun) :=
    reachRun (.start rfl) (by decide)
  exact ⟨by decide,clientsCounted reached⟩

/- Between two callbacks every conn has something to wait for. -/
theorem neverStuck {args s} (h : Reach (cltMachine args) s) (sound : s.fault = false) (between : Between s) :
    s.evNewconn = true ∧ s.evStats = true ∧ ∀ c ∈ s.conns,
      c.state = .connecting ∧ (c.comm.armed .connectStart = true ∨ c.comm.armed .connect = true) ∨
      c.state = .running ∧ c.comm.c.r.isActive = true ∧ c.comm.armed .read = true ∧
        (c.comm.armed .readCb = true ∨ Comm.unanswered c.comm.log = false) ∨
      c.state = .closing ∧ (c.comm.armed .cleanup = true ∨ c.evCleanup = some true) := by
  have pool := reachPool h
  refine ⟨pool.timer between.1,pool.stats,fun c member => ?_⟩
  have seated := pool.seats sound c member
  have inv := Comm.reachInv seated.run
  have idle := between.2 c member
  cases seated.stage with
  | dialing state _ _ shows =>
    have connecting : c.comm.c.co.isActive = true := congrFun (congrArg Face.active shows) .connect
    exact Or.inl ⟨state,inv.waitConnect connecting⟩
  | reading state _ _ _ _ shows =>
    have reading : c.comm.c.r.isActive = true := congrFun (congrArg Face.active shows) .read
    have waits := inv.waitRead (congrArg Face.isClosing shows) reading
    exact Or.inr (Or.inl ⟨state,reading,waits⟩)
  | closing state _ _ _ _ shows =>
    have outside : c.comm.ctl.inCleanup = false := by rw [idle]; rfl
    have waits := inv.waitCleanup outside (congrArg Face.freed shows) (congrArg Face.isCleanup shows)
    exact Or.inr (Or.inr ⟨state,Or.inl waits⟩)
  | cleaning state _ event _ => exact Or.inr (Or.inr ⟨state,Or.inr event⟩)
  | closed state _ event _ => exact Or.inr (Or.inr ⟨state,Or.inr event⟩)

theorem neverStuckRun :
    let s := run (cltMachine talkArgs) (thrcltNew talkArgs) talkRun
    ∃ c ∈ s.conns, c.state = .running ∧ c.comm.c.r.isActive = true ∧ c.comm.armed .read = true := by
  have reached : Reach (cltMachine talkArgs) (run (cltMachine talkArgs) (thrcltNew talkArgs) talkRun) :=
    reachRun (.start rfl) (by decide)
  have waits := (neverStuck reached (by decide) (by decide)).2.2
  have member : (run (cltMachine talkArgs) (thrcltNew talkArgs) talkRun).conns.head (by decide) ∈
      (run (cltMachine talkArgs) (thrcltNew talkArgs) talkRun).conns := List.head_mem _
  refine ⟨_,member,?_⟩
  rcases waits _ member with ⟨state,_⟩ | ⟨state,reading,armed,_⟩ | ⟨state,_⟩
  · exact absurd state (by decide)
  · exact ⟨state,reading,armed⟩
  · exact absurd state (by decide)

/- The runs in which sockets, comms and fdes can be had. -/
def Served (_ : State) : Act → Prop
  | .round res => res.Served
  | _ => True

instance (s : State) : (a : Act) → Decidable (Served s a)
  | .round res => inferInstanceAs (Decidable res.Served)
  | .newconn | .stats | .fire .. | .resume .. | .cleanup _ => isTrue trivial

structure Sound (s : State) : Prop where
  fault : s.fault = false
  events : ∀ c ∈ s.conns, c.evCleanup ≠ none

/- The cleanup of a conn is queued in the close callback of its comm, so when it runs the
comm has been freed. -/
theorem queuedFreed {c} (seated : Seated c) (idle : c.comm.ctl = .idle) (queued : c.evCleanup = some true) :
    c.comm.freed = true := by
  cases seated.stage with
  | dialing _ _ event _ => exact absurd queued event
  | reading _ _ event _ _ _ => exact absurd queued event
  | closing _ _ event _ _ _ => exact absurd queued event
  | cleaning _ _ _ shows => exact absurd ((congrArg Face.ctl shows).symm.trans idle) (by decide)
  | closed _ _ _ shows => exact congrArg Face.freed shows

theorem steppedSound {s a s'} (sound : Sound s) (seats : ∀ c ∈ s.conns, Seated c) (served : Served s a)
    (goes : Stepped s a s') : Sound s' := by
  cases goes with
  | tick =>
    unfold State.loop
    split <;> exact { sound with }
  | failed fault counter none cause => exact ⟨cause served,sound.events⟩
  | made c counter seated fresh here =>
    have grown : Sound (s.grown c) := ⟨sound.fault,fun d member => by
      rcases List.mem_append.mp member with old | new
      · exact sound.events d old
      · rw [List.mem_singleton.mp new]
        exact here served⟩
    unfold State.loop
    split
    · exact { grown with }
    · split <;> exact { grown with }
  | stats => exact { sound with }
  | @moved _ i c y here moved app own =>
    have event := sound.events c (List.mem_of_getElem? here)
    exact ⟨(moved.fault event).trans sound.fault,fun d member => by
      rcases List.mem_or_eq_of_mem_set member with old | rfl
      · exact sound.events d old
      · exact fun none => event (moved.event.mp none)⟩
  | @freed i c here between queued =>
    have member := List.mem_of_getElem? here
    have gone := queuedFreed (seats c member) (between.2 c member) queued
    refine ⟨?_,fun d left => sound.events d (List.mem_of_mem_eraseIdx left)⟩
    simp only [connEvCleanupCb,thrcltConnUpdateCb,reduceCtorEq,if_false,if_true,gone,sound.fault,Bool.not_true,Bool.or_false]
    split <;> rfl

theorem reachSound {args s} (h : Reach ((cltMachine args).guard Served) s) : Sound s := by
  have first : ∀ s, ((cltMachine args).guard Served).start s → Pool args s ∧ Sound s := by
    rintro _ rfl
    exact ⟨newPool args,rfl,fun _ member => (nomatch member)⟩
  have kept : ∀ s a, Pool args s ∧ Sound s → ((cltMachine args).guard Served).allowed s a →
      Pool args (step s a) ∧ Sound (step s a) := by
    rintro s a ⟨pool,sound⟩ ⟨possible,served⟩
    have goes := stepped (pool.seats sound.fault) possible
    exact ⟨steppedPool pool sound.fault goes,steppedSound sound (pool.seats sound.fault) served goes⟩
  exact (reachInvariant first kept h).2

/- No NULL pointer is used, no conn goes before its comm, and a conn that still points to
its comm points to a live one. -/
theorem neverFaults {args s} (h : Reach ((cltMachine args).guard Served) s) :
    s.fault = false ∧ ∀ c ∈ s.conns,
      (c.linked = true ↔ c.state ≠ .closing) ∧ (c.linked = true → c.comm.freed = false) ∧
      (c.comm.freed = true → c.evCleanup = some true) := by
  have sound := reachSound h
  have pool := reachPool (reachUnguarded h)
  refine ⟨sound.fault,fun c member => ?_⟩
  cases (pool.seats sound.fault c member).stage with
  | dialing state linked _ shows =>
    have alive : c.comm.freed = false := congrArg Face.freed shows
    simp [state,linked,alive]
  | reading state linked _ _ _ shows =>
    have alive : c.comm.freed = false := congrArg Face.freed shows
    simp [state,linked,alive]
  | closing state linked _ _ _ shows =>
    have alive : c.comm.freed = false := congrArg Face.freed shows
    simp [state,linked,alive]
  | cleaning state linked event _ => simp [state,linked,event]
  | closed state linked event _ => simp [state,linked,event]

theorem neverFaultsRun :
    let s := run ((cltMachine talkArgs).guard Served) (thrcltNew talkArgs) talkRun
    s.fault = false ∧ s.conns.length = 1 := by
  have reached : Reach ((cltMachine talkArgs).guard Served)
      (run ((cltMachine talkArgs).guard Served) (thrcltNew talkArgs) talkRun) :=
    reachRun (.start rfl) (by decide)
  exact ⟨(neverFaults reached).1,by decide⟩

end Libiapp.Clt

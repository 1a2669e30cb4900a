import Libiapp.CltPool

/-! How many conns of clt.c come and go: what one firing of the timer opens, that every conn
made is still there or was freed, and that each is counted as closed once. -/
namespace Libiapp.Clt
open Runs
open Libiapp.Comm (Ctl Face face)

/- One round of the loop with counter `i`. -/
inductive Round (args : Args) (s : State) (i : Int) (res : Open) (s' : State) : Prop where
  | failed (fails : res.isConn = false) (same : s'.conns = s.conns) (ends : s'.opening = none)
  | last (made : res.isConn = true) (c : Conn) (grows : s'.conns = s.conns ++ [c]) (ends : s'.opening = none)
      (cause : args.connrate < i + 1 ∨ args.nconns ≤ s.conns.length + 1)
  | more (made : res.isConn = true) (c : Conn) (grows : s'.conns = s.conns ++ [c]) (goes : s'.opening = some (i + 1))
      (sound : s'.fault = s.fault)

theorem roundStep {args s i res} (pool : Pool args s) (counter : s.opening = some i)
    (possible : Allowed s (.round res)) : Round args s i res (step s (.round res)) := by
  generalize after : step s (.round res) = s'
  have goes : Stepped s (.round res) s' := after ▸ stepped (pool.seats possible.1) possible
  cases goes with
  | failed fault _ none cause =>
    exact .failed none rfl rfl
  | @made j _ _ _ _ _ c started seated fresh served =>
    cases started.symm.trans counter
    split
    · rename_i beyond
      rw [pool.connrate] at beyond
      exact .last rfl c rfl rfl (Or.inl beyond)
    · unfold State.loop
      split
      · exact .more rfl c rfl rfl rfl
      · rename_i full
        have full : ¬ s.r.numClients + 1 < s.r.nconns := full
        rw [pool.clients,pool.nconns] at full
        exact .last rfl c rfl rfl (Or.inr (by omega))
  | moved _ _ _ own => cases own

theorem opensNone {args s} {rounds : List Open} (closed : s.opening = none)
    (possible : Possible (cltMachine args) s (rounds.map Act.round)) : rounds = [] := by
  cases rounds with
  | nil => rfl
  | cons res rest =>
    have running : s.opening.isSome = true := possible.1.2.1
    rw [closed] at running
    contradiction

/- What a whole loop with counter `i` makes of `s`. -/
structure Opens (args : Args) (s : State) (i : Int) (rounds : List Open) (s' : State) : Prop where
  keeps : s.conns <+: s'.conns
  most : (s'.conns.length : Int) ≤ s.conns.length + (max 0 args.connrate + 1 - i)
  all : (∀ res ∈ rounds, res.isConn = true) →
    (s'.conns.length : Int) = min args.nconns (s.conns.length + (max 0 args.connrate + 1 - i))

theorem loopOpens {args} {rounds : List Open} : ∀ {s i}, Pool args s → s.opening = some i →
    Possible (cltMachine args) s (rounds.map Act.round) →
    (run (cltMachine args) s (rounds.map Act.round)).opening = none →
    Opens args s i rounds (run (cltMachine args) s (rounds.map Act.round)) := by
  induction rounds with
  | nil =>
    intro s i pool counter _ done
    cases counter.symm.trans done
  | cons res rest ih =>
    intro s i pool counter possible done
    obtain ⟨now,later⟩ := possible
    obtain ⟨room,low,high⟩ := pool.room i counter
    rw [pool.clients] at room
    have next : Pool args (step s (.round res)) := stepPool pool now
    have whole : run (cltMachine args) s ((res::rest).map Act.round) =
        run (cltMachine args) (step s (.round res)) (rest.map Act.round) := rfl
    rw [whole] at done ⊢
    cases roundStep pool counter now with
    | failed fails same ends =>
      cases opensNone ends later
      have same : (run (cltMachine args) (step s (.round res)) (List.map Act.round [])).conns = s.conns := same
      exact {
        keeps := same ▸ List.prefix_refl _
        most := by rw [same]; omega
        all := fun each => absurd (each res (by simp)) (by simp [fails]) }
    | last made c grows ends cause =>
      cases opensNone ends later
      have grows : (run (cltMachine args) (step s (.round res)) (List.map Act.round [])).conns = s.conns ++ [c] := grows
      exact {
        keeps := grows ▸ List.prefix_append _ _
        most := by rw [grows,List.length_append,List.length_singleton]; omega
        all := fun _ => by rw [grows,List.length_append,List.length_singleton]; omega }
    | more made c grows goes _ =>
      have rest := ih next goes later done
      have longer : ((step s (.round res)).conns.length : Int) = s.conns.length + 1 := by
        rw [grows,List.length_append,List.length_singleton]
        omega
      have most := rest.most
      rw [longer] at most
      exact {
        keeps := (grows ▸ List.prefix_append s.conns [c]).trans rest.keeps
        most := by omega
        all := fun each => by
          have all := rest.all (fun res member => each res (List.mem_cons_of_mem _ member))
          rw [longer] at all
          omega }

theorem tickGoes (s : State) :
    s.r.numClients < s.r.nconns ∧ step s .newconn = { s with evNewconn := false, opening := some 0 } ∨
    ¬ s.r.numClients < s.r.nconns ∧ step s .newconn = { s with evNewconn := false }.opened := by
  simp only [step,thrcltEvNewconnCb,State.loop]
  split
  · rename_i room
    exact Or.inl ⟨room,rfl⟩
  · rename_i full
    exact Or.inr ⟨full,rfl⟩

/- One firing of the timer opens at most connrate + 1 conns, and so many if none fails and
there is room for them. -/
theorem tickOpens {args s} {rounds : List Open} (h : Reach (cltMachine args) s)
    (possible : Possible (cltMachine args) s (.newconn::rounds.map Act.round))
    (done : (run (cltMachine args) s (.newconn::rounds.map Act.round)).opening = none) :
    let s' := run (cltMachine args) s (.newconn::rounds.map Act.round)
    s.conns <+: s'.conns ∧
    (s'.conns.length : Int) ≤ s.conns.length + (max 0 args.connrate + 1) ∧
    ((∀ res ∈ rounds, res.isConn = true) → (s'.conns.length : Int) =
      max (s.conns.length : Int) (min args.nconns (s.conns.length + (max 0 args.connrate + 1)))) := by
  intro s'
  have pool := reachPool h
  have now : Allowed s .newconn := possible.1
  have later : Possible (cltMachine args) (step s .newconn) (rounds.map Act.round) := possible.2
  have next : Pool args (step s .newconn) := stepPool pool now
  have limit := pool.limit
  rw [pool.clients] at limit
  rcases tickGoes s with ⟨room,goes⟩ | ⟨full,goes⟩
  · have opens : Opens args (step s .newconn) 0 rounds s' := loopOpens next (by rw [goes]) later done
    obtain ⟨keeps,most,all⟩ := opens
    have same : (step s .newconn).conns = s.conns := by rw [goes]
    rw [same] at keeps most all
    rw [pool.clients,pool.nconns] at room
    refine ⟨keeps,by omega,fun each => ?_⟩
    have exact := all each
    omega
  · have none := opensNone (by rw [goes]; rfl) later
    subst none
    have same : s'.conns = s.conns := by
      show (step s .newconn).conns = s.conns
      rw [goes]
      rfl
    rw [pool.clients,pool.nconns] at full
    rw [same]
    exact ⟨List.prefix_refl _,by omega,fun _ => by omega⟩

theorem tickOpensRun :
    let s := thrcltNew talkArgs
    let rounds := [Open.conn 5 1 true 9 16,.conn 6 2 true 9 16]
    ((run (cltMachine talkArgs) s (.newconn::rounds.map Act.round)).conns.length : Int) = 2 := by
  have opens := @tickOpens talkArgs (thrcltNew talkArgs) [.conn 5 1 true 9 16,.conn 6 2 true 9 16]
    (.start rfl) (by decide) (by decide)
  exact (opens.2.2 (by decide)).trans (by decide)

/- The loop ends within connrate + 1 rounds, whatever they meet. -/
theorem loopEnds {args} {rounds : List Open} : ∀ {s i}, Pool args s → s.fault = false → s.opening = some i →
    (∀ res ∈ rounds, res.Fits) → max 0 args.connrate + 1 - i ≤ rounds.length →
    ∃ k : Nat, (k : Int) ≤ max 0 args.connrate + 1 - i ∧ Possible (cltMachine args) s ((rounds.take k).map Act.round) ∧
      (run (cltMachine args) s ((rounds.take k).map Act.round)).opening = none := by
  induction rounds with
  | nil =>
    intro s i pool _ counter _ enough
    have high := (pool.room i counter).2.2
    simp only [List.length_nil] at enough
    omega
  | cons res rest ih =>
    intro s i pool sound counter fits enough
    have high := (pool.room i counter).2.2
    have now : Allowed s (.round res) := ⟨sound,by rw [counter]; rfl,fits res List.mem_cons_self⟩
    have first : Possible (cltMachine args) s (((res::rest).take 1).map Act.round) := ⟨now,trivial⟩
    cases roundStep pool counter now with
    | failed _ _ ends => exact ⟨1,by omega,first,ends⟩
    | last _ _ _ ends _ => exact ⟨1,by omega,first,ends⟩
    | more _ _ _ goes still =>
      have next : Pool args (step s (.round res)) := stepPool pool now
      rw [List.length_cons] at enough
      obtain ⟨k,most,possible,ends⟩ := ih next (still.trans sound) goes
        (fun res member => fits res (List.mem_cons_of_mem _ member)) (by omega)
      exact ⟨k + 1,by omega,⟨now,possible⟩,ends⟩

theorem tickEnds {args s} {rounds : List Open} (h : Reach (cltMachine args) s) (due : (cltMachine args).allowed s .newconn)
    (fits : ∀ res ∈ rounds, res.Fits) (enough : max 0 args.connrate + 1 ≤ rounds.length) :
    ∃ k : Nat, (k : Int) ≤ max 0 args.connrate + 1 ∧
      Possible (cltMachine args) s (.newconn::(rounds.take k).map Act.round) ∧
      (run (cltMachine args) s (.newconn::(rounds.take k).map Act.round)).opening = none := by
  have pool := reachPool h
  have next : Pool args (step s .newconn) := stepPool pool due
  rcases tickGoes s with ⟨_,goes⟩ | ⟨_,goes⟩
  · have sound : (step s .newconn).fault = false := by rw [goes]; exact due.1
    obtain ⟨k,most,possible,ends⟩ := loopEnds next sound (by rw [goes]) fits (by omega)
    exact ⟨k,by omega,⟨due,possible⟩,ends⟩
  · have ends : (step s .newconn).opening = none := by rw [goes]; rfl
    exact ⟨0,by omega,⟨due,trivial⟩,ends⟩

def Act.makes : Act → Bool
  | .round res => res.isConn
  | _ => false

def Act.frees : Act → Bool
  | .cleanup _ => true
  | _ => false

/- All that was counted as closed, reported or not. -/
def closedTotal (s : State) : UInt64 := (s.reports.map Report.totalClosed).sum + s.r.totalClosed

theorem countSet {α} {p : α → Bool} {x y : α} : ∀ {l : List α} {i : Nat}, l[i]? = some x →
    (l.set i y).countP p + (p x).toNat = l.countP p + (p y).toNat
  | z::l,0,here => by
    cases here
    simp only [List.set_cons_zero,List.countP_cons]
    cases p x <;> cases p y <;> simp
  | z::l,i + 1,here => by
    have rest := countSet (p := p) (y := y) (l := l) (i := i) here
    simp only [List.set_cons_succ,List.countP_cons]
    omega

theorem countErase {α} {p : α → Bool} {x : α} : ∀ {l : List α} {i : Nat}, l[i]? = some x →
    (l.eraseIdx i).countP p + (p x).toNat = l.countP p
  | z::l,0,here => by
    cases here
    simp only [List.eraseIdx_cons_zero,List.countP_cons]
    cases p x <;> simp
  | z::l,i + 1,here => by
    have rest := countErase (p := p) (l := l) (i := i) here
    simp only [List.eraseIdx_cons_succ,List.countP_cons]
    omega

theorem queuedClosing {c} (seated : Seated c) (queued : c.evCleanup = some true) : c.state = .closing := by
  cases seated.stage with
  | dialing _ _ event _ => exact absurd queued event
  | reading _ _ event _ _ _ => exact absurd queued event
  | closing state _ _ _ _ _ => exact state
  | cleaning state _ _ _ => exact state
  | closed state _ _ _ => exact state

structure Balanced (s : State) (made freed : Nat) (s' : State) : Prop where
  conns : s'.conns.length + freed = s.conns.length + made
  closed : ∃ n, closedTotal s' = closedTotal s + UInt64.ofNat n ∧
    s'.conns.countP Conn.isClosing + freed = s.conns.countP Conn.isClosing + n

theorem Balanced.trans {s t u made freed made' freed'} (first : Balanced s made freed t)
    (later : Balanced t made' freed' u) : Balanced s (made + made') (freed + freed') u := by
  obtain ⟨conns,n,total,closing⟩ := first
  obtain ⟨conns',n',total',closing'⟩ := later
  refine ⟨by omega,n + n',?_,by omega⟩
  rw [total',total,UInt64.ofNat_add]
  ac_rfl

theorem loopBalanced {s made freed s' i} (balanced : Balanced s made freed s') : Balanced s made freed (s'.loop i) := by
  unfold State.loop State.opened
  split <;> exact { balanced with }

theorem steppedBalanced {args s a s'} (pool : Pool args s) (sound : s.fault = false) (goes : Stepped s a s') :
    Balanced s a.makes.toNat a.frees.toNat s' := by
  have still : Balanced s 0 0 s := ⟨rfl,0,by simp,rfl⟩
  cases goes with
  | tick => exact loopBalanced { still with }
  | @failed _ res fault counter none cause =>
    have nothing : (Act.round res).makes.toNat = 0 := by simp [Act.makes,none]
    rw [nothing]
    exact { still with }
  | @made i _ _ _ _ _ c counter seated fresh served =>
    have grown : Balanced s 1 0 (s.grown c) := {
      conns := by simp [State.grown]
      closed := ⟨0,by simp [State.grown,closedTotal],by simp [State.grown,Conn.isClosing,fresh]⟩ }
    split
    · exact { grown with }
    · exact loopBalanced grown
  | stats =>
    have same : closedTotal (thrcltStatPrint { s with evStats := false }) = closedTotal s := by
      simp only [thrcltStatPrint,closedTotal,List.map_cons,List.sum_cons,UInt64.add_zero]
      exact UInt64.add_comm _ _
    exact ⟨rfl,0,by simp [same],rfl⟩
  | @moved _ i c y here moved app own =>
    have neither : a.makes = false ∧ a.frees = false := by cases a <;> first | exact ⟨rfl,rfl⟩ | cases own
    rw [neither.1,neither.2]
    obtain ⟨n,total,closing⟩ := moved.closed
    have closing : y.c.isClosing.toNat = c.isClosing.toNat + n := closing
    have count := countSet (p := Conn.isClosing) (y := y.c) here
    refine ⟨by simp,n,?_,?_⟩
    · simp only [closedTotal,total,UInt64.add_assoc]
    · simp only [Bool.toNat_false]
      omega
  | @freed i c here between queued =>
    have inside : i < s.conns.length := (List.getElem?_eq_some_iff.mp here).1
    have closing := queuedClosing (pool.seats sound c (List.mem_of_getElem? here)) queued
    have count := countErase (p := Conn.isClosing) here
    have one : c.isClosing.toNat = 1 := by simp [Conn.isClosing,closing]
    have total : (connEvCleanupCb s i c).r.totalClosed = s.r.totalClosed := by
      simp only [connEvCleanupCb,thrcltConnUpdateCb,reduceCtorEq,if_false,if_true]
      split <;> rfl
    refine ⟨?_,0,?_,?_⟩
    · simp only [connEvCleanupCb,List.length_eraseIdx_of_lt inside,Act.frees,Act.makes,Bool.toNat_true,Bool.toNat_false]
      omega
    · simp only [closedTotal,total]
      simp [connEvCleanupCb]
    · simp only [connEvCleanupCb,Act.frees,Bool.toNat_true]
      omega

theorem runBalanced {args acts} : ∀ {s}, Pool args s → Possible (cltMachine args) s acts →
    Balanced s (acts.countP Act.makes) (acts.countP Act.frees) (run (cltMachine args) s acts) := by
  induction acts with
  | nil => exact fun _ _ => ⟨rfl,0,by simp [run],rfl⟩
  | cons a rest ih =>
    intro s pool possible
    have now : Allowed s a := possible.1
    have first := steppedBalanced pool now.1 (stepped (pool.seats now.1) now)
    have later := ih (stepPool pool now) possible.2
    have split (p : Act → Bool) : (a::rest).countP p = (p a).toNat + rest.countP p := by
      rw [List.countP_cons]
      cases p a <;> simp [Nat.add_comm]
    rw [split,split]
    exact first.trans later

/- Every conn that was made is in the list or was freed, and those that are closing or freed
have been counted as closed, each once. -/
theorem closesCounted {args acts} (possible : Possible (cltMachine args) (thrcltNew args) acts) :
    let s := run (cltMachine args) (thrcltNew args) acts
    acts.countP Act.makes = acts.countP Act.frees + s.conns.length ∧
    closedTotal s = UInt64.ofNat (acts.countP Act.frees + s.conns.countP Conn.isClosing) := by
  intro s
  obtain ⟨conns,n,total,closing⟩ := runBalanced (newPool args) possible
  have conns : s.conns.length + acts.countP Act.frees = 0 + acts.countP Act.makes := conns
  have closing : s.conns.countP Conn.isClosing + acts.countP Act.frees = 0 + n := closing
  have fresh : closedTotal (thrcltNew args) = 0 := rfl
  refine ⟨by omega,?_⟩
  rw [total,fresh,UInt64.zero_add]
  exact congrArg UInt64.ofNat (by omega)

theorem closesCountedRun :
    let s := run (cltMachine talkArgs) (thrcltNew talkArgs) talkRun
    talkRun.countP Act.makes = 2 ∧ s.conns.length = 1 ∧ closedTotal s = 1 := by
  obtain ⟨balance,closed⟩ := @closesCounted talkArgs talkRun (by decide)
  have made : talkRun.countP Act.makes = 2 := by decide
  have freed : talkRun.countP Act.frees = 1 := by decide
  have none : (run (cltMachine talkArgs) (thrcltNew talkArgs) talkRun).conns.countP Conn.isClosing = 0 := by decide
  rw [made,freed] at balance
  rw [freed,none] at closed
  exact ⟨made,by omega,closed⟩

section Free
variable {args : Args} {s : State} {i : Nat} {c : Conn}

def State.put (s : State) (i : Nat) (c : Conn) : State := { s with conns := s.conns.set i c }

theorem putAt (here : s.conns[i]? = some c) (d : Conn) : (s.put i d).conns[i]? = some d :=
  List.getElem?_set_self (List.getElem?_eq_some_iff.mp here).1

theorem putPut (d e : Conn) : (s.put i d).put i e = s.put i e := by simp only [State.put,List.set_set]

theorem putBetween (between : Between s) {d : Conn} (idle : d.comm.ctl = .idle) : Between (s.put i d) := by
  refine ⟨between.1,fun e member => ?_⟩
  rcases List.mem_or_eq_of_mem_set member with old | rfl
  · exact between.2 e old
  · exact idle

/- comm_cb_cleanup calls conn_close_cb, which queues the cleanup of the conn. -/
theorem cleanupFires {queued : Bool} (sys) (here : s.conns[i]? = some c) (calls : c.comm.c.c.cb = some connCloseCbFn)
    (event : c.evCleanup = some queued) : ∃ comm, comm.ctl = .cleanup ∧
      step s (.fire i .cleanup sys) = s.put i { c with comm := comm, evCleanup := some true } := by
  have goes : Comm.step c.comm (.fire .cleanup sys) =
      (Comm.fired c.comm .cleanup).invoke (.close connCloseCbFn c.comm.c.fd c.comm.c.c.cbdata) .cleanup := by
    simp only [Comm.step,Comm.handle,Comm.commCbCleanup,Comm.fired,calls]
  refine ⟨Comm.step c.comm (.fire .cleanup sys),by rw [goes]; rfl,?_⟩
  simp only [step,here,State.inConn,enter,goes,Comm.calling,Comm.State.invoke,connCloseCb,event,State.put]

theorem cleanupReturns (sys) (here : s.conns[i]? = some c) (behind : c.comm.ctl = .cleanup) :
    ∃ comm, comm.ctl = .idle ∧ comm.freed = true ∧ step s (.resume i sys) = s.put i { c with comm := comm } := by
  have goes : Comm.step c.comm (.resume sys) = Comm.commCbCleanupFree { c.comm with ctl := .idle } := by
    simp only [Comm.step,behind,Comm.goOn]
  have idle : (Comm.step c.comm (.resume sys)).ctl = .idle := by rw [goes]; rfl
  refine ⟨Comm.step c.comm (.resume sys),idle,by rw [goes]; rfl,?_⟩
  simp only [step,here,State.inConn,enter,Comm.idleUncalled idle,State.put]

/- The cleanup of the comm as a whole: the conn is left without it and with its own cleanup
queued. -/
theorem cleanupRuns {queued : Bool} (sys) (sound : s.fault = false) (between : Between s) (here : s.conns[i]? = some c)
    (waits : c.comm.armed .cleanup = true) (calls : c.comm.c.c.cb = some connCloseCbFn) (event : c.evCleanup = some queued) :
    ∃ comm, comm.ctl = .idle ∧ comm.freed = true ∧
      Possible (cltMachine args) s [.fire i .cleanup sys,.resume i sys] ∧
      run (cltMachine args) s [.fire i .cleanup sys,.resume i sys] =
        s.put i { c with comm := comm, evCleanup := some true } := by
  obtain ⟨comm,behind,fires⟩ := cleanupFires sys here calls event
  have there := putAt here { c with comm := comm, evCleanup := some true }
  obtain ⟨comm',idle,gone,returns⟩ := cleanupReturns sys there behind
  rw [putPut] at returns
  refine ⟨comm',idle,gone,⟨⟨sound,between,c,here,waits⟩,?_,trivial⟩,?_⟩
  · show Allowed (step s (.fire i .cleanup sys)) (.resume i sys)
    rw [fires]
    exact ⟨sound,_,there,by rw [behind]; decide⟩
  · show step (step s (.fire i .cleanup sys)) (.resume i sys) = _
    rw [fires,returns]

/- Freeing a conn makes room for another one. -/
theorem freesConn (pool : Pool args s) (sound : s.fault = false) (between : Between s) (here : s.conns[i]? = some c)
    (queued : c.evCleanup = some true) (gone : c.comm.freed = true) :
    Allowed s (.cleanup i) ∧ (step s (.cleanup i)).conns = s.conns.eraseIdx i ∧
    (step s (.cleanup i)).r.numClients = s.r.numClients - 1 ∧ (step s (.cleanup i)).fault = false := by
  have goes : step s (.cleanup i) = connEvCleanupCb s i c := by simp only [step,here]
  rw [goes]
  refine ⟨⟨sound,between,c,here,queued⟩,rfl,(freedMembers pool.toMembers here).2,?_⟩
  simp only [connEvCleanupCb,thrcltConnUpdateCb,reduceCtorEq,if_false,if_true,gone,sound,Bool.not_true,Bool.or_false]
  split <;> rfl

end Free

/- A conn that is closing can always be brought to its end: by the cleanup of its comm, where
that is still to come, and then its own. -/
theorem closingFreed {args s} {i : Nat} {c : Conn} (h : Reach (cltMachine args) s) (sound : s.fault = false)
    (between : Between s) (here : s.conns[i]? = some c) (closing : c.state = .closing) (event : c.evCleanup ≠ none) :
    ∃ acts, (c.comm.freed = true ∧ acts = [.cleanup i] ∨
        c.comm.freed = false ∧ ∃ sys, acts = [.fire i .cleanup sys,.resume i sys,.cleanup i]) ∧
      Possible (cltMachine args) s acts ∧
      (run (cltMachine args) s acts).conns = s.conns.eraseIdx i ∧
      (run (cltMachine args) s acts).r.numClients = s.r.numClients - 1 ∧ (run (cltMachine args) s acts).fault = false := by
  have pool := reachPool h
  have member := List.mem_of_getElem? here
  have seated := pool.seats sound c member
  have idle := between.2 c member
  cases seated.stage with
  | dialing state _ _ _ => cases state.symm.trans closing
  | reading state _ _ _ _ _ => cases state.symm.trans closing
  | closing state _ unqueued _ _ shows =>
    have inv := Comm.reachInv seated.run
    have outside : c.comm.ctl.inCleanup = false := by rw [idle]; rfl
    have alive : c.comm.freed = false := congrArg Face.freed shows
    have waits := inv.waitCleanup outside alive (congrArg Face.isCleanup shows)
    obtain ⟨queued,event⟩ := Option.ne_none_iff_exists'.mp event
    let sys : Comm.Sys := ⟨0,0,0,none⟩
    obtain ⟨comm,idle,gone,possible,ends⟩ := cleanupRuns sys sound between here waits (congrArg Face.cb shows) event
    have pool := reachPool (reachRun h possible)
    rw [ends] at pool
    obtain ⟨frees,conns,clients,fault⟩ := freesConn pool sound (putBetween between idle) (putAt here _) rfl gone
    have whole : run (cltMachine args) s [.fire i .cleanup sys,.resume i sys,.cleanup i] =
        step (s.put i { c with comm := comm, evCleanup := some true }) (.cleanup i) := by
      rw [← ends]
      rfl
    have possible : Possible (cltMachine args) s ([.fire i .cleanup sys,.resume i sys] ++ [.cleanup i]) :=
      possibleAppend possible (ends.symm ▸ ⟨frees,trivial⟩)
    refine ⟨[.fire i .cleanup sys,.resume i sys,.cleanup i],Or.inr ⟨alive,sys,rfl⟩,possible,?_⟩
    rw [whole]
    exact ⟨conns.trans List.eraseIdx_set_eq,clients,fault⟩
  | cleaning _ _ _ shows => exact absurd ((congrArg Face.ctl shows).symm.trans idle) (by decide)
  | closed _ _ queued shows =>
    have gone : c.comm.freed = true := congrArg Face.freed shows
    obtain ⟨frees,conns,clients,fault⟩ := freesConn pool sound between here queued gone
    exact ⟨[.cleanup i],Or.inl ⟨gone,rfl⟩,⟨frees,trivial⟩,conns,clients,fault⟩

def refusedRun : List Act :=
  [.newconn,.round (.conn 5 1 true 9 16),.round (.conn 6 2 true 9 16),.fire 1 .connectStart ⟨-1,61,0,none⟩,
    .resume 1 ⟨0,0,0,none⟩]

theorem closingFreedRun :
    let s := run (cltMachine talkArgs) (thrcltNew talkArgs) refusedRun
    ∃ acts, Possible (cltMachine talkArgs) s acts ∧ (run (cltMachine talkArgs) s acts).r.numClients = 1 := by
  have reached : Reach (cltMachine talkArgs) (run (cltMachine talkArgs) (thrcltNew talkArgs) refusedRun) :=
    reachRun (.start rfl) (by decide)
  have here : (run (cltMachine talkArgs) (thrcltNew talkArgs) refusedRun).conns[1]? =
      some ((run (cltMachine talkArgs) (thrcltNew talkArgs) refusedRun).conns.get ⟨1,by decide⟩) :=
    List.getElem?_eq_getElem _
  obtain ⟨acts,_,possible,_,clients,_⟩ := closingFreed reached (by decide) (by decide) here (by decide) (by decide)
  exact ⟨acts,possible,clients.trans (by decide)⟩

end Libiapp.Clt

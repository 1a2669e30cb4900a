import Libiapp.UdpClt
import Mathlib.Data.UInt

/-! The frames of udp_clt.c. A frame that is allocated waits in the transmit queue and one
that leaves the queue is freed, so nothing is lost and nothing is freed twice. Between two
callbacks the timer is armed or a frame waits for its event, which arms the timer again. -/
namespace Libiapp.UdpClt
open Runs
open Libiapp.Comm (Frame commMachine)

def sentFrame : Comm.Ev → Option Frame
  | .invoked (.udpWrite _ _ _ fr .completed _ _) => some fr
  | _ => none

/- The frames that sendto() took in whole, the newest first. -/
def sent (c : Comm.State) : List Frame := c.log.filterMap sentFrame

/- A step of the comm that leaves `wQ` in the queue and sends `done`. -/
structure Moved (c c' : Comm.State) (wQ done : List Frame) : Prop where
  wQ : c'.c.udpW.wQ = wQ
  limit : c'.c.udpW.maxQlen = c.c.udpW.maxQlen
  sent : sent c' = done ++ sent c

inductive Stepped (s : State) : Act → State → Prop where
  | ticked : Stepped s .newconn (thrcltEvNewconnCb { s with evNewconn := false })
  | printed : Stepped s .stats (thrcltEvStatPrint { s with evStats := false })
  | failed : Stepped s (.round none) { s with fault := true }
  | refused {id c} (full : s.comm.c.udpW.maxQlen ≤ s.comm.c.udpW.wQ.length) (idle : c.ctl = s.comm.ctl)
      (moved : Moved s.comm c s.comm.c.udpW.wQ []) : Stepped s (.round (some id)) { s with comm := c, cnt := none }
  | queued {id c} (fresh : id ∉ s.live) (room : s.comm.c.udpW.wQ.length < s.comm.c.udpW.maxQlen)
      (idle : c.ctl = s.comm.ctl)
      (moved : Moved s.comm c (s.comm.c.udpW.wQ ++ [⟨id,s.r.maxIoSize,s.r.maxIoSize⟩]) []) :
      Stepped s (.round (some id)) ({ s with live := id::s.live, comm := c }.loop (s.cnt.getD 0 + 1))
  | quiet {a c} (fails : a ≠ .round none ∧ a ≠ .newconn) (out : s.cnt = none ∧ c.ctl = .idle)
      (moved : Moved s.comm c s.comm.c.udpW.wQ []) : Stepped s a { s with comm := c }
  | handed {a fr rest status nwritten c} (fails : a ≠ .round none ∧ a ≠ .newconn) (out : s.cnt = none)
      (head : s.comm.c.udpW.wQ = fr::rest) (whole : status = .completed → nwritten = fr.len)
      (inside : c.ctl = .udpSend) (moved : Moved s.comm c rest (if status = .completed then [fr] else [])) :
      Stepped s a (thrsrvCommUdpWriteCb { s with comm := c } fr status nwritten)

theorem written {c : Comm.State} (fr : Frame) (sender : Sender c) (len : c.c.udpW.qlen = c.c.udpW.wQ.length) :
    (c.c.udpW.maxQlen ≤ c.c.udpW.wQ.length ∧ (Comm.commUdpWrite c fr).2 = -1 ∧
      Moved c (Comm.client c (.udpWrite fr)) c.c.udpW.wQ [] ∧ (Comm.client c (.udpWrite fr)).ctl = c.ctl) ∨
    (c.c.udpW.wQ.length < c.c.udpW.maxQlen ∧ (Comm.commUdpWrite c fr).2 = 0 ∧
      Moved c (Comm.client c (.udpWrite fr)) (c.c.udpW.wQ ++ [fr]) [] ∧ (Comm.client c (.udpWrite fr)).ctl = c.ctl) := by
  have accepts : (!c.c.udpW.isActive || c.c.isClosing) = false := by rw [sender.active,sender.opened]; rfl
  simp only [Comm.client,Comm.commCall,Comm.commUdpWrite,accepts,Bool.false_eq_true,if_false]
  split
  · exact Or.inl ⟨by omega,rfl,⟨rfl,rfl,rfl⟩,rfl⟩
  · dsimp only
    refine Or.inr ⟨by omega,rfl,?_⟩
    split <;> exact ⟨⟨rfl,rfl,rfl⟩,rfl⟩

theorem roundStepped {s : State} {id} (sender : Sender s.comm) (len : s.comm.c.udpW.qlen = s.comm.c.udpW.wQ.length)
    (fresh : id ∉ s.live) : Stepped s (.round (some id)) (step s (.round (some id))) := by
  simp only [step,sendFrame]
  rcases written ⟨id,s.r.maxIoSize,s.r.maxIoSize⟩ sender len with ⟨full,ret,moved,idle⟩ | ⟨room,ret,moved,idle⟩
  · rw [ret,if_pos (by decide),fdeCommUdpFree,if_pos List.mem_cons_self,List.erase_cons_head]
    exact .refused full idle moved
  · rw [ret,if_neg (by decide)]
    exact .queued fresh room idle moved

/- The comm goes through a round of its loop, from `c` on, and the callback runs. -/
theorem enterStepped {s : State} {a c c'} (round : Sent c c') (fails : a ≠ .round none ∧ a ≠ .newconn)
    (idle : c.ctl = .idle) (out : s.cnt = none) (wQ : c.c.udpW.wQ = s.comm.c.udpW.wQ) (limit : c.c.udpW.maxQlen = s.comm.c.udpW.maxQlen)
    (same : sent c = sent s.comm) : Stepped s a (enter s c') := by
  cases round with
  | empty =>
    have quiet : enter s c = { s with comm := c } := by simp [enter,Comm.calling,idle]
    rw [quiet]
    exact .quiet fails ⟨out,idle⟩ ⟨wQ,limit,same⟩
  | waits =>
    have quiet : enter s (({ c with c.udpW.isPrimed := true } : Comm.State).add .udpWrite) =
        { s with comm := ({ c with c.udpW.isPrimed := true } : Comm.State).add .udpWrite } := by
      simp [enter,Comm.calling,Comm.State.add,idle]
    rw [quiet]
    exact .quiet fails ⟨out,idle⟩ ⟨wQ,limit,same⟩
  | @handed fr rest status nwritten xerrno head whole =>
    refine .handed fails out (wQ.symm.trans head) whole rfl ⟨rfl,limit,?_⟩
    rw [← same]
    cases status <;> rfl

theorem stepped {args s a} (h : Reach (cltMachine args) s) (allowed : Allowed s a) : Stepped s a (step s a) := by
  obtain ⟨reached,sender⟩ := reachSender h
  obtain ⟨_,allowed⟩ := allowed
  cases a with
  | newconn => exact .ticked
  | stats => exact .printed
  | round fr =>
    cases fr with
    | none => exact .failed
    | some id => exact roundStepped sender (Comm.reachPrimed reached).len (allowed.2 id rfl)
  | fire e sys =>
    obtain ⟨⟨out,idle⟩,armed⟩ := allowed
    exact enterStepped (fireSent reached sender idle armed) (by simp) idle out rfl rfl rfl
  | resume sys =>
    have out := (reachApart h).resolve_left allowed
    exact enterStepped (resumeSent sys sender allowed) (by simp) rfl out rfl rfl rfl

structure Held (s : State) : Prop where
  same : s.live.Perm (s.comm.c.udpW.wQ.map Frame.id)
  distinct : s.live.Nodup

/- The frame that a callback is given is one of those allocated. -/
theorem Held.head {s : State} {fr rest} (held : Held s) (head : s.comm.c.udpW.wQ = fr::rest) : fr.id ∈ s.live := by
  refine held.same.mem_iff.mpr ?_
  rw [head]
  exact List.mem_cons_self

theorem callbackFrees {s : State} {c fr status nwritten} (mem : fr.id ∈ s.live) :
    thrsrvCommUdpWriteCb { s with comm := c } fr status nwritten =
      { s with comm := c, r := account s.r fr status nwritten, live := s.live.erase fr.id, evNewconn := true } := by
  rw [thrsrvCommUdpWriteCb,fdeCommUdpFree,if_pos mem]

theorem Stepped.held {s a s'} (stepped : Stepped s a s') (held : Held s) : Held s' := by
  cases stepped with
  | ticked => exact ⟨held.same,held.distinct⟩
  | printed => exact ⟨held.same,held.distinct⟩
  | failed => exact ⟨held.same,held.distinct⟩
  | refused _ _ moved => exact ⟨moved.wQ.symm ▸ held.same,held.distinct⟩
  | quiet _ _ moved => exact ⟨moved.wQ.symm ▸ held.same,held.distinct⟩
  | @queued id c fresh _ _ moved =>
    refine ⟨?_,List.nodup_cons.mpr ⟨fresh,held.distinct⟩⟩
    have appended : c.c.udpW.wQ.map Frame.id = s.comm.c.udpW.wQ.map Frame.id ++ [id] := by rw [moved.wQ,List.map_append]; rfl
    change (id::s.live).Perm (c.c.udpW.wQ.map Frame.id)
    rw [appended]
    exact (held.same.cons id).trans (List.perm_append_singleton id _).symm
  | @handed _ fr rest _ _ _ _ _ head _ _ moved =>
    rw [callbackFrees (held.head head)]
    refine ⟨?_,held.distinct.erase fr.id⟩
    have erased := held.same.erase fr.id
    rw [head,List.map_cons,List.erase_cons_head] at erased
    exact moved.wQ.symm ▸ erased

theorem reachHeld {args s} (h : Reach (cltMachine args) s) : Held s := by
  induction h with
  | start initially =>
    obtain ⟨fd,cb,cbdata,rfl⟩ := initially
    exact ⟨.nil,.nil⟩
  | next before allowed ih => exact (stepped before allowed).held ih

theorem Stepped.faults {s a s'} (stepped : Stepped s a s') (held : Held s) (sound : s.fault = false) :
    s'.fault = true ↔ a = .round none := by
  have still {a : Act} (fails : a ≠ .round none) : s.fault = true ↔ a = .round none := by simp [sound,fails]
  cases stepped with
  | ticked => exact still (by simp)
  | printed => exact still (by simp)
  | failed => simp
  | refused => exact still (by simp)
  | queued => exact still (by simp)
  | quiet fails => exact still fails.1
  | handed fails _ head =>
    rw [callbackFrees (held.head head)]
    exact still fails.1

/- The frames allocated are those in the queue, each once, so they are never more than the
queue may hold. Nothing is freed twice, and nothing but an allocation that fails goes wrong. -/
theorem framesKept {args s} (h : Reach (cltMachine args) s) :
    s.live.Perm (s.comm.c.udpW.wQ.map Frame.id) ∧ s.live.Nodup ∧
    (s.live.length : Int) ≤ max 0 s.comm.c.udpW.maxQlen ∧
    ∀ a, Allowed s a → ((step s a).fault = true ↔ a = .round none) := by
  have held := reachHeld h
  have counted := (Comm.reachPrimed (reachSender h).1).toCounted
  refine ⟨held.same,held.distinct,?_,fun a allowed => (stepped h allowed).faults held allowed.1⟩
  rw [held.same.length_eq,List.length_map,← counted.len]
  exact counted.most

/- The first frame is handed back inside the handler while the second one still waits. -/
def args : Args := ⟨64,3,2⟩

def sendRun : List Act := [.newconn,.round (some 7),.round (some 8),.stats,.fire .udpWrite ⟨64,0,0,none⟩]

theorem framesKeptRun :
    let s := run (cltMachine args) (thrcltNew args 5 1 2) sendRun
    s.comm.ctl = .udpSend ∧ s.live.Perm [8] := by
  have reached : Reach (cltMachine args) (run (cltMachine args) (thrcltNew args 5 1 2) sendRun) :=
    reachRun (.start ⟨5,1,2,rfl⟩) (by decide)
  exact ⟨by decide,(framesKept reached).1⟩

/- The program goes on: a loop that has queued something, a callback that has armed the
timer, and between callbacks the timer or a frame in the queue. -/
structure Awake (args : Args) (s : State) : Prop where
  rate : s.r.connrate = args.connrate
  limit : s.comm.c.udpW.maxQlen = args.qdepth
  loop : ∀ n ∈ s.cnt, 0 ≤ n ∧ n < args.connrate ∧ (0 < n → s.comm.c.udpW.wQ ≠ [])
  inside : s.comm.ctl ≠ .idle → s.evNewconn = true
  between : Between s → 0 < args.connrate → 0 < args.qdepth → s.evNewconn = true ∨ s.comm.c.udpW.wQ ≠ []

theorem loopCnt {s : State} {k n : Int} (within : n ∈ (s.loop k).cnt) : n = k ∧ k < s.r.connrate := by
  simp only [State.loop] at within
  split at within
  · rename_i goes
    exact ⟨(Option.some.inj within).symm,goes⟩
  · contradiction

theorem Stepped.awake {args s a s'} (stepped : Stepped s a s') (held : Held s) (allowed : Allowed s a)
    (awake : Awake args s) : Awake args s' := by
  obtain ⟨_,allowed⟩ := allowed
  cases stepped with
  | ticked =>
    have idle : s.comm.ctl = .idle := allowed.1.2
    exact { awake with
      loop := fun n within => by
        obtain ⟨rfl,goes⟩ := loopCnt within
        exact ⟨Int.le_refl 0,awake.rate ▸ goes,fun more => absurd more (Int.lt_irrefl 0)⟩
      inside := fun inside => absurd idle inside
      between := fun out rate => by
        have ended : (thrcltEvNewconnCb { s with evNewconn := false }).cnt = none := out.1
        simp only [thrcltEvNewconnCb,thrcltSendFrames,State.loop,awake.rate,if_pos rate] at ended
        contradiction }
  | printed => exact { awake with }
  | failed => exact { awake with }
  | refused full idle moved =>
    exact { awake with
      limit := moved.limit.trans awake.limit
      loop := fun n within => absurd within (by simp)
      inside := fun inside => awake.inside (idle ▸ inside)
      between := fun _ _ deep => by
        rw [awake.limit] at full
        refine Or.inr fun empty => ?_
        rw [show _ = s.comm.c.udpW.wQ from moved.wQ] at empty
        rw [empty] at full
        exact absurd full (by simpa using deep) }
  | @queued id c _ _ idle moved =>
    have waiting : c.c.udpW.wQ ≠ [] := by simp [moved.wQ]
    obtain ⟨n,running⟩ := Option.isSome_iff_exists.mp allowed.1
    have least := (awake.loop n running).1
    exact { awake with
      limit := moved.limit.trans awake.limit
      loop := fun k within => by
        obtain ⟨rfl,goes⟩ := loopCnt within
        rw [running,Option.getD_some]
        exact ⟨by omega,by rw [running] at goes; exact awake.rate ▸ goes,fun _ => waiting⟩
      inside := fun inside => awake.inside (idle ▸ inside)
      between := fun _ _ _ => Or.inr waiting }
  | quiet _ out moved =>
    exact { awake with
      limit := moved.limit.trans awake.limit
      loop := fun n within => nomatch out.1.symm.trans within
      inside := fun inside => absurd out.2 inside
      between := fun _ rate deep => by
        -- A handler that goes on behind a callback finds the timer armed by it.
        by_cases idle : s.comm.ctl = .idle
        · rw [show _ = s.comm.c.udpW.wQ from moved.wQ]
          exact awake.between ⟨out.1,idle⟩ rate deep
        · exact Or.inl (awake.inside idle) }
  | handed _ out head _ _ moved =>
    rw [callbackFrees (held.head head)]
    exact { awake with
      rate := by unfold account; split <;> exact awake.rate
      limit := moved.limit.trans awake.limit
      loop := fun n within => nomatch out.symm.trans within
      inside := fun _ => rfl
      between := fun _ _ _ => Or.inl rfl }

theorem reachAwake {args s} (h : Reach (cltMachine args) s) : Awake args s := by
  induction h with
  | start initially =>
    obtain ⟨fd,cb,cbdata,rfl⟩ := initially
    exact ⟨rfl,rfl,fun _ within => (nomatch within),fun inside => absurd rfl inside,fun _ _ _ => Or.inl rfl⟩
  | next before allowed ih => exact (stepped before allowed).awake (reachHeld before) allowed ih

/- A rate or a queue without room for a frame: the first tick of the timer is the last. -/
theorem stalls (args : Args) (stuck : args.connrate ≤ 0 ∨ args.qdepth ≤ 0) :
    ∃ s, Reach (cltMachine args) s ∧ Between s ∧ s.evNewconn = false ∧ s.comm.armed .udpWrite = false := by
  have created : Reach (cltMachine args) (thrcltNew args 5 1 2) := .start ⟨5,1,2,rfl⟩
  have due : (cltMachine args).allowed (thrcltNew args 5 1 2) .newconn := ⟨rfl,⟨rfl,rfl⟩,rfl⟩
  have ticked := Reach.next created due
  by_cases goes : 0 < args.connrate
  · have full : args.qdepth ≤ 0 := stuck.resolve_left (by omega)
    have runs : ((cltMachine args).step (thrcltNew args 5 1 2) .newconn).cnt = some 0 := if_pos goes
    have fresh : (cltMachine args).allowed ((cltMachine args).step (thrcltNew args 5 1 2) .newconn) (.round (some 7)) :=
      ⟨rfl,by rw [runs]; rfl,fun _ _ => List.not_mem_nil⟩
    have room : (0 : Int) ≥ args.qdepth := full
    refine ⟨_,.next ticked fresh,?_⟩
    simp [cltMachine,step,sendFrame,thrcltNew,thrcltEvNewconnCb,thrcltSendFrames,State.loop,fdeCommUdpFree,Between,
      Comm.client,Comm.commCall,Comm.commCreate,Comm.commUdpWriteSetup,Comm.commUdpWrite,room]
  · exact ⟨_,ticked,⟨if_neg goes,rfl⟩,rfl,rfl⟩

/- Nothing is ever queued then, so no callback arms the timer again. -/
theorem Stepped.dry {args s a s'} (stepped : Stepped s a s') (awake : Awake args s) (allowed : Allowed s a)
    (stuck : args.connrate ≤ 0 ∨ args.qdepth ≤ 0) (dry : s.comm.c.udpW.wQ = []) :
    s'.comm.c.udpW.wQ = [] ∧ sent s'.comm = sent s.comm ∧ s'.evNewconn = (s.evNewconn && a != .newconn) := by
  have still {a : Act} (other : a ≠ .newconn) : s.evNewconn = (s.evNewconn && a != .newconn) := by simp [other]
  obtain ⟨_,allowed⟩ := allowed
  cases stepped with
  | ticked => exact ⟨dry,rfl,(Bool.and_false _).symm⟩
  | printed => exact ⟨dry,rfl,still (by simp)⟩
  | failed => exact ⟨dry,rfl,still (by simp)⟩
  | refused _ _ moved => exact ⟨moved.wQ.trans dry,moved.sent,still (by simp)⟩
  | queued _ room =>
    obtain ⟨n,running⟩ := Option.isSome_iff_exists.mp allowed.1
    have goes := awake.loop n running
    rw [dry,awake.limit,List.length_nil] at room
    omega
  | quiet fails _ moved => exact ⟨moved.wQ.trans dry,moved.sent,still fails.2⟩
  | handed _ _ head => exact absurd (head.symm.trans dry) (List.cons_ne_nil _ _)

theorem reachDry {args s} (stuck : args.connrate ≤ 0 ∨ args.qdepth ≤ 0) (h : Reach (cltMachine args) s) :
    s.comm.c.udpW.wQ = [] ∧ sent s.comm = [] := by
  induction h with
  | start initially =>
    obtain ⟨fd,cb,cbdata,rfl⟩ := initially
    exact ⟨rfl,rfl⟩
  | next before allowed ih =>
    obtain ⟨dry,same,_⟩ := (stepped before allowed).dry (reachAwake before) allowed stuck ih.1
    exact ⟨dry,same.trans ih.2⟩

theorem ticksLeft {args s acts} (stuck : args.connrate ≤ 0 ∨ args.qdepth ≤ 0) (h : Reach (cltMachine args) s)
    (possible : Possible (cltMachine args) s acts) :
    acts.count .newconn + (run (cltMachine args) s acts).evNewconn.toNat = s.evNewconn.toNat := by
  induction acts generalizing s with
  | nil => exact Nat.zero_add _
  | cons a rest ih =>
    obtain ⟨allowed,later⟩ := possible
    have timer := ((stepped h allowed).dry (reachAwake h) allowed stuck (reachDry stuck h).1).2.2
    have left : rest.count .newconn + (run (cltMachine args) s (a::rest)).evNewconn.toNat = (step s a).evNewconn.toNat :=
      ih (.next h allowed) later
    rw [timer] at left
    by_cases tick : a = .newconn
    · subst tick
      have due : s.evNewconn = true := allowed.2.2
      simp only [due,bne_self_eq_false,Bool.and_false,Bool.toNat_false] at left
      rw [List.count_cons_self,due,Bool.toNat_true]
      omega
    · rw [List.count_cons_of_ne tick,left,bne_iff_ne.mpr tick,Bool.and_true]

/- Between callbacks the program always has an event that will make it send again, unless
it was started with a rate or a queue depth that is not positive. Then a run has one tick
of the timer, which is behind it or still armed, and sends nothing. -/
theorem keepsSendingIff (args : Args) :
    ((∀ s, Reach (cltMachine args) s → Between s → s.evNewconn = true ∨ s.comm.armed .udpWrite = true) ↔
      0 < args.connrate ∧ 0 < args.qdepth) ∧
    (¬ (0 < args.connrate ∧ 0 < args.qdepth) →
      ∀ (fd : Int) (cb cbdata : Nat) (acts : List Act), Possible (cltMachine args) (thrcltNew args fd cb cbdata) acts →
        let s := run (cltMachine args) (thrcltNew args fd cb cbdata) acts
        acts.count .newconn + s.evNewconn.toNat = 1 ∧ s.comm.c.udpW.wQ = [] ∧ sent s.comm = []) := by
  refine ⟨⟨fun sends => ?_,?_⟩,fun stuck fd cb cbdata acts possible => ?_⟩
  · by_contra stuck
    obtain ⟨s,reached,between,timer,event⟩ := stalls args (by omega)
    rcases sends s reached between with armed | armed
    · exact Comm.never (timer.symm.trans armed)
    · exact Comm.never (event.symm.trans armed)
  · intro ⟨rate,deep⟩ s reached between
    rcases (reachAwake reached).between between rate deep with timer | waiting
    · exact Or.inl timer
    · have primed := Comm.reachPrimed (reachSender reached).1
      have out : s.comm.ctl.inUdpWrite = false := by rw [between.2]; rfl
      exact Or.inr ((primed.flag (Comm.notDraining out)).symm.trans (primed.waits out waiting))
  · have stuck : args.connrate ≤ 0 ∨ args.qdepth ≤ 0 := by omega
    have created : Reach (cltMachine args) (thrcltNew args fd cb cbdata) := .start ⟨fd,cb,cbdata,rfl⟩
    exact ⟨ticksLeft stuck created possible,reachDry stuck (reachRun created possible)⟩

/- A queue depth of nothing: the frame of the first round is refused, and statistics are all
that is left to do. -/
def stuckArgs : Args := ⟨64,0,2⟩

def stuckRun : List Act := [.newconn,.round (some 7),.stats]

theorem keepsSendingStuck :
    let s := run (cltMachine stuckArgs) (thrcltNew stuckArgs 5 1 2) stuckRun
    Between s ∧ s.evNewconn = false ∧ stuckRun.count .newconn + s.evNewconn.toNat = 1 ∧ sent s.comm = [] := by
  have once := (keepsSendingIff stuckArgs).2 (by decide) 5 1 2 stuckRun (by decide)
  exact ⟨by decide,by decide,once.1,once.2.2⟩

def rounds (frames : List Nat) : List Act := frames.map fun id => .round (some id)

theorem loopEnded {args s frames} (possible : Possible (cltMachine args) s (rounds frames)) (out : s.cnt = none) :
    frames = [] := by
  cases frames with
  | nil => rfl
  | cons id rest =>
    have running : s.cnt.isSome = true := possible.1.2.1
    rw [out] at running
    exact Comm.never running

theorem reachMost {args s} (h : Reach (cltMachine args) s) : (s.comm.c.udpW.wQ.length : Int) ≤ max 0 args.qdepth := by
  have counted := (Comm.reachPrimed (reachSender h).1).toCounted
  rw [← counted.len,← (reachAwake h).limit]
  exact counted.most

/- Round `n` of the loop. -/
inductive Round (args : Args) (s : State) (n : Int) (s' : State) : Prop where
  | refused (full : args.qdepth ≤ s.comm.c.udpW.wQ.length) (same : s'.comm.c.udpW.wQ = s.comm.c.udpW.wQ)
      (ends : s'.cnt = none)
  | last {fr : Frame} (room : s.comm.c.udpW.wQ.length < args.qdepth)
      (grows : s'.comm.c.udpW.wQ = s.comm.c.udpW.wQ ++ [fr]) (spent : args.connrate ≤ n + 1) (ends : s'.cnt = none)
  | more {fr : Frame} (room : s.comm.c.udpW.wQ.length < args.qdepth)
      (grows : s'.comm.c.udpW.wQ = s.comm.c.udpW.wQ ++ [fr]) (goes : s'.cnt = some (n + 1))

theorem roundStep {args s n id} (h : Reach (cltMachine args) s) (running : s.cnt = some n)
    (allowed : (cltMachine args).allowed s (.round (some id))) : Round args s n (step s (.round (some id))) := by
  have awake := reachAwake h
  have after := stepped h (a := .round (some id)) allowed
  generalize step s (.round (some id)) = s' at after ⊢
  cases after with
  | refused full _ moved => exact .refused (awake.limit ▸ full) moved.wQ rfl
  | queued _ room _ moved =>
    rw [awake.limit] at room
    simp only [State.loop,running,Option.getD_some,awake.rate]
    split
    · exact .more room moved.wQ rfl
    · rename_i spent
      exact .last room moved.wQ (Int.not_lt.mp spent) rfl
  | quiet _ out => exact nomatch running.symm.trans out.1
  | handed _ out => exact nomatch running.symm.trans out

/- What is left of the loop in its round `n`: it ends with the queue full, or when it has
queued as many frames as there are rounds. -/
theorem roundsFill {args s n} (frames : List Nat) (h : Reach (cltMachine args) s)
    (possible : Possible (cltMachine args) s (rounds frames)) (running : s.cnt = some n)
    (done : (run (cltMachine args) s (rounds frames)).cnt = none) :
    s.comm.c.udpW.wQ <+: (run (cltMachine args) s (rounds frames)).comm.c.udpW.wQ ∧
    ((run (cltMachine args) s (rounds frames)).comm.c.udpW.wQ.length : Int) =
      min (max 0 args.qdepth) (s.comm.c.udpW.wQ.length + (args.connrate - n)) := by
  induction frames generalizing s n with
  | nil => exact nomatch running.symm.trans done
  | cons id rest ih =>
    obtain ⟨allowed,later⟩ := possible
    have most := reachMost h
    have below := ((reachAwake h).loop n running).2.1
    have reached : Reach (cltMachine args) (step s (.round (some id))) := .next h allowed
    have whole : run (cltMachine args) s (rounds (id::rest)) =
        run (cltMachine args) (step s (.round (some id))) (rounds rest) := rfl
    rw [whole] at done ⊢
    cases roundStep h running allowed with
    | refused full same ends =>
      cases loopEnded later ends
      change _ <+: (step s (.round (some id))).comm.c.udpW.wQ ∧ ((step s (.round (some id))).comm.c.udpW.wQ.length : Int) = _
      rw [same]
      exact ⟨List.prefix_rfl,by omega⟩
    | last room grows spent ends =>
      cases loopEnded later ends
      change _ <+: (step s (.round (some id))).comm.c.udpW.wQ ∧ ((step s (.round (some id))).comm.c.udpW.wQ.length : Int) = _
      rw [grows,List.length_append,List.length_singleton]
      exact ⟨List.prefix_append ..,by omega⟩
    | more room grows goes =>
      obtain ⟨kept,fill⟩ := ih reached later goes done
      rw [grows] at kept
      rw [grows,List.length_append,List.length_singleton] at fill
      exact ⟨(List.prefix_append ..).trans kept,fill.trans (by omega)⟩

theorem tickStarts {args s} (h : Reach (cltMachine args) s) :
    (step s .newconn).cnt = if 0 < args.connrate then some 0 else none := by
  rw [← (reachAwake h).rate]
  rfl

/- One tick of the timer fills the queue up to its depth, as far as the rate allows, and
leaves what was in it in front. -/
theorem tickFills {args s frames} (h : Reach (cltMachine args) s) (due : (cltMachine args).allowed s .newconn)
    (possible : Possible (cltMachine args) (step s .newconn) (rounds frames))
    (done : (run (cltMachine args) (step s .newconn) (rounds frames)).cnt = none) :
    s.comm.c.udpW.wQ <+: (run (cltMachine args) (step s .newconn) (rounds frames)).comm.c.udpW.wQ ∧
    ((run (cltMachine args) (step s .newconn) (rounds frames)).comm.c.udpW.wQ.length : Int) =
      min (max 0 args.qdepth) (s.comm.c.udpW.wQ.length + max 0 args.connrate) := by
  have reached : Reach (cltMachine args) (step s .newconn) := .next h due
  by_cases goes : 0 < args.connrate
  · have running : (step s .newconn).cnt = some 0 := (tickStarts h).trans (if_pos goes)
    obtain ⟨grown,fill⟩ := roundsFill frames reached possible running done
    refine ⟨grown,fill.trans ?_⟩
    change min (max 0 args.qdepth) ((s.comm.c.udpW.wQ.length : Int) + (args.connrate - 0)) = _
    omega
  · have ended : (step s .newconn).cnt = none := (tickStarts h).trans (if_neg goes)
    have most := reachMost h
    cases loopEnded possible ended
    refine ⟨List.prefix_rfl,?_⟩
    change (s.comm.c.udpW.wQ.length : Int) = _
    omega

/- Two frames are sent at a rate of two, the first of them leaves, and the next tick finds
room for two more. -/
def tickRun : List Act := sendRun ++ [.resume ⟨-1,Comm.eAgain,0,none⟩]

theorem tickFillsRun :
    let s := run (cltMachine args) (thrcltNew args 5 1 2) tickRun
    s.comm.c.udpW.wQ.length = 1 ∧
      ((run (cltMachine args) (step s .newconn) (rounds [7,9])).comm.c.udpW.wQ.length : Int) = 3 := by
  have reached : Reach (cltMachine args) (run (cltMachine args) (thrcltNew args 5 1 2) tickRun) :=
    reachRun (.start ⟨5,1,2,rfl⟩) (by decide)
  exact ⟨by decide,(tickFills reached (by decide) (by decide) (by decide)).2⟩

theorem Round.next {args s n s'} (round : Round args s n s') : s'.cnt = none ∨ s'.cnt = some (n + 1) := by
  cases round with
  | refused _ _ ends => exact Or.inl ends
  | last _ _ _ ends => exact Or.inl ends
  | more _ _ goes => exact Or.inr goes

/- The loop has at most as many rounds as are left of the rate. -/
theorem roundsBounded {args s n} (frames : List Nat) (h : Reach (cltMachine args) s)
    (possible : Possible (cltMachine args) s (rounds frames)) (running : s.cnt = some n) :
    (frames.length : Int) ≤ args.connrate - n := by
  have below := ((reachAwake h).loop n running).2.1
  induction frames generalizing s n with
  | nil => simpa using Int.le_of_lt below
  | cons id rest ih =>
    obtain ⟨allowed,later⟩ := possible
    have reached : Reach (cltMachine args) (step s (.round (some id))) := .next h allowed
    rw [List.length_cons]
    rcases (roundStep h running allowed).next with ended | next
    · cases loopEnded later ended
      simp only [List.length_nil]
      omega
    · have fewer := ih reached later next ((reachAwake reached).loop _ next).2.1
      omega

/- As long as the loop is not over it has another round, whatever address malloc() gives. -/
theorem roundsComplete {args s n} (left : Nat) (h : Reach (cltMachine args) s) (sound : s.fault = false)
    (running : s.cnt = some n) (most : args.connrate - n ≤ left) :
    ∃ frames, Possible (cltMachine args) s (rounds frames) ∧ (run (cltMachine args) s (rounds frames)).cnt = none := by
  induction left generalizing s n with
  | zero =>
    have below := ((reachAwake h).loop n running).2.1
    omega
  | succ left ih =>
    obtain ⟨id,fresh⟩ := Infinite.exists_notMem_finset s.live.toFinset
    have allowed : (cltMachine args).allowed s (.round (some id)) := by
      refine ⟨sound,by rw [running]; rfl,fun _ same => ?_⟩
      cases same
      exact fun mem => fresh (List.mem_toFinset.mpr mem)
    have reached : Reach (cltMachine args) (step s (.round (some id))) := .next h allowed
    rcases (roundStep h running allowed).next with ended | next
    · exact ⟨[id],⟨allowed,trivial⟩,ended⟩
    · have still : (step s (.round (some id))).fault = false := by
        have faults := (stepped h (a := .round (some id)) allowed).faults (reachHeld h) sound
        simpa using faults
      obtain ⟨rest,possible,done⟩ := ih reached still next (by omega)
      exact ⟨id::rest,⟨allowed,possible⟩,done⟩

/- The loop of a tick ends: it has at most `connrate` rounds and can always be finished. -/
theorem tickEnds {args s} (h : Reach (cltMachine args) s) (due : (cltMachine args).allowed s .newconn) :
    (∀ frames, Possible (cltMachine args) (step s .newconn) (rounds frames) → (frames.length : Int) ≤ max 0 args.connrate) ∧
    ∃ frames, Possible (cltMachine args) (step s .newconn) (rounds frames) ∧
      (run (cltMachine args) (step s .newconn) (rounds frames)).cnt = none := by
  have reached : Reach (cltMachine args) (step s .newconn) := .next h due
  by_cases goes : 0 < args.connrate
  · have running : (step s .newconn).cnt = some 0 := (tickStarts h).trans (if_pos goes)
    constructor
    · intro frames possible
      have bounded := roundsBounded frames reached possible running
      omega
    · exact roundsComplete args.connrate.toNat reached due.1 running (by omega)
  · have ended : (step s .newconn).cnt = none := (tickStarts h).trans (if_neg goes)
    constructor
    · intro frames possible
      cases loopEnded possible ended
      simp
    · exact ⟨[],trivial,ended⟩

/- The statistics: what has been printed and what is still to be printed. -/
structure Accounted (s : State) : Prop where
  pkts : s.r.totalPktWritten + (s.reports.map Prod.fst).sum = UInt64.ofNat (sent s.comm).length
  bytes : s.r.totalByteWritten + (s.reports.map Prod.snd).sum = ((sent s.comm).map fun fr => UInt64.ofInt fr.len).sum

theorem Stepped.accounted {s a s'} (stepped : Stepped s a s') (held : Held s) (accounted : Accounted s) :
    Accounted s' := by
  have kept {c : Comm.State} {wQ} (moved : Moved s.comm c wQ []) : sent c = sent s.comm := moved.sent
  cases stepped with
  | ticked => exact ⟨accounted.pkts,accounted.bytes⟩
  | printed =>
    obtain ⟨pkts,bytes⟩ := accounted
    constructor
    · simpa [thrcltEvStatPrint] using pkts
    · simpa [thrcltEvStatPrint] using bytes
  | failed => exact ⟨accounted.pkts,accounted.bytes⟩
  | refused _ _ moved => exact ⟨(kept moved).symm ▸ accounted.pkts,(kept moved).symm ▸ accounted.bytes⟩
  | queued _ _ _ moved => exact ⟨(kept moved).symm ▸ accounted.pkts,(kept moved).symm ▸ accounted.bytes⟩
  | quiet _ _ moved => exact ⟨(kept moved).symm ▸ accounted.pkts,(kept moved).symm ▸ accounted.bytes⟩
  | @handed _ fr rest status nwritten c _ _ head whole _ moved =>
    rw [callbackFrees (held.head head)]
    have sends : sent c = (if status = .completed then [fr] else []) ++ sent s.comm := moved.sent
    by_cases completed : status = .completed
    · have all := whole completed
      have counts : account s.r fr status nwritten =
          { s.r with
            totalPktWritten := s.r.totalPktWritten + 1
            totalByteWritten := s.r.totalByteWritten + UInt64.ofInt fr.len } := by
        rw [account,if_pos ⟨completed,all⟩,all]
      rw [if_pos completed] at sends
      constructor
      · simp only [counts,sends,List.singleton_append,List.length_cons,UInt64.ofNat_add,← accounted.pkts]
        ac_rfl
      · simp only [counts,sends,List.singleton_append,List.map_cons,List.sum_cons,← accounted.bytes]
        ac_rfl
    · have same : account s.r fr status nwritten = s.r := if_neg fun h => completed h.1
      rw [if_neg completed,List.nil_append] at sends
      rw [same]
      exact ⟨sends.symm ▸ accounted.pkts,sends.symm ▸ accounted.bytes⟩

/- What the program has printed, with what it will print next, is what the kernel took: no
frame is left out and none is counted twice. The counters wrap at 64 bits. -/
theorem reportsExact {args s} (h : Reach (cltMachine args) s) :
    s.r.totalPktWritten + (s.reports.map Prod.fst).sum = UInt64.ofNat (sent s.comm).length ∧
    s.r.totalByteWritten + (s.reports.map Prod.snd).sum = ((sent s.comm).map fun fr => UInt64.ofInt fr.len).sum := by
  have accounted : Accounted s := by
    induction h with
    | start initially =>
      obtain ⟨fd,cb,cbdata,rfl⟩ := initially
      exact ⟨rfl,rfl⟩
    | next before allowed ih => exact (stepped before allowed).accounted (reachHeld before) ih
  exact ⟨accounted.pkts,accounted.bytes⟩

theorem reportsExactRun :
    let s := run (cltMachine args) (thrcltNew args 5 1 2) tickRun
    s.reports = [(0,0)] ∧ s.r.totalPktWritten + 0 = 1 ∧ s.r.totalByteWritten + 0 = 64 := by
  have reached : Reach (cltMachine args) (run (cltMachine args) (thrcltNew args 5 1 2) tickRun) :=
    reachRun (.start ⟨5,1,2,rfl⟩) (by decide)
  exact ⟨by decide,reportsExact reached⟩

end Libiapp.UdpClt

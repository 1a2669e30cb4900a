import Libiapp.FdeGeneration
import Libiapp.FdeTimers
import Mathlib.Data.List.Perm.Subperm

/-! fde_t_runloop while its callbacks change the list. There is no generation counter here:
the loop stops at the first timer that is not due. Callbacks that add timers for later only
can take due timers away but never make a new one, so the number of due timers is a measure,
in whatever order they are linked. -/
namespace Libiapp.Event
open Kqueue Runs

def Due (now tv : Timeval) : Prop := 0 ≤ timevalCmp now tv
instance (now tv : Timeval) : Decidable (Due now tv) := by unfold Due; infer_instance

def opsEvents {κ} [Kq κ] (fh : FdeHead κ) : List Op → List Ev
  | [] => []
  | o::rest => opEvents fh o ++ opsEvents (applyOp fh o) rest

def fdeTLoop {κ} [Kq κ] (callback : List FdeId → FdeHead κ → List Op) (now : Timeval) :
    Nat → List FdeId → FdeHead κ → Option (FdeHead κ × List (FdeId × List Ev))
  | 0,_,_ => none
  | fuel+1,done,fh =>
    match fdeTNext now fh with
    | none => some (fh,[])
    | some (f,fh) => do
      let ops := callback (done ++ [f]) fh
      let (final,rest) ← fdeTLoop callback now fuel (done ++ [f]) (ops.foldl applyOp fh)
      some (final,(f,opsEvents fh ops)::rest)

def fdeTRunloop {κ} [Kq κ] (callback : List FdeId → FdeHead κ → List Op) (fuel : Nat) (fh : FdeHead κ)
    (now : Timeval) : Option (FdeHead κ × List (FdeId × List Ev)) := fdeTLoop callback now fuel [] fh

/- A timer that is really added is added for later. -/
def Op.later {κ} (now : Timeval) (fh : FdeHead κ) : Op → Prop
  | .addTimeout f tv => fh.active f = true ∨ timevalCmp now tv < 0
  | _ => True

def OpsLater {κ} [Kq κ] (now : Timeval) (fh : FdeHead κ) : List Op → Prop
  | [] => True
  | o::rest => o.later now fh ∧ OpsLater now (applyOp fh o) rest

def TimersLegal {κ} [Kq κ] (callback : List FdeId → FdeHead κ → List Op) (now : Timeval) :
    Nat → List FdeId → FdeHead κ → Prop
  | 0,_,_ => True
  | fuel+1,done,fh =>
    match fdeTNext now fh with
    | none => True
    | some (f,fh) => OpsAllowed fh (callback (done ++ [f]) fh) ∧ OpsLater now fh (callback (done ++ [f]) fh) ∧
        TimersLegal callback now fuel (done ++ [f]) ((callback (done ++ [f]) fh).foldl applyOp fh)

/- An operation that leaves its fde active, which it was, has done nothing. -/
theorem opStaysActive {κ} [Kq κ] {fh : FdeHead κ} {inRw o} (lists : Lists fh) (ok : OpAllowed fh inRw o)
    (before : fh.active o.target = true) (after : (applyOp fh o).active o.target = true) : applyOp fh o = fh := by
  have idle {e : Fde} {f : FdeId} (found : fh.fdes f = some e) (off : e.isActive = false) : fh.active f = false := by
    simp [FdeHead.active,found,off]
  cases o with
  | create f fd t fl cb cbdata =>
    have fresh : fh.fdes f = none := ok
    simp [FdeHead.active,Op.target,fresh] at before
  | add f =>
    rcases fdeAddEffect fh f with same | ⟨e,e',effect,_⟩
    · exact same
    · exact absurd before (by simp [Op.target,idle effect.found effect.idle])
  | addTimeout f tv =>
    rcases fdeAddTimeoutEffect fh f tv ok with ⟨same,_⟩ | ⟨e,e',effect,_⟩
    · exact same
    · exact absurd before (by simp [Op.target,idle effect.found effect.idle])
  | delete f => exact absurd after (by simp [applyOp,Op.target,deleteOff lists.known f])
  | free f => exact absurd after (by simp [applyOp,Op.target,FdeHead.active,freeFdes lists.known f])

/- Only fde_add_timeout arms a timer, and then for the time it is given. -/
theorem opArmsTimer {κ} [Kq κ] {fh : FdeHead κ} {inRw o} (lists : Lists fh) (ok : OpAllowed fh inRw o)
    (before : fh.active o.target = false) (after : (applyOp fh o).active o.target = true)
    (timer : (applyOp fh o).typeOf o.target = some .timer) :
    ∃ tv, o = .addTimeout o.target tv ∧ (applyOp fh o).tvOf o.target = tv := by
  cases o with
  | create f fd t fl cb cbdata =>
    simp only [applyOp] at after
    cases made : fdeCreate fh f fd t fl cb cbdata with
    | none =>
      rw [made] at after
      exact absurd after (by simp [before])
    | some fh' =>
      obtain ⟨e,rfl,off,_⟩ := fdeCreateEffect made
      rw [made] at after
      simp [FdeHead.active,FdeHead.put,Op.target,off] at after
  | add f =>
    rcases fdeAddEffect fh f with same | ⟨e,e',effect,type⟩
    · rw [applyOp,same,before] at after
      contradiction
    · rw [applyOp,Op.target,typeUpdate effect.fdes,if_pos rfl,effect.type] at timer
      exact absurd (Option.some.inj timer) type
  | addTimeout f tv =>
    rcases fdeAddTimeoutEffect fh f tv ok with ⟨same,_⟩ | ⟨e,e',effect,_,time⟩
    · rw [applyOp,same,before] at after
      contradiction
    · exact ⟨tv,rfl,by rw [applyOp,Op.target,tvUpdate effect.fdes,if_pos rfl,time]⟩
  | delete f => exact absurd after (by simp [applyOp,Op.target,deleteOff lists.known f])
  | free f => exact absurd after (by simp [applyOp,Op.target,FdeHead.active,freeFdes lists.known f])

/- What a callback does to the timers, told by the timers that it deletes. -/
structure TimerTurn {κ} (now : Timeval) (fh fh' : FdeHead κ) (events : List Ev) : Prop where
  lists : Lists fh'
  due : ∀ f ∈ fh'.fTHead, Due now (fh'.tvOf f) → f ∈ fh.fTHead ∧ fh'.tvOf f = fh.tvOf f ∧ Ev.deleted f ∉ events
  kept : ∀ f ∈ fh.fTHead, Ev.deleted f ∉ events → f ∈ fh'.fTHead ∧ fh'.tvOf f = fh.tvOf f

theorem turnSame {κ} {fh : FdeHead κ} (lists : Lists fh) (now) : TimerTurn now fh fh [] :=
  ⟨lists,fun _ mem _ => ⟨mem,rfl,List.not_mem_nil⟩,fun _ mem _ => ⟨mem,rfl⟩⟩

theorem turnTrans {κ} {now} {a b c : FdeHead κ} {first second} (early : TimerTurn now a b first)
    (late : TimerTurn now b c second) : TimerTurn now a c (first ++ second) := by
  refine ⟨late.lists,?_,?_⟩
  · intro f mem due
    obtain ⟨there,time,spared⟩ := late.due f mem due
    obtain ⟨here,before,alive⟩ := early.due f there (time ▸ due)
    exact ⟨here,time.trans before,fun deleted => (List.mem_append.mp deleted).elim alive spared⟩
  · intro f mem spared
    simp only [List.mem_append,not_or] at spared
    obtain ⟨there,time⟩ := early.kept f mem spared.1
    obtain ⟨last,later⟩ := late.kept f there spared.2
    exact ⟨last,later.trans time⟩

theorem opTurn {κ} [Kq κ] {fh : FdeHead κ} {now inRw o} (lists : Lists fh) (ok : OpAllowed fh inRw o)
    (later : o.later now fh) : TimerTurn now fh (applyOp fh o) (opEvents fh o) := by
  have after := opLists lists ok
  have other {f : FdeId} (apart : f ≠ o.target) : (f ∈ (applyOp fh o).fTHead ↔ f ∈ fh.fTHead) ∧
      (applyOp fh o).tvOf f = fh.tvOf f := by
    have same := opOther lists.known apart
    rw [timed after,timed lists]
    simp only [FdeHead.active,FdeHead.typeOf,FdeHead.tvOf,same,and_self]
  have silent {f : FdeId} (apart : f ≠ o.target) : Ev.deleted f ∉ opEvents fh o := by
    unfold opEvents
    split <;> simp [apart]
  refine ⟨after,?_,?_⟩
  · intro f mem due
    by_cases apart : f = o.target
    · subst f
      obtain ⟨on,timer⟩ := (timed after _).mp mem
      cases before : fh.active o.target with
      | true =>
        have same := opStaysActive lists ok before on
        rw [same] at mem due ⊢
        refine ⟨mem,rfl,?_⟩
        simp [opEvents,same,before]
      | false =>
        -- the timer is new, so it is not due
        obtain ⟨tv,armed,time⟩ := opArmsTimer lists ok before on timer
        rw [armed] at later
        have far : timevalCmp now tv < 0 := later.resolve_left (by simp [before])
        rw [time] at due
        exact absurd due (Int.not_le.mpr far)
    · exact ⟨(other apart).1.mp mem,(other apart).2,silent apart⟩
  · intro f mem spared
    by_cases apart : f = o.target
    · subst f
      have before := ((timed lists _).mp mem).1
      cases on : (applyOp fh o).active o.target with
      | true =>
        have same := opStaysActive lists ok before on
        rw [same]
        exact ⟨mem,rfl⟩
      | false => exact absurd (by simp [opEvents,before,on]) spared
    · exact ⟨(other apart).1.mpr mem,(other apart).2⟩

theorem opsTurn {κ} [Kq κ] {fh : FdeHead κ} {now ops} (lists : Lists fh) (ok : OpsAllowed fh ops)
    (later : OpsLater now fh ops) : TimerTurn now fh (ops.foldl applyOp fh) (opsEvents fh ops) := by
  induction ops generalizing fh with
  | nil => exact turnSame lists now
  | cons o rest ih =>
    have first := opTurn lists ok.1 later.1
    exact turnTrans first (ih first.lists ok.2 later.2)

/- The loop takes the timer off the list before it calls it. -/
theorem takenTimers {κ} [Kq κ] {fh : FdeHead κ} (lists : Lists fh) (f g) :
    (g ∈ (fdeDelete fh f).fTHead ↔ g ∈ fh.fTHead ∧ g ≠ f) ∧ (g ≠ f → (fdeDelete fh f).tvOf g = fh.tvOf g) := by
  have after := deleteLists lists f
  by_cases apart : g = f
  · subst g
    refine ⟨?_,fun different => absurd rfl different⟩
    simp [timed after,deleteOff lists.known f]
  · have same := deleteOther lists.known apart
    rw [timed after,timed lists]
    simp [FdeHead.active,FdeHead.typeOf,FdeHead.tvOf,same,apart]

def dueTimers {κ} (now : Timeval) (fh : FdeHead κ) : List FdeId := fh.fTHead.filter (fun f => Due now (fh.tvOf f))

theorem tHeadNodup {κ} {fh : FdeHead κ} (lists : Lists fh) : fh.fTHead.Nodup := by
  rw [List.nodup_iff_count_le_one]
  intro f
  rw [lists.tHead]
  split <;> omega

structure Turns {κ} (now : Timeval) (fh final : FdeHead κ) (trace : List (FdeId × List Ev)) : Prop where
  once : (trace.map Prod.fst).Nodup
  called : ∀ earlier f events rest, trace = earlier ++ (f,events)::rest →
    f ∈ fh.fTHead ∧ Due now (fh.tvOf f) ∧ ∀ turn ∈ earlier, Ev.deleted f ∉ turn.2
  kept : ∀ f ∈ fh.fTHead, f ∉ trace.map Prod.fst → (∀ turn ∈ trace, Ev.deleted f ∉ turn.2) →
    f ∈ final.fTHead ∧ final.tvOf f = fh.tvOf f

theorem turnsMember {κ} {now} {fh final : FdeHead κ} {trace g} (turns : Turns now fh final trace)
    (mem : g ∈ trace.map Prod.fst) : g ∈ fh.fTHead ∧ Due now (fh.tvOf g) := by
  obtain ⟨⟨f,events⟩,inside,rfl⟩ := List.mem_map.mp mem
  obtain ⟨earlier,rest,whole⟩ := List.append_of_mem inside
  obtain ⟨listed,due,_⟩ := turns.called earlier f events rest whole
  exact ⟨listed,due⟩

/- One turn: `f` is taken and called, and the rest of the loop runs on what is left. -/
theorem turnsCons {κ} [Kq κ] {now} {fh fh' final : FdeHead κ} {f events trace} (lists : Lists fh) (listed : f ∈ fh.fTHead)
    (due : Due now (fh.tvOf f)) (turn : TimerTurn now (fdeDelete fh f) fh' events) (turns : Turns now fh' final trace) :
    Turns now fh final ((f,events)::trace) := by
  have before {g : FdeId} (mem : g ∈ fh'.fTHead) (dueG : Due now (fh'.tvOf g)) :
      g ≠ f ∧ g ∈ fh.fTHead ∧ Due now (fh.tvOf g) ∧ Ev.deleted g ∉ events := by
    obtain ⟨left,time,spared⟩ := turn.due g mem dueG
    obtain ⟨there,apart⟩ := (takenTimers lists f g).1.mp left
    rw [time,(takenTimers lists f g).2 apart] at dueG
    exact ⟨apart,there,dueG,spared⟩
  refine ⟨?_,?_,?_⟩
  · refine List.nodup_cons.mpr ⟨?_,turns.once⟩
    intro again
    obtain ⟨mem,dueAgain⟩ := turnsMember turns again
    exact (before mem dueAgain).1 rfl
  · intro earlier g evs rest whole
    cases earlier with
    | nil =>
      cases whole
      exact ⟨listed,due,by simp⟩
    | cons first earlier =>
      obtain ⟨rfl,tail⟩ := List.cons.inj whole
      obtain ⟨mem,dueG,alive⟩ := turns.called earlier g evs rest tail
      obtain ⟨_,there,dueThen,spared⟩ := before mem dueG
      refine ⟨there,dueThen,?_⟩
      intro turn inside
      rcases List.mem_cons.mp inside with rfl | inside
      · exact spared
      · exact alive turn inside
  · intro g mem uncalled spared
    simp only [List.map_cons,List.mem_cons,not_or] at uncalled
    have left := (takenTimers lists f g).1.mpr ⟨mem,uncalled.1⟩
    obtain ⟨there,time⟩ := turn.kept g left (spared _ List.mem_cons_self)
    obtain ⟨last,same⟩ := turns.kept g there uncalled.2 fun turn inside => spared turn (List.mem_cons_of_mem _ inside)
    exact ⟨last,by rw [same,time,(takenTimers lists f g).2 uncalled.1]⟩

theorem fewerDue {κ} [Kq κ] {now} {fh fh' : FdeHead κ} {f events} (lists : Lists fh) (listed : f ∈ fh.fTHead)
    (due : Due now (fh.tvOf f)) (turn : TimerTurn now (fdeDelete fh f) fh' events) :
    (dueTimers now fh').length < (dueTimers now fh).length := by
  have head : f ∈ dueTimers now fh := List.mem_filter.mpr ⟨listed,by simpa using due⟩
  have inside : dueTimers now fh' ⊆ (dueTimers now fh).erase f := by
    intro g mem
    obtain ⟨there,dueG⟩ := List.mem_filter.mp mem
    obtain ⟨left,time,_⟩ := turn.due g there (by simpa using dueG)
    obtain ⟨here,apart⟩ := (takenTimers lists f g).1.mp left
    rw [time,(takenTimers lists f g).2 apart] at dueG
    exact (List.mem_erase_of_ne apart).mpr (List.mem_filter.mpr ⟨here,dueG⟩)
  have once : (dueTimers now fh').Nodup := (tHeadNodup turn.lists).filter _
  have most := (List.subperm_of_subset once inside).length_le
  rw [List.length_erase_of_mem head] at most
  have some := List.length_pos_of_mem head
  omega

/- Induction on the fuel, which the due timers bound. -/
theorem loopTurns {κ} [Kq κ] {callback : List FdeId → FdeHead κ → List Op} {now fuel done} {fh : FdeHead κ}
    (lists : Lists fh) (legal : TimersLegal callback now fuel done fh) (enough : (dueTimers now fh).length < fuel) :
    ∃ final trace, fdeTLoop callback now fuel done fh = some (final,trace) ∧ Turns now fh final trace := by
  induction fuel generalizing done fh with
  | zero => omega
  | succ fuel ih =>
    unfold fdeTLoop
    cases next : fdeTNext now fh with
    | none =>
      exact ⟨fh,[],rfl,List.nodup_nil,by simp,fun f mem _ _ => ⟨mem,rfl⟩⟩
    | some pair =>
      obtain ⟨f,fh₁⟩ := pair
      obtain ⟨rest,e,first,found,late,rfl⟩ := tNextSource next
      simp only [TimersLegal,next] at legal
      have listed : f ∈ fh.fTHead := first ▸ List.mem_cons_self
      have due : Due now (fh.tvOf f) := by
        simp only [FdeHead.tvOf,found]
        exact late
      have turn := opsTurn (deleteLists lists f) legal.1 legal.2.1
      have fewer := fewerDue lists listed due turn
      obtain ⟨final,trace,ran,turns⟩ := ih turn.lists legal.2.2 (by omega)
      refine ⟨final,_::trace,?_,turnsCons lists listed due turn turns⟩
      simp only [bind,Option.bind,ran]

/- The function and the machine take the same steps. -/
theorem tLoopReach {κ} [Kq κ] {callback : List FdeId → FdeHead κ → List Op} {now fuel done log}
    {fh final : FdeHead κ} {trace} (reached : Reach (fdeMachine κ) (afterT now fh log))
    (legal : TimersLegal callback now fuel done fh)
    (ran : fdeTLoop callback now fuel done fh = some (final,trace)) :
    ∃ log', Reach (fdeMachine κ) ⟨final,.outside,log'⟩ := by
  induction fuel generalizing done fh log trace with
  | zero => simp [fdeTLoop] at ran
  | succ fuel ih =>
    unfold afterT at reached
    unfold fdeTLoop at ran
    simp only [TimersLegal] at legal
    cases next : fdeTNext now fh with
    | none =>
      simp only [next,Option.some.injEq,Prod.mk.injEq] at ran reached
      exact ⟨log,ran.1 ▸ reached⟩
    | some pair =>
      obtain ⟨f,fh'⟩ := pair
      simp only [next,bind,Option.bind_eq_some_iff] at ran legal reached
      obtain ⟨later,went,last⟩ := ran
      cases Option.some.inj last
      obtain ⟨log',after⟩ := opsReach reached rfl legal.1
      have possible : (fdeMachine κ).allowed ⟨(callback (done ++ [f]) fh').foldl applyOp fh',.tLoop now,log'⟩ .ret := by
        simp [fdeMachine,Allowed]
      have back : Reach (fdeMachine κ) (afterT now ((callback (done ++ [f]) fh').foldl applyOp fh') log') :=
        .next after possible
      exact ih back legal.2.2 went

theorem tRunloopReach {κ} [Kq κ] {callback : List FdeId → FdeHead κ → List Op} {now fuel} {s : State κ} {final trace}
    (reached : Reach (fdeMachine κ) s) (outside : s.ctl = .outside)
    (legal : TimersLegal callback now fuel [] s.head) (ran : fdeTRunloop callback fuel s.head now = some (final,trace)) :
    ∃ log, Reach (fdeMachine κ) ⟨final,.outside,log⟩ := by
  have possible : (fdeMachine κ).allowed s (.tRunloop now) := outside
  have entered : Reach (fdeMachine κ) (afterT now s.head s.log) := .next reached possible
  exact tLoopReach entered legal ran

/- The list may be in any order. -/
theorem tRunloopSafe {κ} [Kq κ] {fh : FdeHead κ} (lists : Lists fh) (now : Timeval)
    (callback : List FdeId → FdeHead κ → List Op) (fuel : Nat) (enough : fh.fTHead.length < fuel)
    (legal : TimersLegal callback now fuel [] fh) :
    ∃ final trace, fdeTRunloop callback fuel fh now = some (final,trace) ∧
      (trace.map Prod.fst).Nodup ∧
      (∀ earlier f events rest, trace = earlier ++ (f,events)::rest →
        f ∈ fh.fTHead ∧ ¬ timevalCmp now (fh.tvOf f) < 0 ∧ ∀ turn ∈ earlier, Ev.deleted f ∉ turn.2) ∧
      ∀ f ∈ fh.fTHead, f ∉ trace.map Prod.fst → (∀ turn ∈ trace, Ev.deleted f ∉ turn.2) →
        f ∈ final.fTHead ∧ final.tvOf f = fh.tvOf f := by
  have few : (dueTimers now fh).length ≤ fh.fTHead.length := List.length_filter_le _ _
  obtain ⟨final,trace,ran,turns⟩ := loopTurns lists legal (Nat.lt_of_le_of_lt few enough)
  refine ⟨final,trace,ran,turns.once,?_,turns.kept⟩
  intro earlier f events rest whole
  obtain ⟨listed,due,alive⟩ := turns.called earlier f events rest whole
  exact ⟨listed,Int.not_lt.mpr due,alive⟩

instance {κ} (now : Timeval) (fh : FdeHead κ) : (o : Op) → Decidable (o.later now fh)
  | .addTimeout f tv => inferInstanceAs (Decidable (fh.active f = true ∨ timevalCmp now tv < 0))
  | .create .. | .add _ | .delete _ | .free _ => isTrue trivial

instance decidableOpsLater {κ} [Kq κ] (now : Timeval) : (fh : FdeHead κ) → (ops : List Op) → Decidable (OpsLater now fh ops)
  | _,[] => isTrue trivial
  | fh,o::rest =>
    have := decidableOpsLater now (applyOp fh o) rest
    inferInstanceAs (Decidable (o.later now fh ∧ OpsLater now (applyOp fh o) rest))

/- The timers of `misplacedRun`, at 1, 5, 3 and 10 in this order. The first reschedules itself
at 7 and frees the one at 3. -/
def timerCallback : List FdeId → FdeHead Unit → List Op
  | [1],_ => [.addTimeout 1 ⟨7,0⟩,.free 2]
  | _,_ => []

theorem tRunloopSafeRun :
    let s := run (timerMachine Unit) (initial ()) misplacedRun
    s.head.fTHead = [1,4,2,3] ∧ ∃ final trace, fdeTRunloop timerCallback 5 s.head ⟨5,0⟩ = some (final,trace) ∧
      (trace.map Prod.fst).Nodup ∧
      (3 ∉ trace.map Prod.fst → (∀ turn ∈ trace, Ev.deleted 3 ∉ turn.2) → 3 ∈ final.fTHead ∧ final.tvOf 3 = ⟨10,0⟩) := by
  have reached : Reach (timerMachine Unit) (run (timerMachine Unit) (initial ()) misplacedRun) :=
    reachRun (.start ⟨(),rfl⟩) (by decide)
  obtain ⟨final,trace,ran,once,_,kept⟩ := tRunloopSafe (reachSound (reachUnguarded reached)).lists ⟨5,0⟩ timerCallback 5
    (by decide) ⟨by decide,by decide,by decide,by decide,trivial⟩
  exact ⟨by decide,final,trace,ran,once,kept 3 (by decide)⟩

end Libiapp.Event

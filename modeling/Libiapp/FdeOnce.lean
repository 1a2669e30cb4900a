import Libiapp.FdeLists

/-! One dispatch for each arming. The callback and timer loops take an fde off with
fde_delete, fde_rw_runloop unlinks a one-shot fde by hand; either way the fde that is
dispatched was active and no longer is. Counted over the life of one fde, what armed it
is what dispatched or deleted it, and what is left is is_active. -/
namespace Libiapp.Event
open Kqueue Runs

/- The fdes that are off once they are dispatched. -/
def OneShot (t : FdeType) (fl : UInt32) : Prop :=
  t = .callback ∨ t = .timer ∨ t.io = true ∧ fl &&& fdeFPersist = 0

/- `f` is one-shot and has a callback, for as long as it lives. -/
def FdeHead.Once {κ} (fh : FdeHead κ) (f : FdeId) : Prop :=
  ∀ e, fh.fdes f = some e → OneShot e.fType e.fFlags ∧ e.cb.isSome = true

structure Tally {κ} (f : FdeId) (fh fh' : FdeHead κ) (events : List Ev) : Prop where
  count : events.count (.added f) + (fh.active f).toNat =
    events.count (.dispatched f) + events.count (.deleted f) + (fh'.active f).toNat
  once : fh'.Once f

theorem sameFde {κ} {fh fh' : FdeHead κ} {f} {events : List Ev} (once : fh.Once f) (same : fh'.fdes f = fh.fdes f)
    (added : .added f ∉ events) (dispatched : .dispatched f ∉ events) (deleted : .deleted f ∉ events) :
    Tally f fh fh' events := by
  constructor
  · rw [List.count_eq_zero.mpr added,List.count_eq_zero.mpr dispatched,List.count_eq_zero.mpr deleted]
    simp only [FdeHead.active,same]
  · intro e found
    exact once e (same ▸ found)

theorem untouchedFde {κ} {fh : FdeHead κ} {f} (once : fh.Once f) : Tally f fh fh [] :=
  sameFde once rfl List.not_mem_nil List.not_mem_nil List.not_mem_nil

theorem tallyTrans {κ} {f} {fh fh' fh'' : FdeHead κ} {a b} (first : Tally f fh fh' a) (second : Tally f fh' fh'' b) :
    Tally f fh fh'' (a ++ b) := by
  have one := first.count
  have two := second.count
  refine ⟨?_,second.once⟩
  simp only [List.count_append]
  omega

theorem updatedOnce {κ} {fh fh' : FdeHead κ} {f e e'} (once : fh.Once f) (found : fh.fdes f = some e)
    (fdes : fh'.fdes = Function.update fh.fdes f (some e')) (type : e'.fType = e.fType)
    (flags : e'.fFlags = e.fFlags) (cb : e'.cb = e.cb) : fh'.Once f := by
  intro x here
  rw [fdes,Function.update_self] at here
  cases Option.some.inj here
  rw [type,flags,cb]
  exact once e found

theorem opOnce {κ} [Kq κ] {fh : FdeHead κ} {inRw o} (lists : Lists fh) (ok : OpAllowed fh inRw o)
    (once : fh.Once o.target) (kept : ∀ fd t fl cb cbdata, o ≠ .create o.target fd t fl cb cbdata) :
    (applyOp fh o).Once o.target := by
  cases o with
  | create f fd t fl cb cbdata => exact absurd rfl (kept fd t fl cb cbdata)
  | add f =>
    rcases fdeAddEffect fh f with same | ⟨e,e',effect,_⟩
    · rw [applyOp,same]; exact once
    · exact updatedOnce once effect.found effect.fdes effect.type effect.flags effect.cb
  | addTimeout f tv =>
    rcases fdeAddTimeoutEffect fh f tv ok with ⟨same,_⟩ | ⟨e,e',effect,_⟩
    · rw [applyOp,same]; exact once
    · exact updatedOnce once effect.found effect.fdes effect.type effect.flags effect.cb
  | delete f =>
    rcases fdeDeleteEffect lists.known f with ⟨same,_⟩ | ⟨e,e',effect⟩
    · rw [applyOp,same]; exact once
    · exact updatedOnce once effect.found effect.fdes effect.type effect.flags effect.cb
  | free f =>
    intro e here
    simp only [applyOp,freeFdes lists.known,Op.target,Function.update_self] at here
    contradiction

theorem opTally {κ} [Kq κ] {fh : FdeHead κ} {inRw o f} (lists : Lists fh) (ok : OpAllowed fh inRw o)
    (once : fh.Once f) (kept : ∀ fd t fl cb cbdata, o ≠ .create f fd t fl cb cbdata) :
    Tally f fh (applyOp fh o) (opEvents fh o) := by
  by_cases target : o.target = f
  · subst f
    refine ⟨?_,opOnce lists ok once kept⟩
    unfold opEvents
    cases fh.active o.target <;> cases (applyOp fh o).active o.target <;> simp
  · have other : f ≠ o.target := Ne.symm target
    refine sameFde once (opOther lists.known other) ?_ ?_ ?_
    all_goals
      unfold opEvents
      split <;> simp [other]

/- fde_delete is how the callback and the timer loop take an fde. -/
theorem deleteTally {κ} [Kq κ] {fh : FdeHead κ} {f g} (lists : Lists fh) (once : fh.Once f)
    (on : fh.active g = true) : Tally f fh (fdeDelete fh g) [.dispatched g] := by
  by_cases same : g = f
  · subst g
    refine ⟨?_,?_⟩
    · rw [on,deleteOff lists.known f]
      simp
    · rcases fdeDeleteEffect lists.known f with ⟨same,_⟩ | ⟨e,e',effect⟩
      · rw [same]; exact once
      · exact updatedOnce once effect.found effect.fdes effect.type effect.flags effect.cb
  · have other : f ≠ g := Ne.symm same
    exact sameFde once (deleteOther lists.known other) (by simp) (by simp [other]) (by simp)

def calledEvents (who : Option FdeId) : List Ev := who.toList.map .dispatched

theorem oneShotIo {e : Fde} (kind : OneShot e.fType e.fFlags) (io : e.fType.io = true) : e.persist = false := by
  rcases kind with type | type | ⟨_,flags⟩
  · simp [type,FdeType.io] at io
  · simp [type,FdeType.io] at io
  · simp [Fde.persist,flags]

/- An fde with a callback is never taken silently. -/
theorem rwEventTally {κ} {fh : FdeHead κ} {k f} (once : fh.Once f)
    (io : skipError k = false → ∀ g ∈ k.udata, fh.io g = true) :
    Tally f fh (fdeRwEvent fh k).1 (calledEvents (fdeRwEvent fh k).2) := by
  rcases rwEventSpec fh k with skipped | ⟨g,e,⟨named,clean⟩,found,on,after⟩
  · rw [skipped]
    exact untouchedFde once
  · by_cases same : g = f
    · subst g
      obtain ⟨kind,called⟩ := once e found
      have type : e.fType.io = true := by simpa [FdeHead.io,found] using io clean f (by simp [named])
      rw [after,oneShotIo kind type,called]
      refine ⟨?_,updatedOnce once found rfl rfl rfl rfl⟩
      simp [calledEvents,FdeHead.active,FdeHead.put,found,on]
    · have other : f ≠ g := Ne.symm same
      have kept : (fdeRwEvent fh k).1.fdes f = fh.fdes f := by
        rw [after]
        dsimp only
        split
        · rfl
        · exact Function.update_of_ne other ..
      refine sameFde once kept ?_ ?_ ?_
      all_goals
        rw [after]
        dsimp only
        split <;> simp [calledEvents,other]

theorem rwNextTally {κ} {events f} {fh : FdeHead κ} (once : fh.Once f) (live : NamesLiveIo fh events) :
    Tally f fh (fdeRwNext events fh).1 (calledEvents ((fdeRwNext events fh).2.map Prod.fst)) := by
  induction events generalizing fh with
  | nil => exact untouchedFde once
  | cons k rest ih =>
    have first := rwEventTally once (live k List.mem_cons_self)
    have tail := liveTail live
    unfold fdeRwNext
    cases called : fdeRwEvent fh k with
    | mk fh' who =>
      rw [called] at first tail
      cases who with
      | none => exact tallyTrans first (ih first.once tail)
      | some g => exact first

theorem tallyStart {κ} {f} {fh fh₁ fh' : FdeHead κ} {events} (tally : Tally f fh₁ fh' events)
    (same : fh₁.fdes = fh.fdes) : Tally f fh fh' events := by
  have count := tally.count
  refine ⟨?_,tally.once⟩
  simpa only [FdeHead.active,same] using count

theorem afterCbTally {κ} [Kq κ] {fh : FdeHead κ} {f} (lists : Lists fh) (once : fh.Once f) (cur log) :
    ∃ new, (afterCb cur fh log).log = log ++ new ∧ Tally f fh (afterCb cur fh log).head new :=
  afterCbTaken (untouchedFde once) (fun g mem => deleteTally lists once ((queued lists g).mp mem).1) cur log

theorem afterTTally {κ} [Kq κ] {fh : FdeHead κ} {f} (lists : Lists fh) (once : fh.Once f) (now log) :
    ∃ new, (afterT now fh log).log = log ++ new ∧ Tally f fh (afterT now fh log).head new :=
  afterTTaken (untouchedFde once) (fun g mem => deleteTally lists once ((timed lists g).mp mem).1) now log

theorem afterRwTally {κ} {fh : FdeHead κ} {f events} (once : fh.Once f) (live : NamesLiveIo fh events) (log) :
    ∃ new, (afterRw events fh log).log = log ++ new ∧ Tally f fh (afterRw events fh log).head new := by
  have tally := rwNextTally once live
  unfold afterRw
  split <;> rename_i next <;> rw [next] at tally
  · exact ⟨[],by simp,tally⟩
  · exact ⟨_,rfl,tally⟩

def Act.creates {κ} (f : FdeId) : Act κ → Prop
  | .op (.create g ..) => g = f
  | _ => False

theorem stepTally {κ} [Kq κ] {s : State κ} {a f} (sound : Sound s) (ok : Allowed s a) (once : s.head.Once f)
    (kept : ¬ a.creates f) : ∃ new, (step s a).log = s.log ++ new ∧ Tally f s.head (step s a).head new := by
  cases a with
  | op o =>
    refine ⟨_,rfl,opTally sound.lists ok once ?_⟩
    rintro fd t fl cb cbdata rfl
    exact kept rfl
  | cbRunloop =>
    have lists : Lists { s.head with fCbGenid := s.head.fCbGenid + 1 } :=
      ⟨sound.lists.known,sound.lists.head,sound.lists.cbHead,sound.lists.tHead⟩
    obtain ⟨new,log,tally⟩ := afterCbTally lists once s.head.fCbGenid s.log
    exact ⟨new,log,tallyStart tally rfl⟩
  | tRunloop now => exact afterTTally sound.lists once now s.log
  | rwRunloop kqfd events =>
    have live : NamesLiveIo { s.head with kqfd := kqfd, pending := { s.head.pending with n := 0 } } events := ok.2.2.1
    have same : FdeHead.Once { s.head with kqfd := kqfd, pending := { s.head.pending with n := 0 } } f := once
    obtain ⟨new,log,tally⟩ := afterRwTally same live s.log
    exact ⟨new,log,tallyStart tally rfl⟩
  | ret =>
    simp only [step]
    split
    · exact ⟨[],by simp,untouchedFde once⟩
    · exact afterCbTally sound.lists once _ s.log
    · exact afterTTally sound.lists once _ s.log
    · rename_i rest inside
      exact afterRwTally once (sound.rest rest inside) s.log

theorem runTally {κ} [Kq κ] {s : State κ} {actions f} (sound : Sound s) (possible : Possible (fdeMachine κ) s actions)
    (once : s.head.Once f) (kept : ∀ a ∈ actions, ¬ a.creates f) :
    ∃ new, (run (fdeMachine κ) s actions).log = s.log ++ new ∧
      Tally f s.head (run (fdeMachine κ) s actions).head new := by
  induction actions generalizing s with
  | nil => exact ⟨[],by simp [run],untouchedFde once⟩
  | cons a rest ih =>
    obtain ⟨new,log,tally⟩ := stepTally sound possible.1 once (kept a List.mem_cons_self)
    obtain ⟨more,later,tail⟩ := ih (stepSound sound possible.1) possible.2 tally.once
      (fun b mem => kept b (List.mem_cons_of_mem _ mem))
    refine ⟨new ++ more,?_,tallyTrans tally tail⟩
    rw [← List.append_assoc,← log]
    exact later

/- What a loop dispatches was active when the loop went on. Entries it passes over on the
way run no client code, and one that takes its fde off silently has no callback. -/
theorem rwNextActive {κ} {events f rest} {fh : FdeHead κ} (called : (fdeRwNext events fh).2 = some (f,rest)) :
    fh.active f = true := by
  induction events generalizing fh with
  | nil => contradiction
  | cons k tail ih =>
    unfold fdeRwNext at called
    rcases rwEventSpec fh k with skipped | ⟨g,e,_,found,on,after⟩
    · rw [skipped] at called
      exact ih called
    · have active : fh.active g = true := by simp [FdeHead.active,found,on]
      rw [after] at called
      cases cb : e.cb.isSome with
      | true =>
        simp only [cb,if_true] at called
        cases Option.some.inj called
        exact active
      | false =>
        simp only [cb,Bool.false_eq_true,if_false] at called
        have later := ih called
        by_cases same : f = g
        · exact same ▸ active
        · split at later
          · exact later
          · simpa [FdeHead.active,FdeHead.put,same] using later

theorem afterCbActive {κ} [Kq κ] {fh : FdeHead κ} {cur log f} (lists : Lists fh)
    (dispatched : (afterCb cur fh log).log = log ++ [.dispatched f]) : fh.active f = true := by
  unfold afterCb at dispatched
  split at dispatched
  · simp at dispatched
  · rename_i g fh' next
    obtain ⟨rest,e,first,_,_,rfl⟩ := cbNextSource next
    have same : g = f := by simpa using dispatched
    exact ((queued lists f).mp (same ▸ first ▸ List.mem_cons_self)).1

theorem afterTActive {κ} [Kq κ] {fh : FdeHead κ} {now log f} (lists : Lists fh)
    (dispatched : (afterT now fh log).log = log ++ [.dispatched f]) : fh.active f = true := by
  unfold afterT at dispatched
  split at dispatched
  · simp at dispatched
  · rename_i g fh' next
    obtain ⟨rest,e,first,_,_,rfl⟩ := tNextSource next
    have same : g = f := by simpa using dispatched
    exact ((timed lists f).mp (same ▸ first ▸ List.mem_cons_self)).1

theorem afterRwActive {κ} {fh : FdeHead κ} {events log f}
    (dispatched : (afterRw events fh log).log = log ++ [.dispatched f]) : fh.active f = true := by
  unfold afterRw at dispatched
  split at dispatched <;> rename_i next
  · simp at dispatched
  · rename_i g rest
    have same : g = f := by simpa using dispatched
    exact rwNextActive (same ▸ congrArg Prod.snd next)

theorem stepActive {κ} [Kq κ] {s : State κ} {a f} (lists : Lists s.head)
    (dispatched : (step s a).log = s.log ++ [.dispatched f]) : s.head.active f = true := by
  cases a with
  | op o =>
    simp only [step,opEvents] at dispatched
    split at dispatched <;> simp at dispatched
  | cbRunloop =>
    have turned : Lists { s.head with fCbGenid := s.head.fCbGenid + 1 } :=
      ⟨lists.known,lists.head,lists.cbHead,lists.tHead⟩
    simp only [step] at dispatched
    have active := afterCbActive turned dispatched
    exact active
  | tRunloop now => exact afterTActive lists dispatched
  | rwRunloop kqfd events =>
    simp only [step] at dispatched
    have active := afterRwActive dispatched
    exact active
  | ret =>
    simp only [step] at dispatched
    split at dispatched
    · simp at dispatched
    · exact afterCbActive lists dispatched
    · exact afterTActive lists dispatched
    · exact afterRwActive dispatched

theorem createdOnce {κ} [Kq κ] {fh : FdeHead κ} {f fd t fl cb cbdata} (fresh : fh.fdes f = none)
    (kind : OneShot t fl) : (applyOp fh (.create f fd t fl (some cb) cbdata)).Once f ∧
      (applyOp fh (.create f fd t fl (some cb) cbdata)).active f = false := by
  simp only [applyOp,fdeCreate]
  cases fdeEvSet f ⟨fd,zeroKevent,t,fl,some cb,false,⟨0,0⟩,cbdata,0⟩ with
  | none => exact ⟨fun e found => by simp [fresh] at found,by simp [FdeHead.active,fresh]⟩
  | some kev =>
    refine ⟨fun e found => ?_,by simp [FdeHead.active,FdeHead.put]⟩
    cases Option.some.inj ((Function.update_self f _ fh.fdes).symm.trans found)
    exact ⟨kind,rfl⟩

/- An fde with a callback is followed from its creation for as long as no new fde is made
at its address. fde_free counts as a delete if the fde was active. -/
theorem dispatchedOnce {κ} [Kq κ] {s : State κ} (h : Reach (fdeMachine κ) s) :
    (∀ f fd t fl cb cbdata actions, OneShot t fl → Allowed s (.op (.create f fd t fl (some cb) cbdata)) →
      Possible (fdeMachine κ) (step s (.op (.create f fd t fl (some cb) cbdata))) actions →
      (∀ a ∈ actions, ¬ a.creates f) →
      ∃ life, (run (fdeMachine κ) (step s (.op (.create f fd t fl (some cb) cbdata))) actions).log = s.log ++ life ∧
        life.count (.added f) = life.count (.dispatched f) + life.count (.deleted f) +
          ((run (fdeMachine κ) (step s (.op (.create f fd t fl (some cb) cbdata))) actions).head.active f).toNat) ∧
    ∀ a f, Allowed s a → (step s a).log = s.log ++ [.dispatched f] → s.head.active f = true := by
  have sound := reachSound h
  refine ⟨?_,fun a f _ dispatched => stepActive sound.lists dispatched⟩
  intro f fd t fl cb cbdata actions kind ok possible kept
  have fresh : s.head.fdes f = none := ok
  obtain ⟨once,idle⟩ := createdOnce fresh kind
  obtain ⟨life,log,tally⟩ := runTally (stepSound sound ok) possible once kept
  have before : s.head.active f = false := by simp [FdeHead.active,fresh]
  have quiet : opEvents s.head (.create f fd t fl (some cb) cbdata) = [] := by
    simp only [opEvents,Op.target,before,idle]
  have same : (step s (.op (.create f fd t fl (some cb) cbdata))).log = s.log := by
    simp only [step,quiet,List.append_nil]
  refine ⟨life,by rw [log,same],?_⟩
  have count := tally.count
  have off : (step s (.op (.create f fd t fl (some cb) cbdata))).head.active f = false := idle
  rw [off] at count
  simpa using count

/- The one-shot read fde 3 and the fde 4 are in one batch. The callback of 4 deletes 3 and
adds it again, so its entry is still good; the callback of 3 adds it a last time. -/
def onceRun : List (Act Unit) :=
  [.op (.create 4 8 .read 0 (some 0) 0),.op (.add 3),.op (.add 4),
    .rwRunloop () [⟨8,.read,0,0,0,some 4⟩,⟨7,.read,0,0,0,some 3⟩,⟨7,.read,0,0,0,some 3⟩],
    .op (.delete 3),.op (.add 3),.ret,.op (.add 3),.op (.delete 3),.ret,.op (.add 3)]

theorem dispatchedOnceRun :
    let s := run (fdeMachine Unit) (step (initial ()) (.op (.create 3 7 .read 0 (some 0) 0))) onceRun
    s.log.count (.added 3) = 4 ∧ s.log.count (.dispatched 3) = 1 ∧ s.log.count (.deleted 3) = 2 ∧
      s.head.active 3 = true := by
  have start : Reach (fdeMachine Unit) (initial ()) := .start ⟨(),rfl⟩
  obtain ⟨life,log,count⟩ := (dispatchedOnce start).1 3 7 .read 0 0 0 onceRun (Or.inr (Or.inr ⟨rfl,rfl⟩)) rfl
    (by decide) (by simp [onceRun,Act.creates])
  have same : life = (run (fdeMachine Unit) (step (initial ()) (.op (.create 3 7 .read 0 (some 0) 0))) onceRun).log :=
    log.symm
  subst life
  exact ⟨count.trans (by decide),by decide,by decide,by decide⟩

end Libiapp.Event

import Libiapp.FdeOrder
import Libiapp.FdeTimerLoop

/-! One fde_runloop leaves nobody waiting. What is queued when it begins is called, or taken
off the queue by somebody; so is a timer that is due, unless one that is not due is linked in
front of it; so is an fde for which kevent() returned an event. The callbacks may do what they
want meanwhile. -/
namespace Libiapp.Event
open Kqueue Runs

/- What happens inside a loop that was entered. -/
def Act.inner {κ} : Act κ → Bool
  | .op _ | .ret => true
  | _ => false

/- fde_runloop, with what goes on inside each of its loops. -/
def fdeRunloop {κ} (now : Timeval) (kqfd : κ) (events : List Kevent) (inCb inT inRw : List (Act κ)) : List (Act κ) :=
  (.cbRunloop::inCb) ++ ((.tRunloop now::inT) ++ (.rwRunloop kqfd events::inRw))

/- How often an fde was called or taken off. -/
def turns (f : FdeId) (log : List Ev) : Nat := log.countP fun ev => ev = .dispatched f ∨ ev = .deleted f

theorem turnsAppend (f) (log new : List Ev) : turns f (log ++ new) = turns f log + turns f new := List.countP_append

theorem turnsMore {f} {log log' new : List Ev} (grown : log' = log ++ new)
    (turn : .dispatched f ∈ new ∨ .deleted f ∈ new) : turns f log < turns f log' := by
  have one : 0 < turns f new := by
    rw [turns,List.countP_pos_iff]
    rcases turn with called | taken
    · exact ⟨_,called,by simp⟩
    · exact ⟨_,taken,by simp⟩
  rw [grown,turnsAppend]
  exact Nat.lt_add_of_pos_right one

theorem turnsGrow {κ} [Kq κ] (s : State κ) (a f) : turns f s.log ≤ turns f (step s a).log := by
  obtain ⟨new,grown⟩ := logGrows s a
  rw [grown,turnsAppend]
  exact Nat.le_add_right ..

theorem opRests {κ} [Kq κ] {fh : FdeHead κ} {f e inRw o} (lists : Lists fh) (ok : OpAllowed fh inRw o)
    (found : fh.fdes f = some e) (on : e.isActive = true) :
    (applyOp fh o).fdes f = some e ∨ .deleted f ∈ opEvents fh o := by
  by_cases own : f = o.target
  · subst own
    have before : fh.active o.target = true := by simp [FdeHead.active,found,on]
    cases after : (applyOp fh o).active o.target with
    | true =>
      rw [opStaysActive lists ok before after]
      exact Or.inl found
    | false => exact Or.inr (by simp [opEvents,before,after])
  · rw [opOther lists.known own]
    exact Or.inl found

theorem takenRests {κ} [Kq κ] {fh : FdeHead κ} {f e} (lists : Lists fh) (found : fh.fdes f = some e) (g) :
    (fdeDelete fh g).fdes f = some e ∨ .dispatched f ∈ [Ev.dispatched g] := by
  by_cases own : f = g
  · exact Or.inr (by simp [own])
  · rw [deleteOther lists.known own]
    exact Or.inl found

/- Outside the I/O loop an active fde rests as it is until its turn. -/
theorem innerRests {κ} [Kq κ] {s : State κ} {a f e} (sound : Sound s) (ok : Allowed s a) (inner : a.inner = true)
    (outside : s.ctl.inRw = false) (found : s.head.fdes f = some e) (on : e.isActive = true) :
    (step s a).head.fdes f = some e ∨ turns f s.log < turns f (step s a).log := by
  have lists := sound.lists
  cases a with
  | op o =>
    rcases opRests lists ok found on with rests | taken
    · exact Or.inl rests
    · exact Or.inr (turnsMore rfl (Or.inr taken))
  | ret =>
    simp only [step]
    split
    · exact Or.inl found
    · rename_i cur inside
      obtain ⟨new,grown,rests⟩ := afterCbTaken (p := fun fh new => fh.fdes f = some e ∨ .dispatched f ∈ new)
        (Or.inl found) (fun g _ => takenRests lists found g) cur s.log
      exact rests.imp_right fun called => turnsMore grown (Or.inl called)
    · rename_i now inside
      obtain ⟨new,grown,rests⟩ := afterTTaken (p := fun fh new => fh.fdes f = some e ∨ .dispatched f ∈ new)
        (Or.inl found) (fun g _ => takenRests lists found g) now s.log
      exact rests.imp_right fun called => turnsMore grown (Or.inl called)
    · rename_i rest inside
      rw [inside] at outside
      contradiction
  | cbRunloop => contradiction
  | tRunloop now => contradiction
  | rwRunloop kqfd events => contradiction

theorem innerOutside {κ} [Kq κ] {s : State κ} {a} (inner : a.inner = true) (outside : s.ctl.inRw = false) :
    (step s a).ctl.inRw = false := by
  cases a with
  | op o => exact outside
  | ret =>
    simp only [step]
    split
    · exact outside
    · exact afterCbCtl _ _ _
    · exact afterTCtl _ _ _
    · rename_i rest inside
      rw [inside] at outside
      contradiction
  | cbRunloop => contradiction
  | tRunloop now => contradiction
  | rwRunloop kqfd events => contradiction

/- The queue at entry is served from its front; what a callback does can only shorten it. -/
def CbWaits {κ} (cur : UInt32) (f : FdeId) (s : State κ) : Prop :=
  s.ctl = .cbLoop cur ∧ ∃ old new, Split cur s.head old new ∧ f ∈ old

theorem afterCbServes {κ} [Kq κ] {fh : FdeHead κ} {cur f old new} (lists : Lists fh) (split : Split cur fh old new)
    (mem : f ∈ old) (log) : CbWaits cur f (afterCb cur fh log) ∨ turns f log < turns f (afterCb cur fh log).log := by
  cases old with
  | nil => contradiction
  | cons g rest =>
    obtain ⟨next,later,_⟩ := splitNext lists split
    unfold afterCb
    rw [next]
    rcases List.mem_cons.mp mem with rfl | behind
    · exact Or.inr (turnsMore rfl (Or.inl List.mem_cons_self))
    · exact Or.inl ⟨rfl,rest,new,later,behind⟩

theorem innerCbServes {κ} [Kq κ] {s : State κ} {a cur f} (sound : Sound s) (ok : Allowed s a) (inner : a.inner = true)
    (waits : CbWaits cur f s) : CbWaits cur f (step s a) ∨ turns f s.log < turns f (step s a).log := by
  obtain ⟨inside,old,new,split,mem⟩ := waits
  cases a with
  | op o =>
    by_cases taken : .deleted f ∈ cbEvents s.head o
    · refine Or.inr (turnsMore rfl (Or.inr ?_))
      unfold cbEvents at taken
      split at taken
      · exact taken
      · contradiction
    · exact Or.inl ⟨inside,_,_,opSplit sound.lists split ok,List.mem_filter.mpr ⟨mem,by simpa using taken⟩⟩
  | ret =>
    simp only [step,inside]
    exact afterCbServes sound.lists split mem s.log
  | cbRunloop => contradiction
  | tRunloop now => contradiction
  | rwRunloop kqfd events => contradiction

/- No timer that is not due stands in front of one that is. -/
def DueFirst {κ} (now : Timeval) (fh : FdeHead κ) : Prop :=
  fh.fTHead.Pairwise fun g f => Due now (fh.tvOf f) → Due now (fh.tvOf g)

instance {κ} (now) (fh : FdeHead κ) : Decidable (DueFirst now fh) := by unfold DueFirst; infer_instance

def TWaits {κ} (now : Timeval) (f : FdeId) (e : Fde) (s : State κ) : Prop :=
  s.ctl = .tLoop now ∧ s.head.fdes f = some e

theorem dueNext {κ} [Kq κ] {fh : FdeHead κ} {now f e} (lists : Lists fh) (found : fh.fdes f = some e)
    (on : e.isActive = true) (timer : e.fType = .timer) (due : Due now e.tv) (first : DueFirst now fh) :
    ∃ g, fdeTNext now fh = some (g,fdeDelete fh g) := by
  have listed : f ∈ fh.fTHead := (timed lists f).mpr (by simp [FdeHead.active,FdeHead.typeOf,found,on,timer])
  have time : fh.tvOf f = e.tv := by simp [FdeHead.tvOf,found]
  unfold fdeTNext
  unfold DueFirst at first
  cases list : fh.fTHead with
  | nil =>
    rw [list] at listed
    contradiction
  | cons g rest =>
    rw [list] at listed first
    have head : Due now (fh.tvOf g) := by
      rcases List.mem_cons.mp listed with rfl | behind
      · exact time ▸ due
      · exact (List.pairwise_cons.mp first).1 f behind (time ▸ due)
    have active := (timed lists g).mp (list ▸ List.mem_cons_self)
    cases here : fh.fdes g with
    | none => simp [FdeHead.active,here] at active
    | some e' =>
      have late : ¬ timevalCmp now e'.tv < 0 := by
        have same : fh.tvOf g = e'.tv := by simp [FdeHead.tvOf,here]
        exact Int.not_lt.mpr (same ▸ head)
      exact ⟨g,by simp [here,late]⟩

theorem afterTServes {κ} [Kq κ] {fh : FdeHead κ} {now f e} (lists : Lists fh) (found : fh.fdes f = some e)
    (on : e.isActive = true) (timer : e.fType = .timer) (due : Due now e.tv) (first : DueFirst now fh) (log) :
    TWaits now f e (afterT now fh log) ∨ turns f log < turns f (afterT now fh log).log := by
  obtain ⟨g,next⟩ := dueNext lists found on timer due first
  unfold afterT
  rw [next]
  rcases takenRests lists found g with rests | called
  · exact Or.inl ⟨rfl,rests⟩
  · exact Or.inr (turnsMore rfl (Or.inl called))

theorem innerTServes {κ} [Kq κ] {s : State κ} {a now f e} (sound : Sound s) (ok : Allowed s a) (inner : a.inner = true)
    (first : DueFirst now s.head) (on : e.isActive = true) (timer : e.fType = .timer) (due : Due now e.tv)
    (waits : TWaits now f e s) : TWaits now f e (step s a) ∨ turns f s.log < turns f (step s a).log := by
  obtain ⟨inside,found⟩ := waits
  cases a with
  | op o =>
    rcases opRests sound.lists ok found on with rests | taken
    · exact Or.inl ⟨inside,rests⟩
    · exact Or.inr (turnsMore rfl (Or.inr taken))
  | ret =>
    simp only [step,inside]
    exact afterTServes sound.lists found on timer due first s.log
  | cbRunloop => contradiction
  | tRunloop now => contradiction
  | rwRunloop kqfd events => contradiction

/- An entry of kev_list that is still to come, and that the loop will not pass over. -/
def RwWaits {κ} (k : Kevent) (f : FdeId) (e : Fde) (s : State κ) : Prop :=
  (∃ rest, s.ctl = .rwLoop rest ∧ k ∈ rest) ∧ s.head.fdes f = some e

theorem rwEventServes {κ} {fh : FdeHead κ} {k f e} (named : k.udata = some f) (clean : skipError k = false)
    (found : fh.fdes f = some e) (on : e.isActive = true) (heard : e.cb.isSome = true) :
    (fdeRwEvent fh k).2 = some f := by
  unfold fdeRwEvent
  simp only [named,clean,found,on,heard,Bool.false_eq_true,not_true,if_false,if_true]
  split <;> rfl

/- An entry for another fde leaves this one as it is. -/
theorem rwEventRests {κ} {fh : FdeHead κ} {k f e} (other : k.udata ≠ some f) (found : fh.fdes f = some e) :
    (fdeRwEvent fh k).1.fdes f = some e := by
  rcases rwEventSource fh k with same | ⟨g,e',⟨named,_⟩,_,_,_,after⟩
  · rw [same]
    exact found
  · have apart : f ≠ g := by
      rintro rfl
      exact other named
    rw [after]
    simpa [FdeHead.put,apart] using found

theorem rwNextServes {κ} {fh : FdeHead κ} {events : List Kevent} {k f e} (mem : k ∈ events) (named : k.udata = some f)
    (clean : skipError k = false) (found : fh.fdes f = some e) (on : e.isActive = true) (heard : e.cb.isSome = true) :
    ∃ g rest, (fdeRwNext events fh).2 = some (g,rest) ∧ (g = f ∨ k ∈ rest ∧ (fdeRwNext events fh).1.fdes f = some e) := by
  induction events generalizing fh with
  | nil => contradiction
  | cons k' later ih =>
    unfold fdeRwNext
    by_cases own : k'.udata = some f ∧ skipError k' = false
    · have called := rwEventServes own.1 own.2 found on heard
      cases event : fdeRwEvent fh k' with
      | mk fh' who =>
        rw [event] at called
        cases called
        exact ⟨f,later,rfl,Or.inl rfl⟩
    · have behind : k ∈ later := by
        rcases List.mem_cons.mp mem with rfl | behind
        · exact absurd ⟨named,clean⟩ own
        · exact behind
      have rests : (fdeRwEvent fh k').1.fdes f = some e := by
        by_cases about : k'.udata = some f
        · have skipped : skipError k' = true := by simpa [about] using own
          simp [fdeRwEvent,about,skipped,found]
        · exact rwEventRests about found
      cases event : fdeRwEvent fh k' with
      | mk fh' who =>
        rw [event] at rests
        cases who with
        | none => exact ih behind rests
        | some g => exact ⟨g,later,rfl,Or.inr ⟨behind,rests⟩⟩

theorem afterRwServes {κ} {fh : FdeHead κ} {events : List Kevent} {k f e} (mem : k ∈ events) (named : k.udata = some f)
    (clean : skipError k = false) (found : fh.fdes f = some e) (on : e.isActive = true) (heard : e.cb.isSome = true) (log) :
    RwWaits k f e (afterRw events fh log) ∨ turns f log < turns f (afterRw events fh log).log := by
  obtain ⟨g,rest,next,served⟩ := rwNextServes mem named clean found on heard
  unfold afterRw
  cases whole : fdeRwNext events fh with
  | mk fh' who =>
    rw [whole] at next served
    cases next
    rcases served with rfl | ⟨behind,rests⟩
    · exact Or.inr (turnsMore rfl (Or.inl List.mem_cons_self))
    · exact Or.inl ⟨⟨rest,rfl,behind⟩,rests⟩

theorem innerRwServes {κ} [Kq κ] {s : State κ} {a k f e} (sound : Sound s) (ok : Allowed s a) (inner : a.inner = true)
    (named : k.udata = some f) (clean : skipError k = false) (on : e.isActive = true) (heard : e.cb.isSome = true)
    (waits : RwWaits k f e s) : RwWaits k f e (step s a) ∨ turns f s.log < turns f (step s a).log := by
  obtain ⟨⟨rest,inside,mem⟩,found⟩ := waits
  cases a with
  | op o =>
    rcases opRests sound.lists ok found on with rests | taken
    · exact Or.inl ⟨⟨rest,inside,mem⟩,rests⟩
    · exact Or.inr (turnsMore rfl (Or.inr taken))
  | ret =>
    simp only [step,inside]
    exact afterRwServes mem named clean found on heard s.log
  | cbRunloop => contradiction
  | tRunloop now => contradiction
  | rwRunloop kqfd events => contradiction

/- What waits for its turn along a run of inner steps still does at the end, or had its turn. -/
theorem innerWaits {κ} [Kq κ] {s : State κ} {inside : List (Act κ)} {f n} (waits ok : State κ → Prop)
    (goes : ∀ t b, Sound t → Allowed t b → b.inner = true → ok t → waits t →
      waits (step t b) ∨ turns f t.log < turns f (step t b).log)
    (reached : Reach (fdeMachine κ) s) (possible : Possible (fdeMachine κ) s inside)
    (inner : ∀ b ∈ inside, b.inner = true) (along : Each (fdeMachine κ) (fun s _ => ok s) s inside)
    (before : n ≤ turns f s.log) (here : waits s ∨ n < turns f s.log) :
    waits (run (fdeMachine κ) s inside) ∨ n < turns f (run (fdeMachine κ) s inside).log := by
  have all : Each (fdeMachine κ) (fun s b => ok s ∧ b.inner = true) s inside := eachWith inner along
  have waited := runUntil (m := fdeMachine κ) (p := fun t => waits t ∧ n ≤ turns f t.log)
    (q := fun t => n < turns f t.log)
    (fun t b reached allowed fits here =>
      (goes t b (reachSound reached) allowed fits.2 fits.1 here.1).imp
        (fun still => ⟨still,Nat.le_trans here.2 (turnsGrow t b f)⟩) (Nat.lt_of_le_of_lt here.2))
    (fun t b done => Nat.lt_of_lt_of_le done (turnsGrow t b f)) reached possible all
    (here.imp_left fun still => ⟨still,before⟩)
  exact waited.imp_left And.left

/- A loop that has returned has given its turn to everything that waited in it. -/
theorem loopServes {κ} [Kq κ] {s : State κ} {a : Act κ} {inside : List (Act κ)} {f} (waits ok : State κ → Prop)
    (goes : ∀ t b, Sound t → Allowed t b → b.inner = true → ok t → waits t →
      waits (step t b) ∨ turns f t.log < turns f (step t b).log)
    (reached : Reach (fdeMachine κ) s) (possible : Possible (fdeMachine κ) s (a::inside))
    (inner : ∀ b ∈ inside, b.inner = true) (along : Each (fdeMachine κ) (fun s _ => ok s) s (a::inside))
    (away : ∀ t, waits t → t.ctl ≠ .outside) (returned : (run (fdeMachine κ) s (a::inside)).ctl = .outside)
    (enters : waits (step s a) ∨ turns f s.log < turns f (step s a).log) :
    turns f s.log < turns f (run (fdeMachine κ) s (a::inside)).log := by
  rcases innerWaits waits ok goes (.next reached possible.1) possible.2 inner along.2 (turnsGrow s a f) enters with
    still | done
  · exact absurd returned (away _ still)
  · exact done

theorem runTurnsGrow {κ} [Kq κ] (s : State κ) (actions f) : turns f s.log ≤ turns f (run (fdeMachine κ) s actions).log := by
  obtain ⟨new,grown⟩ := @runLogGrows κ _ s actions
  rw [grown,turnsAppend]
  exact Nat.le_add_right ..

theorem eachTrue {κ} [Kq κ] (s : State κ) (actions) : Each (fdeMachine κ) (fun _ _ => True) s actions := by
  induction actions generalizing s with
  | nil => trivial
  | cons a rest ih => exact ⟨trivial,ih _⟩

theorem queuedServed {κ} [Kq κ] {s : State κ} {inCb : List (Act κ)} {f} (reached : Reach (fdeMachine κ) s)
    (possible : Possible (fdeMachine κ) s (.cbRunloop::inCb)) (inner : ∀ b ∈ inCb, b.inner = true)
    (returned : (run (fdeMachine κ) s (.cbRunloop::inCb)).ctl = .outside) (mem : f ∈ s.head.fCbHead) :
    turns f s.log < turns f (run (fdeMachine κ) s (.cbRunloop::inCb)).log := by
  have stamped := reachStamped reached
  have lists := stamped.sound.lists
  have outside : s.ctl = .outside := possible.1
  have turned : Lists { s.head with fCbGenid := s.head.fCbGenid + 1 } :=
    ⟨lists.known,lists.head,lists.cbHead,lists.tHead⟩
  have split : Split s.head.fCbGenid { s.head with fCbGenid := s.head.fCbGenid + 1 } s.head.fCbHead [] :=
    ⟨by simp,stamped.outside (by simp [outside]),by simp,turnGenid _⟩
  exact loopServes (CbWaits s.head.fCbGenid f) (fun _ => True)
    (fun t b sound allowed inner _ waits => innerCbServes sound allowed inner waits) reached possible inner (eachTrue s _)
    (fun t waits left => by simp [waits.1] at left) returned (afterCbServes turned split mem s.log)

/- A timer rests while the callbacks are run. -/
theorem timerRests {κ} [Kq κ] {s : State κ} {inCb : List (Act κ)} {f e} (reached : Reach (fdeMachine κ) s)
    (possible : Possible (fdeMachine κ) s (.cbRunloop::inCb)) (inner : ∀ b ∈ inCb, b.inner = true)
    (found : s.head.fdes f = some e) (on : e.isActive = true) :
    (run (fdeMachine κ) s (.cbRunloop::inCb)).head.fdes f = some e ∨
      turns f s.log < turns f (run (fdeMachine κ) s (.cbRunloop::inCb)).log := by
  have lists := (reachSound reached).lists
  have turned : Lists { s.head with fCbGenid := s.head.fCbGenid + 1 } :=
    ⟨lists.known,lists.head,lists.cbHead,lists.tHead⟩
  have enters : ((step s .cbRunloop).ctl.inRw = false ∧ (step s .cbRunloop).head.fdes f = some e) ∨
      turns f s.log < turns f (step s .cbRunloop).log := by
    obtain ⟨new,grown,rests⟩ := afterCbTaken (p := fun fh new => fh.fdes f = some e ∨ .dispatched f ∈ new)
      (show FdeHead.fdes { s.head with fCbGenid := s.head.fCbGenid + 1 } f = some e ∨ _ from Or.inl found)
      (fun g _ => takenRests turned found g) s.head.fCbGenid s.log
    exact rests.imp (fun still => ⟨afterCbCtl _ _ _,still⟩) fun called => turnsMore grown (Or.inl called)
  have rests := innerWaits (fun t => t.ctl.inRw = false ∧ t.head.fdes f = some e) (fun _ => True)
    (fun t b sound allowed inner _ here => (innerRests sound allowed inner here.1 here.2 on).imp_left fun still =>
      ⟨innerOutside inner here.1,still⟩)
    (.next reached possible.1) possible.2 inner (eachTrue _ _) (turnsGrow s .cbRunloop f) enters
  exact rests.imp_left And.right

theorem dueServed {κ} [Kq κ] {s : State κ} {now} {inT : List (Act κ)} {f e} (reached : Reach (fdeMachine κ) s)
    (possible : Possible (fdeMachine κ) s (.tRunloop now::inT)) (inner : ∀ b ∈ inT, b.inner = true)
    (returned : (run (fdeMachine κ) s (.tRunloop now::inT)).ctl = .outside)
    (first : Each (fdeMachine κ) (fun t _ => DueFirst now t.head) s (.tRunloop now::inT))
    (found : s.head.fdes f = some e) (on : e.isActive = true) (timer : e.fType = .timer) (due : Due now e.tv) :
    turns f s.log < turns f (run (fdeMachine κ) s (.tRunloop now::inT)).log :=
  loopServes (TWaits now f e) (fun t => DueFirst now t.head)
    (fun t b sound allowed inner first waits => innerTServes sound allowed inner first on timer due waits)
    reached possible inner first (fun t waits left => by simp [waits.1] at left) returned
    (afterTServes (reachSound reached).lists found on timer due first.1 s.log)

theorem eventServed {κ} [Kq κ] {s : State κ} {kqfd events} {inRw : List (Act κ)} {k f e} (reached : Reach (fdeMachine κ) s)
    (possible : Possible (fdeMachine κ) s (.rwRunloop kqfd events::inRw)) (inner : ∀ b ∈ inRw, b.inner = true)
    (returned : (run (fdeMachine κ) s (.rwRunloop kqfd events::inRw)).ctl = .outside) (mem : k ∈ events)
    (clean : skipError k = false) (named : k.udata = some f) (found : s.head.fdes f = some e) (on : e.isActive = true)
    (heard : e.cb.isSome = true) :
    turns f s.log < turns f (run (fdeMachine κ) s (.rwRunloop kqfd events::inRw)).log := by
  have submitted : FdeHead.fdes { s.head with kqfd := kqfd, pending := { s.head.pending with n := 0 } } f = some e := found
  exact loopServes (RwWaits k f e) (fun _ => True)
    (fun t b sound allowed inner _ waits => innerRwServes sound allowed inner named clean on heard waits)
    reached possible inner (eachTrue s _)
    (fun t waits left => by
      obtain ⟨⟨rest,inside,_⟩,_⟩ := waits
      simp [inside] at left)
    returned (afterRwServes mem named clean submitted on heard s.log)

/- One pass of the event loop: the callbacks queued at its start, the timers that are due and
the fdes with an event all have their turn in it. -/
theorem passServes {κ} [Kq κ] {s : State κ} {now kqfd events} {inCb inT inRw : List (Act κ)}
    (reached : Reach (fdeMachine κ) s) (inner : ∀ b ∈ inCb ++ (inT ++ inRw), b.inner = true)
    (possible : Possible (fdeMachine κ) s (fdeRunloop now kqfd events inCb inT inRw))
    (returned : (run (fdeMachine κ) s (fdeRunloop now kqfd events inCb inT inRw)).ctl = .outside) :
    let timers := run (fdeMachine κ) s (.cbRunloop::inCb)
    let io := run (fdeMachine κ) timers (.tRunloop now::inT)
    let final := run (fdeMachine κ) io (.rwRunloop kqfd events::inRw)
    (∀ f ∈ s.head.fCbHead, turns f s.log < turns f timers.log) ∧
    (Each (fdeMachine κ) (fun t _ => DueFirst now t.head) timers (.tRunloop now::inT) →
      ∀ f ∈ s.head.fTHead, Due now (s.head.tvOf f) → turns f s.log < turns f io.log) ∧
    (∀ k ∈ events, skipError k = false → ∀ f e, k.udata = some f → io.head.fdes f = some e → e.isActive = true →
      e.cb.isSome = true → turns f io.log < turns f final.log) := by
  intro timers io final
  have whole : run (fdeMachine κ) s (fdeRunloop now kqfd events inCb inT inRw) = final := by
    rw [fdeRunloop,run,List.foldl_append,List.foldl_append]
    rfl
  obtain ⟨callbacks,later⟩ := possibleSplit possible
  obtain ⟨timeouts,last⟩ := possibleSplit later
  have innerCb (b) (mem : b ∈ inCb) := inner b (List.mem_append_left _ mem)
  have innerT (b) (mem : b ∈ inT) := inner b (List.mem_append_right _ (List.mem_append_left _ mem))
  have innerRw (b) (mem : b ∈ inRw) := inner b (List.mem_append_right _ (List.mem_append_right _ mem))
  have reachedT : Reach (fdeMachine κ) timers := reachRun reached callbacks
  have reachedIo : Reach (fdeMachine κ) io := reachRun reachedT timeouts
  have leftCb : timers.ctl = .outside := timeouts.1
  have leftT : io.ctl = .outside := last.1.1
  have leftRw : final.ctl = .outside := by
    rw [← whole]
    exact returned
  refine ⟨fun f mem => queuedServed reached callbacks innerCb leftCb mem,fun first f mem due => ?_,
    fun k mem clean f e named found on heard =>
      eventServed reachedIo last innerRw leftRw mem clean named found on heard⟩
  have listed := (timed (reachSound reached).lists f).mp mem
  cases found : s.head.fdes f with
  | none => simp [FdeHead.active,found] at listed
  | some e =>
    obtain ⟨on,timer⟩ : e.isActive = true ∧ e.fType = .timer := by
      simpa [FdeHead.active,FdeHead.typeOf,found] using listed
    have time : s.head.tvOf f = e.tv := by simp [FdeHead.tvOf,found]
    rcases timerRests reached callbacks innerCb found on with rests | early
    · exact Nat.lt_of_le_of_lt (runTurnsGrow s _ f)
        (dueServed reachedT timeouts innerT leftT first rests on timer (time ▸ due))
    · exact Nat.lt_of_lt_of_le early (runTurnsGrow timers _ f)

/- Two callbacks, a timer and a read fde. The first callback queues itself again and takes the
second off the queue; the timer's callback deletes and adds the read fde. -/
def passSetup : List (Act Unit) :=
  [.op (.create 1 (-1) .callback 0 (some 0) 0),.op (.create 2 (-1) .callback 0 (some 0) 0),
    .op (.create 3 (-1) .timer 0 (some 0) 0),.op (.create 4 7 .read 0 (some 0) 0),.op (.add 1),.op (.add 2),
    .op (.addTimeout 3 ⟨5,0⟩),.op (.add 4)]

theorem passServesRun :
    let s := run (fdeMachine Unit) (initial ()) passSetup
    let timers := run (fdeMachine Unit) s (.cbRunloop::[.op (.add 1),.op (.delete 2),.ret])
    let io := run (fdeMachine Unit) timers (.tRunloop ⟨6,0⟩::[.op (.delete 4),.op (.add 4),.ret])
    let final := run (fdeMachine Unit) io (.rwRunloop () [⟨7,.read,0,0,0,some 4⟩]::[.ret])
    turns 1 s.log < turns 1 timers.log ∧ turns 2 s.log < turns 2 timers.log ∧ turns 3 s.log < turns 3 io.log ∧
      turns 4 io.log < turns 4 final.log := by
  have reached : Reach (fdeMachine Unit) (run (fdeMachine Unit) (initial ()) passSetup) :=
    reachRun (.start ⟨(),rfl⟩) (by decide)
  obtain ⟨callbacks,timers,events⟩ := @passServes Unit _ _ ⟨6,0⟩ () [⟨7,.read,0,0,0,some 4⟩]
    [.op (.add 1),.op (.delete 2),.ret] [.op (.delete 4),.op (.add 4),.ret] [.ret] reached (by simp [Act.inner])
    (by decide) (by decide)
  exact ⟨callbacks 1 (by decide),callbacks 2 (by decide),timers (by decide) 3 (by decide) (by decide),
    events _ List.mem_cons_self (by decide) 4 _ rfl rfl (by decide) (by decide)⟩

end Libiapp.Event

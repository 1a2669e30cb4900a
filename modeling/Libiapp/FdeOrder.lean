import Libiapp.FdeGeneration

/-! The order of callbacks. Each loop dispatches fdes of its own kind, and f_cb_head is
served from its front, so of two callback fdes that wait, the one queued first is called
first, whatever the callbacks and the other loops do in between. -/
namespace Libiapp.Event
open Kqueue Runs

/- The I/O loop dispatches what the kernel's events name, and that are I/O fdes. -/
theorem rwNextNamed {κ} {events : List Kevent} {fh : FdeHead κ} {f rest}
    (called : (fdeRwNext events fh).2 = some (f,rest)) : ∃ k ∈ events, k.udata = some f ∧ skipError k = false := by
  induction events generalizing fh with
  | nil => contradiction
  | cons k later ih =>
    unfold fdeRwNext at called
    split at called
    · obtain ⟨k',mem,named⟩ := ih called
      exact ⟨k',List.mem_cons_of_mem _ mem,named⟩
    · rename_i fh' g event
      cases Option.some.inj called
      rcases rwEventSpec fh k with skipped | ⟨g,e,named,_,_,after⟩
      · rw [skipped] at event
        cases (Prod.mk.inj event).2
      · rw [after] at event
        simp only [Prod.mk.injEq] at event
        obtain ⟨_,who⟩ := event
        split at who <;> try contradiction
        cases Option.some.inj who
        exact ⟨k,List.mem_cons_self,named⟩

theorem afterRwNamed {κ} {events : List Kevent} {fh : FdeHead κ} {log f} (live : NamesLiveIo fh events)
    (new : (afterRw events fh log).log = log ++ [.dispatched f]) : fh.io f = true := by
  unfold afterRw at new
  split at new
  · simp at new
  · rename_i fh' g rest next
    have same : g = f := by simpa using new
    subst same
    obtain ⟨k,mem,named,clean⟩ := rwNextNamed (by rw [next])
    exact live k mem clean g named

theorem afterCbCtl {κ} [Kq κ] (cur : UInt32) (fh : FdeHead κ) (log) : (afterCb cur fh log).ctl.inRw = false := by
  unfold afterCb
  split <;> rfl

theorem afterTCtl {κ} [Kq κ] (now) (fh : FdeHead κ) (log) : (afterT now fh log).ctl.inRw = false := by
  unfold afterT
  split <;> rfl

/- So an fde that is no I/O fde is dispatched outside that loop. -/
theorem dispatchedPlain {κ} [Kq κ] {ev : State κ} {a f} (reached : Reach (fdeMachine κ) ev) (allowed : Allowed ev a)
    (new : (step ev a).log = ev.log ++ [.dispatched f]) (plain : ev.head.io f = false) :
    (step ev a).ctl.inRw = false := by
  cases a with
  | op o =>
    simp only [step,opEvents,List.append_cancel_left_eq] at new
    split at new <;> simp at new
  | cbRunloop => exact afterCbCtl _ _ _
  | tRunloop now => exact afterTCtl _ _ _
  | rwRunloop kqfd events =>
    have live : NamesLiveIo { ev.head with kqfd := kqfd, pending := { ev.head.pending with n := 0 } } events :=
      allowed.2.2.1
    have io := @afterRwNamed _ _ _ ev.log f live new
    exact absurd (plain.symm.trans io) Bool.false_ne_true
  | ret =>
    simp only [step] at new ⊢
    split at new
    · simp at new
    · exact afterCbCtl _ _ _
    · exact afterTCtl _ _ _
    · rename_i rest inside
      have io := afterRwNamed ((reachSound reached).rest rest inside) new
      exact absurd (plain.symm.trans io) Bool.false_ne_true

/- `f` waits in front of `g`. -/
def Ahead {κ} (f g : FdeId) (fh : FdeHead κ) : Prop := [f,g].Sublist fh.fCbHead

instance {κ} (f g) (fh : FdeHead κ) : Decidable (Ahead f g fh) := inferInstanceAs (Decidable ([f,g].Sublist fh.fCbHead))

/- What takes `f` out of the way of `g`, or `g` out of the queue. -/
def Yields (f g : FdeId) (ev : Ev) : Prop := ev = .dispatched f ∨ ev = .deleted f ∨ ev = .deleted g

/- A step that records `new`: the two keep their order and `g` is not called, or the order
is given up. -/
def KeepsTurn {κ} (f g : FdeId) (fh : FdeHead κ) (new : List Ev) : Prop :=
  (Ahead f g fh ∧ new.length ≤ 1 ∧ .dispatched g ∉ new) ∨ ∃ ev, new = [ev] ∧ Yields f g ev

theorem aheadWaits {κ} {fh : FdeHead κ} {f g} (lists : Lists fh) (ahead : Ahead f g fh) :
    fh.typeOf g = some .callback ∧ f ≠ g := by
  have once := cbHeadNodup lists
  have mem : g ∈ fh.fCbHead := ahead.subset (by simp)
  have apart := ahead.nodup once
  exact ⟨((queued lists g).mp mem).2,by simpa using apart⟩

theorem opKeepsTurn {κ} [Kq κ] {fh : FdeHead κ} {f g inRw o} (lists : Lists fh) (ok : OpAllowed fh inRw o)
    (ahead : Ahead f g fh) : KeepsTurn f g (applyOp fh o) (opEvents fh o) := by
  have short : (opEvents fh o).length ≤ 1 ∧ .dispatched g ∉ opEvents fh o := by
    unfold opEvents
    split <;> simp
  cases opQueue lists ok with
  | same _ queue => exact Or.inl ⟨show [f,g].Sublist _ from queue ▸ ahead,short⟩
  | added h _ _ queue =>
    refine Or.inl ⟨?_,short⟩
    rw [Ahead,queue]
    exact ahead.trans (List.sublist_append_left ..)
  | deleted h one _ queue =>
    have events : opEvents fh o = [.deleted h] := by
      unfold cbEvents at one
      split at one
      · exact one
      · contradiction
    by_cases first : h = f
    · exact Or.inr ⟨.deleted h,events,Or.inr (Or.inl (by rw [first]))⟩
    · by_cases second : h = g
      · exact Or.inr ⟨.deleted h,events,Or.inr (Or.inr (by rw [second]))⟩
      · refine Or.inl ⟨?_,short⟩
        have kept := ahead.erase h
        rw [List.erase_of_not_mem (by simp [first,second])] at kept
        rw [Ahead,queue]
        exact kept

theorem afterCbKeepsTurn {κ} [Kq κ] {fh : FdeHead κ} {f g} (lists : Lists fh) (ahead : Ahead f g fh) (cur log) :
    ∃ new, (afterCb cur fh log).log = log ++ new ∧ KeepsTurn f g (afterCb cur fh log).head new := by
  unfold afterCb
  split
  · exact ⟨[],(List.append_nil log).symm,Or.inl ⟨ahead,by simp,by simp⟩⟩
  · rename_i h fh' next
    obtain ⟨rest,e,first,found,_,rfl⟩ := cbNextSource next
    refine ⟨[.dispatched h],rfl,?_⟩
    have once := cbHeadNodup lists
    rw [first] at once
    have waits : [f,g].Sublist (h::rest) := first ▸ ahead
    by_cases own : h = f
    · exact Or.inr ⟨.dispatched h,rfl,Or.inl (by rw [own])⟩
    · have later : [f,g].Sublist rest := by
        cases waits with
        | cons _ later => exact later
        | cons_cons _ _ => exact absurd rfl own
      have other : g ≠ h := by
        rintro rfl
        exact (List.nodup_cons.mp once).1 (later.subset (by simp))
      have active := (queued lists h).mp (first ▸ List.mem_cons_self)
      refine Or.inl ⟨?_,by simp,by simpa using other⟩
      rcases fdeDeleteEffect lists.known h with ⟨same,off⟩ | ⟨e₀,e',effect⟩
      · rw [Ahead,same,first]
        exact waits
      · have type : e₀.fType = .callback := by simpa [FdeHead.typeOf,effect.found] using active.2
        rw [Ahead,effect.cbHead,if_pos type,first,List.erase_cons_head]
        exact later

theorem afterTKeepsTurn {κ} [Kq κ] {fh : FdeHead κ} {f g} (lists : Lists fh) (ahead : Ahead f g fh) (now log) :
    ∃ new, (afterT now fh log).log = log ++ new ∧ KeepsTurn f g (afterT now fh log).head new := by
  unfold afterT
  split
  · exact ⟨[],(List.append_nil log).symm,Or.inl ⟨ahead,by simp,by simp⟩⟩
  · rename_i h fh' next
    obtain ⟨rest,_,first,_,_,rfl⟩ := tNextSource next
    have timer := ((timed lists h).mp (first ▸ List.mem_cons_self)).2
    have other : g ≠ h := by
      rintro rfl
      rw [(aheadWaits lists ahead).1] at timer
      contradiction
    refine ⟨[.dispatched h],rfl,Or.inl ⟨?_,by simp,by simpa using other⟩⟩
    rcases fdeDeleteEffect lists.known h with ⟨same,off⟩ | ⟨e₀,e',effect⟩
    · rw [same]
      exact ahead
    · have type : e₀.fType = .timer := by simpa [FdeHead.typeOf,effect.found] using timer
      rw [Ahead,effect.cbHead,if_neg (by simp [type])]
      exact ahead

theorem afterRwKeepsTurn {κ} {fh : FdeHead κ} {events f g} (lists : Lists fh) (live : NamesLiveIo fh events)
    (ahead : Ahead f g fh) (log) :
    ∃ new, (afterRw events fh log).log = log ++ new ∧ KeepsTurn f g (afterRw events fh log).head new := by
  have queue := (rwNextQueue events fh).1
  have named (h) : (afterRw events fh log).log = log ++ [.dispatched h] → fh.io h = true := afterRwNamed live
  unfold afterRw at named ⊢
  split <;> rename_i next <;> simp only [next] at queue named
  · exact ⟨[],(List.append_nil log).symm,Or.inl ⟨show [f,g].Sublist _ from queue ▸ ahead,by simp,by simp⟩⟩
  · rename_i fh' h rest
    have other : g ≠ h := by
      rintro rfl
      have io := named g rfl
      have type := (aheadWaits lists ahead).1
      simp only [FdeHead.io,FdeHead.typeOf,Option.map_eq_some_iff] at io type
      obtain ⟨e,found,kind⟩ := type
      simp [found,kind,FdeType.io] at io
    exact ⟨[.dispatched h],rfl,Or.inl ⟨show [f,g].Sublist _ from queue ▸ ahead,by simp,by simpa using other⟩⟩

theorem stepKeepsTurn {κ} [Kq κ] {s : State κ} {a f g} (reached : Reach (fdeMachine κ) s) (allowed : Allowed s a)
    (ahead : Ahead f g s.head) : ∃ new, (step s a).log = s.log ++ new ∧ KeepsTurn f g (step s a).head new := by
  have sound := reachSound reached
  have lists := sound.lists
  cases a with
  | op o => exact ⟨opEvents s.head o,rfl,opKeepsTurn lists allowed ahead⟩
  | cbRunloop =>
    have turned : Lists { s.head with fCbGenid := s.head.fCbGenid + 1 } :=
      ⟨lists.known,lists.head,lists.cbHead,lists.tHead⟩
    exact afterCbKeepsTurn turned ahead s.head.fCbGenid s.log
  | tRunloop now => exact afterTKeepsTurn lists ahead now s.log
  | rwRunloop kqfd events =>
    have submitted : Lists { s.head with kqfd := kqfd, pending := { s.head.pending with n := 0 } } :=
      ⟨lists.known,lists.head,lists.cbHead,lists.tHead⟩
    exact afterRwKeepsTurn submitted allowed.2.2.1 ahead s.log
  | ret =>
    simp only [step]
    split
    · exact ⟨[],(List.append_nil s.log).symm,Or.inl ⟨ahead,by simp,by simp⟩⟩
    · exact afterCbKeepsTurn lists ahead _ _
    · exact afterTKeepsTurn lists ahead _ _
    · rename_i rest inside
      exact afterRwKeepsTurn lists (sound.rest rest inside) ahead _

theorem logGrows {κ} [Kq κ] (s : State κ) (a) : ∃ new, (step s a).log = s.log ++ new := by
  have cb (cur) (fh : FdeHead κ) : ∃ new, (afterCb cur fh s.log).log = s.log ++ new := by
    unfold afterCb
    split
    · exact ⟨[],(List.append_nil s.log).symm⟩
    · exact ⟨_,rfl⟩
  have t (now) (fh : FdeHead κ) : ∃ new, (afterT now fh s.log).log = s.log ++ new := by
    unfold afterT
    split
    · exact ⟨[],(List.append_nil s.log).symm⟩
    · exact ⟨_,rfl⟩
  have rw (events) (fh : FdeHead κ) : ∃ new, (afterRw events fh s.log).log = s.log ++ new := by
    unfold afterRw
    split
    · exact ⟨[],(List.append_nil s.log).symm⟩
    · exact ⟨_,rfl⟩
  cases a with
  | op o => exact ⟨_,rfl⟩
  | cbRunloop => exact cb _ _
  | tRunloop now => exact t _ _
  | rwRunloop kqfd events => exact rw _ _
  | ret =>
    simp only [step]
    split
    · exact ⟨[],(List.append_nil s.log).symm⟩
    · exact cb _ _
    · exact t _ _
    · exact rw _ _

theorem runLogGrows {κ} [Kq κ] {s : State κ} (actions) : ∃ new, (run (fdeMachine κ) s actions).log = s.log ++ new := by
  induction actions generalizing s with
  | nil => exact ⟨[],(List.append_nil s.log).symm⟩
  | cons a rest ih =>
    obtain ⟨first,grown⟩ := logGrows s a
    obtain ⟨later,whole⟩ := @ih (step s a)
    exact ⟨first ++ later,by rw [← List.append_assoc,← grown]; exact whole⟩

/- Callbacks are first come, first served: `g` is not called before `f` is, or one of them
has been taken off the queue. -/
theorem callbacksInOrder {κ} [Kq κ] {s : State κ} {actions f g before after} (reached : Reach (fdeMachine κ) s)
    (ahead : Ahead f g s.head) (possible : Possible (fdeMachine κ) s actions)
    (called : (run (fdeMachine κ) s actions).log = s.log ++ before ++ .dispatched g::after) :
    ∃ ev ∈ before, Yields f g ev := by
  induction actions generalizing s before with
  | nil =>
    have none : s.log ++ [] = s.log ++ (before ++ .dispatched g::after) := by
      rw [List.append_nil,← List.append_assoc]
      exact called
    simp at none
  | cons a rest ih =>
    obtain ⟨allowed,later⟩ := possible
    obtain ⟨new,grown,order⟩ := stepKeepsTurn reached allowed ahead
    obtain ⟨more,whole⟩ := @runLogGrows κ _ (step s a) rest
    have events : new ++ more = before ++ .dispatched g::after := by
      have same : s.log ++ (new ++ more) = s.log ++ (before ++ .dispatched g::after) := by
        rw [← List.append_assoc,← grown,← whole,← List.append_assoc]
        exact called
      exact List.append_cancel_left same
    rcases order with ⟨still,short,uncalled⟩ | ⟨ev,rfl,yields⟩
    · have next : ∀ before', more = before' ++ .dispatched g::after → ∃ ev ∈ before', Yields f g ev := by
        intro before' split
        refine ih (.next reached allowed) still later ?_
        change (run (fdeMachine κ) (step s a) rest).log = (step s a).log ++ before' ++ .dispatched g::after
        rw [whole,split,List.append_assoc]
      match new,before with
      | [],_ => exact next _ events
      | [ev],[] =>
        rw [List.singleton_append,List.nil_append,List.cons.injEq] at events
        rw [events.1] at uncalled
        exact absurd List.mem_cons_self uncalled
      | [ev],ev'::before' =>
        rw [List.singleton_append,List.cons_append,List.cons.injEq] at events
        obtain ⟨ev,mem,yields⟩ := next before' events.2
        exact ⟨ev,List.mem_cons_of_mem _ mem,yields⟩
    · match before with
      | [] =>
        rw [List.singleton_append,List.nil_append,List.cons.injEq] at events
        have apart := (aheadWaits (reachSound reached).lists ahead).2
        rcases yields with own | own | own <;> rw [events.1] at own
        · exact absurd (Ev.dispatched.inj own).symm apart
        · contradiction
        · contradiction
      | ev'::before' =>
        rw [List.singleton_append,List.cons_append,List.cons.injEq] at events
        exact ⟨ev',List.mem_cons_self,events.1 ▸ yields⟩

/- Three callbacks wait; the first one takes the second off the queue and adds it again. -/
def orderSetup : List (Act Unit) :=
  [.op (.create 1 (-1) .callback 0 (some 0) 0),.op (.create 2 (-1) .callback 0 (some 0) 0),
    .op (.create 3 (-1) .callback 0 (some 0) 0),.op (.add 1),.op (.add 2),.op (.add 3)]

def orderRun : List (Act Unit) := [.cbRunloop,.op (.delete 2),.op (.add 2),.ret,.ret,.cbRunloop]

theorem callbacksInOrderRun :
    let s := run (fdeMachine Unit) (initial ()) orderSetup
    (run (fdeMachine Unit) s orderRun).log =
      s.log ++ [.dispatched 1,.deleted 2,.added 2,.dispatched 3] ++ .dispatched 2::[] ∧
    ∃ ev ∈ [Ev.dispatched 1,.deleted 2,.added 2,.dispatched 3], Yields 1 2 ev := by
  have reached : Reach (fdeMachine Unit) (run (fdeMachine Unit) (initial ()) orderSetup) :=
    reachRun (.start ⟨(),rfl⟩) (by decide)
  have log : (run (fdeMachine Unit) (run (fdeMachine Unit) (initial ()) orderSetup) orderRun).log =
      (run (fdeMachine Unit) (initial ()) orderSetup).log ++ [.dispatched 1,.deleted 2,.added 2,.dispatched 3] ++
        .dispatched 2::[] := by
    decide
  exact ⟨log,callbacksInOrder reached (by decide) (by decide) log⟩

end Libiapp.Event

import Libiapp.FdeRunloop

/-! The representation invariant of an fde_head: is_active and the three lists
agree for every fde, in every state of every run. -/
namespace Libiapp.Event
open Kqueue Runs

theorem activeUpdate {κ} {fh fh' : FdeHead κ} {f e'} (fdes : fh'.fdes = Function.update fh.fdes f (some e')) (g) :
    fh'.active g = if g = f then e'.isActive else fh.active g := by
  unfold FdeHead.active
  rw [fdes]
  by_cases same : g = f
  · subst g; simp
  · simp [same]

theorem typeUpdate {κ} {fh fh' : FdeHead κ} {f e'} (fdes : fh'.fdes = Function.update fh.fdes f (some e')) (g) :
    fh'.typeOf g = if g = f then some e'.fType else fh.typeOf g := by
  unfold FdeHead.typeOf
  rw [fdes]
  by_cases same : g = f
  · subst g; simp
  · simp [same]

theorem walkInsertCount {f later} {l : List FdeId} (stop : ∃ n ∈ l, later n = true) (g) :
    (walkInsert f later l).count g = l.count g + if f = g then 1 else 0 := by
  induction l with
  | nil => simp at stop
  | cons n rest ih =>
    unfold walkInsert
    by_cases here : later n = true
    · rw [if_pos here]
      simp only [List.count_cons,beq_iff_eq]
      omega
    · rw [if_neg here]
      have rest : ∃ m ∈ rest, later m = true := by
        obtain ⟨m,mem,found⟩ := stop
        rcases List.mem_cons.mp mem with rfl | inside
        · exact absurd found here
        · exact ⟨m,inside,found⟩
      simp only [List.count_cons,ih rest]
      omega

/- The walk never runs off the list: the new timer is later than the first. -/
theorem timerInsertCount (f tv tvOf) (l : List FdeId) (g) :
    (timerInsert f tv tvOf l).count g = l.count g + if f = g then 1 else 0 := by
  cases l with
  | nil => simp [timerInsert,List.count_cons]
  | cons n rest =>
    simp only [timerInsert]
    split
    · simp only [List.count_cons,beq_iff_eq]
    · rename_i later
      split
      · simp only [List.count_append,List.count_cons,List.count_nil,beq_iff_eq]
        omega
      · exact walkInsertCount ⟨n,List.mem_cons_self,by simpa using later⟩ g

structure Lists {κ} (fh : FdeHead κ) : Prop where
  known : Supported fh
  head : ∀ f, fh.fHead.count f = if fh.active f then 1 else 0
  cbHead : ∀ f, fh.fCbHead.count f = if fh.active f ∧ fh.typeOf f = some .callback then 1 else 0
  tHead : ∀ f, fh.fTHead.count f = if fh.active f ∧ fh.typeOf f = some .timer then 1 else 0

theorem queued {κ} {fh : FdeHead κ} (lists : Lists fh) (f) :
    f ∈ fh.fCbHead ↔ fh.active f = true ∧ fh.typeOf f = some .callback := by
  rw [← List.count_pos_iff,lists.cbHead]
  by_cases h : fh.active f = true ∧ fh.typeOf f = some .callback <;> simp [h]

theorem timed {κ} {fh : FdeHead κ} (lists : Lists fh) (f) :
    f ∈ fh.fTHead ↔ fh.active f = true ∧ fh.typeOf f = some .timer := by
  rw [← List.count_pos_iff,lists.tHead]
  by_cases h : fh.active f = true ∧ fh.typeOf f = some .timer <;> simp [h]

theorem activatesLists {κ} {fh fh' : FdeHead κ} {f e e'} (lists : Lists fh)
    (effect : Activates fh fh' f e e') : Lists fh' := by
  have off : fh.active f = false := by simp [FdeHead.active,effect.found,effect.idle]
  refine ⟨updateSupported lists.known effect.fdes (effect.type ▸ lists.known f e effect.found),
    fun g => ?_,fun g => ?_,fun g => ?_⟩
  · rw [effect.head,activeUpdate effect.fdes,List.count_append,lists.head]
    by_cases same : g = f
    · subst g; simp [off,effect.active]
    · simp [same,Ne.symm same]
  · rw [effect.cbHead,activeUpdate effect.fdes,typeUpdate effect.fdes]
    by_cases queue : e.fType = .callback
    · rw [if_pos queue,List.count_append,lists.cbHead]
      by_cases same : g = f
      · subst g; simp [off,effect.active,effect.type,queue]
      · simp [same,Ne.symm same]
    · rw [if_neg queue,lists.cbHead]
      by_cases same : g = f
      · subst g; simp [off,effect.type,queue]
      · simp [same]
  · rw [effect.tHead,activeUpdate effect.fdes,typeUpdate effect.fdes]
    by_cases timer : e.fType = .timer
    · rw [if_pos timer,timerInsertCount,lists.tHead]
      by_cases same : g = f
      · subst g; simp [off,effect.active,effect.type,timer]
      · simp [same,Ne.symm same]
    · rw [if_neg timer,lists.tHead]
      by_cases same : g = f
      · subst g; simp [off,effect.type,timer]
      · simp [same]

theorem deactivatesLists {κ} {fh fh' : FdeHead κ} {f e e'} (lists : Lists fh)
    (effect : Deactivates fh fh' f e e') : Lists fh' := by
  have on : fh.active f = true := by simp [FdeHead.active,effect.found,effect.active]
  have type : fh.typeOf f = some e.fType := by simp [FdeHead.typeOf,effect.found]
  refine ⟨updateSupported lists.known effect.fdes (effect.type ▸ lists.known f e effect.found),
    fun g => ?_,fun g => ?_,fun g => ?_⟩
  · rw [effect.head,activeUpdate effect.fdes,List.count_erase,lists.head]
    by_cases same : g = f
    · subst g; simp [on,effect.idle]
    · simp [same,Ne.symm same]
  · rw [effect.cbHead,activeUpdate effect.fdes,typeUpdate effect.fdes]
    by_cases queue : e.fType = .callback
    · rw [if_pos queue,List.count_erase,lists.cbHead]
      by_cases same : g = f
      · subst g; simp [on,type,effect.idle,queue]
      · simp [same,Ne.symm same]
    · rw [if_neg queue,lists.cbHead]
      by_cases same : g = f
      · subst g; simp [type,effect.type,queue]
      · simp [same]
  · rw [effect.tHead,activeUpdate effect.fdes,typeUpdate effect.fdes]
    by_cases timer : e.fType = .timer
    · rw [if_pos timer,List.count_erase,lists.tHead]
      by_cases same : g = f
      · subst g; simp [on,type,effect.idle,timer]
      · simp [same,Ne.symm same]
    · rw [if_neg timer,lists.tHead]
      by_cases same : g = f
      · subst g; simp [type,effect.type,timer]
      · simp [same]

theorem deleteLists {κ} [Kq κ] {fh : FdeHead κ} (lists : Lists fh) (f) : Lists (fdeDelete fh f) := by
  rcases fdeDeleteEffect lists.known f with ⟨same,_⟩ | ⟨e,e',effect⟩
  · rw [same]; exact lists
  · exact deactivatesLists lists effect

/- An fde that is allocated or released is inactive, so no list changes. -/
theorem inactiveUpdateLists {κ} {fh fh' : FdeHead κ} {f new} (lists : Lists fh)
    (fdes : fh'.fdes = Function.update fh.fdes f new) (head : fh'.fHead = fh.fHead)
    (cbHead : fh'.fCbHead = fh.fCbHead) (tHead : fh'.fTHead = fh.fTHead) (off : fh.active f = false)
    (idle : ∀ e ∈ new, e.isActive = false ∧ e.fType.supported = true) : Lists fh' := by
  have other (g) (h : g ≠ f) : fh'.active g = fh.active g ∧ fh'.typeOf g = fh.typeOf g := by
    simp [FdeHead.active,FdeHead.typeOf,fdes,h]
  have self : fh'.active f = false := by
    cases new with
    | none => simp [FdeHead.active,fdes]
    | some e => simpa [FdeHead.active,fdes] using (idle e rfl).1
  refine ⟨?_,fun g => ?_,fun g => ?_,fun g => ?_⟩
  · intro g e found
    rw [fdes] at found
    by_cases same : g = f
    · subst g; rw [Function.update_self] at found; exact (idle e found).2
    · rw [Function.update_of_ne same] at found; exact lists.known g e found
  · rw [head,lists.head]
    by_cases same : g = f
    · subst g; rw [off,self]
    · rw [(other g same).1]
  · rw [cbHead,lists.cbHead]
    by_cases same : g = f
    · subst g; simp [off,self]
    · rw [(other g same).1,(other g same).2]
  · rw [tHead,lists.tHead]
    by_cases same : g = f
    · subst g; simp [off,self]
    · rw [(other g same).1,(other g same).2]

theorem opLists {κ} [Kq κ] {fh : FdeHead κ} {inRw o} (lists : Lists fh) (ok : OpAllowed fh inRw o) :
    Lists (applyOp fh o) := by
  cases o with
  | create f fd t fl cb cbdata =>
    simp only [applyOp]
    cases made : fdeCreate fh f fd t fl cb cbdata with
    | none => exact lists
    | some fh' =>
      obtain ⟨e,rfl,idle,type,known⟩ := fdeCreateEffect made
      have fresh : fh.fdes f = none := ok
      exact inactiveUpdateLists lists rfl rfl rfl rfl (by simp [FdeHead.active,fresh])
        (by intro x mem; cases mem; exact ⟨idle,type ▸ known⟩)
  | add f =>
    rcases fdeAddEffect fh f with same | ⟨e,e',effect,_⟩
    · simpa only [applyOp,same] using lists
    · exact activatesLists lists effect
  | addTimeout f tv =>
    rcases fdeAddTimeoutEffect fh f tv ok with ⟨same,_⟩ | ⟨e,e',effect,_⟩
    · simpa only [applyOp,same] using lists
    · exact activatesLists lists effect
  | delete f => exact deleteLists lists f
  | free f =>
    simp only [applyOp,fdeFreeEq lists.known]
    exact inactiveUpdateLists (deleteLists lists f) rfl rfl rfl rfl (deleteOff lists.known f) (by simp)

/- fde_rw_runloop unlinks a one-shot fde from f_head alone, which is right because
a kevent result never names a callback or a timer. -/
theorem rwEventEffect {κ} {fh : FdeHead κ} {k} (io : skipError k = false → ∀ f ∈ k.udata, fh.io f = true) :
    (fdeRwEvent fh k).1 = fh ∨ ∃ f e e', Deactivates fh (fdeRwEvent fh k).1 f e e' := by
  rcases rwEventSource fh k with same | ⟨f,e,⟨named,clean⟩,found,on,_,after⟩
  · exact Or.inl same
  · have type : e.fType.io = true := by simpa [FdeHead.io,found] using io clean f (by simp [named])
    have queue : e.fType ≠ .callback := by intro h; simp [h,FdeType.io] at type
    have timer : e.fType ≠ .timer := by intro h; simp [h,FdeType.io] at type
    refine Or.inr ⟨f,e,{ e with isActive := false },?_⟩
    rw [after]
    exact ⟨found,on,rfl,rfl,rfl,rfl,rfl,rfl,rfl,by simp [FdeHead.put,queue],by simp [FdeHead.put,timer],rfl⟩

theorem rwEventLists {κ} {fh : FdeHead κ} {k} (lists : Lists fh)
    (io : skipError k = false → ∀ f ∈ k.udata, fh.io f = true) : Lists (fdeRwEvent fh k).1 := by
  rcases rwEventEffect io with same | ⟨f,e,e',effect⟩
  · rw [same]; exact lists
  · exact deactivatesLists lists effect

theorem updateIo {κ} {fh fh' : FdeHead κ} {f e e'} (found : fh.fdes f = some e)
    (fdes : fh'.fdes = Function.update fh.fdes f (some e')) (type : e'.fType = e.fType) (g) :
    fh'.io g = fh.io g := by
  unfold FdeHead.io
  rw [fdes]
  by_cases same : g = f
  · subst g; simp [found,type]
  · simp [same]

theorem rwEventIo {κ} (fh : FdeHead κ) (k g) : (fdeRwEvent fh k).1.io g = fh.io g := by
  rcases rwEventSource fh k with same | ⟨f,e,_,found,_,_,after⟩
  · rw [same]
  · have stored : (fdeRwEvent fh k).1.fdes = Function.update fh.fdes f (some { e with isActive := false }) := by
      rw [after]; rfl
    exact updateIo found stored rfl g

theorem liveTail {κ} {fh : FdeHead κ} {k rest} (live : NamesLiveIo fh (k::rest)) :
    NamesLiveIo (fdeRwEvent fh k).1 rest := by
  intro k' mem clean f named
  rw [rwEventIo]
  exact live k' (List.mem_cons_of_mem _ mem) clean f named

theorem rwNextLists {κ} {events} {fh : FdeHead κ} (lists : Lists fh) (live : NamesLiveIo fh events) :
    Lists (fdeRwNext events fh).1 ∧
      ∀ f rest, (fdeRwNext events fh).2 = some (f,rest) → NamesLiveIo (fdeRwNext events fh).1 rest := by
  induction events generalizing fh with
  | nil => exact ⟨lists,by simp [fdeRwNext]⟩
  | cons k rest ih =>
    have after := rwEventLists lists (live k List.mem_cons_self)
    have tail := liveTail live
    unfold fdeRwNext
    cases called : fdeRwEvent fh k with
    | mk fh' who =>
      rw [called] at after tail
      cases who with
      | none => exact ih after tail
      | some f =>
        refine ⟨after,?_⟩
        intro g rest' same
        cases Option.some.inj same
        exact tail

/- Client code in an I/O callback keeps the fdes of the remaining entries. -/
theorem opKeepsIo {κ} [Kq κ] {fh : FdeHead κ} {o} (lists : Lists fh) (ok : OpAllowed fh true o) (g)
    (live : fh.io g = true) : (applyOp fh o).io g = true := by
  cases o with
  | create f fd t fl cb cbdata =>
    simp only [applyOp]
    cases made : fdeCreate fh f fd t fl cb cbdata with
    | none => exact live
    | some fh' =>
      obtain ⟨e,rfl,_⟩ := fdeCreateEffect made
      have fresh : fh.fdes f = none := ok
      have other : g ≠ f := by
        intro same
        subst g
        simp [FdeHead.io,fresh] at live
      simpa [FdeHead.io,FdeHead.put,other] using live
  | add f =>
    rcases fdeAddEffect fh f with same | ⟨e,e',effect,_⟩
    · simpa only [applyOp,same] using live
    · rw [applyOp,updateIo effect.found effect.fdes effect.type]; exact live
  | addTimeout f tv =>
    rcases fdeAddTimeoutEffect fh f tv ok with ⟨same,_⟩ | ⟨e,e',effect,_⟩
    · simpa only [applyOp,same] using live
    · rw [applyOp,updateIo effect.found effect.fdes effect.type]; exact live
  | delete f =>
    rcases fdeDeleteEffect lists.known f with ⟨same,_⟩ | ⟨e,e',effect⟩
    · simpa only [applyOp,same] using live
    · rw [applyOp,updateIo effect.found effect.fdes effect.type]; exact live
  | free f =>
    have other : g ≠ f := by
      intro same
      subst g
      simp [ok.2 rfl] at live
    have kept : (fdeDelete fh f).io g = true := by
      rcases fdeDeleteEffect lists.known f with ⟨same,_⟩ | ⟨e,e',effect⟩
      · rw [same]; exact live
      · rw [updateIo effect.found effect.fdes effect.type]; exact live
    simpa [applyOp,fdeFreeEq lists.known,FdeHead.io,other] using kept

structure Sound {κ} (s : State κ) : Prop where
  lists : Lists s.head
  rest : ∀ rest, s.ctl = .rwLoop rest → NamesLiveIo s.head rest

theorem afterCbSound {κ} [Kq κ] {fh : FdeHead κ} (lists : Lists fh) (cur log) : Sound (afterCb cur fh log) := by
  unfold afterCb
  split
  · exact ⟨lists,by simp⟩
  · rename_i next
    obtain ⟨_,_,_,_,_,rfl⟩ := cbNextSource next
    exact ⟨deleteLists lists _,by simp⟩

theorem afterTSound {κ} [Kq κ] {fh : FdeHead κ} (lists : Lists fh) (now log) : Sound (afterT now fh log) := by
  unfold afterT
  split
  · exact ⟨lists,by simp⟩
  · rename_i next
    obtain ⟨_,_,_,_,_,rfl⟩ := tNextSource next
    exact ⟨deleteLists lists _,by simp⟩

theorem afterRwSound {κ} {fh : FdeHead κ} {events} (lists : Lists fh) (live : NamesLiveIo fh events) (log) :
    Sound (afterRw events fh log) := by
  obtain ⟨after,rest⟩ := rwNextLists lists live
  unfold afterRw
  cases next : fdeRwNext events fh with
  | mk fh' who =>
    rw [next] at after rest
    cases who with
    | none => exact ⟨after,by simp⟩
    | some called =>
      refine ⟨after,?_⟩
      intro r same
      cases same
      exact rest _ _ rfl

theorem stepSound {κ} [Kq κ] {s : State κ} {a} (sound : Sound s) (ok : Allowed s a) : Sound (step s a) := by
  cases a with
  | op o =>
    refine ⟨opLists sound.lists ok,?_⟩
    intro rest inRw k mem clean f named
    have inside : s.ctl = .rwLoop rest := inRw
    have inIo : OpAllowed s.head true o := by simpa only [Allowed,inside,Ctl.inRw] using ok
    exact opKeepsIo sound.lists inIo f (sound.rest rest inRw k mem clean f named)
  | cbRunloop =>
    have lists : Lists { s.head with fCbGenid := s.head.fCbGenid + 1 } :=
      ⟨sound.lists.known,sound.lists.head,sound.lists.cbHead,sound.lists.tHead⟩
    exact afterCbSound lists s.head.fCbGenid s.log
  | tRunloop now => exact afterTSound sound.lists now s.log
  | rwRunloop kqfd events =>
    have lists : Lists { s.head with kqfd := kqfd, pending := { s.head.pending with n := 0 } } :=
      ⟨sound.lists.known,sound.lists.head,sound.lists.cbHead,sound.lists.tHead⟩
    exact afterRwSound lists ok.2.2.1 s.log
  | ret =>
    simp only [step]
    split
    · exact sound
    · exact afterCbSound sound.lists _ _
    · exact afterTSound sound.lists _ _
    · rename_i rest inRw
      exact afterRwSound sound.lists (sound.rest rest inRw) _

theorem initialSound {κ} (kqfd : κ) : Sound (initial kqfd) :=
  ⟨⟨by simp [Supported,initial,fdeCtxNew],by simp [initial,fdeCtxNew,FdeHead.active],
    by simp [initial,fdeCtxNew,FdeHead.active],by simp [initial,fdeCtxNew,FdeHead.active]⟩,
    by simp [initial]⟩

theorem reachSound {κ} [Kq κ] {s : State κ} (reached : Reach (fdeMachine κ) s) : Sound s := by
  refine reachInvariant (m := fdeMachine κ) ?_ (fun _ _ sound ok => stepSound sound ok) reached
  rintro _ ⟨kqfd,rfl⟩
  exact initialSound kqfd

theorem listsAgree {κ} [Kq κ] {s : State κ} (reached : Reach (fdeMachine κ) s) :
    (∀ f e, s.head.fdes f = some e →
      s.head.fHead.count f = (if e.isActive then 1 else 0) ∧
      s.head.fCbHead.count f = (if e.isActive ∧ e.fType = .callback then 1 else 0) ∧
      s.head.fTHead.count f = (if e.isActive ∧ e.fType = .timer then 1 else 0)) ∧
    ∀ f, s.head.fdes f = none → f ∉ s.head.fHead ∧ f ∉ s.head.fCbHead ∧ f ∉ s.head.fTHead := by
  have lists := (reachSound reached).lists
  constructor
  · intro f e found
    have on : s.head.active f = e.isActive := by simp [FdeHead.active,found]
    have type : s.head.typeOf f = some e.fType := by simp [FdeHead.typeOf,found]
    refine ⟨?_,?_,?_⟩
    · rw [lists.head,on]
    · rw [lists.cbHead,on,type]; simp
    · rw [lists.tHead,on,type]; simp
  · intro f freed
    have off : s.head.active f = false := by simp [FdeHead.active,freed]
    refine ⟨?_,?_,?_⟩
    · rw [← List.count_eq_zero,lists.head,off]; rfl
    · rw [← List.count_eq_zero,lists.cbHead,off]; simp
    · rw [← List.count_eq_zero,lists.tHead,off]; simp

/- A callback (1) arms a timer (2) and frees itself; a one-shot read fde (3) fires
and its callback re-adds it. -/
def listsRun : List (Act Unit) :=
  [.op (.create 1 (-1) .callback 0 (some 0) 0),.op (.create 2 (-1) .timer 0 (some 0) 0),
    .op (.create 3 7 .read 0 (some 0) 0),.op (.add 1),.op (.add 3),.cbRunloop,
    .op (.addTimeout 2 ⟨5,0⟩),.op (.free 1),.ret,
    .rwRunloop () [⟨7,.read,0#16,0#32,0,some 3⟩],.op (.add 3),.ret]

theorem listsAgreeRun :
    let s := run (fdeMachine Unit) (initial ()) listsRun
    s.head.fHead = [2,3] ∧ s.head.fTHead.count 2 = 1 ∧ 1 ∉ s.head.fHead := by
  have reached : Reach (fdeMachine Unit) (run (fdeMachine Unit) (initial ()) listsRun) :=
    reachRun (.start ⟨(),rfl⟩) (by decide)
  have lists := listsAgree reached
  have timer := (lists.1 2 ⟨-1,zeroKevent,.timer,0,some 0,true,⟨5,0⟩,0,0⟩ (by decide)).2.2
  exact ⟨by decide,by simpa using timer,(lists.2 1 (by decide)).1⟩

end Libiapp.Event

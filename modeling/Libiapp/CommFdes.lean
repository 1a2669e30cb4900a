import Libiapp.CommHandlers
import Libiapp.FdeLists

/-! The ten fdes of a comm inside an fde_head. A comm sees of the event layer which of
its fdes are active. Here that view is shown to be what fde.c keeps: fde_add and
fde_delete do to is_active what the handlers' model says, and a step of the event layer
is a dispatch of an armed fde of the comm or is not seen by it. -/
namespace Libiapp.Comm
open Kqueue
open Libiapp.Event (FdeHead FdeId FdeType fdeFPersist fdeCreate fdeAdd fdeDelete fdeFree fdeCbNext fdeTNext
  fdeRwEvent fdeRwNext applyOp opEvents)

def CommFde.fType : CommFde → FdeType
  | .read | .accept | .udpRead => .read
  | .write | .connect | .udpWrite => .write
  | .readCb | .writeCb | .connectStart | .cleanup => .callback

def CommFde.fFlags (e : CommFde) : UInt32 := if e.persist then fdeFPersist else 0

structure Views {κ} (ids : CommFde → FdeId) (fh : FdeHead κ) (armed : CommFde → Bool) : Prop where
  distinct : Function.Injective ids
  known : ∀ e, ∃ f, fh.fdes (ids e) = some f ∧ f.fType = e.fType ∧ f.fFlags = e.fFlags ∧ f.cb.isSome = true ∧
    f.isActive = armed e

variable {κ : Type} {ids : CommFde → FdeId} {fh fh' : FdeHead κ} {armed : CommFde → Bool}

/- An fde of the comm is switched and nothing else is. -/
theorem switchedViews {e f f'} {on : Bool} (views : Views ids fh armed) (found : fh.fdes (ids e) = some f)
    (fdes : fh'.fdes = Function.update fh.fdes (ids e) (some f')) (type : f'.fType = f.fType)
    (flags : f'.fFlags = f.fFlags) (cb : f'.cb = f.cb) (active : f'.isActive = on) :
    Views ids fh' (Function.update armed e on) := by
  refine ⟨views.distinct,fun e' => ?_⟩
  obtain ⟨g,here,gType,gFlags,gCb,gActive⟩ := views.known e'
  rw [fdes]
  by_cases same : e' = e
  · subst e'
    cases Option.some.inj (here.symm.trans found)
    exact ⟨f',by simp,type.trans gType,flags.trans gFlags,cb ▸ gCb,by simpa using active⟩
  · have other : ids e' ≠ ids e := fun h => same (views.distinct h)
    exact ⟨g,by simpa [other] using here,gType,gFlags,gCb,by simpa [same] using gActive⟩

/- A comm does not see what happens to fdes that are not its own. -/
theorem otherViews (views : Views ids fh armed) (kept : ∀ e, fh'.fdes (ids e) = fh.fdes (ids e)) :
    Views ids fh' armed := by
  refine ⟨views.distinct,fun e => ?_⟩
  rw [kept e]
  exact views.known e

theorem addViews [Kq κ] (e : CommFde) (views : Views ids fh armed) :
    Views ids (fdeAdd fh (ids e)) (Function.update armed e true) := by
  obtain ⟨f,found,type,_,_,active⟩ := views.known e
  have io : f.fType = .read ∨ f.fType = .write ∨ f.fType = .callback := by
    rw [type]
    cases e <;> simp [CommFde.fType]
  rcases Event.fdeAddKnown found io with ⟨same,on⟩ | ⟨f',effect⟩
  · rw [same,show true = armed e from on.symm.trans active,Function.update_eq_self]
    exact views
  · exact switchedViews views found effect.fdes effect.type effect.flags effect.cb effect.active

theorem deleteViews [Kq κ] (e : CommFde) (known : Event.Supported fh) (views : Views ids fh armed) :
    Views ids (fdeDelete fh (ids e)) (Function.update armed e false) := by
  obtain ⟨f,found,_,_,_,active⟩ := views.known e
  rcases Event.fdeDeleteEffect known (ids e) with ⟨same,off⟩ | ⟨f₀,f',effect⟩
  · have idle : f.isActive = false := by simpa [FdeHead.active,found] using off
    rw [same,show false = armed e from idle.symm.trans active,Function.update_eq_self]
    exact views
  · cases Option.some.inj (effect.found.symm.trans found)
    exact switchedViews views found effect.fdes effect.type effect.flags effect.cb effect.idle

theorem activeViews {e} (views : Views ids fh armed) : fh.active (ids e) = armed e := by
  obtain ⟨f,found,_,_,_,active⟩ := views.known e
  simpa [FdeHead.active,found] using active

/- The callback loop takes a queued fde of the comm: it was armed, and it no longer is. -/
theorem cbDispatchViews [Kq κ] {s : State} {e cur} (lists : Event.Lists fh) (views : Views ids fh s.armed)
    (next : fdeCbNext cur fh = some (ids e,fh')) : s.armed e = true ∧ Views ids fh' (fired s e).armed := by
  obtain ⟨rest,f,first,found,_,rfl⟩ := Event.cbNextSource next
  obtain ⟨on,type⟩ := (Event.queued lists (ids e)).mp (first ▸ List.mem_cons_self)
  refine ⟨(activeViews views).symm.trans on,?_⟩
  have oneshot : e.persist = false := by
    obtain ⟨f',found',type',_,_,_⟩ := views.known e
    simp only [FdeHead.typeOf,found',Option.map_some,Option.some.injEq] at type
    rw [type] at type'
    cases e <;> simp [CommFde.fType,CommFde.persist] at type' ⊢
  simp only [fired,oneshot,Bool.false_eq_true,if_false]
  exact deleteViews e lists.known views

theorem persistViews {f : Event.Fde} {e : CommFde} (flags : f.fFlags = e.fFlags) : f.persist = e.persist := by
  rw [Event.Fde.persist,flags]
  cases e <;> decide

/- What the comm sees of a loop that runs up to its next callback: `who` is the fde called. -/
def Seen {κ} (ids : CommFde → FdeId) (s : State) (who : Option FdeId) (fh : FdeHead κ) : Prop :=
  (∃ e, who = some (ids e) ∧ s.armed e = true ∧ Views ids fh (fired s e).armed) ∨
    ((∀ e, who ≠ some (ids e)) ∧ Views ids fh s.armed)

/- An event that the kernel returned leaves a persistent fde armed. An fde of the comm
has a callback, so no event on one is taken silently. -/
theorem rwDispatchViews {s : State} (k) (views : Views ids fh s.armed) :
    Seen ids s (fdeRwEvent fh k).2 (fdeRwEvent fh k).1 := by
  rcases Event.rwEventSpec fh k with skipped | ⟨g,f,_,found,on,after⟩
  · rw [skipped]
    exact Or.inr ⟨fun _ => by simp,views⟩
  · by_cases own : ∃ e, ids e = g
    · obtain ⟨e,rfl⟩ := own
      obtain ⟨f',found',_,flags,cb,active⟩ := views.known e
      cases Option.some.inj (found.symm.trans found')
      refine Or.inl ⟨e,by simp [after,cb],active.symm.trans on,?_⟩
      simp only [after,fired,persistViews flags]
      split
      · exact views
      · exact switchedViews views found rfl rfl rfl rfl rfl
    · rw [not_exists] at own
      rw [after]
      refine Or.inr ⟨fun e called => ?_,otherViews views fun e => ?_⟩
      · dsimp only at called
        split at called
        · exact own e (Option.some.inj called).symm
        · contradiction
      · dsimp only
        split
        · rfl
        · exact Function.update_of_ne (own e) ..

theorem rwNextViews {s : State} (events) (views : Views ids fh s.armed) :
    Seen ids s ((fdeRwNext events fh).2.map Prod.fst) (fdeRwNext events fh).1 := by
  induction events generalizing fh with
  | nil => exact Or.inr ⟨fun _ => by simp [fdeRwNext],views⟩
  | cons k rest ih =>
    have first := rwDispatchViews k views
    unfold fdeRwNext
    cases called : fdeRwEvent fh k with
    | mk fh₁ who =>
      rw [called] at first
      cases who with
      | none =>
        rcases first with ⟨e,never,_⟩ | ⟨_,after⟩
        · contradiction
        · exact ih after
      | some f => exact first

theorem cbNextViews [Kq κ] {s : State} {cur f} (lists : Event.Lists fh) (views : Views ids fh s.armed)
    (next : fdeCbNext cur fh = some (f,fh')) : Seen ids s (some f) fh' := by
  by_cases own : ∃ e, ids e = f
  · obtain ⟨e,rfl⟩ := own
    exact Or.inl ⟨e,rfl,cbDispatchViews lists views next⟩
  · rw [not_exists] at own
    obtain ⟨_,_,_,_,_,rfl⟩ := Event.cbNextSource next
    exact Or.inr ⟨fun e same => own e (Option.some.inj same).symm,
      otherViews views fun e => Event.deleteOther lists.known (own e)⟩

/- No fde of a comm is a timer. -/
theorem tNextViews [Kq κ] {s : State} {now f} (lists : Event.Lists fh) (views : Views ids fh s.armed)
    (next : fdeTNext now fh = some (f,fh')) : Seen ids s (some f) fh' := by
  obtain ⟨rest,_,first,_,_,rfl⟩ := Event.tNextSource next
  have timer := ((Event.timed lists f).mp (first ▸ List.mem_cons_self)).2
  have own : ∀ e, ids e ≠ f := by
    rintro e rfl
    obtain ⟨g,found,type,_⟩ := views.known e
    simp only [FdeHead.typeOf,found,Option.map_some,Option.some.injEq,type] at timer
    cases e <;> contradiction
  exact Or.inr ⟨fun e same => own e (Option.some.inj same).symm,
    otherViews views fun e => Event.deleteOther lists.known (own e)⟩

/- What the comm sees of a step: the dispatch of one of its fdes, or nothing. -/
def SeenStep {κ} (ids : CommFde → FdeId) (c : State) (s s' : Event.State κ) : Prop :=
  (∃ e, s'.log = s.log ++ [.dispatched (ids e)] ∧ c.armed e = true ∧ Views ids s'.head (fired c e).armed) ∨
    ((∀ e, s'.log ≠ s.log ++ [.dispatched (ids e)]) ∧ Views ids s'.head c.armed)

theorem seenStep {c : State} {s : Event.State κ} {f ctl} (seen : Seen ids c (some f) fh') :
    SeenStep ids c s ⟨fh',ctl,s.log ++ [.dispatched f]⟩ := by
  rcases seen with ⟨e,called,rest⟩ | ⟨other,rest⟩
  · cases Option.some.inj called
    exact Or.inl ⟨e,rfl,rest⟩
  · refine Or.inr ⟨fun e same => other e ?_,rest⟩
    simpa using same

theorem unseenStep {c : State} {s : Event.State κ} {ctl} (views : Views ids fh' c.armed) :
    SeenStep ids c s ⟨fh',ctl,s.log⟩ := Or.inr ⟨fun _ => by simp,views⟩

theorem afterCbViews [Kq κ] {c : State} {s : Event.State κ} (cur) (lists : Event.Lists fh)
    (views : Views ids fh c.armed) : SeenStep ids c s (Event.afterCb cur fh s.log) := by
  unfold Event.afterCb
  split
  · exact unseenStep views
  · rename_i next
    exact seenStep (cbNextViews lists views next)

theorem afterTViews [Kq κ] {c : State} {s : Event.State κ} (now) (lists : Event.Lists fh)
    (views : Views ids fh c.armed) : SeenStep ids c s (Event.afterT now fh s.log) := by
  unfold Event.afterT
  split
  · exact unseenStep views
  · rename_i next
    exact seenStep (tNextViews lists views next)

theorem afterRwViews {c : State} {s : Event.State κ} (events) (views : Views ids fh c.armed) :
    SeenStep ids c s (Event.afterRw events fh s.log) := by
  have seen := rwNextViews events views
  unfold Event.afterRw
  split <;> rename_i next <;> rw [next] at seen
  · rcases seen with ⟨_,never,_⟩ | ⟨_,after⟩
    · contradiction
    · exact unseenStep after
  · exact seenStep seen

/- Whatever the event layer does, with other clients' operations between the loops, is for
the comm the firing of an fde it has armed, or nothing. -/
theorem stepViews [Kq κ] {c : State} {s : Event.State κ} {a} (lists : Event.Lists s.head)
    (views : Views ids s.head c.armed) (others : ∀ o, a = .op o → ∀ e, ids e ≠ o.target) :
    SeenStep ids c s (Event.step s a) := by
  cases a with
  | op o =>
    refine Or.inr ⟨fun e => ?_,otherViews views fun e => Event.opOther lists.known (others o rfl e)⟩
    simp only [Event.step,opEvents]
    split <;> simp
  | cbRunloop =>
    exact afterCbViews _ ⟨lists.known,lists.head,lists.cbHead,lists.tHead⟩ ⟨views.distinct,views.known⟩
  | tRunloop now => exact afterTViews now lists views
  | rwRunloop kqfd events => exact afterRwViews events ⟨views.distinct,views.known⟩
  | ret =>
    simp only [Event.step]
    split
    · exact unseenStep views
    · exact afterCbViews _ lists views
    · exact afterTViews _ lists views
    · exact afterRwViews _ views

/- comm_create makes its fdes in this order. -/
def commFdes : List CommFde :=
  [.read,.readCb,.write,.writeCb,.cleanup,.accept,.connect,.connectStart,.udpRead,.udpWrite]

-- Callback fdes have no descriptor.
def CommFde.ident (fd : Int) (e : CommFde) : Int := if e.fType = .callback then -1 else fd

def createFdes (ids : CommFde → FdeId) (fd : Int) (cb : CommFde → Nat) (cbdata : Nat) (fh : FdeHead κ) :
    Option (FdeHead κ) :=
  commFdes.foldlM (fun fh e => fdeCreate fh (ids e) (e.ident fd) e.fType e.fFlags (some (cb e)) cbdata) fh

theorem createdFdes {fd} {cb : CommFde → Nat} {cbdata} (distinct : Function.Injective ids) (l : List CommFde)
    (created : l.foldlM (fun fh e => fdeCreate fh (ids e) (e.ident fd) e.fType e.fFlags (some (cb e)) cbdata) fh =
      some fh') :
    (∀ e ∈ l, ∃ f, fh'.fdes (ids e) = some f ∧ f.fType = e.fType ∧ f.fFlags = e.fFlags ∧ f.cb.isSome = true ∧
      f.isActive = false) ∧
    ∀ e, e ∉ l → fh'.fdes (ids e) = fh.fdes (ids e) := by
  induction l generalizing fh with
  | nil =>
    cases Option.some.inj created
    simp
  | cons e rest ih =>
    obtain ⟨fh₁,first,later⟩ := Option.bind_eq_some_iff.mp created
    obtain ⟨others,kept⟩ := ih later
    simp only [fdeCreate,Option.map_eq_some_iff] at first
    obtain ⟨kev,_,rfl⟩ := first
    constructor
    · intro e' mem
      by_cases again : e' ∈ rest
      · exact others e' again
      · have this : e' = e := (List.mem_cons.mp mem).resolve_right again
        subst e'
        rw [kept e again]
        exact ⟨_,Function.update_self ..,rfl,rfl,rfl,rfl⟩
    · intro e' absent
      rw [List.mem_cons,not_or] at absent
      rw [kept e' absent.2]
      exact Function.update_of_ne (fun h => absent.1 (distinct h)) ..

theorem createViews {fd cb cbdata close closeData} (distinct : Function.Injective ids)
    (created : createFdes ids fd cb cbdata fh = some fh') : Views ids fh' (commCreate fd close closeData).armed :=
  ⟨distinct,fun e => (createdFdes distinct commFdes created).1 e (by cases e <;> simp [commFdes])⟩

theorem freeSupported [Kq κ] {f : FdeId} (known : Event.Supported fh) : Event.Supported (fdeFree fh f) := by
  intro g x found
  by_cases same : g = f
  · subst g
    rw [Event.freeFdes known,Function.update_self] at found
    contradiction
  · exact known g x ((Event.freeOther known same).symm.trans found)

/- comm_cb_cleanup frees all ten, so nothing of the comm is left behind. -/
theorem freedFdes [Kq κ] (known : Event.Supported fh) (e : CommFde) (l : List CommFde) (mem : e ∈ l) :
    (l.foldl (fun fh e => fdeFree fh (ids e)) fh).fdes (ids e) = none := by
  have stays : ∀ (l : List CommFde) (fh : FdeHead κ), Event.Supported fh → fh.fdes (ids e) = none →
      (l.foldl (fun fh e => fdeFree fh (ids e)) fh).fdes (ids e) = none := by
    intro l
    induction l with
    | nil => exact fun _ _ gone => gone
    | cons e' rest ih =>
      intro fh known gone
      refine ih _ (freeSupported known) ?_
      by_cases same : ids e = ids e'
      · rw [Event.freeFdes known,same,Function.update_self]
      · exact (Event.freeOther known same).trans gone
  induction l generalizing fh with
  | nil => contradiction
  | cons e' rest ih =>
    rcases List.mem_cons.mp mem with rfl | later
    · refine stays rest _ (freeSupported known) ?_
      rw [Event.freeFdes known,Function.update_self]
    · exact ih (freeSupported known) later

end Libiapp.Comm

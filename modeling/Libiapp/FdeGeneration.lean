import Libiapp.FdeLists
import Mathlib.Data.List.Nodup

/-! fde_cb_runloop runs one generation of callbacks. While it runs, f_cb_head is
what is left of the queue at entry, stamped with the old generation, followed by
what was queued since, stamped with the new one; the counter may wrap because it
is only compared for equality. A callback is a list of operations chosen from the
callbacks run so far and the state at its entry. -/
namespace Libiapp.Event
open Kqueue Runs

def FdeHead.genidOf {κ} (fh : FdeHead κ) (f : FdeId) : Option UInt32 := (fh.fdes f).map Fde.fCbGenid

/- The operations that moved a callback fde on or off f_cb_head. -/
def cbEvents {κ} [Kq κ] (fh : FdeHead κ) (o : Op) : List Ev :=
  if fh.typeOf o.target = some .callback then opEvents fh o else []

def opsCbEvents {κ} [Kq κ] (fh : FdeHead κ) : List Op → List Ev
  | [] => []
  | o::rest => cbEvents fh o ++ opsCbEvents (applyOp fh o) rest

def fdeCbLoop {κ} [Kq κ] (callback : List FdeId → FdeHead κ → List Op) (curGenid : UInt32) :
    Nat → List FdeId → FdeHead κ → Option (FdeHead κ × List (FdeId × List Ev))
  | 0,_,_ => none
  | fuel+1,done,fh =>
    match fdeCbNext curGenid fh with
    | none => some (fh,[])
    | some (f,fh) => do
      let ops := callback (done ++ [f]) fh
      let (final,rest) ← fdeCbLoop callback curGenid fuel (done ++ [f]) (ops.foldl applyOp fh)
      some (final,(f,opsCbEvents fh ops)::rest)

def fdeCbRunloop {κ} [Kq κ] (callback : List FdeId → FdeHead κ → List Op) (fuel : Nat) (fh : FdeHead κ) :
    Option (FdeHead κ × List (FdeId × List Ev)) :=
  fdeCbLoop callback fh.fCbGenid fuel [] { fh with fCbGenid := fh.fCbGenid + 1 }

/- A queue to which one event after the other is applied. -/
def requeue (q : List FdeId) : Ev → List FdeId
  | .added f => q ++ [f]
  | .deleted f => q.erase f
  | .dispatched _ => q

inductive QueueStep {κ} (fh fh' : FdeHead κ) (events : List Ev) : Prop where
  | same (none : events = []) (queue : fh'.fCbHead = fh.fCbHead)
      (stamps : ∀ g ∈ fh.fCbHead, fh'.genidOf g = fh.genidOf g)
  | added (f : FdeId) (one : events = [.added f]) (fresh : f ∉ fh.fCbHead)
      (queue : fh'.fCbHead = fh.fCbHead ++ [f]) (stamp : fh'.genidOf f = some fh.fCbGenid)
      (stamps : ∀ g ∈ fh.fCbHead, fh'.genidOf g = fh.genidOf g)
  | deleted (f : FdeId) (one : events = [.deleted f]) (present : f ∈ fh.fCbHead)
      (queue : fh'.fCbHead = fh.fCbHead.erase f)
      (stamps : ∀ g ∈ fh.fCbHead, g ≠ f → fh'.genidOf g = fh.genidOf g)

theorem unqueued {κ} {fh : FdeHead κ} {f g} (lists : Lists fh) (mem : g ∈ fh.fCbHead)
    (absent : ¬ (fh.active f = true ∧ fh.typeOf f = some .callback)) : g ≠ f := by
  rintro rfl
  exact absent ((queued lists g).mp mem)

theorem cbHeadNodup {κ} {fh : FdeHead κ} (lists : Lists fh) : fh.fCbHead.Nodup := by
  rw [List.nodup_iff_count_le_one]
  intro f
  rw [lists.cbHead]
  split <;> omega

theorem genidOther {κ} {fh fh' : FdeHead κ} {f new g} (fdes : fh'.fdes = Function.update fh.fdes f new)
    (other : g ≠ f) : fh'.genidOf g = fh.genidOf g := by
  simp [FdeHead.genidOf,fdes,other]

theorem activatesQueue {κ} [Kq κ] {fh : FdeHead κ} {o e e'} (lists : Lists fh)
    (effect : Activates fh (applyOp fh o) o.target e e') :
    QueueStep fh (applyOp fh o) (cbEvents fh o) := by
  have off : fh.active o.target = false := by simp [FdeHead.active,effect.found,effect.idle]
  have on : (applyOp fh o).active o.target = true := by rw [activeUpdate effect.fdes]; simpa using effect.active
  have type : fh.typeOf o.target = some e.fType := by simp [FdeHead.typeOf,effect.found]
  have events : opEvents fh o = [.added o.target] := by simp only [opEvents,off,on]
  have absent : o.target ∉ fh.fCbHead := by rw [queued lists]; simp [off]
  have stamps : ∀ g ∈ fh.fCbHead, (applyOp fh o).genidOf g = fh.genidOf g := by
    intro g mem
    exact genidOther effect.fdes (fun same => absent (same ▸ mem))
  by_cases queue : e.fType = .callback
  · refine .added o.target ?_ absent (by rw [effect.cbHead,if_pos queue]) ?_ stamps
    · rw [cbEvents,if_pos (by rw [type,queue]),events]
    · simpa [FdeHead.genidOf,effect.fdes] using effect.stamp queue
  · refine .same ?_ (by rw [effect.cbHead,if_neg queue]) stamps
    rw [cbEvents,if_neg (by simpa [type] using queue)]

theorem deactivatesQueue {κ} {fh fh' : FdeHead κ} {f e e'} (lists : Lists fh)
    (effect : Deactivates fh fh' f e e') {events} (callback : e.fType = .callback → events = [.deleted f])
    (other : e.fType ≠ .callback → events = []) : QueueStep fh fh' events := by
  by_cases queue : e.fType = .callback
  · refine .deleted f (callback queue) ?_ (by rw [effect.cbHead,if_pos queue])
      (fun g _ different => genidOther effect.fdes different)
    rw [queued lists]
    simp [FdeHead.active,FdeHead.typeOf,effect.found,effect.active,queue]
  · refine .same (other queue) (by rw [effect.cbHead,if_neg queue]) fun g mem => ?_
    exact genidOther effect.fdes (unqueued lists mem (by simp [FdeHead.typeOf,effect.found,queue]))

theorem sameQueue {κ} [Kq κ] {fh : FdeHead κ} {o} (same : applyOp fh o = fh) :
    QueueStep fh (applyOp fh o) (cbEvents fh o) := by
  refine .same ?_ (by rw [same]) (by rw [same]; exact fun _ _ => rfl)
  simp only [cbEvents,opEvents,same]
  cases fh.active o.target <;> simp

theorem opGenid {κ} [Kq κ] {fh : FdeHead κ} {inRw o} (lists : Lists fh) (ok : OpAllowed fh inRw o) :
    (applyOp fh o).fCbGenid = fh.fCbGenid := by
  have deleted (f) : (fdeDelete fh f).fCbGenid = fh.fCbGenid := by
    rcases fdeDeleteEffect lists.known f with ⟨same,_⟩ | ⟨e,e',effect⟩
    · rw [same]
    · exact effect.genid
  cases o with
  | create f fd t fl cb cbdata =>
    simp only [applyOp]
    cases made : fdeCreate fh f fd t fl cb cbdata with
    | none => rfl
    | some fh' => obtain ⟨e,rfl,_⟩ := fdeCreateEffect made; rfl
  | add f =>
    rcases fdeAddEffect fh f with same | ⟨e,e',effect,_⟩
    · simp only [applyOp,same]
    · exact effect.genid
  | addTimeout f tv =>
    rcases fdeAddTimeoutEffect fh f tv ok with ⟨same,_⟩ | ⟨e,e',effect,_⟩
    · simp only [applyOp,same]
    · exact effect.genid
  | delete f => exact deleted f
  | free f => simp only [applyOp,fdeFreeEq lists.known]; exact deleted f

theorem createQueue {κ} [Kq κ] {fh : FdeHead κ} {f fd t fl cb cbdata} (lists : Lists fh) (fresh : fh.fdes f = none) :
    QueueStep fh (applyOp fh (.create f fd t fl cb cbdata)) (cbEvents fh (.create f fd t fl cb cbdata)) := by
  have type : fh.typeOf f = none := by simp [FdeHead.typeOf,fresh]
  have events : cbEvents fh (.create f fd t fl cb cbdata) = [] := by simp [cbEvents,Op.target,type]
  simp only [applyOp]
  cases made : fdeCreate fh f fd t fl cb cbdata with
  | none => exact .same events rfl (fun _ _ => rfl)
  | some fh' =>
    obtain ⟨e,rfl,_⟩ := fdeCreateEffect made
    have stored : (fh.put f e).fdes = Function.update fh.fdes f (some e) := rfl
    exact .same events rfl fun g mem => genidOther stored (unqueued lists mem (by simp [type]))

theorem deleteQueue {κ} [Kq κ] {fh : FdeHead κ} {f e e'} (lists : Lists fh)
    (effect : Deactivates fh (fdeDelete fh f) f e e') :
    QueueStep fh (applyOp fh (.delete f)) (cbEvents fh (.delete f)) := by
  have on : fh.active f = true := by simp [FdeHead.active,effect.found,effect.active]
  have type : fh.typeOf f = some e.fType := by simp [FdeHead.typeOf,effect.found]
  refine deactivatesQueue lists effect ?_ ?_
  · intro queue
    simp [cbEvents,Op.target,opEvents,applyOp,type,queue,on,deleteOff lists.known]
  · intro other
    simp [cbEvents,Op.target,type,other]

/- fde_free leaves in the queue what fde_delete leaves there. -/
theorem freeQueue {κ} [Kq κ] {fh : FdeHead κ} {f} (lists : Lists fh) :
    QueueStep fh (applyOp fh (.free f)) (cbEvents fh (.free f)) := by
  have freed : (applyOp fh (.free f)).active f = false := by
    simp [applyOp,fdeFreeEq lists.known,FdeHead.active]
  have after : (applyOp fh (.free f)).fCbHead = (fdeDelete fh f).fCbHead := by
    simp only [applyOp,fdeFreeEq lists.known]
  have stamps (g) (other : g ≠ f) : (applyOp fh (.free f)).genidOf g = (fdeDelete fh f).genidOf g :=
    genidOther (freeFdes lists.known f) other
  rcases fdeDeleteEffect lists.known f with ⟨same,off⟩ | ⟨e,e',effect⟩
  · rw [same] at after stamps
    have events : cbEvents fh (.free f) = [] := by simp [cbEvents,Op.target,opEvents,freed,off]
    exact .same events after fun g mem => stamps g (unqueued lists mem (by simp [off]))
  · have on : fh.active f = true := by simp [FdeHead.active,effect.found,effect.active]
    have type : fh.typeOf f = some e.fType := by simp [FdeHead.typeOf,effect.found]
    have events : cbEvents fh (.free f) = if e.fType = .callback then [.deleted f] else [] := by
      simp [cbEvents,Op.target,opEvents,type,on,freed]
    by_cases queue : e.fType = .callback
    · refine .deleted f (by rw [events,if_pos queue]) ?_ (by rw [after,effect.cbHead,if_pos queue]) ?_
      · rw [queued lists,on,type,queue]; exact ⟨rfl,rfl⟩
      · intro g _ other
        rw [stamps g other]; exact genidOther effect.fdes other
    · refine .same (by rw [events,if_neg queue]) (by rw [after,effect.cbHead,if_neg queue]) ?_
      intro g mem
      have other : g ≠ f := unqueued lists mem (by simp [type,queue])
      rw [stamps g other]; exact genidOther effect.fdes other

theorem opQueue {κ} [Kq κ] {fh : FdeHead κ} {inRw o} (lists : Lists fh) (ok : OpAllowed fh inRw o) :
    QueueStep fh (applyOp fh o) (cbEvents fh o) := by
  cases o with
  | create f fd t fl cb cbdata => exact createQueue lists ok
  | add f =>
    rcases fdeAddEffect fh f with same | ⟨e,e',effect,_⟩
    · exact sameQueue same
    · exact activatesQueue lists effect
  | addTimeout f tv =>
    rcases fdeAddTimeoutEffect fh f tv ok with ⟨same,_⟩ | ⟨e,e',effect,_⟩
    · exact sameQueue same
    · exact activatesQueue lists effect
  | delete f =>
    rcases fdeDeleteEffect lists.known f with ⟨same,_⟩ | ⟨e,e',effect⟩
    · exact sameQueue same
    · exact deleteQueue lists effect
  | free f => exact freeQueue lists

structure Split {κ} (cur : UInt32) (fh : FdeHead κ) (old new : List FdeId) : Prop where
  queue : fh.fCbHead = old ++ new
  old : ∀ f ∈ old, fh.genidOf f = some cur
  new : ∀ f ∈ new, fh.genidOf f = some fh.fCbGenid
  turned : fh.fCbGenid ≠ cur

def remaining (old : List FdeId) (events : List Ev) : List FdeId :=
  old.filter (fun f => decide (Ev.deleted f ∉ events))

theorem remainingNone (old : List FdeId) : remaining old [] = old := by
  simp [remaining]

theorem remainingAppend (old : List FdeId) (a b) : remaining (remaining old a) b = remaining old (a ++ b) := by
  simp only [remaining,List.filter_filter]
  congr 1
  funext f
  simp [Bool.and_comm]

theorem remainingErase {old : List FdeId} {f} (once : old.Nodup) : remaining old [.deleted f] = old.erase f := by
  rw [once.erase_eq_filter]
  simp only [remaining,List.mem_singleton,Ev.deleted.injEq]
  congr 1
  funext g
  by_cases same : g = f <;> simp [same]

theorem opSplit {κ} [Kq κ] {cur} {fh : FdeHead κ} {old new inRw o} (lists : Lists fh)
    (split : Split cur fh old new) (ok : OpAllowed fh inRw o) :
    Split cur (applyOp fh o) (remaining old (cbEvents fh o)) ((cbEvents fh o).foldl requeue new) := by
  have genid := opGenid lists ok
  have left (f) (mem : f ∈ old) : f ∈ fh.fCbHead := by rw [split.queue]; exact List.mem_append_left _ mem
  have right (f) (mem : f ∈ new) : f ∈ fh.fCbHead := by rw [split.queue]; exact List.mem_append_right _ mem
  have once := cbHeadNodup lists
  rw [split.queue] at once
  obtain ⟨onceOld,onceNew,_⟩ := List.nodup_append.mp once
  cases opQueue lists ok with
  | same none queue stamps =>
    rw [none,remainingNone]
    refine ⟨by rw [queue]; exact split.queue,?_,?_,genid ▸ split.turned⟩
    · intro f mem; rw [stamps f (left f mem)]; exact split.old f mem
    · intro f mem; rw [stamps f (right f mem),genid]; exact split.new f mem
  | added f one fresh queue stamp stamps =>
    have kept : remaining old [.added f] = old := by simp [remaining]
    rw [one,kept]
    refine ⟨by rw [queue,split.queue]; simp [requeue],?_,?_,genid ▸ split.turned⟩
    · intro g mem; rw [stamps g (left g mem)]; exact split.old g mem
    · intro g mem
      rcases List.mem_append.mp mem with earlier | last
      · rw [stamps g (right g earlier),genid]; exact split.new g earlier
      · rw [List.mem_singleton.mp last,stamp,genid]
  | deleted f one present queue stamps =>
    rw [one,remainingErase onceOld]
    refine ⟨?_,?_,?_,genid ▸ split.turned⟩
    · rw [queue,split.queue]
      by_cases early : f ∈ old
      · have late : f ∉ new := (List.disjoint_of_nodup_append once) early
        simp [List.erase_append_left _ early,requeue,List.erase_of_not_mem late]
      · simp [List.erase_append_right _ early,requeue,List.erase_of_not_mem early]
    · intro g mem
      have other : g ≠ f := fun same => onceOld.not_mem_erase (same ▸ mem)
      rw [stamps g (left g (List.mem_of_mem_erase mem)) other]
      exact split.old g (List.mem_of_mem_erase mem)
    · intro g mem
      have other : g ≠ f := fun same => onceNew.not_mem_erase (same ▸ mem)
      rw [stamps g (right g (List.mem_of_mem_erase mem)) other,genid]
      exact split.new g (List.mem_of_mem_erase mem)

def OpsAllowed {κ} [Kq κ] (fh : FdeHead κ) : List Op → Prop
  | [] => True
  | o::rest => OpAllowed fh false o ∧ OpsAllowed (applyOp fh o) rest

/- The callbacks that are called keep to what fde.h asks of a client. -/
def CallbacksLegal {κ} [Kq κ] (callback : List FdeId → FdeHead κ → List Op) (curGenid : UInt32) :
    Nat → List FdeId → FdeHead κ → Prop
  | 0,_,_ => True
  | fuel+1,done,fh =>
    match fdeCbNext curGenid fh with
    | none => True
    | some (f,fh) => OpsAllowed fh (callback (done ++ [f]) fh) ∧
        CallbacksLegal callback curGenid fuel (done ++ [f]) ((callback (done ++ [f]) fh).foldl applyOp fh)

theorem opsSplit {κ} [Kq κ] {cur ops} {fh : FdeHead κ} {old new} (lists : Lists fh)
    (split : Split cur fh old new) (ok : OpsAllowed fh ops) :
    Lists (ops.foldl applyOp fh) ∧ (ops.foldl applyOp fh).fCbGenid = fh.fCbGenid ∧
    Split cur (ops.foldl applyOp fh) (remaining old (opsCbEvents fh ops)) ((opsCbEvents fh ops).foldl requeue new) := by
  induction ops generalizing fh old new with
  | nil => exact ⟨lists,rfl,by simpa only [opsCbEvents,remainingNone,List.foldl_nil] using split⟩
  | cons o rest ih =>
    obtain ⟨after,genid,last⟩ := ih (opLists lists ok.1) (opSplit lists split ok.1) ok.2
    refine ⟨after,genid.trans (opGenid lists ok.1),?_⟩
    simpa only [List.foldl_cons,opsCbEvents,remainingAppend,List.foldl_append] using last

structure Generation (entry : List FdeId) (trace : List (FdeId × List Ev)) : Prop where
  order : (trace.map Prod.fst).Sublist entry
  skipped : ∀ f ∈ entry, f ∉ trace.map Prod.fst ↔
    ∃ g events, (g,events) ∈ trace ∧ [g,f].Sublist entry ∧ Ev.deleted f ∈ events

theorem generationNil : Generation [] [] := ⟨List.Sublist.refl _,by simp⟩

theorem generationCons {f entry events trace} (once : (f::entry).Nodup)
    (rest : Generation (remaining entry events) trace) : Generation (f::entry) ((f,events)::trace) := by
  obtain ⟨fresh,once⟩ := List.nodup_cons.mp once
  have inside : (remaining entry events).Sublist entry := List.filter_sublist
  have called (g) (mem : g ∈ trace.map Prod.fst) : g ∈ remaining entry events := rest.order.subset mem
  refine ⟨(rest.order.trans inside).cons_cons f,?_⟩
  intro h mem
  rcases List.mem_cons.mp mem with rfl | mem
  · -- nothing runs before the head of the queue
    refine ⟨fun absent => absurd (by simp) absent,?_⟩
    rintro ⟨g,evs,_,before,_⟩
    exfalso
    cases before with
    | cons _ sub => exact fresh (sub.subset (by simp))
    | cons_cons _ sub => exact fresh (sub.subset (by simp))
  · have other : h ≠ f := fun same => fresh (same ▸ mem)
    by_cases gone : Ev.deleted h ∈ events
    · have absent : h ∉ trace.map Prod.fst := by
        intro mem
        simpa [remaining,gone] using called h mem
      refine ⟨fun _ => ⟨f,events,List.mem_cons_self,?_,gone⟩,fun _ => by simpa [other] using absent⟩
      exact (List.singleton_sublist.mpr mem).cons_cons f
    · have kept : h ∈ remaining entry events := by simpa [remaining,gone] using mem
      have step : h ∉ ((f,events)::trace).map Prod.fst ↔ h ∉ trace.map Prod.fst := by simp [other]
      rw [step,rest.skipped h kept]
      constructor
      · rintro ⟨g,evs,called,before,deleted⟩
        exact ⟨g,evs,List.mem_cons_of_mem _ called,(before.trans inside).cons f,deleted⟩
      · rintro ⟨g,evs,called',before,deleted⟩
        rcases List.mem_cons.mp called' with same | later
        · cases same; exact absurd deleted gone
        · have keptG : g ∈ remaining entry events := called g (List.mem_map.mpr ⟨_,later,rfl⟩)
          refine ⟨g,evs,later,?_,deleted⟩
          have inEntry : [g,h].Sublist entry := by
            cases before with
            | cons _ sub => exact sub
            | cons_cons _ sub => exact absurd (inside.subset keptG) fresh
          have filtered := inEntry.filter (fun f => decide (Ev.deleted f ∉ events))
          have both : [g,h].filter (fun f => decide (Ev.deleted f ∉ events)) = [g,h] := by
            refine List.filter_eq_self.mpr ?_
            intro x mem
            rcases List.mem_cons.mp mem with rfl | mem
            · exact (List.mem_filter.mp keptG).2
            · rw [List.mem_singleton.mp mem]; exact (List.mem_filter.mp kept).2
          rwa [both] at filtered

theorem splitStop {κ} [Kq κ] {cur} {fh : FdeHead κ} {new} (split : Split cur fh [] new) : fdeCbNext cur fh = none := by
  unfold fdeCbNext
  rw [split.queue]
  cases new with
  | nil => rfl
  | cons f rest =>
    have stamp := split.new f List.mem_cons_self
    simp only [List.nil_append]
    cases found : fh.fdes f with
    | none => rfl
    | some e =>
      have same : e.fCbGenid = fh.fCbGenid := by simpa [FdeHead.genidOf,found] using stamp
      simp [same,split.turned]

theorem splitNext {κ} [Kq κ] {cur} {fh : FdeHead κ} {f old new} (lists : Lists fh)
    (split : Split cur fh (f::old) new) :
    fdeCbNext cur fh = some (f,fdeDelete fh f) ∧ Split cur (fdeDelete fh f) old new ∧
      (fdeDelete fh f).fCbGenid = fh.fCbGenid := by
  have once := cbHeadNodup lists
  have mem : f ∈ fh.fCbHead := by rw [split.queue]; simp
  have on := (queued lists f).mp mem
  rw [split.queue,List.cons_append,List.nodup_cons] at once
  obtain ⟨e,e',effect⟩ : ∃ e e', Deactivates fh (fdeDelete fh f) f e e' := by
    rcases fdeDeleteEffect lists.known f with ⟨_,off⟩ | effect
    · simp [off] at on
    · exact effect
  have type : e.fType = .callback := by simpa [FdeHead.typeOf,effect.found] using on.2
  have stamp : e.fCbGenid = cur := by
    simpa [FdeHead.genidOf,effect.found] using split.old f List.mem_cons_self
  have other (g) (mem : g ∈ old ++ new) : g ≠ f := fun same => once.1 (same ▸ mem)
  refine ⟨?_,⟨?_,?_,?_,effect.genid ▸ split.turned⟩,effect.genid⟩
  · simp [fdeCbNext,split.queue,effect.found,stamp]
  · rw [effect.cbHead,if_pos type,split.queue]; simp
  · intro g mem
    rw [genidOther effect.fdes (other g (List.mem_append_left _ mem))]
    exact split.old g (List.mem_cons_of_mem _ mem)
  · intro g mem
    rw [genidOther effect.fdes (other g (List.mem_append_right _ mem)),effect.genid]
    exact split.new g mem

/- Induction on the fuel; each turn takes the head of the old generation, and what
its callback does can only shorten the rest of it. -/
theorem loopGeneration {κ} [Kq κ] {callback : List FdeId → FdeHead κ → List Op} {cur fuel done}
    {fh : FdeHead κ} {old new} (legal : CallbacksLegal callback cur fuel done fh)
    (lists : Lists fh) (split : Split cur fh old new) (enough : old.length < fuel) :
    ∃ final trace, fdeCbLoop callback cur fuel done fh = some (final,trace) ∧ Generation old trace ∧
      final.fCbHead = (trace.flatMap Prod.snd).foldl requeue new ∧ final.fCbGenid = fh.fCbGenid ∧
      ∀ f ∈ final.fCbHead, final.genidOf f = some final.fCbGenid := by
  induction fuel generalizing done fh old new with
  | zero => omega
  | succ fuel ih =>
    unfold fdeCbLoop
    cases old with
    | nil =>
      refine ⟨fh,[],by simp only [splitStop split],generationNil,by simpa using split.queue,rfl,?_⟩
      rw [split.queue]
      exact split.new
    | cons f old =>
      obtain ⟨next,rest,genid⟩ := splitNext lists split
      simp only [CallbacksLegal,next] at legal
      have once : (f::old).Nodup := by
        have all := cbHeadNodup lists
        rw [split.queue] at all
        exact (List.nodup_append.mp all).1
      obtain ⟨after,genid',split'⟩ := opsSplit (deleteLists lists f) rest legal.1
      have shorter (events) : (remaining old events).length < fuel := by
        have le : (remaining old events).length ≤ old.length := List.length_filter_le _ _
        simp only [List.length_cons] at enough
        omega
      obtain ⟨final,trace,ran,generation,queue,turned,stamps⟩ := ih legal.2 after split' (shorter _)
      refine ⟨final,_::trace,?_,generationCons once generation,?_,turned.trans (genid'.trans genid),stamps⟩
      · simp only [next,bind,Option.bind,ran]
      · rw [queue,List.flatMap_cons,List.foldl_append]

/- Outside fde_cb_runloop every queued callback carries the current generation. -/
structure Stamped {κ} (s : State κ) : Prop where
  sound : Sound s
  inside : ∀ cur, s.ctl = .cbLoop cur → ∃ old new, Split cur s.head old new
  outside : (∀ cur, s.ctl ≠ .cbLoop cur) → ∀ f ∈ s.head.fCbHead, s.head.genidOf f = some s.head.fCbGenid

theorem turnGenid (x : UInt32) : x + 1 ≠ x := by
  intro h
  have := congrArg UInt32.toNat h
  simp only [UInt32.toNat_add,UInt32.toNat_one] at this
  have := x.toNat_lt
  omega

theorem afterCbStamped {κ} [Kq κ] {fh : FdeHead κ} {cur old new} (lists : Lists fh)
    (split : Split cur fh old new) (log) : Stamped (afterCb cur fh log) := by
  refine ⟨afterCbSound lists cur log,?_,?_⟩
  all_goals unfold afterCb
  · cases old with
    | nil => rw [splitStop split]; simp
    | cons f old =>
      obtain ⟨next,rest,_⟩ := splitNext lists split
      rw [next]
      intro cur' same
      cases same
      exact ⟨old,new,rest⟩
  · cases old with
    | nil => rw [splitStop split]; intro _; rw [split.queue]; exact split.new
    | cons f old =>
      rw [(splitNext lists split).1]
      exact fun notCb => absurd rfl (notCb cur)

theorem stampedSplit {κ} {fh : FdeHead κ} (stamps : ∀ f ∈ fh.fCbHead, fh.genidOf f = some fh.fCbGenid) :
    Split (fh.fCbGenid + 1) fh [] fh.fCbHead :=
  ⟨rfl,by simp,stamps,(turnGenid _).symm⟩

theorem afterTStamped {κ} [Kq κ] {fh : FdeHead κ} (lists : Lists fh)
    (stamps : ∀ f ∈ fh.fCbHead, fh.genidOf f = some fh.fCbGenid) (now log) : Stamped (afterT now fh log) := by
  refine ⟨afterTSound lists now log,?_,?_⟩
  · unfold afterT
    split <;> simp
  · intro _
    unfold afterT
    split
    · exact stamps
    · rename_i head fh' next
      obtain ⟨rest,_,first,_,_,rfl⟩ := tNextSource next
      rcases fdeDeleteEffect lists.known head with ⟨same,_⟩ | ⟨e,e',effect⟩
      · rw [same]; exact stamps
      · have timer := ((timed lists head).mp (first ▸ List.mem_cons_self)).2
        have type : e.fType = .timer := by simpa [FdeHead.typeOf,effect.found] using timer
        intro g mem
        rw [effect.cbHead,if_neg (by simp [type])] at mem
        have other : g ≠ head := unqueued lists mem (by simp [timer])
        rw [genidOther effect.fdes other,effect.genid]
        exact stamps g mem

theorem rwEventQueue {κ} (fh : FdeHead κ) (k) : (fdeRwEvent fh k).1.fCbHead = fh.fCbHead ∧
    (fdeRwEvent fh k).1.fCbGenid = fh.fCbGenid ∧ ∀ g, (fdeRwEvent fh k).1.genidOf g = fh.genidOf g := by
  rcases rwEventSource fh k with same | ⟨f,e,_,found,_,_,after⟩
  · rw [same]; exact ⟨rfl,rfl,fun _ => rfl⟩
  · rw [after]
    refine ⟨rfl,rfl,fun g => ?_⟩
    by_cases same : g = f
    · subst g; simp [FdeHead.genidOf,FdeHead.put,found]
    · simp [FdeHead.genidOf,FdeHead.put,same]

theorem rwNextQueue {κ} (events) (fh : FdeHead κ) : (fdeRwNext events fh).1.fCbHead = fh.fCbHead ∧
    (fdeRwNext events fh).1.fCbGenid = fh.fCbGenid ∧ ∀ g, (fdeRwNext events fh).1.genidOf g = fh.genidOf g := by
  refine rwNextKept (p := fun fh' => fh'.fCbHead = fh.fCbHead ∧ fh'.fCbGenid = fh.fCbGenid ∧
    ∀ g, fh'.genidOf g = fh.genidOf g) ?_ events ⟨rfl,rfl,fun _ => rfl⟩
  rintro fh' k ⟨queue,genid,stamps⟩
  obtain ⟨queue',genid',stamps'⟩ := rwEventQueue fh' k
  exact ⟨queue'.trans queue,genid'.trans genid,fun g => (stamps' g).trans (stamps g)⟩

theorem afterRwStamped {κ} {fh : FdeHead κ} {events} (lists : Lists fh) (live : NamesLiveIo fh events)
    (stamps : ∀ f ∈ fh.fCbHead, fh.genidOf f = some fh.fCbGenid) (log) : Stamped (afterRw events fh log) := by
  refine ⟨afterRwSound lists live log,?_,?_⟩
  · unfold afterRw
    split <;> simp
  · obtain ⟨queue,genid,same⟩ := rwNextQueue events fh
    intro _
    unfold afterRw
    cases next : fdeRwNext events fh with
    | mk fh' who =>
      rw [next] at queue genid same
      have kept : ∀ f ∈ fh'.fCbHead, fh'.genidOf f = some fh'.fCbGenid := by
        intro f mem
        rw [same,genid]
        exact stamps f (queue ▸ mem)
      cases who with
      | none => exact kept
      | some called => exact kept

theorem stepStamped {κ} [Kq κ] {s : State κ} {a} (stamped : Stamped s) (ok : Allowed s a) : Stamped (step s a) := by
  have lists := stamped.sound.lists
  cases a with
  | op o =>
    refine ⟨stepSound stamped.sound ok,?_,?_⟩
    · intro cur same
      obtain ⟨old,new,split⟩ := stamped.inside cur same
      exact ⟨_,_,opSplit lists split ok⟩
    · intro notCb
      have split := opSplit lists (stampedSplit (stamped.outside notCb)) ok
      have queue : (applyOp s.head o).fCbHead = (cbEvents s.head o).foldl requeue s.head.fCbHead := by
        simpa [remaining] using split.queue
      intro f mem
      exact split.new f (queue ▸ mem)
  | cbRunloop =>
    have outside : ∀ cur, s.ctl ≠ .cbLoop cur := by
      have at_ : s.ctl = .outside := ok
      simp [at_]
    have lists' : Lists { s.head with fCbGenid := s.head.fCbGenid + 1 } :=
      ⟨lists.known,lists.head,lists.cbHead,lists.tHead⟩
    have split : Split s.head.fCbGenid { s.head with fCbGenid := s.head.fCbGenid + 1 } s.head.fCbHead [] :=
      ⟨by simp,stamped.outside outside,by simp,turnGenid _⟩
    exact afterCbStamped lists' split s.log
  | tRunloop now =>
    have at_ : s.ctl = .outside := ok
    exact afterTStamped lists (stamped.outside (by simp [at_])) now s.log
  | rwRunloop kqfd events =>
    have at_ : s.ctl = .outside := ok.1
    have lists' : Lists { s.head with kqfd := kqfd, pending := { s.head.pending with n := 0 } } :=
      ⟨lists.known,lists.head,lists.cbHead,lists.tHead⟩
    exact afterRwStamped lists' ok.2.2.1 (stamped.outside (by simp [at_])) s.log
  | ret =>
    simp only [step]
    split
    · exact stamped
    · rename_i cur at_
      obtain ⟨old,new,split⟩ := stamped.inside cur at_
      exact afterCbStamped lists split s.log
    · rename_i now at_
      exact afterTStamped lists (stamped.outside (by simp [at_])) now s.log
    · rename_i rest at_
      exact afterRwStamped lists (stamped.sound.rest rest at_) (stamped.outside (by simp [at_])) s.log

theorem reachStamped {κ} [Kq κ] {s : State κ} (reached : Reach (fdeMachine κ) s) : Stamped s := by
  refine reachInvariant (m := fdeMachine κ) ?_ (fun _ _ stamped ok => stepStamped stamped ok) reached
  rintro _ ⟨kqfd,rfl⟩
  exact ⟨initialSound kqfd,by simp [initial],by simp [initial,fdeCtxNew]⟩

theorem opsReach {κ} [Kq κ] {ops ctl log} {fh : FdeHead κ} (reached : Reach (fdeMachine κ) ⟨fh,ctl,log⟩)
    (plain : ctl.inRw = false) (ok : OpsAllowed fh ops) :
    ∃ log', Reach (fdeMachine κ) ⟨ops.foldl applyOp fh,ctl,log'⟩ := by
  induction ops generalizing fh log with
  | nil => exact ⟨log,reached⟩
  | cons o rest ih =>
    have possible : (fdeMachine κ).allowed ⟨fh,ctl,log⟩ (.op o) := by
      simp only [fdeMachine,Allowed,plain]
      exact ok.1
    exact ih (.next reached possible) ok.2

/- The function and the machine take the same steps: what a call returns with is a
state the machine reaches between two calls. -/
theorem cbLoopReach {κ} [Kq κ] {callback : List FdeId → FdeHead κ → List Op} {cur fuel done log}
    {fh final : FdeHead κ} {trace} (reached : Reach (fdeMachine κ) (afterCb cur fh log))
    (legal : CallbacksLegal callback cur fuel done fh)
    (ran : fdeCbLoop callback cur fuel done fh = some (final,trace)) :
    ∃ log', Reach (fdeMachine κ) ⟨final,.outside,log'⟩ := by
  induction fuel generalizing done fh log trace with
  | zero => simp [fdeCbLoop] at ran
  | succ fuel ih =>
    unfold afterCb at reached
    unfold fdeCbLoop at ran
    simp only [CallbacksLegal] at legal
    cases next : fdeCbNext cur fh with
    | none =>
      simp only [next,Option.some.injEq,Prod.mk.injEq] at ran reached
      exact ⟨log,ran.1 ▸ reached⟩
    | some pair =>
      obtain ⟨f,fh'⟩ := pair
      simp only [next,bind,Option.bind_eq_some_iff] at ran legal reached
      obtain ⟨later,went,last⟩ := ran
      cases Option.some.inj last
      obtain ⟨log',after⟩ := opsReach reached rfl legal.1
      have possible : (fdeMachine κ).allowed ⟨(callback (done ++ [f]) fh').foldl applyOp fh',.cbLoop cur,log'⟩ .ret := by
        simp [fdeMachine,Allowed]
      have back : Reach (fdeMachine κ) (afterCb cur ((callback (done ++ [f]) fh').foldl applyOp fh') log') :=
        .next after possible
      exact ih back legal.2 went

theorem cbRunloopReach {κ} [Kq κ] {callback : List FdeId → FdeHead κ → List Op} {fuel} {s : State κ}
    {final trace} (reached : Reach (fdeMachine κ) s) (outside : s.ctl = .outside)
    (legal : CallbacksLegal callback s.head.fCbGenid fuel [] { s.head with fCbGenid := s.head.fCbGenid + 1 })
    (ran : fdeCbRunloop callback fuel s.head = some (final,trace)) :
    ∃ log, Reach (fdeMachine κ) ⟨final,.outside,log⟩ := by
  have possible : (fdeMachine κ).allowed s .cbRunloop := outside
  have entered : Reach (fdeMachine κ)
      (afterCb s.head.fCbGenid { s.head with fCbGenid := s.head.fCbGenid + 1 } s.log) := .next reached possible
  exact cbLoopReach entered legal ran

theorem cbRunloopOneGeneration {κ} [Kq κ] {s : State κ} (reached : Reach (fdeMachine κ) s)
    (outside : s.ctl = .outside) (callback : List FdeId → FdeHead κ → List Op)
    (fuel : Nat) (enough : s.head.fCbHead.length < fuel)
    (legal : CallbacksLegal callback s.head.fCbGenid fuel [] { s.head with fCbGenid := s.head.fCbGenid + 1 }) :
    ∃ final trace, fdeCbRunloop callback fuel s.head = some (final,trace) ∧
      (trace.map Prod.fst).Sublist s.head.fCbHead ∧ s.head.fCbHead.Nodup ∧
      (∀ f ∈ s.head.fCbHead, f ∉ trace.map Prod.fst ↔
        ∃ g events, (g,events) ∈ trace ∧ [g,f].Sublist s.head.fCbHead ∧ Ev.deleted f ∈ events) ∧
      final.fCbHead = (trace.flatMap Prod.snd).foldl requeue [] ∧
      final.fCbGenid = s.head.fCbGenid + 1 ∧ ∀ f ∈ final.fCbHead, final.genidOf f = some final.fCbGenid := by
  have stamped := reachStamped reached
  have lists := stamped.sound.lists
  have lists' : Lists { s.head with fCbGenid := s.head.fCbGenid + 1 } :=
    ⟨lists.known,lists.head,lists.cbHead,lists.tHead⟩
  have split : Split s.head.fCbGenid { s.head with fCbGenid := s.head.fCbGenid + 1 } s.head.fCbHead [] :=
    ⟨by simp,stamped.outside (by simp [outside]),by simp,turnGenid _⟩
  obtain ⟨final,trace,ran,generation,queue,genid,stamps⟩ :=
    loopGeneration legal lists' split enough
  exact ⟨final,trace,ran,generation.order,cbHeadNodup lists,generation.skipped,queue,genid,stamps⟩

instance decidableOpsAllowed {κ} [Kq κ] : (fh : FdeHead κ) → (ops : List Op) → Decidable (OpsAllowed fh ops)
  | _,[] => isTrue trivial
  | fh,o::rest =>
    have := decidableOpsAllowed (applyOp fh o) rest
    inferInstanceAs (Decidable (OpAllowed fh false o ∧ OpsAllowed (applyOp fh o) rest))

/- Callback 1 takes 2 out of the queue, queues 4 and puts 2 back; 3 frees itself. -/
def generationCallback : List FdeId → FdeHead Unit → List Op
  | [1],_ => [.delete 2,.add 4,.add 2]
  | [1,3],_ => [.free 3]
  | _,_ => []

def generationSetup : List (Act Unit) :=
  [.op (.create 1 (-1) .callback 0 (some 0) 0),.op (.create 2 (-1) .callback 0 (some 0) 0),
    .op (.create 3 (-1) .callback 0 (some 0) 0),.op (.create 4 (-1) .callback 0 (some 0) 0),
    .op (.add 1),.op (.add 2),.op (.add 3)]

theorem cbRunloopOneGenerationRun :
    let s := run (fdeMachine Unit) (initial ()) generationSetup
    ∃ final trace, fdeCbRunloop generationCallback 4 s.head = some (final,trace) ∧
      (trace.map Prod.fst).Sublist [1,2,3] ∧ (2 ∉ trace.map Prod.fst ↔
        ∃ g events, (g,events) ∈ trace ∧ [g,2].Sublist [1,2,3] ∧ Ev.deleted 2 ∈ events) ∧
      final.fCbHead = (trace.flatMap Prod.snd).foldl requeue [] := by
  have reached : Reach (fdeMachine Unit) (run (fdeMachine Unit) (initial ()) generationSetup) :=
    reachRun (.start ⟨(),rfl⟩) (by decide)
  obtain ⟨final,trace,ran,order,_,skipped,queue,_⟩ := cbRunloopOneGeneration reached (by decide)
    generationCallback 4 (by decide) ⟨by decide,by decide,trivial⟩
  exact ⟨final,trace,ran,order,skipped 2 (by decide),queue⟩

end Libiapp.Event

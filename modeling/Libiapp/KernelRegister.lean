import Libiapp.Kernel

/-! User-space and kernel registrations. The mask of fde_rw_add and fde_rw_delete
keeps EV_ADD and EV_DELETE of earlier operations, so every change but an fde's
first one toggles its registration. Between two batches that is what the two
operations mean. Inside a batch it is wrong for a one-shot fde whose event has
been returned and not yet handled: the kernel has already dropped it. -/
namespace Libiapp.Event
open Kqueue Runs

def Fde.key (e : Fde) : Key := e.kev.key

def Fde.reg (f : FdeId) (e : Fde) : Reg := ⟨!e.persist,some f⟩

/- The event of a one-shot fde is in the batch and its turn is still to come. -/
def owed (rest : List Kevent) (f : FdeId) (e : Fde) : Bool := !e.persist && rest.any (·.udata == some f)

structure FdeFlags (f : FdeId) (e : Fde) : Prop where
  io : e.fType.io = true
  udata : e.kev.udata = some f
  oneshot : has e.kev.flags evOneshot = !e.persist
  added : e.isActive = true → has e.kev.flags evAdd = true

/- `rest` is what fde_rw_runloop has still to handle of the current batch. -/
structure Registered (fh : FdeHead Kernel) (rest : List Kevent) : Prop where
  opened : ∀ d, fh.kqfd.closed d = false
  bound : fh.pending.n < fdeHeadMaxevents
  adds : ∀ k ∈ fh.pending.changes, has k.flags evAdd = true
  flags : ∀ f e, fh.fdes f = some e → FdeFlags f e
  distinct : ∀ f g e e', fh.fdes f = some e → fh.fdes g = some e' → e.key = e'.key → f = g
  known : ∀ key r, fh.settled.reg key = some r → ∃ f e, fh.fdes f = some e ∧ e.key = key
  state : ∀ f e, fh.fdes f = some e →
    fh.settled.reg e.key = if e.isActive != owed rest f e then some (e.reg f) else none
  deleted : ∀ f e, fh.fdes f = some e → owed rest f e = true → e.isActive = false → has e.kev.flags evDelete = true
  waiting : ∀ k ∈ rest, has k.flags evError = false ∧ ∃ f e, k.udata = some f ∧ fh.fdes f = some e
  once : rest.Pairwise (fun k later => ∀ f e, k.udata = some f → fh.fdes f = some e → e.persist = false →
    later.udata ≠ some f)

theorem evFlagsHas (e : Fde) (flags bit) :
    has (fdeEvFlags e flags) bit = (has flags bit || if e.persist then has evClear bit else has evOneshot bit) := by
  unfold fdeEvFlags
  split <;> rw [hasOr]

theorem addedHas (e : Fde) : has (addedKev e).flags evAdd = true ∧
    has (addedKev e).flags evDelete = has e.kev.flags evDelete ∧
    has (addedKev e).flags evOneshot = (has e.kev.flags evOneshot || !e.persist) := by
  simp only [addedKev,hasOr,evFlagsHas]
  rw [hasMask (by decide),hasMask (by decide),hasMask (by decide)]
  cases e.persist <;> simp [has,evAdd,evEnable,evDelete,evOneshot,evClear]

theorem deletedHas (e : Fde) : has (deletedKev e).flags evAdd = has e.kev.flags evAdd ∧
    has (deletedKev e).flags evDelete = true ∧
    has (deletedKev e).flags evOneshot = has e.kev.flags evOneshot := by
  simp only [deletedKev,hasOr]
  rw [hasMask (by decide),hasMask (by decide),hasMask (by decide)]
  simp [has,evAdd,evDelete,evOneshot]

theorem acceptOpen {kq : Kernel} {k} (opened : ∀ d, kq.closed d = false) (add : has k.flags evAdd = true) :
    accept kq k = .ok (kq.set k.key (if (kq.reg k.key).isSome && has k.flags evDelete then none
      else some ⟨has k.flags evOneshot,k.udata⟩)) := by
  unfold accept
  rw [if_neg (by simp [opened])]
  cases kq.reg k.key with
  | none => simp [add]
  | some r => cases has k.flags evDelete <;> simp

/- No change is rejected, so a flush loses nothing. -/
theorem settledClean {kq : Kernel} {changes} (opened : ∀ d, kq.closed d = false)
    (adds : ∀ k ∈ changes, has k.flags evAdd = true) : Batch.rejected accept kq changes = [] ∧
      ∀ d, (Batch.each accept kq changes).closed d = false := by
  have accepts : ∀ (kq : Kernel) (k : Kevent), (∀ d, kq.closed d = false) → has k.flags evAdd = true →
      ∃ next, accept kq k = .ok next ∧ ∀ d, next.closed d = false :=
    fun _ _ opened add => ⟨_,acceptOpen opened add,opened⟩
  exact Batch.rejectedNever accept accepts opened adds

theorem pushClean {fh : FdeHead Kernel} {k} (opened : ∀ d, fh.kqfd.closed d = false)
    (adds : ∀ k ∈ fh.pending.changes, has k.flags evAdd = true) (add : has k.flags evAdd = true) :
    (fdeKqPush fh k).settled = fh.settled.set k.key (if (fh.settled.reg k.key).isSome && has k.flags evDelete then none
      else some ⟨has k.flags evOneshot,k.udata⟩) := by
  obtain ⟨clean,later⟩ := settledClean opened adds
  rw [pushSettled,Batch.untilErrorClean accept clean]
  change Batch.one accept (if _ then fh.settled else fh.settled) k = _
  have opened' : ∀ d, fh.settled.closed d = false := later
  rw [ite_self,Batch.one,acceptOpen opened' add]

theorem pushAdds {fh : FdeHead Kernel} {k} (adds : ∀ k ∈ fh.pending.changes, has k.flags evAdd = true)
    (add : has k.flags evAdd = true) : ∀ k' ∈ (fdeKqPush fh k).pending.changes, has k'.flags evAdd = true := by
  intro k' mem
  by_cases room : fh.pending.n < fdeHeadMaxevents - 1
  · rw [(pushRoom k room).1] at mem
    rcases List.mem_append.mp mem with old | new
    · exact adds k' old
    · rw [List.mem_singleton.mp new]; exact add
  · rw [(pushFull k (Nat.not_lt.mp room)).1] at mem
    rw [List.mem_singleton.mp mem]; exact add

theorem pushOpened {fh : FdeHead Kernel} {k} (opened : ∀ d, fh.kqfd.closed d = false)
    (adds : ∀ k ∈ fh.pending.changes, has k.flags evAdd = true) : ∀ d, (fdeKqPush fh k).kqfd.closed d = false := by
  by_cases room : fh.pending.n < fdeHeadMaxevents - 1
  · rw [(pushRoom k room).2.2]; exact opened
  · obtain ⟨clean,later⟩ := settledClean opened adds
    rw [(pushFull k (Nat.not_lt.mp room)).2.2]
    change ∀ d, (Batch.untilError accept fh.kqfd fh.pending.changes).closed d = false
    rw [Batch.untilErrorClean accept clean]
    exact later

theorem updatedDistinct {κ} {fh fh' : FdeHead κ} {f e'}
    (distinct : ∀ f g e e', fh.fdes f = some e → fh.fdes g = some e' → e.key = e'.key → f = g)
    (fdes : fh'.fdes = Function.update fh.fdes f (some e'))
    (apart : ∀ g x, g ≠ f → fh.fdes g = some x → x.key ≠ e'.key) :
    ∀ f g e e', fh'.fdes f = some e → fh'.fdes g = some e' → e.key = e'.key → f = g := by
  intro g i x y hg hi same
  rcases lookupUpdate fdes hg with ⟨rfl,rfl⟩ | ⟨otherG,oldG⟩
  · rcases lookupUpdate fdes hi with ⟨rfl,rfl⟩ | ⟨otherI,oldI⟩
    · rfl
    · exact absurd same.symm (apart i y otherI oldI)
  · rcases lookupUpdate fdes hi with ⟨rfl,rfl⟩ | ⟨otherI,oldI⟩
    · exact absurd same (apart g x otherG oldG)
    · exact distinct g i x y oldG oldI same

theorem unowed {rest f} {e : Fde} (unnamed : ∀ k ∈ rest, k.udata ≠ some f) : owed rest f e = false := by
  simp only [owed,Bool.and_eq_false_iff,List.any_eq_false,beq_iff_eq]
  exact Or.inr unnamed

/- What an fde_add or fde_delete that takes effect does to the fde and the kernel. -/
structure Toggles (fh fh' : FdeHead Kernel) (rest : List Kevent) (f : FdeId) (e e' : Fde) : Prop where
  found : fh.fdes f = some e
  fdes : fh'.fdes = Function.update fh.fdes f (some e')
  kqfd : fh'.kqfd = (fdeKqPush fh e'.kev).kqfd
  pending : fh'.pending = (fdeKqPush fh e'.kev).pending
  flipped : e'.isActive = !e.isActive
  persist : e'.persist = e.persist
  key : e'.key = e.key
  flags : FdeFlags f e'
  add : has e'.kev.flags evAdd = true
  removes : e.isActive ≠ owed rest f e → has e'.kev.flags evDelete = true
  deleted : e'.isActive = false → has e'.kev.flags evDelete = true

theorem toggledSettled {fh fh' : FdeHead Kernel} {rest f e e'} (reg : Registered fh rest)
    (toggle : Toggles fh fh' rest f e e') : fh'.settled =
      fh.settled.set e.key (if e.isActive != owed rest f e then none else some (e'.reg f)) := by
  have same : fh'.settled = (fdeKqPush fh e'.kev).settled := by
    simp only [FdeHead.settled,toggle.kqfd,toggle.pending]
  have before := reg.state f e toggle.found
  have key : e'.kev.key = e.key := toggle.key
  rw [same,pushClean reg.opened reg.adds toggle.add,key,before,toggle.flags.oneshot,toggle.flags.udata]
  by_cases listed : e.isActive = owed rest f e
  · simp [listed,Fde.reg]
  · simp [listed,toggle.removes listed]

theorem owedPersist {rest f} {e e' : Fde} (persist : e'.persist = e.persist) : owed rest f e' = owed rest f e := by
  simp only [owed,persist]

theorem toggledRegistered {fh fh' : FdeHead Kernel} {rest f e e'} (reg : Registered fh rest)
    (toggle : Toggles fh fh' rest f e e') : Registered fh' rest := by
  have found := toggle.found
  have settled := toggledSettled reg toggle
  have lookup {g x} (h : fh'.fdes g = some x) := lookupUpdate toggle.fdes h
  have otherKey {g x} (h : fh.fdes g = some x) (other : g ≠ f) : x.key ≠ e.key :=
    fun same => other (reg.distinct g f x e h found same)
  have stored : fh'.fdes f = some e' := by rw [toggle.fdes,Function.update_self]
  constructor
  case opened => rw [toggle.kqfd]; exact pushOpened reg.opened reg.adds
  case bound => rw [toggle.pending]; exact pushBound _ reg.bound
  case adds => rw [toggle.pending]; exact pushAdds reg.adds toggle.add
  case flags =>
    intro g x h
    rcases lookup h with ⟨rfl,rfl⟩ | ⟨_,old⟩
    · exact toggle.flags
    · exact reg.flags g x old
  case distinct =>
    refine updatedDistinct reg.distinct toggle.fdes fun g x other old => ?_
    rw [toggle.key]
    exact otherKey old other
  case known =>
    intro key r listed
    by_cases same : key = e.key
    · exact ⟨f,e',stored,by rw [toggle.key,same]⟩
    · rw [settled,setOther _ _ same] at listed
      obtain ⟨g,x,old,rfl⟩ := reg.known key r listed
      have other : g ≠ f := by
        rintro rfl
        exact same (by rw [Option.some.inj (old.symm.trans found)])
      exact ⟨g,x,by rw [toggle.fdes,Function.update_of_ne other]; exact old,rfl⟩
  case state =>
    intro g x h
    rcases lookup h with ⟨rfl,rfl⟩ | ⟨other,old⟩
    · rw [settled,toggle.key,toggle.flipped,owedPersist toggle.persist]
      cases e.isActive <;> cases owed rest g e <;> simp
    · rw [settled,setOther _ _ (otherKey old other)]
      exact reg.state g x old
  case deleted =>
    intro g x h wait off
    rcases lookup h with ⟨rfl,rfl⟩ | ⟨_,old⟩
    · exact toggle.deleted off
    · exact reg.deleted g x old wait off
  case waiting =>
    intro k mem
    obtain ⟨clean,g,x,named,old⟩ := reg.waiting k mem
    by_cases same : g = f
    · exact ⟨clean,f,e',by rw [named,same],stored⟩
    · exact ⟨clean,g,x,named,by rw [toggle.fdes,Function.update_of_ne same]; exact old⟩
  case once =>
    refine reg.once.imp ?_
    intro k later apart g x named h oneshot
    rcases lookup h with ⟨rfl,rfl⟩ | ⟨_,old⟩
    · exact apart g e named found (by rw [← toggle.persist]; exact oneshot)
    · exact apart g x named old oneshot

theorem fdeAddIo {κ} [Kq κ] {fh : FdeHead κ} {f e} (found : fh.fdes f = some e) (io : e.fType.io = true) :
    fdeAdd fh f = fdeKevAdd fh f e := by
  unfold fdeAdd
  rw [found]
  cases type : e.fType <;> simp_all [FdeType.io,fdeRwAdd,fdeUeAdd]

theorem fdeDeleteIo {κ} [Kq κ] {fh : FdeHead κ} {f e} (found : fh.fdes f = some e) (io : e.fType.io = true) :
    fdeDelete fh f = fdeKevDelete fh f e := by
  unfold fdeDelete
  rw [found]
  cases type : e.fType <;> simp_all [FdeType.io,fdeRwDelete,fdeUeDelete]

theorem addRegistered {fh : FdeHead Kernel} {rest} (reg : Registered fh rest) (f) : Registered (fdeAdd fh f) rest := by
  cases found : fh.fdes f with
  | none => rw [fdeAdd,found]; exact reg
  | some e =>
    have flags := reg.flags f e found
    obtain ⟨add,delete,oneshot⟩ := addedHas e
    rw [flags.oneshot,Bool.or_self] at oneshot
    rw [fdeAddIo found flags.io]
    cases active : e.isActive with
    | true => rw [fdeKevAdd,if_pos active]; exact reg
    | false =>
      have toggle : Toggles fh (fdeKevAdd fh f e) rest f e { e with kev := addedKev e, isActive := true } := by
        rw [fdeKevAdd,if_neg (by simp [active])]
        refine ⟨found,by simp [FdeHead.put],rfl,rfl,by simp [active],rfl,rfl,
          ⟨flags.io,flags.udata,oneshot,fun _ => add⟩,add,?_,by simp⟩
        intro listed
        rw [delete]
        exact reg.deleted f e found (by simpa [active] using listed) active
      exact toggledRegistered reg toggle

theorem deleteRegistered {fh : FdeHead Kernel} {rest} (reg : Registered fh rest) (f) :
    Registered (fdeDelete fh f) rest := by
  cases found : fh.fdes f with
  | none => rw [fdeDelete,found]; exact reg
  | some e =>
    have flags := reg.flags f e found
    obtain ⟨add,delete,oneshot⟩ := deletedHas e
    rw [fdeDeleteIo found flags.io]
    cases active : e.isActive with
    | false => rw [fdeKevDelete,if_pos (by simp [active])]; exact reg
    | true =>
      have added := add.trans (flags.added active)
      have toggle : Toggles fh (fdeKevDelete fh f e) rest f e { e with kev := deletedKev e, isActive := false } := by
        rw [fdeKevDelete,if_neg (by simp [active])]
        exact ⟨found,by simp [FdeHead.put],rfl,rfl,by simp [active],rfl,rfl,
          ⟨flags.io,flags.udata,oneshot.trans flags.oneshot,fun _ => added⟩,added,fun _ => delete,fun _ => delete⟩
      exact toggledRegistered reg toggle

/- The (ident, filter) that fde_create gives a new I/O fde. -/
def createdKey (f : FdeId) (fd : Int) : FdeType → Key
  | .write => (fd,.write)
  | .user => (f,.user)
  | _ => (fd,.read)

theorem evSetIo {f e kev} (set : fdeEvSet f e = some kev) (io : e.fType.io = true) :
    kev.key = createdKey f e.fd e.fType ∧ kev.udata = some f ∧ kev.flags = fdeEvFlags e evEnable := by
  unfold fdeEvSet at set
  cases type : e.fType <;> simp only [type,FdeType.io,Bool.false_eq_true] at set io
  all_goals
    cases Option.some.inj set
    exact ⟨rfl,rfl,rfl⟩

theorem createdIo {κ} {fh fh' : FdeHead κ} {f fd t fl cb cbdata} (io : t.io = true)
    (made : fdeCreate fh f fd t fl cb cbdata = some fh') : ∃ e, fh' = fh.put f e ∧ e.isActive = false ∧
      has e.kev.flags evDelete = false ∧ e.key = createdKey f fd t ∧ FdeFlags f e := by
  simp only [fdeCreate,Option.map_eq_some_iff] at made
  obtain ⟨kev,set,rfl⟩ := made
  obtain ⟨key,udata,flags⟩ := evSetIo set io
  refine ⟨_,rfl,rfl,?_,key,io,udata,?_,by simp⟩
  all_goals
    dsimp only
    rw [flags,evFlagsHas]
    unfold Fde.persist
    cases (fl &&& fdeFPersist != 0) <;> rfl

theorem createRegistered {fh fh' : FdeHead Kernel} {rest f fd t fl cb cbdata} (reg : Registered fh rest)
    (io : t.io = true) (fresh : fh.fdes f = none) (free : ∀ g e, fh.fdes g = some e → e.key ≠ createdKey f fd t)
    (made : fdeCreate fh f fd t fl cb cbdata = some fh') : Registered fh' rest := by
  obtain ⟨e,rfl,off,_,key,flags⟩ := createdIo io made
  have lookup {g x} (h : (fh.put f e).fdes g = some x) : (g = f ∧ x = e) ∨ (g ≠ f ∧ fh.fdes g = some x) :=
    lookupUpdate rfl h
  have kept {g x} (h : fh.fdes g = some x) : (fh.put f e).fdes g = some x := by
    have other : g ≠ f := by rintro rfl; rw [fresh] at h; contradiction
    simpa [FdeHead.put,other] using h
  have unnamed : ∀ k ∈ rest, k.udata ≠ some f := by
    intro k mem named
    obtain ⟨_,g,x,named',found⟩ := reg.waiting k mem
    rw [named] at named'
    cases named'
    rw [fresh] at found
    contradiction
  have unlisted : fh.settled.reg e.key = none := by
    cases listed : fh.settled.reg e.key with
    | none => rfl
    | some r =>
      obtain ⟨g,x,found,same⟩ := reg.known _ r listed
      exact absurd (same.trans key) (free g x found)
  constructor
  case opened => exact reg.opened
  case bound => exact reg.bound
  case adds => exact reg.adds
  case flags =>
    intro g x h
    rcases lookup h with ⟨rfl,rfl⟩ | ⟨_,old⟩
    · exact flags
    · exact reg.flags g x old
  case distinct =>
    refine updatedDistinct reg.distinct rfl fun g x _ old => ?_
    rw [key]
    exact free g x old
  case known =>
    intro k r listed
    obtain ⟨g,x,found,same⟩ := reg.known k r listed
    exact ⟨g,x,kept found,same⟩
  case state =>
    intro g x h
    rcases lookup h with ⟨rfl,rfl⟩ | ⟨_,old⟩
    · rw [off,unowed unnamed]; exact unlisted
    · exact reg.state g x old
  case deleted =>
    intro g x h wait idle
    rcases lookup h with ⟨rfl,rfl⟩ | ⟨_,old⟩
    · rw [unowed unnamed] at wait; contradiction
    · exact reg.deleted g x old wait idle
  case waiting =>
    intro k mem
    obtain ⟨clean,g,x,named,found⟩ := reg.waiting k mem
    exact ⟨clean,g,x,named,kept found⟩
  case once =>
    refine reg.once.imp_of_mem ?_
    intro k later mem _ apart g x named h oneshot
    rcases lookup h with ⟨rfl,rfl⟩ | ⟨_,old⟩
    · exact absurd named (unnamed k mem)
    · exact apart g x named old oneshot

/- Every registration belongs to an fde; what one call returns is taken away. -/
structure Taken (fh : FdeHead Kernel) (kq kq' : Kernel) (events : List Kevent) : Prop where
  closed : kq'.closed = kq.closed
  fewer : ∀ key r, kq'.reg key = some r → kq.reg key = some r
  named : ∀ k ∈ events, has k.flags evError = false ∧
    ∃ f e, k.udata = some f ∧ fh.fdes f = some e ∧ kq.reg e.key = some (e.reg f)
  left : ∀ f e, fh.fdes f = some e → kq.reg e.key = some (e.reg f) →
    kq'.reg e.key = if owed events f e then none else some (e.reg f)
  once : events.Pairwise (fun k later => ∀ f e, k.udata = some f → fh.fdes f = some e → e.persist = false →
    later.udata ≠ some f)

/- The kernel behind one event: a one-shot registration is gone. -/
def Kernel.behind (kq : Kernel) (key : Key) (r : Reg) : Kernel := if r.oneshot then kq.set key none else kq

theorem behindOther {kq : Kernel} {key other r} (apart : other ≠ key) : (kq.behind key r).reg other = kq.reg other := by
  unfold Kernel.behind
  split
  · exact setOther _ _ apart
  · rfl

theorem behindSelf {kq : Kernel} {key r} : (kq.behind key r).reg key = if r.oneshot then none else kq.reg key := by
  unfold Kernel.behind
  split <;> simp

theorem behindClosed {kq : Kernel} {key r} : (kq.behind key r).closed = kq.closed := by
  unfold Kernel.behind
  split <;> rfl

theorem behindFewer {kq : Kernel} {key r other r'} (listed : (kq.behind key r).reg other = some r') :
    kq.reg other = some r' := by
  by_cases same : other = key
  · rw [same,behindSelf] at listed
    split at listed
    · contradiction
    · rw [same]; exact listed
  · rw [behindOther same] at listed
    exact listed

theorem takeOne {kq kq' : Kernel} {k rest} (taken : kq.take (k::rest) = some kq') : ∃ r, kq.reg k.key = some r ∧
    k.udata = r.udata ∧ has k.flags evError = false ∧ (kq.behind k.key r).take rest = some kq' := by
  simp only [Kernel.take] at taken
  split at taken <;> try contradiction
  rename_i r listed
  split at taken <;> try contradiction
  rename_i same
  exact ⟨r,listed,same.1,same.2,taken⟩

/- One event in front of the others. Its fde owes a turn only if it does not persist. -/
theorem takenCons {fh : FdeHead Kernel} {kq kq' k rest f e}
    (distinct : ∀ f g e e', fh.fdes f = some e → fh.fdes g = some e' → e.key = e'.key → f = g)
    (found : fh.fdes f = some e) (key : e.key = k.key) (listed : kq.reg k.key = some (e.reg f))
    (named : k.udata = some f) (clean : has k.flags evError = false)
    (tail : Taken fh (kq.behind k.key (e.reg f)) kq' rest) : Taken fh kq kq' (k::rest) := by
  have gone : e.persist = false → (kq.behind k.key (e.reg f)).reg e.key = none := by
    intro oneshot
    rw [key,behindSelf]
    simp [Fde.reg,oneshot]
  constructor
  case closed => rw [tail.closed,behindClosed]
  case fewer => exact fun key' r' h => behindFewer (tail.fewer key' r' h)
  case named =>
    intro k' mem
    rcases List.mem_cons.mp mem with rfl | inside
    · exact ⟨clean,f,e,named,found,by rw [key]; exact listed⟩
    · obtain ⟨clean',g,x,named',found',listed'⟩ := tail.named k' inside
      exact ⟨clean',g,x,named',found',behindFewer listed'⟩
  case left =>
    intro g x found' listed'
    by_cases same : g = f
    · subst g
      cases Option.some.inj (found.symm.trans found')
      cases persist : e.persist with
      | false =>
        have empty : kq'.reg e.key = none := by
          cases after : kq'.reg e.key with
          | none => rfl
          | some r' =>
            have before := tail.fewer _ _ after
            rw [gone persist] at before
            contradiction
        simp [owed,persist,named,empty]
      | true =>
        have still : (kq.behind k.key (e.reg f)).reg e.key = some (e.reg f) := by
          rw [key,behindSelf]; simpa [Fde.reg,persist] using listed
        simpa [owed,persist] using tail.left f e found still
    · have apart : x.key ≠ k.key := by
        rw [← key]
        exact fun h => same (distinct g f x e found' found h)
      have still : (kq.behind k.key (e.reg f)).reg x.key = some (x.reg g) := (behindOther apart).trans listed'
      simpa [owed,named,Ne.symm same] using tail.left g x found' still
  case once =>
    refine List.pairwise_cons.mpr ⟨?_,tail.once⟩
    intro k' mem g x named' found' oneshot clash
    obtain ⟨_,i,y,named2,found2,listed2⟩ := tail.named k' mem
    rw [named] at named'
    cases named'
    rw [clash] at named2
    cases named2
    cases Option.some.inj (found.symm.trans found')
    cases Option.some.inj (found.symm.trans found2)
    rw [gone oneshot] at listed2
    contradiction

theorem takeTaken {fh : FdeHead Kernel} {kq kq' events}
    (distinct : ∀ f g e e', fh.fdes f = some e → fh.fdes g = some e' → e.key = e'.key → f = g)
    (owned : ∀ key r, kq.reg key = some r → ∃ f e, fh.fdes f = some e ∧ e.key = key ∧ r = e.reg f)
    (taken : kq.take events = some kq') : Taken fh kq kq' events := by
  induction events generalizing kq with
  | nil =>
    cases Option.some.inj taken
    exact ⟨rfl,fun _ _ h => h,by simp,fun f e _ h => by simpa [owed] using h,List.Pairwise.nil⟩
  | cons k rest ih =>
    obtain ⟨r,listed,udata,clean,later⟩ := takeOne taken
    obtain ⟨f,e,found,key,rfl⟩ := owned _ r listed
    have tail := ih (fun key' r' h => owned key' r' (behindFewer h)) later
    exact takenCons distinct found key listed udata clean tail

theorem registeredOwned {fh : FdeHead Kernel} (reg : Registered fh []) (key r) (listed : fh.settled.reg key = some r) :
    ∃ f e, fh.fdes f = some e ∧ e.isActive = true ∧ e.key = key ∧ r = e.reg f := by
  obtain ⟨f,e,found,same⟩ := reg.known key r listed
  have state := reg.state f e found
  rw [same,listed] at state
  cases active : e.isActive with
  | false => simp [active,owed] at state
  | true =>
    exact ⟨f,e,found,active,same,by simpa [active,owed] using state⟩

/- Only fdes that are active are registered, so only they are returned. -/
theorem takenActive {fh : FdeHead Kernel} {kq' events} (reg : Registered fh [])
    (taken : Taken fh fh.settled kq' events) :
    ∀ k ∈ events, ∀ f e, k.udata = some f → fh.fdes f = some e → e.isActive = true := by
  intro k mem f e named found
  obtain ⟨_,g,x,named',found',listed⟩ := taken.named k mem
  rw [named] at named'
  cases named'
  cases Option.some.inj (found.symm.trans found')
  obtain ⟨h,y,foundY,on,key,_⟩ := registeredOwned reg _ _ listed
  have sameFde : h = f := reg.distinct h f y e foundY found key
  subst h
  cases Option.some.inj (found.symm.trans foundY)
  exact on

/- The kevent() call of fde_rw_runloop. -/
theorem waitRegistered {fh : FdeHead Kernel} {kq' events} (reg : Registered fh [])
    (waits : Kq.Waits fh.kqfd fh.pending.changes kq' events) :
    Registered { fh with kqfd := kq', pending := { fh.pending with n := 0 } } events ∧
      ∀ k ∈ events, ∀ f e, k.udata = some f → fh.fdes f = some e → e.isActive = true := by
  obtain ⟨clean,opened⟩ := settledClean reg.opened reg.adds
  obtain ⟨returned,take,same⟩ := waits
  rw [clean,List.map_nil,List.nil_append] at same
  subst returned
  have owned : ∀ key r, fh.settled.reg key = some r → ∃ f e, fh.fdes f = some e ∧ e.key = key ∧ r = e.reg f := by
    intro key r listed
    obtain ⟨f,e,found,_,rest⟩ := registeredOwned reg key r listed
    exact ⟨f,e,found,rest⟩
  have taken : Taken fh fh.settled kq' events := takeTaken reg.distinct owned take
  have active := takenActive reg taken
  have idle : ∀ f e, fh.fdes f = some e → e.isActive = false → owed events f e = false := by
    intro f e found off
    refine unowed fun k mem named => ?_
    rw [active k mem f e named found] at off
    contradiction
  have settled : FdeHead.settled { fh with kqfd := kq', pending := { fh.pending with n := 0 } } = kq' := by
    simp [FdeHead.settled,Pending.changes,Batch.each]
  refine ⟨?_,active⟩
  constructor
  case opened => intro d; rw [taken.closed]; exact opened d
  case bound => exact Nat.succ_pos 127
  case adds => simp [Pending.changes]
  case flags => exact reg.flags
  case distinct => exact reg.distinct
  case known =>
    intro key r listed
    rw [settled] at listed
    exact reg.known key r (taken.fewer key r listed)
  case state =>
    intro f e found
    have before := reg.state f e found
    rw [settled]
    cases on : e.isActive with
    | true =>
      have listed : fh.settled.reg e.key = some (e.reg f) := by simpa [on,owed] using before
      rw [taken.left f e found listed]
      cases owed events f e <;> rfl
    | false =>
      have unlisted : fh.settled.reg e.key = none := by simpa [on,owed] using before
      rw [idle f e found on]
      cases after : kq'.reg e.key with
      | none => rfl
      | some r => rw [taken.fewer _ _ after] at unlisted; contradiction
  case deleted =>
    intro f e found wait off
    rw [idle f e found off] at wait
    contradiction
  case waiting =>
    intro k mem
    obtain ⟨clean',f,e,named,found,_⟩ := taken.named k mem
    exact ⟨clean',f,e,named,found⟩
  case once => exact taken.once

end Libiapp.Event

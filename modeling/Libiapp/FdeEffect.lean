import Libiapp.Fde
import Mathlib.Data.List.Basic
import Mathlib.Tactic.Tauto

/-! What one operation can do to an fde_head: nothing, switch one fde on, switch
one fde off, or allocate or release an inactive one. Every invariant over the
three lists is derived from these few effects and not from the operations. -/
namespace Libiapp.Event
open Kqueue

def FdeHead.active {κ} (fh : FdeHead κ) (f : FdeId) : Bool := (fh.fdes f).any Fde.isActive

def FdeHead.typeOf {κ} (fh : FdeHead κ) (f : FdeId) : Option FdeType := (fh.fdes f).map Fde.fType

/- The types that fde_create accepts. -/
def FdeType.supported : FdeType → Bool
  | .read | .write | .callback | .timer | .user => true
  | .none | .signal | .aio => false

def Supported {κ} (fh : FdeHead κ) : Prop := ∀ f e, fh.fdes f = some e → e.fType.supported = true

structure Activates {κ} (fh fh' : FdeHead κ) (f : FdeId) (e e' : Fde) : Prop where
  found : fh.fdes f = some e
  idle : e.isActive = false
  fdes : fh'.fdes = Function.update fh.fdes f (some e')
  active : e'.isActive = true
  type : e'.fType = e.fType
  flags : e'.fFlags = e.fFlags
  cb : e'.cb = e.cb
  head : fh'.fHead = fh.fHead ++ [f]
  cbHead : fh'.fCbHead = if e.fType = .callback then fh.fCbHead ++ [f] else fh.fCbHead
  tHead : fh'.fTHead = if e.fType = .timer then timerInsert f e'.tv fh'.tvOf fh.fTHead else fh.fTHead
  genid : fh'.fCbGenid = fh.fCbGenid
  stamp : e.fType = .callback → e'.fCbGenid = fh.fCbGenid

structure Deactivates {κ} (fh fh' : FdeHead κ) (f : FdeId) (e e' : Fde) : Prop where
  found : fh.fdes f = some e
  active : e.isActive = true
  fdes : fh'.fdes = Function.update fh.fdes f (some e')
  idle : e'.isActive = false
  type : e'.fType = e.fType
  flags : e'.fFlags = e.fFlags
  cb : e'.cb = e.cb
  tv : e'.tv = e.tv
  head : fh'.fHead = fh.fHead.erase f
  cbHead : fh'.fCbHead = if e.fType = .callback then fh.fCbHead.erase f else fh.fCbHead
  tHead : fh'.fTHead = if e.fType = .timer then fh.fTHead.erase f else fh.fTHead
  genid : fh'.fCbGenid = fh.fCbGenid

/- A push touches the buffer and, through a flush, the kqueue; nothing else. -/
@[simp] theorem pushFdes {κ} [Kq κ] (fh : FdeHead κ) (k) : (fdeKqPush fh k).fdes = fh.fdes := by
  unfold fdeKqPush fdeKqFlush; dsimp only; split <;> rfl
@[simp] theorem pushHead {κ} [Kq κ] (fh : FdeHead κ) (k) : (fdeKqPush fh k).fHead = fh.fHead := by
  unfold fdeKqPush fdeKqFlush; dsimp only; split <;> rfl
@[simp] theorem pushCbHead {κ} [Kq κ] (fh : FdeHead κ) (k) : (fdeKqPush fh k).fCbHead = fh.fCbHead := by
  unfold fdeKqPush fdeKqFlush; dsimp only; split <;> rfl
@[simp] theorem pushTHead {κ} [Kq κ] (fh : FdeHead κ) (k) : (fdeKqPush fh k).fTHead = fh.fTHead := by
  unfold fdeKqPush fdeKqFlush; dsimp only; split <;> rfl
@[simp] theorem pushGenid {κ} [Kq κ] (fh : FdeHead κ) (k) : (fdeKqPush fh k).fCbGenid = fh.fCbGenid := by
  unfold fdeKqPush fdeKqFlush; dsimp only; split <;> rfl

theorem kevAddEffect {κ} [Kq κ] {fh : FdeHead κ} {f e} (found : fh.fdes f = some e)
    (io : e.fType ≠ .callback ∧ e.fType ≠ .timer) :
    (fdeKevAdd fh f e = fh ∧ e.isActive = true) ∨ ∃ e', Activates fh (fdeKevAdd fh f e) f e e' := by
  unfold fdeKevAdd
  split
  · rename_i on
    exact Or.inl ⟨rfl,on⟩
  · rename_i idle
    right
    refine ⟨{ e with kev := addedKev e, isActive := true },found,by simpa using idle,?_,rfl,rfl,rfl,rfl,?_,?_,?_,?_,?_⟩
    · simp [FdeHead.put]
    · simp [FdeHead.put]
    · simp [FdeHead.put,io.1]
    · simp [FdeHead.put,io.2]
    · simp [FdeHead.put]
    · exact fun h => absurd h io.1

theorem kevDeleteEffect {κ} [Kq κ] {fh : FdeHead κ} {f e} (found : fh.fdes f = some e)
    (io : e.fType ≠ .callback ∧ e.fType ≠ .timer) (on : e.isActive = true) :
    Deactivates fh (fdeKevDelete fh f e) f e { e with kev := deletedKev e, isActive := false } := by
  unfold fdeKevDelete
  rw [if_neg (by simp [on])]
  exact ⟨found,on,by simp [FdeHead.put],rfl,rfl,rfl,rfl,rfl,by simp [FdeHead.put],by simp [FdeHead.put,io.1],
    by simp [FdeHead.put,io.2],by simp [FdeHead.put]⟩

theorem cbAddEffect {κ} {fh : FdeHead κ} {f e} (found : fh.fdes f = some e) (type : e.fType = .callback) :
    (fdeCbAdd fh f e = fh ∧ e.isActive = true) ∨ ∃ e', Activates fh (fdeCbAdd fh f e) f e e' := by
  unfold fdeCbAdd
  split
  · rename_i on
    exact Or.inl ⟨rfl,on⟩
  · rename_i idle
    right
    refine ⟨{ e with isActive := true, fCbGenid := fh.fCbGenid },found,by simpa using idle,
      rfl,rfl,rfl,rfl,rfl,rfl,?_,?_,rfl,fun _ => rfl⟩
    · simp [FdeHead.put,type]
    · simp [FdeHead.put,type]

theorem fdeAddEffect {κ} [Kq κ] (fh : FdeHead κ) (f) :
    fdeAdd fh f = fh ∨ ∃ e e', Activates fh (fdeAdd fh f) f e e' ∧ e.fType ≠ .timer := by
  unfold fdeAdd
  cases found : fh.fdes f with
  | none => exact Or.inl rfl
  | some e =>
    dsimp only
    split
    case h_1 type => exact (kevAddEffect found (by simp [type])).imp And.left (fun ⟨e',h⟩ => ⟨e,e',h,by simp [type]⟩)
    case h_2 type => exact (kevAddEffect found (by simp [type])).imp And.left (fun ⟨e',h⟩ => ⟨e,e',h,by simp [type]⟩)
    case h_3 type => exact (cbAddEffect found type).imp And.left (fun ⟨e',h⟩ => ⟨e,e',h,by simp [type]⟩)
    case h_4 type => exact (kevAddEffect found (by simp [type])).imp And.left (fun ⟨e',h⟩ => ⟨e,e',h,by simp [type]⟩)
    case h_5 => exact Or.inl rfl

theorem fdeAddKnown {κ} [Kq κ] {fh : FdeHead κ} {f e} (found : fh.fdes f = some e)
    (type : e.fType = .read ∨ e.fType = .write ∨ e.fType = .callback) :
    (fdeAdd fh f = fh ∧ e.isActive = true) ∨ ∃ e', Activates fh (fdeAdd fh f) f e e' := by
  unfold fdeAdd
  rw [found]
  rcases type with type | type | type
  · simp only [type]
    exact kevAddEffect found (by simp [type])
  · simp only [type]
    exact kevAddEffect found (by simp [type])
  · simp only [type]
    exact cbAddEffect found type

theorem fdeAddTimeoutEffect {κ} (fh : FdeHead κ) (f tv) (timer : fh.typeOf f = some .timer) :
    (fdeAddTimeout fh f tv = fh ∧ fh.active f = true) ∨
      ∃ e e', Activates fh (fdeAddTimeout fh f tv) f e e' ∧ e.fType = .timer ∧ e'.tv = tv := by
  unfold fdeAddTimeout
  cases found : fh.fdes f with
  | none => simp [FdeHead.typeOf,found] at timer
  | some e =>
    have type : e.fType = .timer := by simpa [FdeHead.typeOf,found] using timer
    dsimp only
    split
    · rename_i on
      exact Or.inl ⟨rfl,by simpa [FdeHead.active,found] using on⟩
    · rename_i idle
      right
      refine ⟨e,{ e with isActive := true, tv := tv },⟨found,by simpa using idle,
        rfl,rfl,rfl,rfl,rfl,rfl,?_,?_,rfl,?_⟩,type,rfl⟩
      · simp [FdeHead.put,type]
      · simp [type]; rfl
      · simp [type]

theorem fdeDeleteEffect {κ} [Kq κ] {fh : FdeHead κ} (known : Supported fh) (f) :
    (fdeDelete fh f = fh ∧ fh.active f = false) ∨ ∃ e e', Deactivates fh (fdeDelete fh f) f e e' := by
  unfold fdeDelete
  cases found : fh.fdes f with
  | none => exact Or.inl ⟨rfl,by simp [FdeHead.active,found]⟩
  | some e =>
    by_cases on : e.isActive = true
    · dsimp only
      split
      case h_1 type => exact Or.inr ⟨e,_,kevDeleteEffect found (by simp [type]) on⟩
      case h_2 type => exact Or.inr ⟨e,_,kevDeleteEffect found (by simp [type]) on⟩
      case h_3 type =>
        right
        refine ⟨e,{ e with isActive := false },?_⟩
        unfold fdeCbDelete
        rw [if_neg (by simp [on])]
        exact ⟨found,on,rfl,rfl,rfl,rfl,rfl,rfl,rfl,by simp [FdeHead.put,type],by simp [FdeHead.put,type],rfl⟩
      case h_4 type =>
        right
        refine ⟨e,{ e with isActive := false },?_⟩
        unfold fdeTDelete
        rw [if_neg (by simp [on])]
        exact ⟨found,on,rfl,rfl,rfl,rfl,rfl,rfl,rfl,by simp [FdeHead.put,type],by simp [FdeHead.put,type],rfl⟩
      case h_5 type => exact Or.inr ⟨e,_,kevDeleteEffect found (by simp [type]) on⟩
      case h_6 =>
        have supported := known f e found
        cases type : e.fType <;> simp_all [FdeType.supported]
    · refine Or.inl ⟨?_,by simpa [FdeHead.active,found] using on⟩
      dsimp only
      split <;> simp [fdeRwDelete,fdeUeDelete,fdeKevDelete,fdeCbDelete,fdeTDelete,on]

theorem lookupUpdate {κ} {fh fh' : FdeHead κ} {f e' g x} (fdes : fh'.fdes = Function.update fh.fdes f (some e'))
    (found : fh'.fdes g = some x) : (g = f ∧ x = e') ∨ (g ≠ f ∧ fh.fdes g = some x) := by
  rw [fdes] at found
  by_cases same : g = f
  · subst g
    rw [Function.update_self] at found
    exact Or.inl ⟨rfl,(Option.some.inj found).symm⟩
  · rw [Function.update_of_ne same] at found
    exact Or.inr ⟨same,found⟩

theorem updateSupported {κ} {fh fh' : FdeHead κ} {f e'} (known : Supported fh)
    (fdes : fh'.fdes = Function.update fh.fdes f (some e')) (new : e'.fType.supported = true) :
    Supported fh' := by
  intro g x found
  rcases lookupUpdate fdes found with ⟨_,rfl⟩ | ⟨_,old⟩
  · exact new
  · exact known g x old

theorem deleteOff {κ} [Kq κ] {fh : FdeHead κ} (known : Supported fh) (f) : (fdeDelete fh f).active f = false := by
  rcases fdeDeleteEffect known f with ⟨same,off⟩ | ⟨e,e',effect⟩
  · rw [same]; exact off
  · simpa [FdeHead.active,effect.fdes] using effect.idle

/- fde_free is fde_delete followed by free(). -/
theorem fdeFreeEq {κ} [Kq κ] {fh : FdeHead κ} (known : Supported fh) (f) :
    fdeFree fh f = { fdeDelete fh f with fdes := Function.update (fdeDelete fh f).fdes f none } := by
  unfold fdeFree
  cases found : fh.fdes f with
  | none =>
    have same : fdeDelete fh f = fh := by unfold fdeDelete; simp [found]
    rw [same]
    have gone : Function.update fh.fdes f none = fh.fdes := by
      funext g
      by_cases same : g = f
      · subst g; simp [found]
      · simp [same]
    rw [gone]
  | some e =>
    dsimp only
    split
    · rfl
    · rename_i off
      rcases fdeDeleteEffect known f with ⟨same,_⟩ | ⟨a,b,effect⟩
      · rw [same]
      · have same : a = e := Option.some.inj (effect.found.symm.trans found)
        subst a
        exact absurd effect.active off

theorem freeFdes {κ} [Kq κ] {fh : FdeHead κ} (known : Supported fh) (f) :
    (fdeFree fh f).fdes = Function.update (fdeDelete fh f).fdes f none := by rw [fdeFreeEq known]

theorem deleteOther {κ} [Kq κ] {fh : FdeHead κ} {f g : FdeId} (known : Supported fh) (different : g ≠ f) :
    (fdeDelete fh f).fdes g = fh.fdes g := by
  rcases fdeDeleteEffect known f with ⟨same,_⟩ | ⟨_,_,effect⟩
  · rw [same]
  · rw [effect.fdes,Function.update_of_ne different]

theorem freeOther {κ} [Kq κ] {fh : FdeHead κ} {f g : FdeId} (known : Supported fh) (different : g ≠ f) :
    (fdeFree fh f).fdes g = fh.fdes g := by
  rw [freeFdes known,Function.update_of_ne different,deleteOther known different]

theorem fdeCreateEffect {κ} [Kq κ] {fh fh' : FdeHead κ} {f fd t fl cb cbdata}
    (h : fdeCreate fh f fd t fl cb cbdata = some fh') :
    ∃ e, fh' = fh.put f e ∧ e.isActive = false ∧ e.fType = t ∧ t.supported = true := by
  simp only [fdeCreate,Option.map_eq_some_iff] at h
  obtain ⟨kev,set,rfl⟩ := h
  refine ⟨_,rfl,rfl,rfl,?_⟩
  cases t <;> simp_all [fdeEvSet,FdeType.supported]

end Libiapp.Event

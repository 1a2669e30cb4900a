import Libiapp.ShmTiling
import Libiapp.ShmUniform

/-! The bounds check of shm_alloc_alloc over all of size_t. The sum of shm_curofs and size is
taken modulo 2^64; a size near 2^64 wraps around, passes the check, and moves shm_curofs
back over what has been given away. -/
namespace Libiapp.Shm
open Runs

/- ftruncate() bounds the slabs; nothing bounds the sizes that are asked for. -/
def WideAllowed (s : State) : Act → Prop
  | .newSlab size _ sys => Truncates size sys ∧ ∀ sh ∈ sys.calloc, s.slabs sh = none
  | .alloc _ malloc => ∀ sa ∈ malloc, s.allocs sa = none
  | .free sa => s.active sa = true

def WideStarted (s : State) : Prop := ∃ slabSize doMlock sys, Truncates slabSize sys ∧ s = shmAllocInit slabSize doMlock sys

def wideMachine : Machine State Act := ⟨WideStarted,WideAllowed,step⟩

/- With no match on a free list, the slab of the new allocation had room for it in exact
numbers, and its offset is inside of it afterwards. -/
def Exact (s : State) : Act → Prop
  | .alloc size malloc => lookupFit s size = none → ∀ sa al slab slab', (shmAllocAlloc s size malloc).2 = some sa →
      (step s (.alloc size malloc)).allocs sa = some al → s.slabs al.shaSlab = some slab →
      (step s (.alloc size malloc)).slabs al.shaSlab = some slab' →
      slab.shmCurofs.toInt + size.toNat ≤ slab.shmSize.toNat ∧
        0 ≤ slab'.shmCurofs.toInt ∧ slab'.shmCurofs.toInt ≤ slab'.shmSize.toNat
  | _ => True

def NoWrap (s : State) : Act → Prop
  | .alloc size malloc => lookupFit s size = none → malloc.isSome = true → ∀ sh ∈ firstRoom s size, ∀ slab ∈ s.slabs sh,
      slab.shmCurofs.toInt + size.toNat < 2^64
  | _ => True

instance (s : State) : (a : Act) → Decidable (NoWrap s a)
  | .alloc size malloc => inferInstanceAs (Decidable (lookupFit s size = none → malloc.isSome = true →
      ∀ sh ∈ firstRoom s size, ∀ slab ∈ s.slabs sh, slab.shmCurofs.toInt + size.toNat < 2^64))
  | .newSlab .. | .free _ => isTrue trivial

instance (s : State) : (a : Act) → Decidable (wideMachine.allowed s a)
  | .alloc _ malloc => inferInstanceAs (Decidable (∀ sa ∈ malloc, s.allocs sa = none))
  | .newSlab size _ sys => inferInstanceAs (Decidable ((0 ≤ sys.ftruncate → size.toNat < 2^63) ∧
      ∀ sh ∈ sys.calloc, s.slabs sh = none))
  | .free sa => inferInstanceAs (Decidable (s.active sa = true))

def AllBounded (s : State) : Prop := ∀ sh slab, s.slabs sh = some slab → slab.Bounded

theorem boundedSet {s : State} {sh f} (all : AllBounded s)
    (kept : ∀ slab, s.slabs sh = some slab → (f slab).Bounded) : AllBounded (s.setSlab sh f) := by
  intro sh' slab' after
  obtain ⟨slab,before,rfl⟩ := slabSource after
  split
  · rename_i same
    subst sh'
    exact kept slab before
  · exact all sh' slab before

theorem extendBounded {s : State} {sh slab} {size : UInt64} (all : AllBounded s) (own : s.slabs sh = some slab)
    (fits : slab.hasRoom size = true) (exact : slab.shmCurofs.toInt + size.toNat < 2^64) (sa) :
    AllBounded (s.extend sh slab size sa) := by
  refine boundedSet (s := s.setAlloc sa (slab.carve sh size)) all fun slab' own' => ?_
  cases Option.some.inj (own.symm.trans own')
  have bounded := all sh slab own
  obtain ⟨moved,inside⟩ := roomExact bounded exact fits
  have nonneg := bounded.nonneg
  exact ⟨bounded.size,by rw [moved]; omega,by rw [moved]; exact inside⟩

theorem reuseBounded {s : State} (all : AllBounded s) (sa al) : AllBounded (s.reuse sa al) := by
  have set : AllBounded (s.setSlab al.shaSlab fun slab =>
      { slab with freeList := slab.freeList.erase sa, freeListCnt := slab.freeListCnt - 1 }) :=
    boundedSet all fun slab own => { all _ slab own with }
  exact set

theorem newSlabBounded {s : State} {size} {sys : SlabSys} (all : AllBounded s) (truncates : Truncates size sys) (doMlock) :
    AllBounded (shmAllocNewSlab s size doMlock sys).1 := by
  rcases newSlabSource s size doMlock sys with failed | ⟨truncated,sh,fd,m,made⟩
  · rw [failed]
    exact all
  · rw [made]
    intro sh' slab found
    by_cases new : sh' = sh
    · subst sh'
      cases show (⟨fd,size,m,0,[],0⟩ : Slab) = slab by simpa using found
      exact ⟨truncates truncated,by simp,by simp⟩
    · exact all sh' slab (by simpa [new] using found)

theorem freeBounded {s : State} {sa} (all : AllBounded s) : AllBounded (step s (.free sa)) := by
  simp only [step,shmAllocFree]
  cases added : shmAllocAddFreelist s sa with
  | none => exact all
  | some s' =>
    obtain ⟨al,found,rest⟩ := Option.bind_eq_some_iff.mp added
    split at rest <;> try contradiction
    cases Option.some.inj rest
    have set : AllBounded (s.setSlab al.shaSlab fun slab =>
        { slab with freeList := sa::slab.freeList, freeListCnt := slab.freeListCnt + 1 }) :=
      boundedSet all fun slab own => { all _ slab own with }
    exact set

theorem stepBounded {s a} (all : AllBounded s) (ok : WideAllowed s a) (exact : NoWrap s a) : AllBounded (step s a) := by
  cases a with
  | newSlab size doMlock sys => exact newSlabBounded all ok.1 doMlock
  | free sa => exact freeBounded all
  | alloc size malloc =>
    have exit := allocExit s size malloc
    simp only [step]
    generalize shmAllocAlloc s size malloc = result at exit ⊢
    cases exit with
    | reused sa al fit found => exact reuseBounded all sa al
    | full => exact all
    | missing => exact all
    | carved sh slab sa unlisted room own fits node =>
      exact extendBounded all own fits (exact unlisted (by simp [node]) sh room slab own) sa

theorem allocCarved {s : State} {size sh slab} (unlisted : lookupFit s size = none) (room : firstRoom s size = some sh)
    (own : s.slabs sh = some slab) (sa) :
    shmAllocAlloc s size (some sa) = ({ s.extend sh slab size sa with locked := false },some sa) := by
  have exit := allocExit s size (some sa)
  generalize shmAllocAlloc s size (some sa) = result at exit ⊢
  cases exit with
  | reused x al fit found => simp [unlisted] at fit
  | full _ full => simp [room] at full
  | missing _ _ _ failed => contradiction
  | carved sh' slab' sa' _ room' own' _ node =>
    cases Option.some.inj (room.symm.trans room')
    cases Option.some.inj (own.symm.trans own')
    cases Option.some.inj node
    rfl

theorem exactIff {s a} (all : AllBounded s) : Exact s a ↔ NoWrap s a := by
  cases a with
  | newSlab => exact Iff.rfl
  | free => exact Iff.rfl
  | alloc size malloc =>
    constructor
    · intro exact unlisted node sh room slab own
      obtain ⟨sa,rfl⟩ := Option.isSome_iff_exists.mp node
      have known : s.slabs sh = some slab := own
      have result := allocCarved unlisted room own sa
      have after : (step s (.alloc size (some sa))).slabs sh =
          some { slab with shmCurofs := (slab.shmCurofs.toUInt64 + size).toInt64 } := by
        simp [step,result,State.extend,State.setSlab,State.setAlloc,known]
      have made : (step s (.alloc size (some sa))).allocs sa = some (slab.carve sh size) := by
        simp [step,result,State.extend,State.setSlab,State.setAlloc]
      have inside := (exact unlisted sa (slab.carve sh size) slab _ (by rw [result]) made own after).1
      have high := (all sh slab own).size
      omega
    · intro exact unlisted sa al slab slab' returned made own after
      simp only [step] at made after
      have exit := allocExit s size malloc
      generalize shmAllocAlloc s size malloc = result at exit returned made after
      cases exit with
      | reused x al' fit found => simp [unlisted] at fit
      | full => contradiction
      | missing => contradiction
      | carved sh slab₀ sa₀ _ room own₀ fits node =>
        cases Option.some.inj returned
        cases show slab₀.carve sh size = al by simpa [State.extend,State.setSlab,State.setAlloc] using made
        cases Option.some.inj (own₀.symm.trans own)
        have nowrap := exact unlisted (by simp [node]) sh room slab own
        have bounded := extendBounded all own fits nowrap sa _ slab' after
        exact ⟨(roomExact (all sh slab own) nowrap fits).2,bounded.nonneg,bounded.fits⟩

theorem startedBounded {s} (started : WideStarted s) : AllBounded s := by
  obtain ⟨slabSize,doMlock,sys,truncates,rfl⟩ := started
  have empty : AllBounded ⟨[],fun _ => none,fun _ => none,true⟩ := fun _ _ found => by contradiction
  exact newSlabBounded empty truncates doMlock

/- Every step of a run is exact when none of them wraps around, and only then. -/
theorem boundsExactIff {s actions} (started : WideStarted s) (possible : Possible wideMachine s actions) :
    Each wideMachine Exact s actions ↔ Each wideMachine NoWrap s actions := by
  have same : ∀ s a, AllBounded s → wideMachine.allowed s a → (Exact s a ↔ NoWrap s a) := fun _ _ all _ => exactIff all
  have kept : ∀ s a, AllBounded s → wideMachine.allowed s a → NoWrap s a → AllBounded (wideMachine.step s a) :=
    fun _ _ all ok exact => stepBounded all ok exact
  exact eachIff same kept (startedBounded started) possible

theorem hundredStarted : WideStarted hundred := ⟨100,false,_,fun _ => by decide,rfl⟩

theorem boundsExactRun : Each wideMachine Exact hundred [.alloc 40 (some 1),.alloc 70 (some 2),.alloc 60 (some 2)] :=
  (boundsExactIff hundredStarted (by decide)).mpr (by decide)

/- 40 bytes and then 2^64 - 20: shm_curofs goes back to 20, and the next 40 bytes overlap
the first. -/
def wrapRun : List Act := [.alloc 40 (some 1),.alloc (-20) (some 2),.alloc 40 (some 3)]

theorem boundsWrapped :
    WideStarted hundred ∧ Possible wideMachine hundred wrapRun ∧
    ¬ Exact (step hundred (.alloc 40 (some 1))) (.alloc (-20) (some 2)) ∧
    ((run wideMachine hundred wrapRun).allocs 1).map Allocation.shaOffset = some 0 ∧
    ((run wideMachine hundred wrapRun).allocs 3).map Allocation.shaOffset = some 20 := by
  refine ⟨hundredStarted,by decide,fun exact => ?_,by decide,by decide⟩
  have inside := (exact (by decide) 2 ⟨1,5,40,-20,4136,true⟩ ⟨5,100,4096,40,[],0⟩ ⟨5,100,4096,20,[],0⟩ (by decide)
    (by decide) (by decide) (by decide)).1
  exact absurd inside (by decide)

end Libiapp.Shm

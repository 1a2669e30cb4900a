import Libiapp.Shm

/-! The exits of shm_alloc_alloc. Two of them return NULL. When no slab has room the mutex
is released on the way out; when the malloc() of the node fails it is not. -/
namespace Libiapp.Shm
open Runs

/- `sa` leaves the free list of its slab and is active again. -/
def State.reuse (s : State) (sa : AllocId) (al : Allocation) : State :=
  (s.setSlab al.shaSlab fun slab =>
    { slab with freeList := slab.freeList.erase sa, freeListCnt := slab.freeListCnt - 1 }).setAlloc sa
      { al with shaIsactive := true }

/- `sa` is the range behind shm_curofs of `slab`. -/
def State.extend (s : State) (sh : SlabId) (slab : Slab) (size : UInt64) (sa : AllocId) : State :=
  (s.setAlloc sa (slab.carve sh size)).setSlab sh fun slab =>
    { slab with shmCurofs := (slab.shmCurofs.toUInt64 + size).toInt64 }

inductive Exit (s : State) (size : UInt64) (malloc : Option AllocId) : State × Option AllocId → Prop where
  | reused (sa : AllocId) (al : Allocation) (fit : lookupFit s size = some sa) (found : s.allocs sa = some al) :
      Exit s size malloc ({ s.reuse sa al with locked := false },some sa)
  | full (unlisted : lookupFit s size = none) (full : firstRoom s size = none) :
      Exit s size malloc ({ s with locked := false },none)
  | missing (sh : SlabId) (unlisted : lookupFit s size = none) (room : firstRoom s size = some sh) (failed : malloc = none) :
      Exit s size malloc ({ s with locked := true },none)
  | carved (sh : SlabId) (slab : Slab) (sa : AllocId) (unlisted : lookupFit s size = none)
      (room : firstRoom s size = some sh) (own : s.slabs sh = some slab) (fits : slab.hasRoom size = true)
      (node : malloc = some sa) : Exit s size malloc ({ s.extend sh slab size sa with locked := false },some sa)

/- The search gives an entry of a free list, so an allocation that is not active. -/
theorem lookupSource {s : State} {size sa} (found : lookupFit s size = some sa) :
    s.len sa = some size ∧ ∃ sh ∈ s.slabList, ∃ slab, s.slabs sh = some slab ∧ sa ∈ slab.freeList := by
  have step : ∀ (shs : List SlabId) (start : Option AllocId),
      shs.foldl (fun found sh => (firstFit s size sh).or found) start = some sa →
      start = some sa ∨ ∃ sh ∈ shs, firstFit s size sh = some sa := by
    intro shs
    induction shs with
    | nil => exact fun start h => Or.inl h
    | cons sh rest ih =>
      intro start h
      rcases ih _ h with here | ⟨sh',mem,fit⟩
      · cases fit : firstFit s size sh with
        | none => exact Or.inl (by simpa [fit] using here)
        | some x => exact Or.inr ⟨sh,by simp,by simpa [fit] using here⟩
      · exact Or.inr ⟨sh',by simp [mem],fit⟩
  rcases step _ _ found with none | ⟨sh,mem,fit⟩
  · contradiction
  · obtain ⟨slab,own,fits⟩ := Option.bind_eq_some_iff.mp fit
    exact ⟨by simpa using List.find?_some fits,sh,mem,slab,own,List.mem_of_find?_eq_some fits⟩

theorem firstRoomSource {s : State} {size sh} (found : firstRoom s size = some sh) :
    ∃ slab, s.slabs sh = some slab ∧ slab.hasRoom size = true := by
  have room := List.find?_some found
  simpa [Option.any_eq_true] using room

theorem allocExit (s : State) (size malloc) : Exit s size malloc (shmAllocAlloc s size malloc) := by
  have listed : lookupFit { s with locked := true } size = lookupFit s size := rfl
  have walked : firstRoom { s with locked := true } size = firstRoom s size := rfl
  unfold shmAllocAlloc shmAllocLookupFreelist
  dsimp only
  rw [listed]
  cases fit : lookupFit s size with
  | some sa =>
    obtain ⟨al,found,_⟩ := Option.map_eq_some_iff.mp (lookupSource fit).1
    simp only [found]
    exact .reused sa al fit found
  | none =>
    dsimp only
    rw [walked]
    cases room : firstRoom s size with
    | none => exact .full fit room
    | some sh =>
      obtain ⟨slab,own,fits⟩ := firstRoomSource room
      simp only [own]
      cases malloc with
      | none => exact .missing sh fit room rfl
      | some sa => exact .carved sh slab sa fit room own fits rfl

/- A slab has room for a new allocation and there is no memory for its node. -/
def NodeMissing (s : State) (size : UInt64) (malloc : Option AllocId) : Prop :=
  lookupFit s size = none ∧ (firstRoom s size).isSome = true ∧ malloc = none

instance (s size malloc) : Decidable (NodeMissing s size malloc) := by unfold NodeMissing; infer_instance

theorem allocReleases (s : State) (size malloc) :
    (shmAllocAlloc s size malloc).1.locked = false ↔ ¬ NodeMissing s size malloc := by
  have exit := allocExit s size malloc
  generalize shmAllocAlloc s size malloc = result at exit ⊢
  cases exit with
  | reused sa al fit found => exact iff_of_true rfl fun missing => by simp [missing.1] at fit
  | full unlisted full => exact iff_of_true rfl fun ⟨_,room,_⟩ => by simp [full] at room
  | missing sh unlisted room failed => exact iff_of_false (by simp) fun clean => clean ⟨unlisted,by simp [room],failed⟩
  | carved sh slab sa unlisted room own fits node => exact iff_of_true rfl fun missing => by simp [missing.2.2] at node

theorem allocUnchanged {s : State} {size malloc} (failed : (shmAllocAlloc s size malloc).2 = none) :
    ∃ locked, (shmAllocAlloc s size malloc).1 = { s with locked := locked } := by
  have exit := allocExit s size malloc
  generalize shmAllocAlloc s size malloc = result at exit failed ⊢
  cases exit with
  | reused => contradiction
  | full => exact ⟨false,rfl⟩
  | missing => exact ⟨true,rfl⟩
  | carved => contradiction

theorem allocFrame {s : State} {size malloc other} (unknown : s.allocs other = none) (apart : malloc ≠ some other) :
    (shmAllocAlloc s size malloc).1.allocs other = none := by
  have exit := allocExit s size malloc
  generalize shmAllocAlloc s size malloc = result at exit ⊢
  cases exit with
  | reused sa al fit found =>
    have different : other ≠ sa := by
      rintro rfl
      rw [unknown] at found
      contradiction
    exact (Function.update_of_ne different ..).trans unknown
  | full => exact unknown
  | missing => exact unknown
  | carved sh slab sa unlisted room own fits node =>
    have different : other ≠ sa := by
      rintro rfl
      exact apart node
    exact (Function.update_of_ne different ..).trans unknown

/- The calls that a thread makes on an allocator. -/
inductive Call where
  | alloc (size : UInt64) (malloc : Option AllocId)
  | free (sa : AllocId)
  deriving DecidableEq, Repr

def callStep (s : State) : Call → State
  | .alloc size malloc => (shmAllocAlloc s size malloc).1
  | .free sa => ((shmAllocFree s sa).map Prod.fst).getD s

def NodeGiven (s : State) : Call → Prop
  | .alloc size malloc => ¬ NodeMissing s size malloc
  | .free _ => True

instance (s : State) : (c : Call) → Decidable (NodeGiven s c)
  | .alloc size malloc => inferInstanceAs (Decidable (¬ NodeMissing s size malloc))
  | .free _ => isTrue trivial

def callMachine : Machine State Call := ⟨fun s => s.locked = false,fun _ _ => True,callStep⟩

theorem freeReleases {s : State} {sa} (released : s.locked = false) : (callStep s (.free sa)).locked = false := by
  simp only [callStep,shmAllocFree]
  cases added : shmAllocAddFreelist s sa with
  | none => exact released
  | some s' =>
    obtain ⟨al,found,rest⟩ := Option.bind_eq_some_iff.mp added
    split at rest <;> try contradiction
    cases Option.some.inj rest
    rfl

theorem callPossible (s : State) (calls) : Possible callMachine s calls := by
  induction calls generalizing s with
  | nil => trivial
  | cons c rest ih => exact ⟨trivial,ih _⟩

/- A call that returns NULL changes nothing but perhaps the mutex, and the mutex is free for
every call of a sequence, and behind the last, exactly when no node is missing. -/
theorem failsCleanIff (s : State) :
    (∀ size malloc, (shmAllocAlloc s size malloc).2 = none →
      (∃ locked, (shmAllocAlloc s size malloc).1 = { s with locked := locked }) ∧
      ((shmAllocAlloc s size malloc).1.locked = false ↔ ¬ NodeMissing s size malloc)) ∧
    ∀ calls, s.locked = false →
      (Along callMachine (fun s => s.locked = false) s calls ↔ Each callMachine NodeGiven s calls) := by
  refine ⟨fun size malloc failed => ⟨allocUnchanged failed,allocReleases s size malloc⟩,fun calls released => ?_⟩
  have kept : ∀ s c, True → callMachine.allowed s c → NodeGiven s c → True := fun _ _ _ _ _ => trivial
  refine alongIffEach kept ?_ trivial released (callPossible s calls)
  intro s c _ _ free
  cases c with
  | alloc size malloc => exact allocReleases s size malloc
  | free sa => exact iff_of_true (freeReleases free) trivial

def hundred : State := shmAllocInit 100 false ⟨some 1,5,0,some 4096,0⟩

/- The freed range is used again without a node, and the last request fits nowhere. -/
theorem failsCleanRun : Along callMachine (fun s => s.locked = false) hundred
    [.alloc 40 (some 1),.free 1,.alloc 40 none,.alloc 200 none] :=
  ((failsCleanIff hundred).2 _ rfl).mpr (by decide)

/- The first malloc() fails. -/
theorem mutexHeld :
    hundred.locked = false ∧ (shmAllocAlloc hundred 40 none).2 = none ∧ (shmAllocAlloc hundred 40 none).1.locked = true :=
  ⟨rfl,by decide,by decide⟩

end Libiapp.Shm

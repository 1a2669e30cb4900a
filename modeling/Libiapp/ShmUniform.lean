import Libiapp.Shm
import Libiapp.Words
import Mathlib.Tactic.Positivity
import Mathlib.Tactic.Ring

/-! An allocator with one slab that is asked for one size only, the way conn_new does.
The free list is exhausted before anything is carved, so shm_curofs follows the largest
number of allocations that have been active at once. -/
namespace Libiapp.Shm
open Runs Words

/- `live` has the active allocations, and `peak` is the largest number of them so far. -/
structure Load where
  s : State
  live : List AllocId
  peak : Nat

inductive Use where
  | alloc (node : AllocId)
  | free (sa : AllocId)
  deriving DecidableEq, Repr

def loadStep (size : UInt64) (l : Load) : Use → Load
  | .alloc node =>
    match shmAllocAlloc l.s size (some node) with
    | (s,some sa) => ⟨s,sa::l.live,max l.peak (l.live.length + 1)⟩
    | (s,none) => { l with s := s }
  | .free sa => { l with s := step l.s (.free sa), live := l.live.erase sa }

-- malloc() gives the node of a new allocation.
def LoadAllowed (l : Load) : Use → Prop
  | .alloc node => l.s.allocs node = none
  | .free sa => l.s.active sa = true

instance (l : Load) : (a : Use) → Decidable (LoadAllowed l a)
  | .alloc node => inferInstanceAs (Decidable (l.s.allocs node = none))
  | .free sa => inferInstanceAs (Decidable (l.s.active sa = true))

/- ftruncate() takes an off_t and refuses a negative length. -/
def Truncates (capacity : UInt64) (sys : SlabSys) : Prop := 0 ≤ sys.ftruncate → capacity.toNat < 2^63

def loadMachine (capacity size : UInt64) : Machine Load Use where
  start l := (∃ doMlock sys, Truncates capacity sys ∧ l.s = shmAllocInit capacity doMlock sys) ∧ l.s.slabList ≠ [] ∧
    l.live = [] ∧ l.peak = 0
  allowed := LoadAllowed
  step := loadStep size

instance (capacity size l a) : Decidable ((loadMachine capacity size).allowed l a) :=
  inferInstanceAs (Decidable (LoadAllowed l a))

section Single
variable {s : State} {sh : SlabId} {slab : Slab} {size : UInt64}

theorem fitHead {x rest al} (listed : s.slabList = [sh]) (own : s.slabs sh = some slab)
    (list : slab.freeList = x::rest) (found : s.allocs x = some al) (len : al.shaLen = size) :
    lookupFit s size = some x := by
  simp [lookupFit,listed,firstFit,own,list,State.len,found,len]

theorem fitNone (listed : s.slabList = [sh]) (own : s.slabs sh = some slab) (list : slab.freeList = []) :
    lookupFit s size = none := by
  simp [lookupFit,listed,firstFit,own,list]

theorem roomSingle (listed : s.slabList = [sh]) (own : s.slabs sh = some slab) :
    firstRoom s size = if slab.hasRoom size then some sh else none := by
  simp only [firstRoom,listed,List.find?_cons,List.find?_nil,own,Option.any_some]
  cases slab.hasRoom size <;> rfl

/- The head of the free list is used again. -/
theorem allocReuse {x rest al malloc} (listed : s.slabList = [sh]) (own : s.slabs sh = some slab)
    (list : slab.freeList = x::rest) (found : s.allocs x = some al) (at_ : al.shaSlab = sh) (len : al.shaLen = size) :
    shmAllocAlloc s size malloc = ({ s with
      slabs := Function.update s.slabs sh
        (some { slab with freeList := rest, freeListCnt := slab.freeListCnt - 1 })
      allocs := Function.update s.allocs x (some { al with shaIsactive := true })
      locked := false },some x) := by
  have fit : lookupFit { s with locked := true } size = some x := fitHead listed own list found len
  simp only [shmAllocAlloc,shmAllocLookupFreelist,fit,found,State.setSlab,State.setAlloc,at_,own,Option.map_some,list,
    List.erase_cons_head]

/- With nothing on the free list it is the room behind shm_curofs that decides. -/
theorem walkUnlisted (size : UInt64) (listed : s.slabList = [sh]) (own : s.slabs sh = some slab)
    (list : slab.freeList = []) : lookupFit { s with locked := true } size = none ∧
      firstRoom { s with locked := true } size = if slab.hasRoom size then some sh else none :=
  ⟨fitNone listed own list,roomSingle (s := { s with locked := true }) listed own⟩

theorem allocCarve {node} (listed : s.slabList = [sh]) (own : s.slabs sh = some slab) (list : slab.freeList = [])
    (room : slab.hasRoom size = true) :
    shmAllocAlloc s size (some node) = ({ s with
      slabs := Function.update s.slabs sh (some { slab with shmCurofs := (slab.shmCurofs.toUInt64 + size).toInt64 })
      allocs := Function.update s.allocs node (some (slab.carve sh size))
      locked := false },some node) := by
  obtain ⟨unfit,space⟩ := walkUnlisted size listed own list
  rw [if_pos room] at space
  simp only [shmAllocAlloc,shmAllocLookupFreelist,unfit,space,own,State.setAlloc,State.setSlab,Option.map_some]

theorem allocNodeless (listed : s.slabList = [sh]) (own : s.slabs sh = some slab) (list : slab.freeList = [])
    (room : slab.hasRoom size = true) : shmAllocAlloc s size none = ({ s with locked := true },none) := by
  obtain ⟨unfit,space⟩ := walkUnlisted size listed own list
  rw [if_pos room] at space
  simp only [shmAllocAlloc,shmAllocLookupFreelist,unfit,space,own]

theorem allocFull {malloc} (listed : s.slabList = [sh]) (own : s.slabs sh = some slab) (list : slab.freeList = [])
    (full : slab.hasRoom size = false) : shmAllocAlloc s size malloc = ({ s with locked := false },none) := by
  obtain ⟨unfit,space⟩ := walkUnlisted size listed own list
  rw [if_neg (Bool.eq_false_iff.mp full)] at space
  simp only [shmAllocAlloc,shmAllocLookupFreelist,unfit,space]

theorem freeSingle {sa al} (own : s.slabs sh = some slab) (found : s.allocs sa = some al)
    (active : al.shaIsactive = true) (at_ : al.shaSlab = sh) :
    step s (.free sa) = { s with
      slabs := Function.update s.slabs sh
        (some { slab with freeList := sa::slab.freeList, freeListCnt := slab.freeListCnt + 1 })
      allocs := Function.update s.allocs sa (some { al with shaIsactive := false })
      locked := false } := by
  simp [step,shmAllocFree,shmAllocAddFreelist,found,active,State.setAlloc,State.setSlab,at_,own]

end Single

/- As many allocations have been carved as were ever active at once; those that are not
active are on the free list. -/
structure Even (capacity size : UInt64) (sh : SlabId) (slab : Slab) (l : Load) : Prop where
  listed : l.s.slabList = [sh]
  own : l.s.slabs sh = some slab
  whole : slab.shmSize = capacity
  small : capacity.toNat < 2^63
  curofs : slab.shmCurofs.toInt = size.toNat * l.peak
  fits : size.toNat * l.peak ≤ capacity.toNat
  carved : slab.freeList.length + l.live.length = l.peak
  uniform : ∀ sa al, l.s.allocs sa = some al → al.shaSlab = sh ∧ al.shaLen = size
  free : ∀ sa ∈ slab.freeList, ∃ al, l.s.allocs sa = some al ∧ al.shaIsactive = false
  once : slab.freeList.Nodup
  live : ∀ sa, sa ∈ l.live ↔ l.s.active sa = true
  nodup : l.live.Nodup

section Even
variable {capacity size : UInt64} {sh : SlabId} {slab : Slab} {l : Load}

theorem activeFound {s : State} {sa} (active : s.active sa = true) :
    ∃ al, s.allocs sa = some al ∧ al.shaIsactive = true := by
  simpa [State.active,Option.any_eq_true] using active

theorem activeSet (s : State) (slabs locked) (sa al other) :
    State.active { s with slabs, allocs := Function.update s.allocs sa (some al), locked } other =
      if other = sa then al.shaIsactive else s.active other := by
  by_cases same : other = sa
  · subst other
    simp [State.active]
  · simp [State.active,same]

theorem uniformSet {s : State} {sa new} (uniform : ∀ sa al, s.allocs sa = some al → al.shaSlab = sh ∧ al.shaLen = size)
    (like : new.shaSlab = sh ∧ new.shaLen = size) :
    ∀ other al, Function.update s.allocs sa (some new) other = some al → al.shaSlab = sh ∧ al.shaLen = size := by
  intro other al found
  by_cases same : other = sa
  · subst other
    cases show new = al by simpa using found
    exact like
  · exact uniform other al (by simpa [same] using found)

/- The sum in the test for room does not wrap around: a size above the capacity has
never been carved. -/
theorem nextOffset (even : Even capacity size sh slab l) :
    (slab.shmCurofs.toUInt64 + size).toNat = size.toNat * (l.peak + 1) := by
  have nonneg : 0 ≤ slab.shmCurofs.toInt := by rw [even.curofs]; positivity
  have cast := castToNat nonneg
  have curofs := even.curofs
  have fits := even.fits
  have small := even.small
  have offset : slab.shmCurofs.toUInt64.toNat = size.toNat * l.peak := by omega
  have below : slab.shmCurofs.toUInt64.toNat + size.toNat < 2^64 := by
    have most := size.toNat_lt
    cases peak : l.peak with
    | zero =>
      rw [offset,peak]
      omega
    | succ n =>
      have one : size.toNat ≤ size.toNat * l.peak := Nat.le_mul_of_pos_right _ (by omega)
      omega
  rw [addToNat below,offset,Nat.mul_add,Nat.mul_one]

theorem roomIff (even : Even capacity size sh slab l) :
    slab.hasRoom size = true ↔ size.toNat * (l.peak + 1) ≤ capacity.toNat := by
  simp only [Slab.hasRoom,Bool.not_eq_true',decide_eq_false_iff_not,gt_iff_lt,UInt64.lt_iff_toNat_lt,
    nextOffset even,even.whole,Nat.not_lt]

theorem reuseEven {x rest} (even : Even capacity size sh slab l) (list : slab.freeList = x::rest) :
    ∃ s slab', (∀ malloc, shmAllocAlloc l.s size malloc = (s,some x)) ∧
      Even capacity size sh slab' ⟨s,x::l.live,max l.peak (l.live.length + 1)⟩ := by
  obtain ⟨al,found,off⟩ := even.free x (by rw [list]; exact List.mem_cons_self)
  obtain ⟨at_,len⟩ := even.uniform x al found
  have carved := even.carved
  have once := even.once
  rw [list] at carved once
  obtain ⟨gone,rest'⟩ := List.nodup_cons.mp once
  have peak : max l.peak (l.live.length + 1) = l.peak := by rw [List.length_cons] at carved; omega
  refine ⟨_,{ slab with freeList := rest, freeListCnt := slab.freeListCnt - 1 },
    fun malloc => allocReuse even.listed even.own list found at_ len,?_⟩
  rw [peak]
  exact { even with
    own := Function.update_self ..
    carved := by simpa [Nat.add_right_comm,Nat.add_assoc] using carved
    uniform := uniformSet even.uniform ⟨at_,len⟩
    free := fun sa mem => by
      have other : sa ≠ x := by rintro rfl; exact gone mem
      obtain ⟨al',known,inactive⟩ := even.free sa (by rw [list]; exact List.mem_cons_of_mem _ mem)
      exact ⟨al',by simpa [other] using known,inactive⟩
    once := rest'
    live := fun sa => by
      rw [activeSet,List.mem_cons,even.live]
      split <;> simp_all
    nodup := by
      refine List.nodup_cons.mpr ⟨fun mem => ?_,even.nodup⟩
      have active := (even.live x).mp mem
      simp [State.active,found,off] at active }

theorem carveEven {node} (even : Even capacity size sh slab l) (list : slab.freeList = [])
    (room : slab.hasRoom size = true) (fresh : l.s.allocs node = none) :
    ∃ s slab', shmAllocAlloc l.s size (some node) = (s,some node) ∧
      Even capacity size sh slab' ⟨s,node::l.live,max l.peak (l.live.length + 1)⟩ := by
  have fits := (roomIff even).mp room
  have carved := even.carved
  rw [list,List.length_nil,Nat.zero_add] at carved
  have peak : max l.peak (l.live.length + 1) = l.peak + 1 := by omega
  have moved : (slab.shmCurofs.toUInt64 + size).toInt64.toInt = size.toNat * (l.peak + 1 : Nat) := by
    have next := nextOffset even
    have small := even.small
    rw [castToInt (by omega),next]
    push_cast
    ring
  refine ⟨_,{ slab with shmCurofs := (slab.shmCurofs.toUInt64 + size).toInt64 },
    allocCarve even.listed even.own list room,?_⟩
  rw [peak]
  exact { even with
    own := Function.update_self ..
    curofs := moved
    fits := fits
    carved := by simp [list,carved]
    uniform := uniformSet even.uniform ⟨rfl,rfl⟩
    free := fun sa mem => by rw [list] at mem; contradiction
    live := fun sa => by
      rw [activeSet,List.mem_cons,even.live]
      split <;> simp_all [Slab.carve]
    nodup := by
      refine List.nodup_cons.mpr ⟨fun mem => ?_,even.nodup⟩
      have active := (even.live node).mp mem
      simp [State.active,fresh] at active }

theorem freeEven {sa} (even : Even capacity size sh slab l) (active : l.s.active sa = true) :
    ∃ slab', Even capacity size sh slab' (loadStep size l (.free sa)) := by
  obtain ⟨al,found,on⟩ := activeFound active
  obtain ⟨at_,len⟩ := even.uniform sa al found
  have held : sa ∈ l.live := (even.live sa).mpr active
  have unlisted : sa ∉ slab.freeList := by
    intro mem
    obtain ⟨al',known,off⟩ := even.free sa mem
    cases Option.some.inj (found.symm.trans known)
    rw [on] at off
    contradiction
  have carved := even.carved
  have some := List.length_pos_of_mem held
  refine ⟨{ slab with freeList := sa::slab.freeList, freeListCnt := slab.freeListCnt + 1 },?_⟩
  rw [loadStep,freeSingle even.own found on at_]
  exact { even with
    own := Function.update_self ..
    carved := by
      rw [List.length_cons,List.length_erase_of_mem held]
      dsimp only
      omega
    uniform := uniformSet even.uniform ⟨at_,len⟩
    free := fun other mem => by
      by_cases this : other = sa
      · subst other
        exact ⟨_,Function.update_self ..,rfl⟩
      · obtain ⟨al',known,off⟩ := even.free other (List.mem_of_ne_of_mem this mem)
        exact ⟨al',by simpa [this] using known,off⟩
    once := List.nodup_cons.mpr ⟨unlisted,even.once⟩
    live := fun other => by
      rw [activeSet,even.nodup.mem_erase_iff,even.live]
      split <;> simp_all
    nodup := even.nodup.erase sa }

/- Whatever malloc() gives for the node: an allocation, or nothing but the mutex changed. -/
theorem allocEven {malloc : Option AllocId} (even : Even capacity size sh slab l)
    (fresh : ∀ node ∈ malloc, l.s.allocs node = none) :
    (∃ s sa slab', shmAllocAlloc l.s size malloc = (s,some sa) ∧
      Even capacity size sh slab' ⟨s,sa::l.live,max l.peak (l.live.length + 1)⟩) ∨
    ∃ s, shmAllocAlloc l.s size malloc = (s,none) ∧ Even capacity size sh slab { l with s := s } := by
  cases list : slab.freeList with
  | cons x rest =>
    obtain ⟨s,slab',result,after⟩ := reuseEven even list
    exact Or.inl ⟨s,x,slab',result malloc,after⟩
  | nil =>
    cases room : slab.hasRoom size with
    | true =>
      cases malloc with
      | some node =>
        obtain ⟨s,slab',result,after⟩ := carveEven even list room (fresh node rfl)
        exact Or.inl ⟨s,node,slab',result,after⟩
      | none => exact Or.inr ⟨_,allocNodeless even.listed even.own list room,{ even with }⟩
    | false => exact Or.inr ⟨_,allocFull even.listed even.own list room,{ even with }⟩

theorem stepEven {a} (even : Even capacity size sh slab l) (allowed : LoadAllowed l a) :
    ∃ slab', Even capacity size sh slab' (loadStep size l a) := by
  cases a with
  | free sa => exact freeEven even allowed
  | alloc node =>
    have fresh : ∀ own ∈ some node, l.s.allocs own = none := fun own here => by
      cases Option.some.inj here
      exact allowed
    rcases allocEven even fresh with ⟨s,sa,slab',result,after⟩ | ⟨s,result,after⟩
    · rw [loadStep,result]
      exact ⟨slab',after⟩
    · rw [loadStep,result]
      exact ⟨slab,after⟩

theorem allocIff {node} (positive : 0 < size.toNat)
    (even : Even capacity size sh slab l) (fresh : l.s.allocs node = none) :
    (shmAllocAlloc l.s size (some node)).2.isSome = true ↔ l.live.length < capacity.toNat / size.toNat := by
  have carved := even.carved
  have most : l.peak ≤ capacity.toNat / size.toNat := by
    rw [Nat.le_div_iff_mul_le positive,Nat.mul_comm]
    exact even.fits
  cases list : slab.freeList with
  | cons x rest =>
    obtain ⟨s,slab',result,_⟩ := reuseEven even list
    rw [list,List.length_cons] at carved
    rw [result]
    exact iff_of_true rfl (by omega)
  | nil =>
    have next : l.live.length < capacity.toNat / size.toNat ↔ slab.hasRoom size = true := by
      rw [roomIff even,Nat.lt_iff_add_one_le,Nat.le_div_iff_mul_le positive,Nat.mul_comm]
      rw [list,List.length_nil,Nat.zero_add] at carved
      rw [carved]
    rw [next]
    cases room : slab.hasRoom size with
    | true =>
      obtain ⟨s,slab',result,_⟩ := carveEven even list room fresh
      rw [result]
      exact iff_of_true rfl rfl
    | false =>
      rw [allocFull even.listed even.own list room]
      exact iff_of_false nofun nofun

theorem newSlabSource (s : State) (size doMlock) (sys : SlabSys) :
    (shmAllocNewSlab s size doMlock sys).1 = s ∨ 0 ≤ sys.ftruncate ∧ ∃ sh fd m,
      (shmAllocNewSlab s size doMlock sys).1 = { s with
        slabList := s.slabList ++ [sh]
        slabs := Function.update s.slabs sh (some ⟨fd,size,m,0,[],0⟩) } := by
  unfold shmAllocNewSlab
  split
  · exact Or.inl rfl
  split
  · exact Or.inl rfl
  split
  · exact Or.inl rfl
  rename_i truncated
  split
  · exact Or.inl rfl
  split
  · exact Or.inl rfl
  · exact Or.inr ⟨Int.not_lt.mp truncated,_,_,_,rfl⟩

theorem startEven {doMlock} {sys : SlabSys} (truncates : Truncates capacity sys)
    (made : (shmAllocInit capacity doMlock sys).slabList ≠ []) :
    ∃ sh slab, Even capacity size sh slab ⟨shmAllocInit capacity doMlock sys,[],0⟩ := by
  unfold shmAllocInit at made ⊢
  dsimp only at made ⊢
  rcases newSlabSource ⟨[],fun _ => none,fun _ => none,true⟩ capacity doMlock sys with failed | ⟨truncated,sh,fd,m,slab⟩
  · rw [failed] at made
    contradiction
  · rw [slab]
    exact ⟨sh,⟨fd,capacity,m,0,[],0⟩,{
      listed := rfl
      own := Function.update_self ..
      whole := rfl
      small := truncates truncated
      curofs := by simp
      fits := Nat.zero_le _
      carved := rfl
      uniform := nofun
      free := nofun
      once := List.nodup_nil
      live := fun sa => ⟨nofun,nofun⟩
      nodup := List.nodup_nil }⟩

theorem reachEven (h : Reach (loadMachine capacity size) l) :
    ∃ sh slab, Even capacity size sh slab l := by
  have initial (l) (start : (loadMachine capacity size).start l) : ∃ sh slab, Even capacity size sh slab l := by
    obtain ⟨⟨doMlock,sys,truncates,init⟩,made,none,zero⟩ := start
    obtain ⟨s,live,peak⟩ := l
    cases init
    cases none
    cases zero
    exact startEven truncates made
  have preserved (l a) (inv : ∃ sh slab, Even capacity size sh slab l) (allowed : LoadAllowed l a) :
      ∃ sh slab, Even capacity size sh slab (loadStep size l a) := by
    obtain ⟨sh,slab,even⟩ := inv
    exact ⟨sh,stepEven even allowed⟩
  exact reachInvariant initial preserved h

end Even

/- An allocation succeeds exactly while fewer than capacity / size are active, and
shm_curofs is size times the largest number that were active at once. -/
theorem uniformCapacity {capacity size : UInt64} {l} (positive : 0 < size)
    (h : Reach (loadMachine capacity size) l) :
    l.live.Nodup ∧ (∀ sa, sa ∈ l.live ↔ l.s.active sa = true) ∧
    (∀ node, l.s.allocs node = none →
      ((shmAllocAlloc l.s size (some node)).2.isSome = true ↔ l.live.length < capacity.toNat / size.toNat)) ∧
    ∃ sh slab, l.s.slabList = [sh] ∧ l.s.slabs sh = some slab ∧ slab.shmCurofs.toInt = size.toNat * l.peak := by
  obtain ⟨sh,slab,even⟩ := reachEven h
  have some : 0 < size.toNat := UInt64.lt_iff_toNat_lt.mp positive
  exact ⟨even.nodup,even.live,fun node fresh => allocIff some even fresh,sh,slab,even.listed,even.own,even.curofs⟩

/- Three are active, two are freed, and one of the two nodes is used again; the slab has
room for one more behind the three. -/
def uniformRun : List Use := [.alloc 1,.alloc 2,.alloc 3,.free 1,.free 3,.alloc 4]

theorem uniformCapacityRun :
    let l := run (loadMachine 100 24) ⟨shmAllocInit 100 false ⟨some 1,5,0,some 4096,0⟩,[],0⟩ uniformRun
    l.live = [3,2] ∧ ∃ sh slab, l.s.slabs sh = some slab ∧ slab.shmCurofs.toInt = 24 * 3 := by
  have reached : Reach (loadMachine 100 24)
      (run (loadMachine 100 24) ⟨shmAllocInit 100 false ⟨some 1,5,0,some 4096,0⟩,[],0⟩ uniformRun) :=
    reachRun (.start ⟨⟨false,_,fun _ => by decide,rfl⟩,by decide,rfl,rfl⟩) (by decide)
  obtain ⟨_,_,_,sh,slab,_,own,curofs⟩ := uniformCapacity (by decide) reached
  exact ⟨by decide,sh,slab,own,curofs⟩

end Libiapp.Shm

import Libiapp.ShmExits
import Libiapp.Tiling
import Libiapp.Words
import Mathlib.Data.Int.ConditionallyCompleteOrder
import Mathlib.Order.ConditionallyCompleteLattice.Basic

/-! The slabs of every reachable allocator state. What was ever carved from a slab
tiles it up to shm_curofs, and the free list holds the carved allocations that are
not active. -/
namespace Libiapp.Shm
open Runs Tiling Words

def Allocation.bytes (al : Allocation) : Set Int :=
  Set.Ico al.shaOffset.toInt (al.shaOffset.toInt + al.shaLen.toNat)

/- The bytes of each allocation in slab `sh`, whether active or free. -/
def State.carved (s : State) (sh : SlabId) (sa : AllocId) : Set Int :=
  match s.allocs sa with
  | none => ∅
  | some al => if al.shaSlab = sh then al.bytes else ∅

def State.freed (s : State) (sh : SlabId) (sa : AllocId) : Bool :=
  match s.allocs sa with
  | none => false
  | some al => al.shaSlab = sh ∧ al.shaIsactive = false

structure Slab.Bounded (slab : Slab) : Prop where
  size : slab.shmSize.toNat < 2^63
  nonneg : 0 ≤ slab.shmCurofs.toInt
  fits : slab.shmCurofs.toInt ≤ slab.shmSize.toNat

structure Sound (s : State) : Prop where
  listed : ∀ sh ∈ s.slabList, ∃ slab, s.slabs sh = some slab
  owner : ∀ sa al, s.allocs sa = some al → ∃ slab, s.slabs al.shaSlab = some slab
  bounded : ∀ sh slab, s.slabs sh = some slab → slab.Bounded
  tiles : ∀ sh slab, s.slabs sh = some slab → Tiles (s.carved sh) 0 slab.shmCurofs.toInt
  free : ∀ sh slab, s.slabs sh = some slab → ∀ sa, slab.freeList.count sa = (s.freed sh sa).toNat
  cnt : ∀ sh slab, s.slabs sh = some slab → slab.freeListCnt = slab.freeList.length

/- Where the test for room does not overflow, shm_curofs moves inside of the slab. -/
theorem roomExact {slab : Slab} {size : UInt64} (bounded : slab.Bounded)
    (exact : slab.shmCurofs.toInt + size.toNat < 2^64) (room : slab.hasRoom size = true) :
    (slab.shmCurofs.toUInt64 + size).toInt64.toInt = slab.shmCurofs.toInt + size.toNat ∧
      slab.shmCurofs.toInt + size.toNat ≤ slab.shmSize.toNat := by
  obtain ⟨sizeBound,nonneg,fits⟩ := bounded
  have offset := castToNat nonneg
  have sum : (slab.shmCurofs.toUInt64 + size).toNat = slab.shmCurofs.toUInt64.toNat + size.toNat :=
    addToNat (by omega)
  have inside : (slab.shmCurofs.toUInt64 + size).toNat ≤ slab.shmSize.toNat := by
    simpa [Slab.hasRoom,UInt64.le_iff_toNat_le] using room
  rw [castToInt (by omega),sum]
  omega

theorem roomMoves {slab : Slab} {size : UInt64} (bounded : slab.Bounded) (small : size.toNat < 2^63)
    (room : slab.hasRoom size = true) :
    (slab.shmCurofs.toUInt64 + size).toInt64.toInt = slab.shmCurofs.toInt + size.toNat ∧
      slab.shmCurofs.toInt + size.toNat ≤ slab.shmSize.toNat := by
  have high := bounded.size
  have fits := bounded.fits
  exact roomExact bounded (by omega) room

theorem carvedSet {s : State} {sa al al'} (found : s.allocs sa = some al) (slab : al'.shaSlab = al.shaSlab)
    (bytes : al'.bytes = al.bytes) (sh : SlabId) : (s.setAlloc sa al').carved sh = s.carved sh := by
  funext other
  by_cases same : other = sa
  · subst other
    simp [State.carved,State.setAlloc,found,slab,bytes]
  · simp [State.carved,State.setAlloc,same]

theorem freedOther {s : State} {sa other al} (different : other ≠ sa) (sh : SlabId) :
    (s.setAlloc sa al).freed sh other = s.freed sh other := by
  simp [State.freed,State.setAlloc,different]

theorem freedSelf {s : State} {sa al} (sh : SlabId) :
    (s.setAlloc sa al).freed sh sa = decide (al.shaSlab = sh ∧ al.shaIsactive = false) := by
  simp [State.freed,State.setAlloc]

theorem slabSource {s : State} {sh f sh' slab'} (found : (s.setSlab sh f).slabs sh' = some slab') :
    ∃ slab, s.slabs sh' = some slab ∧ slab' = if sh' = sh then f slab else slab := by
  by_cases same : sh' = sh
  · subst sh'
    obtain ⟨slab,before,after⟩ := Option.map_eq_some_iff.mp (by simpa [State.setSlab] using found)
    exact ⟨slab,before,by simp [after]⟩
  · exact ⟨slab',by simpa [State.setSlab,same] using found,by simp [same]⟩

theorem slabKept {s : State} {sh f sh' slab} (found : s.slabs sh' = some slab) :
    ∃ slab', (s.setSlab sh f).slabs sh' = some slab' := by
  by_cases same : sh' = sh
  · subst sh'
    exact ⟨f slab,by simp [State.setSlab,found]⟩
  · exact ⟨slab,by simpa [State.setSlab,same] using found⟩

/- Slabs stay listed, and allocations keep their slab, when a slab and an allocation change. -/
theorem listedKept {s : State} {sh f} (sound : Sound s) :
    ∀ sh' ∈ s.slabList, ∃ slab, (s.setSlab sh f).slabs sh' = some slab := by
  intro sh' mem
  obtain ⟨slab,before⟩ := sound.listed sh' mem
  exact slabKept before

theorem ownerKept {s : State} {sh f sa new slab} (sound : Sound s) (own : s.slabs new.shaSlab = some slab) :
    ∀ other al, (s.setAlloc sa new).allocs other = some al →
      ∃ slab, (s.setSlab sh f).slabs al.shaSlab = some slab := by
  intro other al after
  by_cases this : other = sa
  · subst other
    cases show al = new by simpa [State.setAlloc] using after.symm
    exact slabKept own
  · obtain ⟨slab',before⟩ := sound.owner other al (by simpa [State.setAlloc,this] using after)
    exact slabKept before

/- An allocation goes to the free list of its slab or comes from it, with its flag. -/
theorem toggledSound {s : State} {sa al} {active : Bool} {f : Slab → Slab} (sound : Sound s)
    (found : s.allocs sa = some al) (same : ∀ slab, f slab = { slab with
      freeList := (f slab).freeList
      freeListCnt := (f slab).freeListCnt })
    (moves : ∀ slab, s.slabs al.shaSlab = some slab → (f slab).freeListCnt = (f slab).freeList.length ∧
      (f slab).freeList.count sa = (!active).toNat ∧
      ∀ other, other ≠ sa → (f slab).freeList.count other = slab.freeList.count other) :
    Sound ((s.setSlab al.shaSlab f).setAlloc sa { al with shaIsactive := active }) := by
  have carved : ∀ sh, ((s.setSlab al.shaSlab f).setAlloc sa { al with shaIsactive := active }).carved sh = s.carved sh :=
    carvedSet found rfl rfl
  constructor
  case listed => exact listedKept sound
  case owner =>
    obtain ⟨slab,own⟩ := sound.owner sa al found
    exact ownerKept sound own
  case bounded =>
    intro sh slab' after
    obtain ⟨slab,before,rfl⟩ := slabSource after
    split
    · rw [same]
      exact { sound.bounded sh slab before with }
    · exact sound.bounded sh slab before
  case tiles =>
    intro sh slab' after
    obtain ⟨slab,before,rfl⟩ := slabSource after
    rw [carved]
    split
    · rw [same]
      exact sound.tiles sh slab before
    · exact sound.tiles sh slab before
  case free =>
    intro sh slab' after other
    obtain ⟨slab,before,rfl⟩ := slabSource after
    have counted := sound.free sh slab before other
    by_cases own : sh = al.shaSlab
    · subst sh
      rw [if_pos rfl]
      obtain ⟨_,self,others⟩ := moves slab before
      by_cases this : other = sa
      · subst other
        rw [self,freedSelf]
        cases active <;> simp
      · rw [others other this,counted,freedOther this]
        rfl
    · rw [if_neg own,counted]
      by_cases this : other = sa
      · subst other
        rw [freedSelf]
        simp [State.freed,found,Ne.symm own]
      · rw [freedOther this]
        rfl
  case cnt =>
    intro sh slab' after
    obtain ⟨slab,before,rfl⟩ := slabSource after
    split
    · rename_i own
      subst sh
      exact (moves slab before).1
    · exact sound.cnt sh slab before

theorem addFreelistSound {s s' : State} {sa} (sound : Sound s) (added : shmAllocAddFreelist s sa = some s') :
    Sound s' := by
  obtain ⟨al,found,rest⟩ := Option.bind_eq_some_iff.mp added
  split at rest <;> try contradiction
  rename_i active
  have toggled : Sound ((s.setSlab al.shaSlab fun slab =>
      { slab with freeList := sa::slab.freeList, freeListCnt := slab.freeListCnt + 1 }).setAlloc sa
        { al with shaIsactive := false }) := by
    refine toggledSound sound found (fun _ => rfl) (fun slab own => ⟨?_,?_,?_⟩)
    · simp [sound.cnt _ _ own]
    · have unlisted := sound.free _ slab own sa
      simp only [State.freed,found,active] at unlisted
      simpa using unlisted
    · intro other different
      simp [List.count_cons_of_ne (Ne.symm different)]
  cases Option.some.inj rest
  exact { toggled with }

/- What is on a free list belongs to that slab and is not active. -/
theorem listedFree {s : State} {sh slab sa} (sound : Sound s) (own : s.slabs sh = some slab) (mem : sa ∈ slab.freeList) :
    s.freed sh sa = true := by
  have counted := sound.free sh slab own sa
  have positive := List.count_pos_iff.mpr mem
  cases free : s.freed sh sa with
  | true => rfl
  | false =>
    rw [counted,free] at positive
    contradiction

/- What the search found is taken off the free list of its slab. -/
theorem reuseSound {s : State} {size sa al} (sound : Sound s) (fit : lookupFit s size = some sa)
    (found : s.allocs sa = some al) : al.shaIsactive = false ∧ al.shaLen = size ∧ Sound (s.reuse sa al) := by
  obtain ⟨len,sh,_,slab,own,mem⟩ := lookupSource fit
  obtain ⟨rfl,off⟩ : al.shaSlab = sh ∧ al.shaIsactive = false := by
    simpa [State.freed,found] using listedFree sound own mem
  refine ⟨off,by simpa [State.len,found] using len,?_⟩
  refine toggledSound sound found (fun _ => rfl) (fun slab' own' => ⟨?_,?_,?_⟩)
  · cases Option.some.inj (own.symm.trans own')
    have positive := List.length_pos_of_mem mem
    simp only [sound.cnt _ _ own,List.length_erase_of_mem mem]
    omega
  · have once := sound.free _ slab' own' sa
    simp only [State.freed,found,off] at once
    simp [List.count_erase_self,once]
  · intro other different
    exact List.count_erase_of_ne different

theorem carvedFresh {s : State} {sa al} (fresh : s.allocs sa = none) (sh : SlabId) : (s.setAlloc sa al).carved sh =
    if al.shaSlab = sh then Function.update (s.carved sh) sa al.bytes else s.carved sh := by
  funext other
  by_cases this : other = sa
  · subst other
    split <;> simp_all [State.carved,State.setAlloc]
  · split <;> simp [State.carved,State.setAlloc,this]

theorem freedFresh {s : State} {sa al sh other} (fresh : s.allocs sa = none) (active : al.shaIsactive = true) :
    (s.setAlloc sa al).freed sh other = s.freed sh other := by
  by_cases this : other = sa
  · subst other
    simp [State.freed,State.setAlloc,fresh,active]
  · exact freedOther this sh

/- A fresh allocation takes the bytes behind shm_curofs. -/
theorem carveSound {s : State} {sh slab sa} {size : UInt64} (sound : Sound s) (small : size.toNat < 2^63)
    (own : s.slabs sh = some slab) (room : slab.hasRoom size = true) (fresh : s.allocs sa = none) :
    Sound (s.extend sh slab size sa) := by
  have bounded := sound.bounded sh slab own
  obtain ⟨moved,fits⟩ := roomMoves bounded small room
  constructor
  case listed => exact listedKept sound
  case owner => exact ownerKept sound own
  case bounded =>
    intro sh' slab' after
    obtain ⟨before,found,rfl⟩ := slabSource after
    split
    · rename_i this
      subst sh'
      cases Option.some.inj (own.symm.trans found)
      exact ⟨bounded.size,by rw [moved]; have := bounded.nonneg; omega,by rw [moved]; exact fits⟩
    · exact sound.bounded sh' before found
  case tiles =>
    intro sh' slab' after
    obtain ⟨before,found,rfl⟩ := slabSource after
    show Tiles ((s.setAlloc sa (slab.carve sh size)).carved sh') 0 _
    rw [carvedFresh fresh sh',show (slab.carve sh size).shaSlab = sh from rfl]
    by_cases this : sh = sh'
    · subst sh'
      cases Option.some.inj (own.symm.trans found)
      rw [if_pos rfl,if_pos rfl,moved]
      refine tilesExtend (sound.tiles sh slab own) ?_ bounded.nonneg (by omega)
      simp [State.carved,fresh]
    · rw [if_neg this,if_neg (Ne.symm this)]
      exact sound.tiles sh' before found
  case free =>
    intro sh' slab' after other
    obtain ⟨before,found,rfl⟩ := slabSource after
    have counted := sound.free sh' before found other
    rw [← freedFresh fresh (show (slab.carve sh size).shaIsactive = true from rfl)] at counted
    split <;> exact counted
  case cnt =>
    intro sh' slab' after
    obtain ⟨before,found,rfl⟩ := slabSource after
    have counted := sound.cnt sh' before found
    split <;> exact counted

/- Nothing has been carved from a slab that is not there yet. -/
theorem unknownSlab {s : State} {sh} (sound : Sound s) (unknown : s.slabs sh = none) (sa : AllocId) :
    s.carved sh sa = ∅ ∧ s.freed sh sa = false := by
  cases found : s.allocs sa with
  | none => simp [State.carved,State.freed,found]
  | some al =>
    have other : al.shaSlab ≠ sh := by
      intro this
      obtain ⟨slab,known⟩ := sound.owner sa al found
      rw [this,unknown] at known
      contradiction
    simp [State.carved,State.freed,found,other]

theorem insertSound {s : State} {sh fd m} {size : UInt64} (sound : Sound s) (small : size.toNat < 2^63)
    (unknown : s.slabs sh = none) : Sound { s with
      slabList := s.slabList ++ [sh]
      slabs := Function.update s.slabs sh (some ⟨fd,size,m,0,[],0⟩) } := by
  have source : ∀ {sh' slab}, Function.update s.slabs sh (some ⟨fd,size,m,0,[],0⟩) sh' = some slab →
      (sh' = sh ∧ slab = ⟨fd,size,m,0,[],0⟩) ∨ s.slabs sh' = some slab := by
    intro sh' slab found
    by_cases this : sh' = sh
    · subst sh'
      exact Or.inl ⟨rfl,by simpa using found.symm⟩
    · exact Or.inr (by simpa [this] using found)
  have kept : ∀ {sh' slab}, s.slabs sh' = some slab →
      Function.update s.slabs sh (some ⟨fd,size,m,0,[],0⟩) sh' = some slab := by
    intro sh' slab found
    have other : sh' ≠ sh := by
      rintro rfl
      rw [unknown] at found
      contradiction
    simpa [other] using found
  constructor
  case listed =>
    intro sh' mem
    rcases List.mem_append.mp mem with old | new
    · obtain ⟨slab,found⟩ := sound.listed sh' old
      exact ⟨slab,kept found⟩
    · cases List.mem_singleton.mp new
      exact ⟨_,Function.update_self ..⟩
  case owner =>
    intro sa al found
    obtain ⟨slab,known⟩ := sound.owner sa al found
    exact ⟨slab,kept known⟩
  case bounded =>
    intro sh' slab found
    rcases source found with ⟨_,rfl⟩ | old
    · exact ⟨small,by simp,by simp⟩
    · exact sound.bounded sh' slab old
  case tiles =>
    intro sh' slab found
    rcases source found with ⟨rfl,rfl⟩ | old
    · have none : s.carved sh' = fun _ => ∅ := funext fun sa => (unknownSlab sound unknown sa).1
      exact none ▸ tilesNone 0
    · exact sound.tiles sh' slab old
  case free =>
    intro sh' slab found sa
    rcases source found with ⟨rfl,rfl⟩ | old
    · have none := (unknownSlab sound unknown sa).2
      exact (congrArg Bool.toNat none).symm
    · exact sound.free sh' slab old sa
  case cnt =>
    intro sh' slab found
    rcases source found with ⟨_,rfl⟩ | old
    · rfl
    · exact sound.cnt sh' slab old

theorem newSlabSound {s : State} {size doMlock} {sys : SlabSys} (sound : Sound s) (small : size.toNat < 2^63)
    (fresh : ∀ sh ∈ sys.calloc, s.slabs sh = none) : Sound (shmAllocNewSlab s size doMlock sys).1 := by
  unfold shmAllocNewSlab
  split
  · exact sound
  · rename_i sh given
    split
    · exact sound
    split
    · exact sound
    split
    · exact sound
    split
    · exact sound
    · exact insertSound sound small (fresh sh given)

theorem allocSound {s : State} {size malloc} (sound : Sound s) (small : size.toNat < 2^63)
    (fresh : ∀ sa ∈ malloc, s.allocs sa = none) :
    Sound (shmAllocAlloc s size malloc).1 ∧ ∀ sa, (shmAllocAlloc s size malloc).2 = some sa →
      s.active sa = false ∧ ∃ al, (shmAllocAlloc s size malloc).1.allocs sa = some al ∧ al.shaLen = size ∧
        al.shaIsactive = true := by
  have exit := allocExit s size malloc
  generalize shmAllocAlloc s size malloc = result at exit ⊢
  cases exit with
  | reused sa al fit found =>
    obtain ⟨off,len,after⟩ := reuseSound sound fit found
    refine ⟨{ after with },fun sa' this => ?_⟩
    cases Option.some.inj this
    exact ⟨by simp [State.active,found,off],_,Function.update_self ..,len,rfl⟩
  | full => exact ⟨{ sound with },nofun⟩
  | missing => exact ⟨{ sound with },nofun⟩
  | carved sh slab sa _ _ own fits node =>
    have unused : s.allocs sa = none := fresh sa node
    have after := carveSound sound small own fits unused
    refine ⟨{ after with },fun sa' this => ?_⟩
    cases Option.some.inj this
    exact ⟨by simp [State.active,unused],_,Function.update_self ..,rfl,rfl⟩

theorem stepSlabs {s a} (sound : Sound s) (allowed : Allowed s a) : Sound (step s a) := by
  cases a with
  | newSlab size doMlock sys => exact newSlabSound sound allowed.1 allowed.2
  | alloc size malloc => exact (allocSound sound allowed.1 allowed.2).1
  | free sa =>
    simp only [step,shmAllocFree]
    cases added : shmAllocAddFreelist s sa with
    | none => exact sound
    | some s' => exact addFreelistSound sound added

theorem startedSlabs {s} (started : Started s) : Sound s := by
  obtain ⟨slabSize,doMlock,sys,small,rfl⟩ := started
  have empty : Sound ⟨[],fun _ => none,fun _ => none,true⟩ := by constructor <;> intros <;> contradiction
  have made := @newSlabSound _ slabSize doMlock sys empty small (fun _ _ => rfl)
  exact { made with }

theorem reachSlabs {s} (h : Reach shmMachine s) : Sound s :=
  reachInvariant (m := shmMachine) (fun _ => startedSlabs) (fun _ _ => stepSlabs) h

theorem carvedSelf {s : State} {sa al} (found : s.allocs sa = some al) : s.carved al.shaSlab sa = al.bytes := by
  simp [State.carved,found]

/- Each slab is tiled by what was carved from it and has its free allocations, once
each, on its own list. An allocation that is handed out was not active, and active
allocations of one slab share no byte. -/
theorem slabsTiled {s} (h : Reach shmMachine s) :
    (∀ sh slab, s.slabs sh = some slab →
      Tiles (s.carved sh) 0 slab.shmCurofs.toInt ∧
      0 ≤ slab.shmCurofs.toInt ∧ slab.shmCurofs.toInt ≤ slab.shmSize.toNat ∧
      (∀ sa, slab.freeList.count sa = (s.freed sh sa).toNat) ∧ slab.freeListCnt = slab.freeList.length) ∧
    (∀ size malloc sa, Allowed s (.alloc size malloc) → (shmAllocAlloc s size malloc).2 = some sa →
      s.active sa = false ∧ ∃ al, (shmAllocAlloc s size malloc).1.allocs sa = some al ∧ al.shaLen = size ∧
        al.shaIsactive = true) ∧
    ∀ sa sa' al al', s.allocs sa = some al → s.allocs sa' = some al' → al.shaIsactive = true → al'.shaIsactive = true →
      sa ≠ sa' → al.shaSlab = al'.shaSlab → Disjoint al.bytes al'.bytes := by
  have sound := reachSlabs h
  refine ⟨fun sh slab own => ?_,fun size malloc sa allowed => (allocSound sound allowed.1 allowed.2).2 sa,?_⟩
  · have bounded := sound.bounded sh slab own
    exact ⟨sound.tiles sh slab own,bounded.nonneg,bounded.fits,sound.free sh slab own,sound.cnt sh slab own⟩
  · intro sa sa' al al' found found' _ _ different together
    obtain ⟨slab,own⟩ := sound.owner sa al found
    rw [← carvedSelf found,← carvedSelf found',← together]
    exact (sound.tiles _ slab own).apart different

def slabSys (sh : SlabId) : SlabSys := ⟨some sh,5,0,some 4096,0⟩

/- The freed range is found again, the second slab takes what the first cannot, and the
last malloc() fails. -/
def slabsRun : List Act :=
  [.alloc 40 (some 1),.alloc 20 (some 2),.free 1,.newSlab 200 false (slabSys 2),.alloc 40 none,.alloc 60 (some 3),
    .free 2,.alloc 30 none]

theorem slabsTiledRun :
    let s := run shmMachine (shmAllocInit 100 false (slabSys 1)) slabsRun
    s.locked = true ∧ ⋃ sa, s.carved 1 sa = Set.Ico 0 60 := by
  have reached : Reach shmMachine (run shmMachine (shmAllocInit 100 false (slabSys 1)) slabsRun) :=
    reachRun (.start ⟨100,false,slabSys 1,by decide,rfl⟩) (by decide)
  have tiled := ((slabsTiled reached).1 1 ⟨5,100,4096,60,[2],1⟩ (by decide)).1
  exact ⟨by decide,tiled.union⟩

end Libiapp.Shm

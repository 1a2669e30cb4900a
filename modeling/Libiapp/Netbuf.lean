import Libiapp.ShmExits
import Libiapp.ShmUniform

/-! netbuf.c, and a thread that holds netbufs of one size, as the connections of a server
thread do. What malloc() gives comes from outside, for the netbuf itself, for a buffer of
NB_ALLOC_MALLOC, and for the node that shm_alloc_alloc makes. -/
namespace Libiapp.Netbuf
open Runs Shm

inductive AllocType where | none | malloc | posixshm
  deriving DecidableEq, Repr

-- sa is set for NB_ALLOC_POSIXSHM only.
structure IappNetbuf where
  sa : Option AllocId
  bufptr : UInt64
  bufSize : Int32
  nbType : AllocType
  deriving DecidableEq, Repr

structure Memory where
  netbuf : Bool
  buf : Option UInt64
  node : Option AllocId
  deriving DecidableEq, Repr

-- buf_size is an int.
def bufSize (minsize : UInt64) : Int32 := minsize.toUInt32.toInt32

def iappNetbufAlloc (sm : State) (atype : AllocType) (minsize : UInt64) (mem : Memory) : State × Option IappNetbuf :=
  if !mem.netbuf then (sm,none) else
    match atype with
    | .malloc =>
      match mem.buf with
      | none => (sm,none)
      | some bufptr => (sm,some ⟨none,bufptr,bufSize minsize,.malloc⟩)
    | .posixshm =>
      match shmAllocAlloc sm minsize mem.node with
      | (sm,none) => (sm,none)
      | (sm,some sa) => (sm,some ⟨some sa,(sm.allocs sa).elim 0 Allocation.shaPtr,bufSize minsize,.posixshm⟩)
    | .none => (sm,none)

-- Nothing is the end of the program in assert(). A netbuf of no type is leaked.
def iappNetbufFree (sm : State) (n : IappNetbuf) : Option State :=
  match n.nbType with
  | .malloc => some sm
  | .posixshm => (n.sa.bind (shmAllocFree sm)).map Prod.fst
  | .none => some sm

structure Holder where
  sm : State
  held : List IappNetbuf

inductive Act where
  | alloc (mem : Memory)
  | free (n : IappNetbuf)
  deriving DecidableEq, Repr

def step (atype : AllocType) (size : UInt64) (t : Holder) : Act → Holder
  | .alloc mem =>
    match iappNetbufAlloc t.sm atype size mem with
    | (sm,none) => { t with sm := sm }
    | (sm,some n) => ⟨sm,n::t.held⟩
  | .free n => ⟨(iappNetbufFree t.sm n).getD t.sm,t.held.erase n⟩

/- malloc() gives fresh nodes, if any, and only netbufs that are held are freed. -/
def Allowed (t : Holder) : Act → Prop
  | .alloc mem => ∀ node ∈ mem.node, t.sm.allocs node = none
  | .free n => n ∈ t.held

instance (t : Holder) : (a : Act) → Decidable (Allowed t a)
  | .alloc mem => inferInstanceAs (Decidable (∀ node ∈ mem.node, t.sm.allocs node = none))
  | .free n => inferInstanceAs (Decidable (n ∈ t.held))

def holderMachine (atype : AllocType) (size : UInt64) (sm : State) : Machine Holder Act :=
  ⟨fun t => t = ⟨sm,[]⟩,Allowed,step atype size⟩

instance (atype size sm t a) : Decidable ((holderMachine atype size sm).allowed t a) :=
  inferInstanceAs (Decidable (Allowed t a))

section Posixshm
variable {capacity size : UInt64} {sh : SlabId} {slab : Slab} {l : Load} {t : Holder} {sm : State}

/- Each netbuf that is held has one of the active allocations. -/
structure Holds (capacity size : UInt64) (sh : SlabId) (slab : Slab) (l : Load) (t : Holder) : Prop where
  sm : l.s = t.sm
  held : (t.held.map IappNetbuf.sa).Perm (l.live.map some)
  nbType : ∀ n ∈ t.held, n.nbType = .posixshm
  even : Even capacity size sh slab l

theorem Holds.count (h : Holds capacity size sh slab l t) : t.held.length = l.live.length := by
  have same := h.held.length_eq
  rwa [List.length_map,List.length_map] at same

theorem allocHolds {mem} (h : Holds capacity size sh slab l t) (fresh : Allowed t (.alloc mem)) :
    ∃ slab' l', Holds capacity size sh slab' l' (step .posixshm size t (.alloc mem)) := by
  cases made : mem.netbuf with
  | false =>
    simp only [step,iappNetbufAlloc,made,Bool.not_false,if_true]
    exact ⟨slab,l,h⟩
  | true =>
    have unused : ∀ node ∈ mem.node, l.s.allocs node = none := fun node own => by
      rw [h.sm]
      exact fresh node own
    simp only [step,iappNetbufAlloc,made,Bool.not_true,Bool.false_eq_true,if_false]
    rcases allocEven h.even unused with ⟨s,sa,slab',result,after⟩ | ⟨s,result,after⟩
    · rw [h.sm] at result
      simp only [result]
      refine ⟨slab',⟨s,sa::l.live,_⟩,rfl,h.held.cons (some sa),fun n own => ?_,after⟩
      rcases List.mem_cons.mp own with rfl | before
      · rfl
      · exact h.nbType n before
    · rw [h.sm] at result
      simp only [result]
      exact ⟨slab,{ l with s := s },rfl,h.held,h.nbType,after⟩

theorem freeHolds {n} (h : Holds capacity size sh slab l t) (own : n ∈ t.held) :
    ∃ slab' l', Holds capacity size sh slab' l' (step .posixshm size t (.free n)) := by
  obtain ⟨sa,live,known⟩ := List.mem_map.mp (h.held.mem_iff.mp (List.mem_map_of_mem own))
  have freed : (iappNetbufFree t.sm n).getD t.sm = Shm.step t.sm (.free sa) := by
    simp only [iappNetbufFree,h.nbType n own,← known,Shm.step,Option.bind_some]
  obtain ⟨slab',after⟩ := freeEven h.even ((h.even.live sa).mp live)
  refine ⟨slab',_,?_,?_,fun other kept => h.nbType other (List.mem_of_mem_erase kept),after⟩
  · simp only [loadStep,step,h.sm,freed]
  · have left : (some sa::(t.held.erase n).map IappNetbuf.sa).Perm (t.held.map IappNetbuf.sa) := by
      rw [known]
      exact ((List.perm_cons_erase own).map IappNetbuf.sa).symm
    have right : (l.live.map some).Perm (some sa::(l.live.erase sa).map some) := (List.perm_cons_erase live).map some
    exact (left.trans (h.held.trans right)).cons_inv

theorem stepHolds {a} (h : Holds capacity size sh slab l t) (allowed : Allowed t a) :
    ∃ slab' l', Holds capacity size sh slab' l' (step .posixshm size t a) := by
  cases a with
  | alloc mem => exact allocHolds h allowed
  | free n => exact freeHolds h allowed

theorem reachHolds {l₀ : Load} (initial : Holds capacity size sh slab l₀ ⟨sm,[]⟩)
    (h : Reach (holderMachine .posixshm size sm) t) : ∃ slab' l, Holds capacity size sh slab' l t := by
  induction h with
  | start started => exact ⟨slab,l₀,started ▸ initial⟩
  | next _ allowed ih =>
    obtain ⟨slab',l,holds⟩ := ih
    exact stepHolds holds allowed

/- The netbuf has a buffer of `size` bytes of its own. -/
def Sized (size : UInt64) (sm : State) (n : IappNetbuf) : Prop :=
  n.bufSize = bufSize size ∧ ∃ sa ∈ n.sa, ∃ al ∈ sm.allocs sa,
    al.shaIsactive = true ∧ al.shaLen = size ∧ n.bufptr = al.shaPtr

/- With memory for the netbuf and the node it is the slab that decides. -/
theorem netbufGiven (mem : Memory) {node} (positive : 0 < size.toNat) (h : Holds capacity size sh slab l t)
    (made : mem.netbuf = true) (given : mem.node = some node) (fresh : t.sm.allocs node = none)
    (room : t.held.length < capacity.toNat / size.toNat) :
    ∃ sm' n, iappNetbufAlloc t.sm .posixshm size mem = (sm',some n) ∧ Sized size sm' n := by
  rw [← h.sm] at fresh
  rw [h.count] at room
  have taken := (allocIff positive h.even fresh).mpr room
  have unused : ∀ own ∈ mem.node, l.s.allocs own = none := fun own here => by
    rw [given] at here
    cases Option.some.inj here
    exact fresh
  simp only [iappNetbufAlloc,made,Bool.not_true,Bool.false_eq_true,if_false]
  rcases allocEven h.even unused with ⟨s,sa,slab',result,after⟩ | ⟨s,result,_⟩
  · obtain ⟨al,known,on⟩ := activeFound ((after.live sa).mp List.mem_cons_self)
    rw [h.sm] at result
    simp only [result]
    refine ⟨s,_,rfl,rfl,sa,rfl,al,known,on,(after.uniform sa al known).2,?_⟩
    rw [known,Option.elim_some]
  · rw [← given,result] at taken
    exact absurd taken Bool.false_ne_true

theorem netbufRefused (mem : Memory) {node} (positive : 0 < size.toNat) (h : Holds capacity size sh slab l t)
    (given : mem.node = some node) (fresh : t.sm.allocs node = none)
    (full : capacity.toNat / size.toNat ≤ t.held.length) : (iappNetbufAlloc t.sm .posixshm size mem).2 = none := by
  rw [← h.sm] at fresh
  rw [h.count] at full
  have refused := mt (allocIff positive h.even fresh).mp (Nat.not_lt.mpr full)
  rw [← given,h.sm] at refused
  unfold iappNetbufAlloc
  split
  · rfl
  · dsimp only
    split
    · rfl
    · rename_i result
      rw [result] at refused
      exact absurd rfl refused

theorem netbufFrame (sm : State) (size : UInt64) (mem : Memory) {other : AllocId} (unknown : sm.allocs other = none)
    (apart : mem.node ≠ some other) : (iappNetbufAlloc sm .posixshm size mem).1.allocs other = none := by
  have frame : (shmAllocAlloc sm size mem.node).1.allocs other = none := allocFrame unknown apart
  unfold iappNetbufAlloc
  split
  · exact unknown
  · dsimp only
    split
    · rename_i result
      rwa [result] at frame
    · rename_i result
      rwa [result] at frame

/- As many netbufs as the slab has room for can be held at once. -/
theorem fillHolds {l₀ : Load} (positive : 0 < size.toNat) (initial : Holds capacity size sh slab l₀ ⟨sm,[]⟩)
    (unused : ∀ node, sm.allocs node = none) (k : Nat) (fits : k ≤ capacity.toNat / size.toNat) :
    ∃ t, Reach (holderMachine .posixshm size sm) t ∧ t.held.length = k ∧
      ∀ node, k ≤ node → t.sm.allocs node = none := by
  induction k with
  | zero => exact ⟨⟨sm,[]⟩,.start rfl,rfl,fun node _ => unused node⟩
  | succ k ih =>
    obtain ⟨t,reached,count,free⟩ := ih (Nat.le_of_succ_le fits)
    obtain ⟨slab',l,holds⟩ := reachHolds initial reached
    have fresh := free k (Nat.le_refl k)
    have room : t.held.length < capacity.toNat / size.toNat := by rw [count]; exact fits
    obtain ⟨sm',n,result,_⟩ := netbufGiven ⟨true,none,some k⟩ positive holds rfl rfl fresh room
    have allowed : (holderMachine .posixshm size sm).allowed t (.alloc ⟨true,none,some k⟩) :=
      fun node own => Option.some.inj own ▸ fresh
    have next : step .posixshm size t (.alloc ⟨true,none,some k⟩) = ⟨sm',n::t.held⟩ := by simp only [step,result]
    have after := Reach.next reached allowed
    refine ⟨⟨sm',n::t.held⟩,next ▸ after,congrArg (· + 1) count,fun node later => ?_⟩
    have apart : some k ≠ some node := fun same => by
      cases Option.some.inj same
      omega
    have frame := netbufFrame t.sm size ⟨true,none,some k⟩ (free node (by omega)) apart
    rwa [result] at frame

end Posixshm

/- A thread that holds fewer than `n` netbufs gets one more, whatever it did before, when
malloc() gives it the netbuf and the node. -/
def Provides (atype : AllocType) (size : UInt64) (sm : State) (n : Nat) : Prop :=
  ∀ t, Reach (holderMachine atype size sm) t → t.held.length < n →
    ∀ mem : Memory, mem.netbuf = true → ∀ node, mem.node = some node → t.sm.allocs node = none →
      ∃ sm' nb, iappNetbufAlloc t.sm atype size mem = (sm',some nb) ∧ Sized size sm' nb

theorem initUnused (capacity : UInt64) (doMlock) (sys : SlabSys) (node) :
    (shmAllocInit capacity doMlock sys).allocs node = none := by
  unfold shmAllocInit
  rcases newSlabSource ⟨[],fun _ => none,fun _ => none,true⟩ capacity doMlock sys with same | ⟨_,sh,fd,m,slab⟩
  · simp only [same]
  · simp only [slab]

/- One slab provides the netbufs that fit into it. -/
theorem providesIff {capacity size : UInt64} {doMlock : Bool} {sys : SlabSys} (positive : 0 < size.toNat)
    (truncates : Truncates capacity sys) (made : (shmAllocInit capacity doMlock sys).slabList ≠ []) (n : Nat) :
    Provides .posixshm size (shmAllocInit capacity doMlock sys) n ↔ n ≤ capacity.toNat / size.toNat := by
  obtain ⟨sh,slab,initial⟩ : ∃ sh slab, Holds capacity size sh slab ⟨shmAllocInit capacity doMlock sys,[],0⟩
      ⟨shmAllocInit capacity doMlock sys,[]⟩ := by
    obtain ⟨sh,slab,even⟩ := startEven truncates made
    exact ⟨sh,slab,rfl,.nil,fun _ own => absurd own List.not_mem_nil,even⟩
  constructor
  · intro provides
    refine Nat.not_lt.mp fun short => ?_
    have unused := initUnused capacity doMlock sys
    obtain ⟨t,reached,count,free⟩ := fillHolds positive initial unused _ (Nat.le_refl (capacity.toNat / size.toNat))
    obtain ⟨slab',l,holds⟩ := reachHolds initial reached
    have fresh := free t.held.length (Nat.le_of_eq count.symm)
    have refused := netbufRefused ⟨true,none,some t.held.length⟩ positive holds rfl fresh (Nat.le_of_eq count.symm)
    obtain ⟨sm',nb,result,_⟩ := provides t reached (count ▸ short) ⟨true,none,some t.held.length⟩ rfl _ rfl fresh
    rw [result] at refused
    contradiction
  · intro fits t reached few mem made node given fresh
    obtain ⟨slab',l,holds⟩ := reachHolds initial reached
    exact netbufGiven mem positive holds made given fresh (Nat.lt_of_lt_of_le few fits)

end Libiapp.Netbuf

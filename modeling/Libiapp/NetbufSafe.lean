import Libiapp.Netbuf
import Libiapp.ShmTiling

/-! A thread that frees only the netbufs it holds. Each of them has an active allocation of
its own, whatever the thread did before and whether or not its slab was made; so no assert()
of shm_alloc.c stops it, and no two of its buffers share a byte. -/
namespace Libiapp.Netbuf
open Runs Shm

/- Only the allocation that is handed out changes. -/
theorem allocOthers {s : State} {size malloc other} (apart : (shmAllocAlloc s size malloc).2 ≠ some other) :
    (shmAllocAlloc s size malloc).1.allocs other = s.allocs other := by
  have exit := allocExit s size malloc
  generalize shmAllocAlloc s size malloc = result at exit apart ⊢
  cases exit with
  | reused sa => exact Function.update_of_ne (fun same => apart (congrArg some same.symm)) ..
  | full => rfl
  | missing => rfl
  | carved sh slab sa => exact Function.update_of_ne (fun same => apart (congrArg some same.symm)) ..

theorem freeActive {s : State} {sa al} (found : s.allocs sa = some al) (on : al.shaIsactive = true) :
    ∃ s', shmAllocFree s sa = some (s',0) ∧ s'.allocs = Function.update s.allocs sa (some { al with shaIsactive := false }) := by
  simp only [shmAllocFree,shmAllocAddFreelist,found,on,Option.bind_eq_bind,Option.bind_some,if_true]
  exact ⟨_,rfl,rfl⟩

/- Only a netbuf of NB_ALLOC_POSIXSHM has an allocation, and every active allocation has its netbuf. -/
structure Safe (atype : AllocType) (size : UInt64) (t : Holder) : Prop where
  sound : Sound t.sm
  kind : ∀ n ∈ t.held, n.nbType = atype
  owns : ∀ n ∈ t.held, n.nbType = .posixshm → Sized size t.sm n
  bare : ∀ n ∈ t.held, n.nbType ≠ .posixshm → n.sa = none
  once : (t.held.filterMap IappNetbuf.sa).Nodup
  whole : ∀ sa, t.sm.active sa = true → sa ∈ t.held.filterMap IappNetbuf.sa

section Safe
variable {atype : AllocType} {size : UInt64} {t : Holder}

theorem sizedActive {sm n sa} (sized : Sized size sm n) (own : n.sa = some sa) : sm.active sa = true := by
  obtain ⟨_,sa',own',al,found,on,_⟩ := sized
  cases Option.some.inj (own.symm.trans own')
  rw [State.active,show sm.allocs sa = some al from found]
  exact on

theorem sizedKept {sm sm' : State} {n} (sized : Sized size sm n)
    (same : ∀ sa ∈ n.sa, sm'.allocs sa = sm.allocs sa) : Sized size sm' n := by
  obtain ⟨exact_,sa,own,al,found,rest⟩ := sized
  exact ⟨exact_,sa,own,al,(same sa own).trans found,rest⟩

theorem heldSa (safe : Safe atype size t) {n sa} (own : n ∈ t.held) (known : n.sa = some sa) : n.nbType = .posixshm := by
  by_contra other
  rw [safe.bare n own other] at known
  contradiction

/- malloc() has given the buffer, and the allocator is as it was. -/
theorem safeMalloc {n : IappNetbuf} (safe : Safe .malloc size t) (kind : n.nbType = .malloc) (bare : n.sa = none) :
    Safe .malloc size { t with held := n::t.held } where
  sound := safe.sound
  kind := List.forall_mem_cons.mpr ⟨kind,safe.kind⟩
  owns := List.forall_mem_cons.mpr ⟨fun shm => absurd (kind.symm.trans shm) (by decide),safe.owns⟩
  bare := List.forall_mem_cons.mpr ⟨fun _ => bare,safe.bare⟩
  once := by
    rw [List.filterMap_cons_none bare]
    exact safe.once
  whole := by
    rw [List.filterMap_cons_none bare]
    exact safe.whole

theorem safeAlloc {mem} (safe : Safe atype size t) (small : size.toNat < 2^63)
    (fresh : Allowed t (.alloc mem)) : Safe atype size (step atype size t (.alloc mem)) := by
  simp only [step,iappNetbufAlloc]
  cases mem.netbuf with
  | false => exact safe
  | true =>
    cases atype with
    | none => exact safe
    | malloc =>
      cases mem.buf with
      | none => exact safe
      | some bufptr => exact safeMalloc safe rfl rfl
    | posixshm =>
      have unused : ∀ sa ∈ mem.node, t.sm.allocs sa = none := fresh
      obtain ⟨after,given⟩ := allocSound safe.sound small unused
      have others (other) (apart : (shmAllocAlloc t.sm size mem.node).2 ≠ some other) :
          (shmAllocAlloc t.sm size mem.node).1.allocs other = t.sm.allocs other := allocOthers apart
      simp only [Bool.not_true,Bool.false_eq_true,if_false]
      generalize shmAllocAlloc t.sm size mem.node = result at after given others
      obtain ⟨sm,answer⟩ := result
      have kept (n) (own : n ∈ t.held) (kind : n.nbType = .posixshm) : Sized size sm n := by
        refine sizedKept (safe.owns n own kind) fun sa known => others sa fun same => ?_
        have active := sizedActive (safe.owns n own kind) known
        rw [(given sa same).1] at active
        contradiction
      cases answer with
      | none =>
        have whole (sa) (on : sm.active sa = true) : t.sm.active sa = true := by
          rw [State.active,← others sa (by simp)]
          exact on
        exact ⟨after,safe.kind,kept,safe.bare,safe.once,fun sa on => safe.whole sa (whole sa on)⟩
      | some sa =>
        obtain ⟨off,al,found,len,on⟩ := given sa rfl
        have new : sa ∉ t.held.filterMap IappNetbuf.sa := by
          intro mem
          obtain ⟨n,own,known⟩ := List.mem_filterMap.mp mem
          have active := sizedActive (safe.owns n own (heldSa safe own known)) known
          rw [off] at active
          contradiction
        have sized : Sized size sm ⟨some sa,(sm.allocs sa).elim 0 Allocation.shaPtr,bufSize size,.posixshm⟩ :=
          ⟨rfl,sa,rfl,al,found,on,len,by simp [show sm.allocs sa = some al from found]⟩
        refine ⟨after,List.forall_mem_cons.mpr ⟨rfl,safe.kind⟩,List.forall_mem_cons.mpr ⟨fun _ => sized,kept⟩,
          List.forall_mem_cons.mpr ⟨fun other => absurd rfl other,safe.bare⟩,List.nodup_cons.mpr ⟨new,safe.once⟩,?_⟩
        intro other active
        rcases eq_or_ne other sa with rfl | apart
        · exact List.mem_cons_self
        · rw [State.active,others other fun same => apart (Option.some.inj same).symm] at active
          exact List.mem_cons_of_mem _ (safe.whole other active)

theorem safeFree {n} (safe : Safe atype size t) (own : n ∈ t.held) :
    ∃ sm, iappNetbufFree t.sm n = some sm ∧ Safe atype size ⟨sm,t.held.erase n⟩ := by
  have fewer := (List.erase_sublist (a := n) (l := t.held)).filterMap IappNetbuf.sa
  have order := (List.perm_cons_erase own).filterMap IappNetbuf.sa
  have kinds (other) (kept : other ∈ t.held.erase n) := safe.kind other (List.mem_of_mem_erase kept)
  have bare (other) (kept : other ∈ t.held.erase n) := safe.bare other (List.mem_of_mem_erase kept)
  -- A netbuf without an allocation is no business of the allocator.
  have apart (result : iappNetbufFree t.sm n = some t.sm) (other : n.nbType ≠ .posixshm) :
      ∃ sm, iappNetbufFree t.sm n = some sm ∧ Safe atype size ⟨sm,t.held.erase n⟩ := by
    rw [List.filterMap_cons_none (safe.bare n own other)] at order
    exact ⟨t.sm,result,safe.sound,kinds,fun n' kept => safe.owns n' (List.mem_of_mem_erase kept),bare,safe.once.sublist fewer,
      fun sa on => order.subset (safe.whole sa on)⟩
  cases kind : n.nbType with
  | posixshm =>
    obtain ⟨_,sa,known,al,found,on,_⟩ := safe.owns n own kind
    obtain ⟨sm,freed,allocs⟩ := freeActive found on
    have result : iappNetbufFree t.sm n = some sm := by
      simp only [iappNetbufFree,kind,show n.sa = some sa from known,Option.bind_some,freed,Option.map_some]
    have sound : Sound sm := by
      obtain ⟨s',added,same⟩ := Option.bind_eq_some_iff.mp freed
      cases Option.some.inj same
      exact addFreelistSound safe.sound added
    rw [List.filterMap_cons_some known] at order
    have single := (List.nodup_cons.mp (order.nodup_iff.mp safe.once)).1
    refine ⟨sm,result,sound,kinds,?_,bare,safe.once.sublist fewer,?_⟩
    · intro other kept shared
      refine sizedKept (safe.owns other (List.mem_of_mem_erase kept) shared) fun sa' known' => ?_
      have different : sa' ≠ sa := by
        rintro rfl
        exact single (List.mem_filterMap.mpr ⟨other,kept,known'⟩)
      rw [allocs,Function.update_of_ne different]
    · intro sa' active
      rcases eq_or_ne sa' sa with rfl | different
      · simp [State.active,allocs] at active
      · rw [State.active,allocs,Function.update_of_ne different] at active
        rcases List.mem_cons.mp (order.subset (safe.whole sa' active)) with same | kept
        · exact absurd same different
        · exact kept
  | malloc => exact apart (by simp [iappNetbufFree,kind]) (by simp [kind])
  | none => exact apart (by simp [iappNetbufFree,kind]) (by simp [kind])

theorem freshSafe {sm : State} (sound : Sound sm) (unused : ∀ sa, sm.allocs sa = none) : Safe atype size ⟨sm,[]⟩ where
  sound := sound
  kind := by simp
  owns := by simp
  bare := by simp
  once := by simp
  whole sa on := by simp [State.active,unused] at on

theorem emptySound : Sound ⟨[],fun _ => none,fun _ => none,false⟩ := by constructor <;> intros <;> contradiction

/- An allocator as shm_alloc_init leaves it, with a slab or without. -/
theorem initSound {capacity : UInt64} (doMlock) (sys : SlabSys) (truncates : Truncates capacity sys) :
    Sound (shmAllocInit capacity doMlock sys) := by
  rcases newSlabSource ⟨[],fun _ => none,fun _ => none,true⟩ capacity doMlock sys with failed | ⟨truncated,_⟩
  · simp only [shmAllocInit,failed]
    exact emptySound
  · exact startedSlabs ⟨capacity,doMlock,sys,truncates truncated,rfl⟩

theorem reachSafe {sm} (small : size.toNat < 2^63) (initial : Safe atype size ⟨sm,[]⟩) (h : Reach (holderMachine atype size sm) t) :
    Safe atype size t := by
  induction h with
  | start started =>
    cases started
    exact initial
  | @next t a before possible ih =>
    cases a with
    | alloc mem => exact safeAlloc ih small possible
    | free n =>
      obtain ⟨sm',freed,after⟩ := safeFree ih possible
      have goes : (holderMachine atype size sm).step t (.free n) = ⟨sm',t.held.erase n⟩ := by
        simp only [holderMachine,step,freed,Option.getD_some]
      rw [goes]
      exact after

/- Buffers that share no byte of a slab. -/
def Apart (sm : State) (n n' : IappNetbuf) : Prop :=
  ∀ sa ∈ n.sa, ∀ sa' ∈ n'.sa, ∀ al ∈ sm.allocs sa, ∀ al' ∈ sm.allocs sa', al.shaSlab = al'.shaSlab →
    Disjoint al.bytes al'.bytes

theorem Apart.symm {sm n n'} (apart : Apart sm n n') : Apart sm n' n := by
  intro sa own sa' own' al found al' found' together
  exact (apart sa' own' sa own al' found' al found together.symm).symm

theorem heldApart (safe : Safe atype size t) : t.held.Pairwise (Apart t.sm) := by
  have different := List.pairwise_filterMap.mp safe.once
  refine different.imp ?_
  intro n n' distinct sa own sa' own' al found al' found' together
  obtain ⟨slab,there⟩ := safe.sound.owner sa al found
  rw [← carvedSelf found,← carvedSelf found',← together]
  exact (safe.sound.tiles _ slab there).apart (distinct sa own sa' own')

end Safe

end Libiapp.Netbuf

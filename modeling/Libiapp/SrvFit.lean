import Libiapp.SrvBuffers
import Libiapp.SrvConfig

/-! The server with the memory that main gives its threads. Each thread has the allocator that
the configuration asks for, so the netbufs of its connections come from one slab, and
max_num_conns is how many connections a thread can have. -/
namespace Libiapp.SrvBuffers
open Runs Netbuf Config
open Libiapp.Srv (clients subject actThread)

def serverCfg (cfg : Config.Cfg) : Srv.Cfg := ⟨cfg.numThreads.toInt.toNat,cfg.ioBytes,cfg.doFdAffinity.toInt⟩

def configuredMachine (cfg : Config.Cfg) (sys : Nat → Shm.SlabSys) : Machine State (Srv.Act × Memory) :=
  bufferMachine cfg.atype (serverCfg cfg) fun i => cfg.sm (sys i)

/- One thread with room for two connections: both are taken in, the first one fails in its
write, is closed and freed, and a third one gets its netbuf. -/
def narrow : Config.Cfg := ⟨1,1024,2,.posixshm,1667,1,0⟩

def accepts (newfd : Int) (node : Nat) : Srv.Act × Memory :=
  (.accept 0 .completed newfd 0 Srv.plenty,⟨true,none,some node⟩)

def drops (a : Connection.Act) : Srv.Act × Memory := (.conn 0 0 a,⟨true,none,none⟩)

def turnover : List (Srv.Act × Memory) :=
  [accepts 5 1,accepts 6 2,drops (.wrote .error (-1)),drops .closed,drops .cleanup,accepts 5 3]

def narrowStart : State := ⟨Srv.started (serverCfg narrow),fun _ => narrow.sm Config.granted,fun _ => none,false⟩

set_option maxRecDepth 8000 in
theorem turnoverPossible : Possible (configuredMachine narrow fun _ => Config.granted) narrowStart turnover := by
  refine ⟨⟨rfl,⟨rfl,by decide,rfl,nofun⟩,?_⟩,⟨rfl,⟨rfl,by decide,rfl,nofun⟩,?_⟩,
    ⟨rfl,⟨rfl,rfl,rfl,_,rfl,_,rfl,by decide⟩,nofun⟩,⟨rfl,⟨rfl,rfl,rfl,_,rfl,_,rfl,by decide⟩,nofun⟩,
    ⟨rfl,⟨rfl,rfl,rfl,_,rfl,_,rfl,by decide⟩,nofun⟩,⟨rfl,⟨rfl,by decide,rfl,nofun⟩,?_⟩,trivial⟩
  all_goals
    intro _ node own
    cases Option.some.inj own
    rfl

def turnedOver : State := run (configuredMachine narrow fun _ => Config.granted) narrowStart turnover

theorem reachTurnedOver : Reach (configuredMachine narrow fun _ => Config.granted) turnedOver :=
  reachRun (.start rfl) turnoverPossible

section Configured
variable {cfg : Config.Cfg} {sys : Nat → Shm.SlabSys} {s : State}

theorem ioBytesSmall (positive : 0 < cfg.ioSize) : cfg.ioBytes.toNat < 2^63 := by
  have bytes := ioBytesExact positive
  have bound := cfg.ioSize.toInt_lt
  omega

theorem smSafe (truncates : ∀ i, Shm.Truncates cfg.slabSize (sys i)) (i : Nat) :
    Safe cfg.atype cfg.ioBytes ⟨cfg.sm (sys i),[]⟩ := by
  unfold Cfg.sm
  split
  · exact freshSafe (initSound true (sys i) (truncates i)) (initUnused cfg.slabSize true (sys i))
  · exact freshSafe emptySound fun _ => rfl

theorem configuredOwned (positive : 0 < cfg.ioSize) (truncates : ∀ i, Shm.Truncates cfg.slabSize (sys i))
    (h : Reach (configuredMachine cfg sys) s) : Owned cfg.atype (serverCfg cfg) (fun i => cfg.sm (sys i)) s :=
  reachOwned (ioBytesSmall positive) (smSafe truncates) h

/- The netbufs of a thread's conns are all that its allocator has handed out. -/
theorem buffersOwned (positive : 0 < cfg.ioSize) (truncates : ∀ i, Shm.Truncates cfg.slabSize (sys i))
    (h : Reach (configuredMachine cfg sys) s) :
    s.aborted = false ∧ (s.srv.crashed = false → ∀ i r, s.srv.threads[i]? = some r →
      (∀ c ∈ r.connList, ∃ n, s.nb c.id = some n ∧ n.nbType = cfg.atype ∧
        (cfg.atype = .posixshm → Sized cfg.ioBytes (s.sm i) n)) ∧
      r.connList.Pairwise (fun c c' => ∀ n ∈ s.nb c.id, ∀ n' ∈ s.nb c'.id, Apart (s.sm i) n n') ∧
      ∀ sa, (s.sm i).active sa = true ↔ ∃ c ∈ r.connList, ∃ n ∈ s.nb c.id, n.sa = some sa) := by
  have owned := configuredOwned positive truncates h
  refine ⟨owned.safe,?_⟩
  intro up i r found
  obtain ⟨held,reached,perm⟩ := owned.holder up i
  have safe := reachSafe (ioBytesSmall positive) (smSafe truncates i) reached
  rw [Srv.clientsFound found,List.map_map] at perm
  have has (c) (listed : c ∈ r.connList) : ∃ n ∈ held, s.nb c.id = some n := by
    obtain ⟨n,own,known⟩ := List.mem_map.mp (perm.subset (List.mem_map_of_mem listed))
    exact ⟨n,own,known.symm⟩
  refine ⟨?_,?_,?_⟩
  · intro c listed
    obtain ⟨n,own,known⟩ := has c listed
    exact ⟨n,known,safe.kind n own,fun shm => safe.owns n own ((safe.kind n own).trans shm)⟩
  · have apart : (held.map some).Pairwise fun o o' => ∀ n ∈ o, ∀ n' ∈ o', Apart (s.sm i) n n' := by
      refine List.pairwise_map.mpr ((heldApart safe).imp ?_)
      intro n n' apart m same m' same'
      cases Option.some.inj same
      cases Option.some.inj same'
      exact apart
    have order := (perm.pairwise_iff fun other n' own' n own => (other n own n' own').symm).mpr apart
    exact List.pairwise_map.mp order
  · intro sa
    constructor
    · intro active
      obtain ⟨n,own,known⟩ := List.mem_filterMap.mp (safe.whole sa active)
      obtain ⟨c,listed,same⟩ := List.mem_map.mp (perm.symm.subset (List.mem_map_of_mem own))
      exact ⟨c,listed,n,same,known⟩
    · rintro ⟨c,listed,n,there,known⟩
      obtain ⟨n',own,known'⟩ := has c listed
      cases Option.some.inj (there.symm.trans known')
      exact sizedActive (safe.owns n own (heldSa safe own known)) known

set_option maxRecDepth 8000 in
theorem buffersOwnedRun : clients turnedOver.srv 0 = [1,2] ∧ ∀ r, turnedOver.srv.threads[0]? = some r →
    r.connList.Pairwise fun c c' => ∀ n ∈ turnedOver.nb c.id, ∀ n' ∈ turnedOver.nb c'.id, Apart (turnedOver.sm 0) n n' := by
  have owned := buffersOwned (by decide) (fun _ _ => by decide) reachTurnedOver
  exact ⟨by decide,fun r found => (owned.2 rfl 0 r found).2.1⟩

/- Where the product is an int the slab has room for max_num_conns netbufs. -/
theorem slabRoom (positive : 0 < cfg.ioSize) (conns : 0 < cfg.maxNumConns)
    (fits : cfg.maxNumConns.toInt * cfg.ioSize.toInt < 2^31) (small : cfg.slabSize.toNat < 2^63) :
    cfg.slabSize.toNat / cfg.ioBytes.toNat = cfg.maxNumConns.toInt.toNat := by
  have io : 0 < cfg.ioSize.toInt := Int32.lt_iff_toInt_lt.mp positive
  have some : 0 < cfg.maxNumConns.toInt := Int32.lt_iff_toInt_lt.mp conns
  have bytes := ioBytesExact positive
  have product : 0 < cfg.maxNumConns.toInt * cfg.ioSize.toInt := Int.mul_pos some io
  have size : (cfg.slabSize.toNat : Int) = cfg.maxNumConns.toInt * cfg.ioSize.toInt := by
    rw [slabSizeExact small,Int.bmod_def]
    split <;> omega
  refine Nat.div_eq_of_eq_mul_left (by omega) ?_
  rw [← Int.ofNat_inj,size,Int.natCast_mul,Int.toNat_of_nonneg (Int.le_of_lt some),bytes]

theorem configuredHolds {i t} (atype : cfg.atype = .posixshm) (truncates : Shm.Truncates cfg.slabSize (sys i))
    (granted : (cfg.sm (sys i)).slabList ≠ []) (reached : Reach (holderMachine cfg.atype cfg.ioBytes (cfg.sm (sys i))) t) :
    ∃ sh slab l, Holds cfg.slabSize cfg.ioBytes sh slab l t := by
  rw [atype] at reached
  rw [Cfg.sm,if_pos atype] at granted reached
  obtain ⟨sh,slab,even⟩ := Shm.startEven truncates granted
  have initial : Holds cfg.slabSize cfg.ioBytes sh slab ⟨Shm.shmAllocInit cfg.slabSize true (sys i),[],0⟩
      ⟨Shm.shmAllocInit cfg.slabSize true (sys i),[]⟩ := ⟨rfl,.nil,fun _ own => absurd own List.not_mem_nil,even⟩
  obtain ⟨slab',l,holds⟩ := reachHolds initial reached
  exact ⟨sh,slab',l,holds⟩

/- A connection for which there is memory is taken in while its thread has fewer than
max_num_conns of them, and else it is closed. -/
theorem connsLimited (atype : cfg.atype = .posixshm) (positive : 0 < cfg.ioSize) (conns : 0 < cfg.maxNumConns)
    (fits : cfg.maxNumConns.toInt * cfg.ioSize.toInt < 2^31) (truncates : ∀ i, Shm.Truncates cfg.slabSize (sys i))
    (granted : ∀ i, (cfg.sm (sys i)).slabList ≠ []) (h : Reach (configuredMachine cfg sys) s)
    (up : s.srv.crashed = false) :
    (∀ i, (clients s.srv i).length ≤ cfg.maxNumConns.toInt.toNat) ∧
    ∀ a mem node, Allowed s (a,mem) → asks s.srv a = true → mem.netbuf = true → mem.node = some node →
      ((clients s.srv (actThread a)).length < cfg.maxNumConns.toInt.toNat →
        (step cfg.atype s (a,mem)).srv.crashed = false →
        clients (step cfg.atype s (a,mem)).srv (actThread a) = clients s.srv (actThread a) ++ [subject s.srv a]) ∧
      (cfg.maxNumConns.toInt.toNat ≤ (clients s.srv (actThread a)).length →
        clients (step cfg.atype s (a,mem)).srv = clients s.srv ∧
        subject s.srv a ∈ (step cfg.atype s (a,mem)).srv.closed ∧
        subject s.srv a ∈ (step cfg.atype s (a,mem)).srv.released) := by
  have owned := configuredOwned positive truncates h
  have bytes : 0 < cfg.ioBytes.toNat := by
    have exact_ := ioBytesExact positive
    have io : 0 < cfg.ioSize.toInt := Int32.lt_iff_toInt_lt.mp positive
    omega
  have small : cfg.slabSize.toNat < 2^63 := by
    have made := granted 0
    rw [Cfg.sm,if_pos atype] at made
    exact grantedSmall (truncates 0) made
  have room := slabRoom positive conns fits small
  have counted (i) : ∃ held sh slab l, Holds cfg.slabSize cfg.ioBytes sh slab l ⟨s.sm i,held⟩ ∧
      held.length = (clients s.srv i).length := by
    obtain ⟨held,reached,perm⟩ := owned.holder up i
    obtain ⟨sh,slab,l,holds⟩ := configuredHolds atype (truncates i) (granted i) reached
    exact ⟨held,sh,slab,l,holds,by simpa using perm.length_eq.symm⟩
  constructor
  · intro i
    obtain ⟨held,sh,slab,l,holds,count⟩ := counted i
    have live : held.length = l.live.length := holds.count
    have carved := holds.even.carved
    have most : l.peak ≤ cfg.slabSize.toNat / cfg.ioBytes.toNat := by
      rw [Nat.le_div_iff_mul_le bytes,Nat.mul_comm]
      exact holds.even.fits
    omega
  · intro a mem node allowed asked netbuf given
    obtain ⟨held,sh,slab,l,holds,count⟩ := counted (actThread a)
    have keeps := Srv.runningKeeps owned.server up
    have fresh : (s.sm (actThread a)).allocs node = none := allowed.2.2 asked node given
    have size : s.srv.cfg.ioSize = cfg.ioBytes := congrArg Srv.Cfg.ioSize owned.fixed
    simp only [step,asked,if_true,atype,size]
    constructor
    · intro few alive
      obtain ⟨sm',n,result,_⟩ := netbufGiven mem bytes holds netbuf given fresh (by rw [room]; exact count ▸ few)
      dsimp only at result
      simp only [result,Option.isSome_some] at alive ⊢
      rw [givenLists keeps allowed.2.1 asked alive,Function.update_self]
    · intro full
      have refused := netbufRefused mem bytes holds given fresh (by rw [room]; exact count ▸ full)
      simp only [refused,Option.isSome_none]
      obtain ⟨same,closed,released,_⟩ := refusedLists keeps allowed.2.1 asked
      exact ⟨same,closed,released⟩

set_option maxRecDepth 8000 in
theorem connsLimitedRun : clients (step .posixshm turnedOver (accepts 7 4)).srv = clients turnedOver.srv ∧
    3 ∈ (step .posixshm turnedOver (accepts 7 4)).srv.closed := by
  have limited := (connsLimited rfl (by decide) (by decide) (by decide) (fun _ _ => by decide) (fun _ => by decide)
    reachTurnedOver rfl).2 (accepts 7 4).1 (accepts 7 4).2 4
  have allowed : Allowed turnedOver (accepts 7 4) := by
    refine ⟨rfl,⟨rfl,by decide,rfl,nofun⟩,?_⟩
    intro _ node own
    cases Option.some.inj own
    rfl
  obtain ⟨same,closed,_⟩ := (limited allowed rfl rfl rfl).2 (by decide)
  exact ⟨same,closed⟩

end Configured

end Libiapp.SrvBuffers

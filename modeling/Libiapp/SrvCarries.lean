import Libiapp.SrvHandoff

/-! The descriptors of the connections of a server. `fds` has what accept() returned, and a
connection is named by its place there; whoever has it, a queue or a conn, has this
descriptor with it. -/
namespace Libiapp.Srv
open Runs Comm Connection

/- A conn keeps its descriptor. -/
theorem behindFd (c : Connection.State) (note) : (behind c note).c.fd = c.c.fd := by cases note <;> rfl

theorem notifyFd (c : Connection.State) (note) : (notify c note).c.fd = c.c.fd := by
  unfold notify
  split
  · exact behindFd c note
  · rfl

theorem connCloseFd (c : Connection.State) : (connClose c).c.fd = c.c.fd := by
  unfold connClose
  split
  · rfl
  · exact notifyFd _ _

theorem connStepFd (c : Connection.State) (a) : (Connection.step c a).c.fd = c.c.fd := by
  cases a with
  | connClose => exact connCloseFd c
  | connSetStatsCb | setThreshold | closed => rfl
  | wrote status nwritten =>
    simp only [Connection.step,connWriteCb]
    repeat' split
    all_goals first | rfl | exact notifyFd _ _ | exact connCloseFd _
  | cleanup =>
    simp only [Connection.step,clientEvCleanupCb]
    split <;> exact notifyFd _ _
  | ret =>
    simp only [Connection.step]
    split
    · rfl
    · exact behindFd _ _

theorem settleFd (c : Connection.State) : (settle c).c.fd = c.c.fd := by
  have update (note) : (thrsrvConnUpdateCb c note).c.fd = c.c.fd := by
    cases note with
    | error =>
      simp only [thrsrvConnUpdateCb]
      split
      · rw [connStepFd,connCloseFd]
      · exact connCloseFd c
    | closing | freeing => rfl
  unfold settle
  split
  · rfl
  · rw [connStepFd,update]

theorem connNewFd {alloc fd comm ioSize cb cbdata c} (made : connNew alloc fd comm ioSize cb cbdata = some c) :
    c.c.fd = fd := by
  unfold connNew at made
  split at made <;> try contradiction
  cases Option.some.inj made
  cases alloc.comm <;> rfl

/- Who has a connection has the descriptor that its accept() returned. -/
structure ThrCarries (fds : List Int) (r : Thr) : Prop where
  queued : ∀ new ∈ r.newfdList, fds[new.id]? = some new.newfd
  served : ∀ c ∈ r.connList, fds[c.id]? = some c.conn.c.fd

structure Carries (fds : List Int) (sys : Server) : Prop where
  count : sys.accepted = fds.length
  threads : ∀ r ∈ sys.threads, ThrCarries fds r

def actThread : Act → Nat
  | .accept i .. | .lock i | .round i _ | .unlock i | .conn i _ _ => i

def fromListener : Act → Bool
  | .accept .. => true
  | _ => false

section Server
variable {fds : List Int} {sys : Server} {i : Nat} {r : Thr}

theorem Carries.found (h : Carries fds sys) (found : sys.threads[i]? = some r) : ThrCarries fds r :=
  h.threads r (List.mem_of_getElem? found)

theorem Carries.set (h : Carries fds sys) (carries : ThrCarries fds r) : Carries fds (sys.setThr i r) where
  count := h.count
  threads := by
    intro other mem
    rcases List.mem_or_eq_of_mem_set mem with old | same
    · exact h.threads other old
    · rw [same]
      exact carries

/- It is enough to look at the thread that a callback runs on. -/
theorem Carries.on {f : Thr → Server} (h : Carries fds sys)
    (each : ∀ r, sys.threads[i]? = some r → Carries fds (f r)) : Carries fds (sys.on i f) := by
  unfold Server.on
  split
  · exact h
  · rename_i r found
    exact each r found

theorem ThrCarries.grow (newfd : Int) (h : ThrCarries fds r) : ThrCarries (fds ++ [newfd]) r := by
  have still {id : Nat} {fd} (here : fds[id]? = some fd) : (fds ++ [newfd])[id]? = some fd := by
    obtain ⟨inside,_⟩ := List.getElem?_eq_some_iff.mp here
    rw [List.getElem?_append_left inside,here]
  exact ⟨fun new mem => still (h.queued new mem),fun c mem => still (h.served c mem)⟩

theorem Carries.accept (newfd : Int) (h : Carries fds sys) :
    Carries (fds ++ [newfd]) { sys with accepted := sys.accepted + 1 } where
  count := by simp [h.count]
  threads r mem := (h.threads r mem).grow newfd

theorem finishCarries {mem} {new : NewFd} (h : Carries fds sys) (own : fds[new.id]? = some new.newfd) :
    Carries fds (thrsrvFinishSetup sys mem i new) := by
  refine h.on fun r found => ?_
  split
  · exact ⟨h.count,h.threads⟩
  · rename_i c made
    split
    · exact ⟨h.count,h.threads⟩
    · refine h.set ⟨(h.found found).queued,?_⟩
      intro client mem
      rcases List.mem_append.mp mem with old | last
      · exact (h.found found).served client old
      · rw [List.mem_singleton.mp last]
        exact own.trans (congrArg some (connNewFd made).symm)

theorem refusedCarries {mem newfd flowid} (h : Carries fds sys) :
    Carries fds (thrsrvAcceptfd sys mem i .error newfd flowid) :=
  h.on fun _ _ => by simpa using h

theorem acceptCarries {mem newfd flowid} (h : Carries fds sys) (inside : i < sys.threads.length) :
    Carries (fds ++ [newfd]) (thrsrvAcceptfd sys mem i .completed newfd flowid) := by
  have next := h.accept newfd
  have own : (fds ++ [newfd])[sys.accepted]? = some newfd := by simp [h.count]
  rw [thrsrvAcceptfd,onFound _ (List.getElem?_eq_getElem inside),if_neg (by simp)]
  dsimp only
  split
  · rename_i thrId target
    refine next.on fun dr found => ?_
    unfold thrsrvNewfdEnqueue
    cases mem.newfd with
    | false => exact ⟨next.count,next.threads⟩
    | true =>
      refine next.set ⟨?_,(next.found found).served⟩
      intro new mem
      rcases List.mem_append.mp mem with old | last
      · exact (next.found found).queued new old
      · rw [List.mem_singleton.mp last]
        exact own
  · exact finishCarries next own

theorem roundCarries {mem} (h : Carries fds sys) : Carries fds (deferredRound sys mem i) := by
  refine h.on fun r found => ?_
  have here := h.found found
  split
  · exact h
  · rename_i th rest queue
    have later : ThrCarries fds { r with newfdList := rest } :=
      ⟨fun new mem => here.queued new (by rw [queue]; exact List.mem_cons_of_mem _ mem),here.served⟩
    exact finishCarries (h.set later) (here.queued th (by rw [queue]; exact List.mem_cons_self))

theorem calledCarries {k a} (h : Carries fds sys) : Carries fds (connCalled sys i k a) := by
  refine h.on fun r found => ?_
  have here := h.found found
  split
  · exact h
  · rename_i c at_
    dsimp only
    split
    · exact ⟨h.count,h.threads⟩
    · split
      · have fewer := h.set (i := i) (r := { r with connList := r.connList.eraseIdx k, numClients := r.numClients - 1 })
          ⟨here.queued,fun client mem => here.served client (List.mem_of_mem_eraseIdx mem)⟩
        exact ⟨fewer.count,fewer.threads⟩
      · refine Carries.set (by split <;> exact ⟨h.count,h.threads⟩) ⟨here.queued,?_⟩
        intro client mem
        rcases List.mem_or_eq_of_mem_set mem with old | same
        · exact here.served client old
        · rw [same]
          have own := here.served c (List.mem_of_getElem? at_)
          rw [settleFd,connStepFd]
          exact own

theorem stepCarries {a} (h : Carries fds sys) (inner : fromListener a = false) : Carries fds (step sys a) := by
  cases a with
  | accept => cases inner
  | lock i => exact h.on fun r found => h.set ⟨(h.found found).queued,(h.found found).served⟩
  | unlock i => exact h.on fun r found => h.set ⟨(h.found found).queued,(h.found found).served⟩
  | round i mem => exact roundCarries h
  | conn i k a => exact calledCarries h

end Server

theorem finishCrashes {sys : Server} {mem i r} {new : NewFd} (found : sys.threads[i]? = some r)
    (unlinked : Unlinked mem.conn) : (thrsrvFinishSetup sys mem i new).crashed = true := by
  obtain ⟨conn,readBuf,netbuf,comm⟩ := unlinked
  rw [thrsrvFinishSetup,onFound _ found]
  split
  · rename_i none
    simp [connNew,conn,readBuf,netbuf] at none
  · rename_i c made
    obtain ⟨_,_,_,crashed⟩ := newSource made
    rw [crashed,comm]
    rfl

/- As long as the server is up it has every connection in one place. -/
theorem runningKeeps {sys} (h : Reach serverMachine sys) (up : sys.crashed = false) : Keeps [] sys := by
  induction h with
  | start initial =>
    obtain ⟨cfg,rfl⟩ := initial
    exact startedKeeps cfg
  | next before possible ih =>
    cases stepGoes (ih possible.1) possible with
    | keeps _ keeps => exact keeps
    | @finishes sys' mem i r new call finish keeps found fresh home =>
      have same : serverMachine.step _ _ = _ := finish
      rw [same] at up ⊢
      refine finishKeeps keeps found fresh home ?_
      intro unlinked
      rw [finishCrashes found unlinked] at up
      contradiction

end Libiapp.Srv

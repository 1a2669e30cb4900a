import Libiapp.SrvClient

/-! Where the accepted connections of a server are. A callback takes at most one of them in
hand and puts it somewhere, so that the lists of all threads, the released connections and
the one in hand together always are the accepted ones. -/
namespace Libiapp.Srv
open Runs Comm Connection

def Thr.ids (r : Thr) : List Nat := r.newfdList.map NewFd.id ++ r.connList.map Client.id

def Server.places (sys : Server) : List Nat := Custody.all Thr.ids sys.threads ++ sys.released

/- The thread for a flow id, where the server goes by flow ids. -/
def Home (cfg : Cfg) (i : Nat) (flowid : UInt32) : Prop :=
  cfg.doFdAffinity = 1 → flowid ≠ 0 → i = (flowid &&& 7).toNat % cfg.numThreads

/- Each connection is in one place, and that is one list of one thread unless it is released;
a released one has had its descriptor closed, and none is closed twice. -/
structure HandedOn (sys : Server) : Prop where
  places : sys.places.Perm (List.range sys.accepted)
  closedOnce : sys.closed.Nodup
  released : ∀ id ∈ sys.released, id ∈ sys.closed
  waiting : ∀ r ∈ sys.threads, ∀ new ∈ r.newfdList, new.id ∉ sys.closed
  clients : ∀ r ∈ sys.threads, r.numClients = r.connList.length
  home : ∀ i r, sys.threads[i]? = some r → ∀ c ∈ r.connList, Home sys.cfg i c.flowid

structure ThrKeeps (cfg : Cfg) (closed : List Nat) (crashed : Bool) (i : Nat) (r : Thr) : Prop where
  app : r.appId = i
  waiting : ∀ new ∈ r.newfdList, new.id ∉ closed ∧ Home cfg i new.flowid
  clients : r.numClients = r.connList.length
  home : ∀ c ∈ r.connList, Home cfg i c.flowid
  conns : crashed = false → ∀ c ∈ r.connList, Fine c.conn ∧ (c.id ∈ closed ↔ c.conn.port.closed = true)

/- The state of a server whose running callback has the connections of `hand` in hand. -/
structure Keeps (hand : List Nat) (sys : Server) : Prop where
  places : (hand ++ sys.places).Perm (List.range sys.accepted)
  closedOnce : sys.closed.Nodup
  old : ∀ id ∈ sys.closed, id < sys.accepted
  released : ∀ id ∈ sys.released, id ∈ sys.closed
  size : sys.threads.length = sys.cfg.numThreads
  each : ∀ i r, sys.threads[i]? = some r → ThrKeeps sys.cfg sys.closed sys.crashed i r

theorem keepsHandedOn {sys} (h : Keeps [] sys) : HandedOn sys where
  places := h.places
  closedOnce := h.closedOnce
  released := h.released
  waiting r mem new queued := by
    obtain ⟨i,found⟩ := List.mem_iff_getElem?.mp mem
    exact ((h.each i r found).waiting new queued).1
  clients r mem := by
    obtain ⟨i,found⟩ := List.mem_iff_getElem?.mp mem
    exact (h.each i r found).clients
  home i r found := (h.each i r found).home

section Keeps
variable {hand hand' : List Nat} {id : Nat} {sys : Server} {i : Nat} {r r' : Thr}

theorem Keeps.set (h : Keeps hand sys) (found : sys.threads[i]? = some r)
    (thread : ThrKeeps sys.cfg sys.closed sys.crashed i r') (same : (hand' ++ r'.ids).Perm (hand ++ r.ids)) :
    Keeps hand' (sys.setThr i r') where
  places := by
    have exchanged := (Custody.exchanged Thr.ids found same).append_right sys.released
    rw [List.append_assoc,List.append_assoc] at exchanged
    exact exchanged.trans h.places
  closedOnce := h.closedOnce
  old := h.old
  released := h.released
  size := List.length_set.trans h.size
  each j x other := by
    have other : (sys.threads.set i r')[j]? = some x := other
    by_cases here : i = j
    · subst j
      rw [List.getElem?_set_self (List.getElem?_eq_some_iff.mp found).1] at other
      cases Option.some.inj other
      exact thread
    · rw [List.getElem?_set_ne here] at other
      exact h.each j x other

theorem keepsFresh (h : Keeps (id::hand) sys) (found : sys.threads[i]? = some r) : id ∉ r.ids := by
  have distinct : (id::(hand ++ sys.places)).Nodup := h.places.nodup_iff.mpr List.nodup_range
  intro mem
  refine (List.nodup_cons.mp distinct).1 (List.mem_append_right _ (List.mem_append_left _ ?_))
  exact List.mem_flatMap.mpr ⟨r,List.mem_of_getElem? found,mem⟩

theorem ThrKeeps.close {cfg closed crashed} (h : ThrKeeps cfg closed crashed i r) (fresh : id ∉ r.ids) :
    ThrKeeps cfg (id::closed) crashed i r where
  app := h.app
  waiting new queued := by
    have apart : new.id ≠ id := by
      rintro rfl
      exact fresh (List.mem_append_left _ (List.mem_map_of_mem queued))
    exact ⟨by simp [apart,(h.waiting new queued).1],(h.waiting new queued).2⟩
  clients := h.clients
  home := h.home
  conns alive c listed := by
    have apart : c.id ≠ id := by
      rintro rfl
      exact fresh (List.mem_append_right _ (List.mem_map_of_mem listed))
    obtain ⟨fine,closed⟩ := h.conns alive c listed
    exact ⟨fine,by simp [apart,closed]⟩

theorem Keeps.lt (h : Keeps (id::hand) sys) : id < sys.accepted :=
  List.mem_range.mp (h.places.subset List.mem_cons_self)

theorem Keeps.close (h : Keeps (id::hand) sys) (fresh : id ∉ sys.closed) :
    Keeps (id::hand) { sys with closed := id::sys.closed } where
  places := h.places
  closedOnce := List.nodup_cons.mpr ⟨fresh,h.closedOnce⟩
  old other mem := by
    rcases List.mem_cons.mp mem with rfl | before
    · exact h.lt
    · exact h.old other before
  released other mem := List.mem_cons_of_mem _ (h.released other mem)
  size := h.size
  each i r found := (h.each i r found).close (keepsFresh h found)

theorem Keeps.release (h : Keeps [id] sys) (closed : id ∈ sys.closed) :
    Keeps [] { sys with released := id::sys.released } where
  places := by
    have moved : (Custody.all Thr.ids sys.threads ++ id::sys.released).Perm (id::sys.places) := List.perm_middle
    exact moved.trans h.places
  closedOnce := h.closedOnce
  old := h.old
  released other mem := by
    rcases List.mem_cons.mp mem with rfl | before
    · exact closed
    · exact h.released other before
  size := h.size
  each := h.each

theorem Keeps.giveUp (h : Keeps [id] sys) (fresh : id ∉ sys.closed) : Keeps [] (sys.giveUp id) :=
  (h.close fresh).release List.mem_cons_self

theorem Keeps.accept (h : Keeps [] sys) : Keeps [sys.accepted] { sys with accepted := sys.accepted + 1 } where
  places := by
    rw [List.range_succ]
    exact (h.places.cons sys.accepted).trans (List.perm_append_singleton _ _).symm
  closedOnce := h.closedOnce
  old id mem := Nat.lt_succ_of_lt (h.old id mem)
  released := h.released
  size := h.size
  each := h.each

/- A client comes to conn_list, wherever in it. -/
theorem Keeps.list (c : Client) {conns : List Client} (h : Keeps [c.id] sys) (found : sys.threads[i]? = some r)
    (order : conns.Perm (c::r.connList)) (home : Home sys.cfg i c.flowid)
    (conn : sys.crashed = false → Fine c.conn ∧ (c.id ∈ sys.closed ↔ c.conn.port.closed = true)) :
    Keeps [] (sys.setThr i { r with connList := conns, numClients := r.numClients + 1 }) := by
  have thread := h.each i r found
  refine h.set found ⟨thread.app,thread.waiting,?_,?_,?_⟩ ?_
  · simp [order.length_eq,thread.clients]
  · intro c' listed
    rcases List.mem_cons.mp (order.subset listed) with rfl | before
    · exact home
    · exact thread.home c' before
  · intro alive c' listed
    rcases List.mem_cons.mp (order.subset listed) with rfl | before
    · exact conn alive
    · exact thread.conns alive c' before
  · have moved := (order.map Client.id).append_left (r.newfdList.map NewFd.id)
    exact moved.trans List.perm_middle

theorem Keeps.unlist {c : Client} {k : Nat} (h : Keeps [] sys) (found : sys.threads[i]? = some r)
    (client : r.connList[k]? = some c) :
    Keeps [c.id] (sys.setThr i { r with connList := r.connList.eraseIdx k, numClients := r.numClients - 1 }) := by
  have thread := h.each i r found
  obtain ⟨inside,rfl⟩ := List.getElem?_eq_some_iff.mp client
  refine h.set found ⟨thread.app,thread.waiting,?_,?_,?_⟩ ?_
  · simp only [thread.clients,List.length_eraseIdx_of_lt inside]
    omega
  · exact fun c' listed => thread.home c' (List.mem_of_mem_eraseIdx listed)
  · exact fun alive c' listed => thread.conns alive c' (List.mem_of_mem_eraseIdx listed)
  · have order := (List.getElem_cons_eraseIdx_perm inside).map Client.id
    calc
      List.Perm (r.connList[k].id::(r.newfdList.map NewFd.id ++ (r.connList.eraseIdx k).map Client.id))
          (r.newfdList.map NewFd.id ++ r.connList[k].id::(r.connList.eraseIdx k).map Client.id) :=
        List.perm_middle.symm
      List.Perm _ r.ids := order.append_left _

theorem Keeps.relist {k : Nat} (c : Client)
    (h : Keeps [c.id] (sys.setThr i { r with connList := r.connList.eraseIdx k, numClients := r.numClients - 1 }))
    (found : sys.threads[i]? = some r) (inside : k < r.connList.length) (home : Home sys.cfg i c.flowid)
    (conn : Fine c.conn ∧ (c.id ∈ sys.closed ↔ c.conn.port.closed = true)) :
    Keeps [] (sys.setThr i { r with connList := r.connList.set k c }) := by
  have there := List.getElem?_set_self
    (a := { r with connList := r.connList.eraseIdx k, numClients := r.numClients - 1 })
    (List.getElem?_eq_some_iff.mp found).1
  have listed := h.list c there (List.set_perm_cons_eraseIdx inside c) home fun _ => conn
  simp only [Server.setThr,List.set_set,Int.sub_add_cancel] at listed
  exact listed

theorem Keeps.enqueue (new : NewFd) (h : Keeps [new.id] sys) (found : sys.threads[i]? = some r)
    (fresh : new.id ∉ sys.closed) (home : Home sys.cfg i new.flowid) :
    Keeps [] (sys.setThr i { r with newfdList := r.newfdList ++ [new] }) := by
  have thread := h.each i r found
  refine h.set found ⟨thread.app,?_,thread.clients,thread.home,thread.conns⟩ ?_
  · intro new' queued
    rcases List.mem_append.mp queued with before | now
    · exact thread.waiting new' before
    · cases List.mem_singleton.mp now
      exact ⟨fresh,home⟩
  · simp only [Thr.ids,List.map_append,List.map_cons,List.map_nil,List.append_assoc,List.nil_append]
    exact List.perm_middle

theorem Keeps.dequeue {new : NewFd} {rest : List NewFd} (h : Keeps [] sys) (found : sys.threads[i]? = some r)
    (queue : r.newfdList = new::rest) : Keeps [new.id] (sys.setThr i { r with newfdList := rest }) := by
  have thread := h.each i r found
  refine h.set found ⟨thread.app,?_,thread.clients,thread.home,thread.conns⟩ ?_
  · exact fun new' queued => thread.waiting new' (queue ▸ List.mem_cons_of_mem _ queued)
  · simp only [Thr.ids,queue]
    rfl

theorem Keeps.crash (h : Keeps hand sys) : Keeps hand { sys with crashed := true } where
  places := h.places
  closedOnce := h.closedOnce
  old := h.old
  released := h.released
  size := h.size
  each i r found := { h.each i r found with conns := nofun }

/- What is in hand when the process ends is nowhere. -/
theorem Keeps.lost (h : Keeps [id] sys) : ¬ HandedOn { sys with crashed := true } := by
  intro handed
  have held := h.places.length_eq
  have placed : sys.places.length = (List.range sys.accepted).length := handed.places.length_eq
  simp only [List.length_append,List.length_singleton,placed] at held
  omega

end Keeps

end Libiapp.Srv

import MapReduce.Library.Fields
import MapReduce.Library.Machine
import MapReduce.Master.State

/-!
# The worker registry

`Master::update_workers` (`w7/src/master/masterimpl.cc`) brings the two containers of clients,
`m_Clients` and `m_ClientMap`, in line with the worker nodes ZooKeeper lists. Read
`registry_mirrors` first: after every refresh of a master that has not failed, the clients are
exactly those of the listed nodes, and a client that stays is the same object in the same order.

Clients that are removed are not deleted, so an address is never used twice. Where `m_ClientMap.at`
throws, there is no registry afterwards.
-/

namespace MapReduce

open Std (ExtTreeMap)

/-! ## Clients -/

/-- `ClientStatus`. -/
inductive ClientStatus where
  | idle
  | mapRunning
  | reduceRunning
  | mapDone
  | reduceDone
  | broken
  | deadlineExceed
  deriving DecidableEq, Repr

/-- `PingStatus`. -/
inductive PingStatus where
  | pingCheck
  | pingSuccess
  | pingFail
  deriving DecidableEq, Repr

/-- The members of a `MapReduceClient`. -/
structure MapReduceClient where
  address : Str
  clientStatus : ClientStatus
  pingStatus : PingStatus
  nMapRequests : Int
  nReduceRequests : Int
  deriving DecidableEq, Repr

/-- The constructor of `MapReduceClient`. It does not set the ping status, which is what the memory
holds. -/
def MapReduceClient.make (pingStatus : PingStatus) : MapReduceClient :=
  ⟨[], .idle, pingStatus, 0, 0⟩

/-- `ClientInfo`: the address of a worker and the path of its node. -/
structure ClientInfo where
  address : Str
  nodeid : Str
  deriving DecidableEq, Repr

/-- The members of a master that are about its workers, and the client objects by address. -/
structure Registry where
  hasFailed : Bool
  clients : List ClientId
  clientMap : ExtTreeMap ClientId ClientInfo compare
  objects : ClientId → MapReduceClient
  next : ClientId

/-- What ZooKeeper answers during a refresh: the names of the worker nodes, which hold no slash, and
the data of a node. `memory` is what a new client finds in its memory. -/
structure ZkWorkers where
  names : List Str
  plain : ∀ name ∈ names, '/' ∉ name
  data : Str → Str
  memory : ClientId → PingStatus

/-- The path of a worker node. -/
def nodePath (name : Str) : Str := "/workers/".toList ++ name

namespace Registry

/-- The registry of a new master. -/
def init (objects : ClientId → MapReduceClient) : Registry := ⟨false, [], ∅, objects, 0⟩

/-! ## The refresh -/

/-- `worker_client_already_added`, from a position of `m_Clients` on. -/
def workerClientAlreadyAdded (r : Registry) (wrkPath : Str) : List ClientId → Option Bool
  | [] => some false
  | client :: rest => do
      let info ← r.clientMap[client]?
      if info.nodeid = wrkPath then some true else workerClientAlreadyAdded r wrkPath rest

/-- `new MapReduceClient`, at the next free address. -/
def newClient (r : Registry) (memory : ClientId → PingStatus) : Registry :=
  { r with objects := Function.update r.objects r.next (.make (memory r.next)), next := r.next + 1 }

/-- `add_client`. -/
def addClient (r : Registry) (client : ClientId) (addr wrkrPath : Str) : Registry :=
  { r with
    clientMap := r.clientMap.insertIfNew client ⟨addr, wrkrPath⟩
    clients := r.clients ++ [client] }

/-- A client for the node `name` is created and added. -/
def addWorker (w : ZkWorkers) (name : Str) (r : Registry) : Registry :=
  (r.newClient w.memory).addClient r.next (w.data (nodePath name)) (nodePath name)

/-- The loop of `update_workers` that adds clients. -/
def addWorkers (w : ZkWorkers) : List Str → Registry → Option Registry
  | [], r => some r
  | name :: wrkrs, r => do
      if ← r.workerClientAlreadyAdded (nodePath name) r.clients then addWorkers w wrkrs r
      else addWorkers w wrkrs (r.addWorker w name)

/-- The client at an index is erased from both containers. -/
def dropClient (r : Registry) (i : Nat) (client : ClientId) : Registry :=
  { r with clientMap := r.clientMap.erase client, clients := r.clients.eraseIdx i }

/-- The loop of `update_workers` that removes clients, from index `i` on. After a removal it stays
at its index. -/
def removeWorkers (wrkrs : List Str) (i : Nat) (r : Registry) : Option Registry :=
  match _hi : r.clients[i]? with
  | none => some r
  | some client =>
      match r.clientMap[client]? with
      | none => none
      | some info =>
          let storedNodeSuffix := Fields.lastField '/' info.nodeid
          if storedNodeSuffix ∈ wrkrs then removeWorkers wrkrs (i + 1) r
          else removeWorkers wrkrs i (r.dropClient i client)
termination_by r.clients.length - i
decreasing_by
  · have hlt := (List.getElem?_eq_some_iff.mp _hi).1
    omega
  · have hlt := (List.getElem?_eq_some_iff.mp _hi).1
    have hlength : (r.dropClient i client).clients.length = r.clients.length - 1 :=
      List.length_eraseIdx_of_lt hlt
    omega

/-- `update_workers`. -/
def updateWorkers (w : ZkWorkers) (r : Registry) : Option Registry :=
  if r.hasFailed then some r
  else do
    let r ← addWorkers w w.names r
    removeWorkers w.names 0 r

/-! ## What a refresh keeps -/

/-- The node of a client. -/
def nodeid (r : Registry) (client : ClientId) : Str :=
  r.clientMap[client]?.elim [] ClientInfo.nodeid

/-- The two containers hold the same clients, none of them twice, and no client is new. -/
structure Consistent (r : Registry) : Prop where
  nodup : r.clients.Nodup
  keys : ∀ client, client ∈ r.clients ↔ client ∈ r.clientMap
  fresh : ∀ client ∈ r.clients, client < r.next

/-- The clients are those of the worker nodes `names`. -/
structure Mirrors (r : Registry) (names : List Str) : Prop extends Consistent r where
  nodesNodup : (r.clients.map r.nodeid).Nodup
  nodes : ∀ path, path ∈ r.clients.map r.nodeid ↔ path ∈ names.map nodePath

/-- Each client has an entry. -/
theorem Consistent.get {r : Registry} (h : r.Consistent) {client : ClientId}
    (hclient : client ∈ r.clients) :
    ∃ info, r.clientMap[client]? = some info ∧ r.nodeid client = info.nodeid := by
  have hmem := (h.keys client).mp hclient
  refine ⟨r.clientMap[client], ExtTreeMap.getElem?_eq_some_getElem hmem, ?_⟩
  rw [nodeid, ExtTreeMap.getElem?_eq_some_getElem hmem]
  rfl

/-- The lookup finds the clients of a node. -/
theorem Consistent.already_added {r : Registry} (h : r.Consistent) (wrkPath : Str)
    {clients : List ClientId} (hsub : ∀ client ∈ clients, client ∈ r.clients) :
    r.workerClientAlreadyAdded wrkPath clients =
      some (decide (wrkPath ∈ clients.map r.nodeid)) := by
  induction clients with
  | nil => simp [workerClientAlreadyAdded]
  | cons client rest ih =>
      rw [List.forall_mem_cons] at hsub
      obtain ⟨info, hinfo, hnode⟩ := h.get hsub.1
      rw [workerClientAlreadyAdded, hinfo, Option.bind_eq_bind, Option.bind_some, ← hnode,
        ih hsub.2]
      by_cases hpath : r.nodeid client = wrkPath
      · simp [hpath]
      · simp [hpath, Ne.symm hpath]

/-! ### Adding -/

/-- `Extends r r'`: clients were added to `r`, and its own clients are as they were. -/
structure Extends (r r' : Registry) : Prop where
  clients : ∃ new, r'.clients = r.clients ++ new ∧ ∀ client ∈ new, r.next ≤ client
  info : ∀ client < r.next, r'.clientMap[client]? = r.clientMap[client]?
  objects : ∀ client < r.next, r'.objects client = r.objects client
  next : r.next ≤ r'.next
  hasFailed : r'.hasFailed = r.hasFailed

/-- Nothing is added. -/
theorem Extends.refl (r : Registry) : r.Extends r :=
  ⟨⟨[], by simp, by simp⟩, fun _ _ => rfl, fun _ _ => rfl, Nat.le_refl _, rfl⟩

/-- Additions compose. -/
theorem Extends.trans {r m r' : Registry} (h : r.Extends m) (h' : m.Extends r') : r.Extends r' := by
  obtain ⟨⟨new, hnew, hfresh⟩, hinfo, hobjects, hnext, hfailed⟩ := h
  obtain ⟨⟨new', hnew', hfresh'⟩, hinfo', hobjects', hnext', hfailed'⟩ := h'
  refine ⟨⟨new ++ new', ?_, ?_⟩, ?_, ?_, Nat.le_trans hnext hnext', hfailed'.trans hfailed⟩
  · rw [hnew', hnew, List.append_assoc]
  · rw [List.forall_mem_append]
    exact ⟨hfresh, fun client hclient => Nat.le_trans hnext (hfresh' client hclient)⟩
  · intro client hclient
    exact (hinfo' client (Nat.lt_of_lt_of_le hclient hnext)).trans (hinfo client hclient)
  · intro client hclient
    exact (hobjects' client (Nat.lt_of_lt_of_le hclient hnext)).trans (hobjects client hclient)

/-- The entries after a client is added. -/
theorem add_worker_get {r : Registry} (hnot : r.next ∉ r.clientMap) (w : ZkWorkers) (name : Str)
    (client : ClientId) :
    (r.addWorker w name).clientMap[client]? = if r.next = client then
      some ⟨w.data (nodePath name), nodePath name⟩ else r.clientMap[client]? := by
  show (r.clientMap.insertIfNew r.next _)[client]? = _
  simp [ExtTreeMap.getElem?_insertIfNew, hnot]

/-- A client is added. -/
theorem Consistent.add_extends {r : Registry} (h : r.Consistent) (w : ZkWorkers) (name : Str) :
    r.Extends (r.addWorker w name) := by
  have hnot : r.next ∉ r.clientMap := fun hmem =>
    Nat.lt_irrefl _ (h.fresh _ ((h.keys _).mpr hmem))
  refine ⟨⟨[r.next], rfl, by simp⟩, ?_, ?_, Nat.le_succ _, rfl⟩
  · intro client hclient
    rw [add_worker_get hnot, if_neg (Nat.ne_of_gt hclient)]
  · intro client hclient
    exact Function.update_of_ne (Nat.ne_of_lt hclient) ..

/-- Adding a client for a node that has none. -/
theorem Mirrors.add {r : Registry} {names : List Str} (h : r.Mirrors names) (w : ZkWorkers)
    {name : Str} (hnew : nodePath name ∉ r.clients.map r.nodeid) :
    (r.addWorker w name).Mirrors (names ++ [name]) := by
  have hnot : r.next ∉ r.clients := fun hmem => Nat.lt_irrefl _ (h.fresh _ hmem)
  have hnotMap : r.next ∉ r.clientMap := fun hmem => hnot ((h.keys _).mpr hmem)
  have hclients : (r.addWorker w name).clients = r.clients ++ [r.next] := rfl
  have hnodes : (r.addWorker w name).clients.map (r.addWorker w name).nodeid =
      r.clients.map r.nodeid ++ [nodePath name] := by
    rw [hclients, List.map_append, List.map_singleton]
    congr 1
    · refine List.map_congr_left fun client hclient => ?_
      rw [nodeid, add_worker_get hnotMap, if_neg (Nat.ne_of_gt (h.fresh client hclient))]
      rfl
    · rw [nodeid, add_worker_get hnotMap, if_pos rfl]
      rfl
  refine ⟨⟨?_, fun client => ?_, ?_⟩, ?_, fun path => ?_⟩
  · rw [hclients]
    exact h.nodup.append (List.nodup_singleton _) (List.disjoint_singleton.mpr hnot)
  · rw [hclients, List.mem_append, List.mem_singleton, h.keys]
    show _ ↔ client ∈ r.clientMap.insertIfNew r.next _
    rw [ExtTreeMap.mem_insertIfNew, compare_eq_iff_eq, or_comm, eq_comm]
  · rw [hclients, List.forall_mem_append]
    refine ⟨fun client hclient => Nat.lt_succ_of_lt (h.fresh client hclient), ?_⟩
    intro client hclient
    rw [List.mem_singleton.mp hclient]
    exact Nat.lt_succ_self r.next
  · rw [hnodes]
    exact h.nodesNodup.append (List.nodup_singleton _) (List.disjoint_singleton.mpr hnew)
  · rw [hnodes, List.map_append, List.mem_append, List.mem_append, h.nodes, List.map_singleton]

/-- The loop that adds clients. -/
theorem Mirrors.add_all {r : Registry} {names : List Str} (h : r.Mirrors names) (w : ZkWorkers)
    (wrkrs : List Str) :
    ∃ r', addWorkers w wrkrs r = some r' ∧ r'.Mirrors (names ++ wrkrs) ∧ r.Extends r' := by
  induction wrkrs generalizing r names with
  | nil => exact ⟨r, rfl, by simpa using h, .refl r⟩
  | cons name wrkrs ih =>
      have hadded := h.already_added (nodePath name) fun _ hclient => hclient
      by_cases hmem : nodePath name ∈ r.clients.map r.nodeid
      · -- the node has a client: its name is listed already
        have hsame : r.Mirrors (names ++ [name]) := by
          refine ⟨h.toConsistent, h.nodesNodup, fun path => ?_⟩
          rw [List.map_append, List.mem_append, h.nodes, List.map_singleton, List.mem_singleton]
          have hlisted := (h.nodes _).mp hmem
          refine ⟨Or.inl, ?_⟩
          intro hpath
          rcases hpath with hpath | rfl
          · exact hpath
          · exact hlisted
        obtain ⟨r', hrun, hr', hext⟩ := ih hsame
        refine ⟨r', ?_, by simpa using hr', hext⟩
        rw [addWorkers, hadded]
        simp [hmem, hrun]
      · obtain ⟨r', hrun, hr', hext⟩ := ih (h.add w hmem)
        refine ⟨r', ?_, by simpa using hr', (h.add_extends w name).trans hext⟩
        rw [addWorkers, hadded]
        simp [hmem, hrun]

/-! ### Removing -/

/-- `Restricts wrkrs r r'`: the clients whose nodes are not listed were removed from `r`. -/
structure Restricts (wrkrs : List Str) (r r' : Registry) : Prop where
  clients : r'.clients = r.clients.filter fun client =>
    Fields.lastField '/' (r.nodeid client) ∈ wrkrs
  keys : ∀ client, client ∈ r'.clients ↔ client ∈ r'.clientMap
  info : ∀ client ∈ r'.clients, r'.clientMap[client]? = r.clientMap[client]?
  objects : r'.objects = r.objects
  next : r'.next = r.next
  hasFailed : r'.hasFailed = r.hasFailed

/-- Removing a client keeps the containers consistent. -/
theorem Consistent.drop_client {r : Registry} (h : r.Consistent) {i : Nat} {client : ClientId}
    (hi : r.clients[i]? = some client) :
    (r.dropClient i client).Consistent ∧
      (r.dropClient i client).clients = r.clients.filter (· != client) ∧
      ∀ other ≠ client, (r.dropClient i client).clientMap[other]? = r.clientMap[other]? := by
  obtain ⟨hlt, rfl⟩ := List.getElem?_eq_some_iff.mp hi
  have hclients : (r.dropClient i r.clients[i]).clients = r.clients.filter (· != r.clients[i]) := by
    show r.clients.eraseIdx i = _
    rw [← h.nodup.erase_getElem i hlt, h.nodup.erase_eq_filter]
  have hget : ∀ other ≠ r.clients[i],
      (r.dropClient i r.clients[i]).clientMap[other]? = r.clientMap[other]? := by
    intro other hother
    show (r.clientMap.erase r.clients[i])[other]? = _
    rw [ExtTreeMap.getElem?_erase, if_neg]
    rw [compare_eq_iff_eq]
    exact hother.symm
  refine ⟨⟨?_, fun other => ?_, ?_⟩, hclients, hget⟩
  · rw [hclients]
    exact h.nodup.filter _
  · rw [hclients, List.mem_filter, h.keys]
    show _ ↔ other ∈ r.clientMap.erase r.clients[i]
    rw [ExtTreeMap.mem_erase, ne_eq, compare_eq_iff_eq, bne_iff_ne, and_comm, ne_comm]
  · intro other hother
    rw [hclients] at hother
    exact h.fresh other (List.mem_of_mem_filter hother)

/-- The other clients keep their nodes. -/
theorem Consistent.drop_nodeid {r : Registry} (h : r.Consistent) {i : Nat} {client : ClientId}
    (hi : r.clients[i]? = some client) {other : ClientId} (hother : other ≠ client) :
    (r.dropClient i client).nodeid other = r.nodeid other := by
  rw [nodeid, (h.drop_client hi).2.2 other hother, nodeid]

/-- A client that is removed is not among the others. -/
theorem Consistent.ne_of_mem_drop {r : Registry} (h : r.Consistent) {i : Nat} {client : ClientId}
    (hi : r.clients[i]? = some client) {other : ClientId}
    (hother : other ∈ (r.dropClient i client).clients) : other ≠ client := by
  rw [(h.drop_client hi).2.1] at hother
  simpa using (List.mem_filter.mp hother).2

/-- Removing a client whose node is not listed comes before removing the others. -/
theorem Consistent.restricts_of_drop {r r' : Registry} (h : r.Consistent) {wrkrs : List Str}
    {i : Nat} {client : ClientId} (hi : r.clients[i]? = some client)
    (hnot : Fields.lastField '/' (r.nodeid client) ∉ wrkrs)
    (hr' : (r.dropClient i client).Restricts wrkrs r') : r.Restricts wrkrs r' := by
  obtain ⟨-, hclients, hget⟩ := h.drop_client hi
  refine ⟨?_, hr'.keys, fun other hother => ?_, hr'.objects, hr'.next, hr'.hasFailed⟩
  · have hfilter : r'.clients = ((r.dropClient i client).clients).filter fun client' =>
        Fields.lastField '/' ((r.dropClient i client).nodeid client') ∈ wrkrs := hr'.clients
    rw [hfilter, hclients, List.filter_filter]
    refine List.filter_congr fun other _ => ?_
    by_cases hother : other = client
    · subst hother
      simpa using hnot
    · simp [hother, h.drop_nodeid hi hother]
  · have hin : other ∈ (r.dropClient i client).clients := by
      rw [hr'.clients] at hother
      exact List.mem_of_mem_filter hother
    exact (hr'.info other hother).trans (hget other (h.ne_of_mem_drop hi hin))

/-- The loop that removes clients, from an index on before which all nodes are listed. -/
theorem Consistent.remove_all {r : Registry} (h : r.Consistent) (wrkrs : List Str) {i : Nat}
    (hbefore : ∀ client ∈ r.clients.take i, Fields.lastField '/' (r.nodeid client) ∈ wrkrs) :
    ∃ r', removeWorkers wrkrs i r = some r' ∧ r.Restricts wrkrs r' := by
  fun_induction removeWorkers wrkrs i r with
  | case1 i r hi =>
      -- the end of the list: all nodes are listed
      have hall : r.clients.take i = r.clients :=
        List.take_of_length_le (List.getElem?_eq_none_iff.mp hi)
      rw [hall] at hbefore
      refine ⟨r, rfl, ?_, h.keys, fun _ _ => rfl, rfl, rfl, rfl⟩
      rw [eq_comm, List.filter_eq_self]
      simpa using hbefore
  | case2 i r client hi hnone =>
      obtain ⟨info, hinfo, -⟩ := h.get (List.mem_of_getElem? hi)
      rw [hinfo] at hnone
      cases hnone
  | case3 i r client hi info hinfo suffix hlisted ih =>
      have hnode : r.nodeid client = info.nodeid := by rw [nodeid, hinfo]; rfl
      refine ih h ?_
      rw [List.take_add_one, hi, List.forall_mem_append]
      refine ⟨hbefore, fun other hother => ?_⟩
      obtain rfl : other = client := by simpa using hother
      rw [hnode]
      exact hlisted
  | case4 i r client hi info hinfo suffix hlisted ih =>
      have hnode : r.nodeid client = info.nodeid := by rw [nodeid, hinfo]; rfl
      have htake : (r.dropClient i client).clients.take i = r.clients.take i := by
        show (r.clients.eraseIdx i).take i = _
        have hlt := (List.getElem?_eq_some_iff.mp hi).1
        rw [List.eraseIdx_eq_take_drop_succ, List.take_append_of_le_length
          (by rw [List.length_take]; omega), List.take_take, Nat.min_self]
      have hbefore' : ∀ other ∈ (r.dropClient i client).clients.take i,
          Fields.lastField '/' ((r.dropClient i client).nodeid other) ∈ wrkrs := by
        intro other hother
        rw [h.drop_nodeid hi (h.ne_of_mem_drop hi (List.mem_of_mem_take hother))]
        rw [htake] at hother
        exact hbefore other hother
      obtain ⟨r', hrun, hr'⟩ := ih (h.drop_client hi).1 hbefore'
      refine ⟨r', hrun, h.restricts_of_drop hi ?_ hr'⟩
      rw [hnode]
      exact hlisted

/-! ### Runs -/

/-- The last part of the path of a node is its name. -/
theorem last_field_node_path {name : Str} (h : '/' ∉ name) :
    Fields.lastField '/' (nodePath name) = name := by
  have hpath : nodePath name = "/workers".toList ++ '/' :: name := rfl
  rw [hpath]
  exact Fields.last_field_append h

/-- `Refreshed w r r'`: the registry mirrors what ZooKeeper lists, the clients whose nodes are still
listed come first, in their order, and are the same objects with the same members. -/
structure Refreshed (w : ZkWorkers) (r r' : Registry) : Prop where
  mirrors : r'.Mirrors w.names
  order : ∃ new, r'.clients = (r.clients.filter fun client =>
      r.nodeid client ∈ w.names.map nodePath) ++ new ∧ ∀ client ∈ new, client ∉ r.clients
  same : ∀ client ∈ r.clients, client ∈ r'.clients →
    r'.clientMap[client]? = r.clientMap[client]? ∧ r'.objects client = r.objects client

/-- The clients that are removed are those whose nodes are not listed. -/
theorem Mirrors.listed_iff {r : Registry} {names : List Str} (h : r.Mirrors names)
    (hplain : ∀ name ∈ names, '/' ∉ name) (wrkrs : List Str) {client : ClientId}
    (hclient : client ∈ r.clients) :
    Fields.lastField '/' (r.nodeid client) ∈ wrkrs ↔ r.nodeid client ∈ wrkrs.map nodePath := by
  obtain ⟨name, hname, hpath⟩ :=
    List.mem_map.mp ((h.nodes _).mp (List.mem_map_of_mem hclient))
  have hinj : Function.Injective nodePath := fun _ _ heq => List.append_cancel_left heq
  rw [← hpath, last_field_node_path (hplain name hname), List.mem_map_of_injective hinj]

/-- A refresh of a master that has not failed. -/
theorem Mirrors.refresh {r : Registry} {names : List Str} (h : r.Mirrors names)
    (hplain : ∀ name ∈ names, '/' ∉ name) (hrunning : r.hasFailed = false) (w : ZkWorkers) :
    ∃ r', r.updateWorkers w = some r' ∧ r.Refreshed w r' ∧ r'.hasFailed = false := by
  obtain ⟨m, hadd, hm, hext⟩ := h.add_all w w.names
  obtain ⟨r', hremove, hr'⟩ := hm.remove_all w.names (i := 0) (by simp)
  have hclients : r'.clients = m.clients.filter fun client =>
      m.nodeid client ∈ w.names.map nodePath := by
    rw [hr'.clients]
    refine List.filter_congr fun client hclient => ?_
    rw [decide_eq_decide]
    exact hm.listed_iff (List.forall_mem_append.mpr ⟨hplain, w.plain⟩) w.names hclient
  have hnodeid : ∀ client ∈ r'.clients, r'.nodeid client = m.nodeid client := by
    intro client hclient
    rw [nodeid, hr'.info client hclient, nodeid]
  have hold : ∀ client ∈ r.clients, m.nodeid client = r.nodeid client := by
    intro client hclient
    rw [nodeid, hext.info client (h.fresh client hclient), nodeid]
  refine ⟨r', ?_, ⟨⟨⟨?_, hr'.keys, ?_⟩, ?_, ?_⟩, ?_, ?_⟩, ?_⟩
  · rw [updateWorkers, hrunning]
    simp [hadd, hremove]
  · rw [hclients]
    exact hm.nodup.filter _
  · rw [hclients, hr'.next]
    exact fun client hclient => hm.fresh client (List.mem_of_mem_filter hclient)
  · rw [List.map_congr_left hnodeid, hclients]
    exact hm.nodesNodup.sublist (List.filter_sublist.map _)
  · intro path
    rw [List.map_congr_left hnodeid, hclients]
    -- a listed node has a client after the additions
    have hadded : path ∈ w.names.map nodePath → path ∈ m.clients.map m.nodeid := by
      intro hpath
      rw [hm.nodes, List.map_append]
      exact List.mem_append_right _ hpath
    constructor
    · intro hpath
      obtain ⟨client, hclient, rfl⟩ := List.mem_map.mp hpath
      simpa using (List.mem_filter.mp hclient).2
    · intro hpath
      obtain ⟨client, hclient, rfl⟩ := List.mem_map.mp (hadded hpath)
      exact List.mem_map_of_mem (List.mem_filter.mpr ⟨hclient, decide_eq_true hpath⟩)
  · obtain ⟨new, hnew, hfresh⟩ := hext.clients
    refine ⟨new.filter fun client => m.nodeid client ∈ w.names.map nodePath, ?_, ?_⟩
    · rw [hclients, hnew, List.filter_append]
      congr 1
      refine List.filter_congr fun client hclient => ?_
      rw [hold client hclient]
    · intro client hclient hmem
      have hle := hfresh client (List.mem_of_mem_filter hclient)
      exact absurd (h.fresh client hmem) (Nat.not_lt.mpr hle)
  · intro client hclient hmem
    rw [hr'.info client hmem, hext.info client (h.fresh client hclient), hr'.objects,
      hext.objects client (h.fresh client hclient)]
    exact ⟨rfl, rfl⟩
  · rw [hr'.hasFailed, hext.hasFailed, hrunning]

/-- What happens to a registry: a refresh with an answer of ZooKeeper, or other work of the master,
which changes the members of the client objects in any way. -/
inductive Label where
  | refresh (w : ZkWorkers)
  | work (objects : ClientId → MapReduceClient)

/-- One refresh, or other work. -/
def step (r : Registry) : Label → Option Registry
  | .refresh w => r.updateWorkers w
  | .work objects => some { r with objects := objects }

/-- The names of the latest refresh. -/
def latest (ls : List Label) : List Str :=
  ls.foldl (fun names l => match l with
    | .refresh w => w.names
    | .work _ => names) []

/-- The latest list after one more step. -/
theorem latest_snoc (ls : List Label) (l : Label) :
    latest (ls ++ [l]) = match l with
      | .refresh w => w.names
      | .work _ => latest ls := by
  rw [latest, List.foldl_append]
  rfl

/-- The names of the latest refresh have no slash. -/
theorem latest_plain (ls : List Label) : ∀ name ∈ latest ls, '/' ∉ name := by
  induction ls using List.reverseRecOn with
  | nil => simp [latest]
  | append_singleton ls l ih =>
      rw [latest_snoc]
      cases l with
      | refresh w => exact w.plain
      | work objects => exact ih

/-- No run fails, and each leaves a registry that mirrors the latest list. -/
theorem run_mirrors (objects : ClientId → MapReduceClient) (ls : List Label) :
    ∃ r, Machine.run step (init objects) ls = some r ∧ r.Mirrors (latest ls) ∧
      r.hasFailed = false := by
  induction ls using List.reverseRecOn with
  | nil =>
      refine ⟨init objects, rfl, ⟨⟨List.nodup_nil, ?_, ?_⟩, List.nodup_nil, ?_⟩, rfl⟩
      · simp [init]
      · simp [init]
      · simp [init, latest]
  | append_singleton ls l ih =>
      obtain ⟨r, hrun, hr, hrunning⟩ := ih
      rw [latest_snoc]
      cases l with
      | refresh w =>
          obtain ⟨r', hstep, hr', hrunning'⟩ := hr.refresh (latest_plain ls) hrunning w
          exact ⟨r', Machine.run_snoc.mpr ⟨r, hrun, hstep⟩, hr'.mirrors, hrunning'⟩
      | work objects' =>
          exact ⟨{ r with objects := objects' }, Machine.run_snoc.mpr ⟨r, hrun, rfl⟩,
            ⟨⟨hr.nodup, hr.keys, hr.fresh⟩, hr.nodesNodup, hr.nodes⟩, hrunning⟩

/-- The registry mirrors ZooKeeper after every refresh. For every sequence of refreshes and other
work, the registry before the next refresh mirrors the previous list; the refresh does not throw,
and after it the registry mirrors the new list, where the clients whose nodes are in both lists are
the same objects, with the same members and in the same order. -/
theorem registry_mirrors (objects : ClientId → MapReduceClient) (ls : List Label) (w : ZkWorkers) :
    ∃ r r', Machine.run step (init objects) ls = some r ∧ r.Mirrors (latest ls) ∧
      r.updateWorkers w = some r' ∧ r.Refreshed w r' := by
  obtain ⟨r, hrun, hr, hrunning⟩ := run_mirrors objects ls
  obtain ⟨r', hstep, hr', -⟩ := hr.refresh (latest_plain ls) hrunning w
  exact ⟨r, r', hrun, hr, hstep, hr'⟩

end Registry

end MapReduce

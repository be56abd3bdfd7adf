import FerrisFerry.Driver
import FerrisFerry.KeyValue
import FerrisFerry.Redirect
import FerrisFerry.Text

/-!
# Starting a node of the key-value server

What `main` makes of its arguments before it serves : the id of the node, given or taken from
the name of its host, the ids of all nodes, and the HTTP address of each. A start that panics is
`none`.

A start gives the node one of the ids `1, …, n` and every one of them an HTTP address
(`Args.start_eq_some`). So a client is sent to the leader whenever its node knows one
(`Args.redirects_resolve`). In a stateful set the pods numbered below the number of nodes start,
with different ids, and no others (`Args.pod_starts_iff`).
-/

namespace FerrisFerry

/-- The node id is the number behind the last `-` of the host's name, plus one. -/
def idFromHostname (hostname : String) : Except String NodeId :=
  match Text.rsplitOnce '-' hostname.toList with
  | none => .error ("Hostname " ++ hostname ++ " has no final '-' with ID number")
  | some (_, num) =>
    match Text.parseUnsigned (2 ^ 64) num with
    | none => .error ("Invalid number for hostname: " ++ String.ofList num)
    | some id =>
      if id + 1 < 2 ^ 64 then .ok (id + 1)
      else .error (toString id ++ " is not a valid number (try using something < 2^64)")

structure Args where
  nodes : List String
  httpNodes : Option (List String)
  id : Option NodeId
  deriveId : Bool
  /-- The port of `addr`. -/
  addrPort : ℕ

namespace Args

variable (args : Args)

/-- The variable `HOSTNAME` is the second argument. `none` is the `unreachable!`. -/
def resolveId (hostname : Option String) : Option (Except String NodeId) :=
  match args.id, args.deriveId with
  | some id, false => some (.ok id)
  | none, true =>
    match hostname with
    | none => some (.error "Attempted to derive node ID but HOSTNAME variable not set.")
    | some hostname => some (idFromHostname hostname)
  | _, _ => none

/-- Host and port of an address, split at the last colon. -/
def hostPort (address : String) : Option (List Char × List Char) :=
  Text.rsplitOnce ':' address.toList

/-- The port that an address names. -/
def advertisedPort (address : String) : Option ℕ :=
  (hostPort address).bind fun r => Text.parseUnsigned (2 ^ 16) r.2

/-- A map from the ids `1, 2, …` to the items of a list. -/
def byId (items : List String) : AList fun _ : NodeId => String :=
  (items.zipIdx 1).foldl (fun m item => m.insert item.2 item.1) ∅

/-- The HTTP addresses : those given, or the hosts of the nodes with the port of this one. -/
def httpAddrs : Option (AList fun _ : NodeId => String) :=
  match args.httpNodes with
  | some httpNodes => some (byId httpNodes)
  | none => (args.nodes.mapM fun s => (hostPort s).map fun r =>
      String.ofList r.1 ++ ":" ++ toString args.addrPort).map byId

/-- `build_config`, apart from the transport and the storage. -/
def config (id : NodeId) : DriverConfig :=
  ⟨id, List.range' 1 args.nodes.length, none, (15, 31), 1024⟩

/-- What `main` starts the node and its server with. -/
structure Started where
  config : DriverConfig
  httpAddrs : AList fun _ : NodeId => String

/-- The id, unless there is an error. -/
def nodeId (hostname : Option String) : Option NodeId :=
  match args.resolveId hostname with
  | some (.ok id) => some id
  | _ => none

def start (hostname : Option String) : Option Started :=
  if ∃ httpNodes ∈ args.httpNodes, httpNodes.length ≠ args.nodes.length then none
  else do
    let httpAddrs ← args.httpAddrs
    let id ← args.nodeId hostname
    if id = 0 ∨ args.nodes.length < id then none
    else do
      -- the port of the node's own address
      let address ← args.nodes[id - 1]?
      let _ ← advertisedPort address
      some ⟨args.config id, httpAddrs⟩

/-! ## What a start gives -/

theorem lookup_foldl_insert (items : List String) (k j : ℕ) (m : AList fun _ : NodeId => String) :
    ((items.zipIdx k).foldl (fun m item => m.insert item.2 item.1) m).lookup j =
      if k ≤ j then items[j - k]?.or (m.lookup j) else m.lookup j := by
  induction items generalizing k m with
  | nil => simp
  | cons item items ih =>
    rw [List.zipIdx_cons, List.foldl_cons, ih]
    rcases lt_trichotomy j k with hlt | rfl | hlt
    · rw [if_neg (by omega), if_neg (by omega), AList.lookup_insert_ne hlt.ne]
    · rw [if_neg (by omega), if_pos le_rfl, AList.lookup_insert]
      simp
    · obtain ⟨i, rfl⟩ := Nat.exists_eq_add_of_lt hlt
      rw [if_pos (by omega), if_pos (by omega), AList.lookup_insert_ne hlt.ne',
        show k + i + 1 - k = i + 1 by omega, show k + i + 1 - (k + 1) = i by omega,
        List.getElem?_cons_succ]

/-- What is computed item by item is computed of the item at the index. -/
theorem getElem?_mapM {f : String → Option String} {items results : List String}
    (h : items.mapM f = some results) (i : ℕ) (hi : i < items.length) :
    ∃ result, f items[i] = some result ∧ results[i]? = some result := by
  induction items generalizing results i with
  | nil => cases hi
  | cons item items ih =>
    simp only [List.mapM_cons, bind, Option.bind_eq_some_iff, pure, Option.some.injEq] at h
    obtain ⟨result, hresult, rest, hrest, rfl⟩ := h
    cases i with
    | zero => exact ⟨result, hresult, rfl⟩
    | succ i => exact ih hrest i (by simpa using hi)

/-- Where every item gives a result, so does the list. -/
theorem exists_mapM {f : String → Option String} {items : List String}
    (h : ∀ item ∈ items, (f item).isSome = true) : ∃ results, items.mapM f = some results := by
  induction items with
  | nil => exact ⟨[], rfl⟩
  | cons item items ih =>
    obtain ⟨result, hresult⟩ := Option.isSome_iff_exists.mp (h item List.mem_cons_self)
    obtain ⟨results, hresults⟩ := ih fun i hi => h i (List.mem_cons_of_mem item hi)
    refine ⟨result :: results, ?_⟩
    rw [List.mapM_cons, hresult, hresults]
    rfl

/-- The item of an id, counted from 1. -/
theorem lookup_byId (items : List String) {j : ℕ} (hj : 1 ≤ j) :
    (byId items).lookup j = items[j - 1]? := by
  rw [byId, lookup_foldl_insert, if_pos hj, AList.lookup_empty, Option.or_none]

/-- The port of an address that ends in one. -/
theorem advertisedPort_append (host : String) (port : ℕ) :
    advertisedPort (host ++ ":" ++ toString port) = if port < 2 ^ 16 then some port else none := by
  have hlist : (host ++ ":" ++ toString port).toList =
      host.toList ++ ':' :: Nat.toDigits 10 port := by simp [String.toList_append]
  rw [advertisedPort, hostPort, hlist,
    Text.rsplitOnce_append (Text.notMem_toDigits (by decide) port)]
  exact Text.parseUnsigned_toDigits _ _

variable {args} {hostname : Option String} {st : Started}

theorem mem_config_nodes {id m : ℕ} :
    m ∈ (args.config id).nodes ↔ 1 ≤ m ∧ m ≤ args.nodes.length := by
  change m ∈ List.range' 1 args.nodes.length ↔ _
  rw [List.mem_range'_1]
  omega

/-- The HTTP address of a node : the one given for it, or its host with the port of this node. -/
def HttpAddr (args : Args) (m : NodeId) (addr : String) : Prop :=
  (∃ httpNodes, args.httpNodes = some httpNodes ∧ httpNodes[m - 1]? = some addr) ∨
  args.httpNodes = none ∧ ∃ node host port, args.nodes[m - 1]? = some node ∧
    hostPort node = some (host, port) ∧
    addr = String.ofList host ++ ":" ++ toString args.addrPort

theorem exists_httpAddr {addrs : AList fun _ : NodeId => String} (h : args.httpAddrs = some addrs)
    (hlen : ∀ httpNodes ∈ args.httpNodes, httpNodes.length = args.nodes.length) {m : ℕ}
    (h1 : 1 ≤ m) (hm : m ≤ args.nodes.length) :
    ∃ addr, addrs.lookup m = some addr ∧ args.HttpAddr m addr := by
  unfold httpAddrs at h
  split at h
  next httpNodes hsome =>
    obtain rfl := Option.some.inj h
    have hlt : m - 1 < httpNodes.length := by
      have := hlen httpNodes hsome
      omega
    refine ⟨httpNodes[m - 1], ?_, Or.inl ⟨httpNodes, hsome, List.getElem?_eq_getElem hlt⟩⟩
    rw [lookup_byId _ h1, List.getElem?_eq_getElem hlt]
  next hnone =>
    obtain ⟨items, hitems, rfl⟩ := Option.map_eq_some_iff.mp h
    have hlt : m - 1 < args.nodes.length := by omega
    obtain ⟨addr, haddr, hitem⟩ := getElem?_mapM hitems (m - 1) hlt
    obtain ⟨⟨host, port⟩, hhost, rfl⟩ := Option.map_eq_some_iff.mp haddr
    refine ⟨_, (lookup_byId _ h1).trans hitem, Or.inr ⟨hnone, _, host, port, ?_, hhost, rfl⟩⟩
    exact List.getElem?_eq_getElem hlt

/-- With a port in every address there are HTTP addresses. -/
theorem exists_httpAddrs (hports : ∀ node ∈ args.nodes, (advertisedPort node).isSome = true) :
    ∃ addrs, args.httpAddrs = some addrs := by
  unfold httpAddrs
  split
  · exact ⟨_, rfl⟩
  · have hhosts : ∀ node ∈ args.nodes, ((hostPort node).map fun r =>
        String.ofList r.1 ++ ":" ++ toString args.addrPort).isSome = true := by
      intro node hnode
      obtain ⟨port, hport⟩ := Option.isSome_iff_exists.mp (hports node hnode)
      obtain ⟨r, hr, -⟩ := Option.bind_eq_some_iff.mp hport
      rw [hr]
      rfl
    obtain ⟨items, hitems⟩ := exists_mapM hhosts
    exact ⟨byId items, by rw [hitems, Option.map_some]⟩

/-- When `main` starts the node. -/
theorem start_eq_some : args.start hostname = some st ↔
    (∀ httpNodes ∈ args.httpNodes, httpNodes.length = args.nodes.length) ∧
      args.httpAddrs = some st.httpAddrs ∧
      ∃ id, args.nodeId hostname = some id ∧ st.config = args.config id ∧ 1 ≤ id ∧
        ∃ address port, args.nodes[id - 1]? = some address ∧
          advertisedPort address = some port := by
  unfold start
  split_ifs with hlen
  · obtain ⟨httpNodes, hmem, hne⟩ := hlen
    exact iff_of_false (by simp) fun h => hne (h.1 httpNodes hmem)
  · simp only [bind, Option.bind_eq_some_iff]
    have hlen' : ∀ httpNodes ∈ args.httpNodes, httpNodes.length = args.nodes.length := by
      simpa using hlen
    constructor
    · rintro ⟨addrs, haddrs, id, hid, h⟩
      split_ifs at h with hrange
      simp only [Option.bind_eq_some_iff] at h
      obtain ⟨address, haddress, port, hport, h⟩ := h
      obtain rfl := Option.some.inj h
      exact ⟨hlen', haddrs, id, hid, rfl, Nat.pos_of_ne_zero fun h0 => hrange (Or.inl h0), address,
        port, haddress, hport⟩
    · rintro ⟨-, haddrs, id, hid, hconfig, hpos, address, port, haddress, hport⟩
      have hlt := (List.getElem?_eq_some_iff.mp haddress).1
      have hrange : ¬(id = 0 ∨ args.nodes.length < id) := by
        rintro (h0 | h)
        · exact (Nat.ne_of_gt hpos) h0
        · omega
      refine ⟨_, haddrs, id, hid, ?_⟩
      rw [if_neg hrange]
      simp only [Option.bind_eq_some_iff]
      refine ⟨address, haddress, port, hport, ?_⟩
      rw [← hconfig]

/-- A client that asks a node that does not lead and knows a leader is sent to that leader, at
the HTTP address the node was started with for it. -/
theorem redirects_resolve (h : args.start hostname = some st) {cfg : Config} {c : Cluster}
    (hcfg : cfg.nodes = st.config.nodes) (hr : cfg.machine.Run Cluster.Sound cfg.init c)
    {n m : NodeId} (hm : (c.core n).redirect = some m) (path : String) :
    ∃ addr, args.HttpAddr m addr ∧ c.Elected cfg m (c.core n).currentTerm ∧
      mapProposalError st.httpAddrs path (.followerNode (c.core n).currentLeader) =
        .redirect ("http://" ++ addr ++ path) := by
  obtain ⟨hlen, haddrs, id, -, hconfig, -⟩ := start_eq_some.mp h
  have hb := (Cluster.sound_run hr).1
  have helected := hb.vote.led m _ ((Cluster.leaderInv_run hr).led_of_redirect hm)
  obtain ⟨p, hp⟩ := helected.1
  have hmem := hb.vote.stood_mem m _ p hp
  rw [hcfg, hconfig, mem_config_nodes] at hmem
  obtain ⟨addr, hlookup, haddr⟩ := exists_httpAddr haddrs hlen hmem.1 hmem.2
  have hleader : (c.core n).currentLeader = some m := by
    unfold RaftCore.redirect at hm
    split_ifs at hm
    exact hm
  refine ⟨addr, haddr, helected, ?_⟩
  rw [hleader, mapProposalError, hlookup]

/-- Node 2 of three on one machine. -/
def compose : Args where
  nodes := ["node1:9000", "node2:9000", "node3:9000"]
  httpNodes := some ["localhost:3001", "localhost:3002", "localhost:3003"]
  id := some 2
  deriveId := false
  addrPort := 3000

theorem redirects_resolve_compose : ∃ st c addr, compose.start none = some st ∧
    Config.trio.machine.Run Cluster.Sound Config.trio.init c ∧ compose.HttpAddr 1 addr ∧
    mapProposalError st.httpAddrs "/key" (.followerNode (c.core 2).currentLeader) =
      .redirect ("http://" ++ addr ++ "/key") := by
  have hst : compose.start none = some ⟨compose.config 2,
      byId ["localhost:3001", "localhost:3002", "localhost:3003"]⟩ :=
    start_eq_some.mpr ⟨by simp [compose], rfl, 2, rfl, rfl, by decide, "node2:9000", 9000, rfl,
      advertisedPort_append "node2" 9000⟩
  obtain ⟨c, hc, hm⟩ := Config.trio.machine.exists_run_of_exec Cluster.Sound Config.trio.init
    Cluster.leftBehind (fun c => (c.core 2).redirect = some 1) (by decide +kernel)
    (by decide +kernel)
  obtain ⟨addr, haddr, -, hredirect⟩ := redirects_resolve hst rfl hc hm "/key"
  exact ⟨_, c, addr, hst, hc, haddr, hredirect⟩

/-! ## Stateful sets -/

/-- Three pods that find each other by name. -/
def pods : Args where
  nodes := ["raft-kv-0.headless:9000", "raft-kv-1.headless:9000", "raft-kv-2.headless:9000"]
  httpNodes := none
  id := none
  deriveId := true
  addrPort := 3000

/-- A pod's number is taken from its name. -/
theorem idFromHostname_pod (name : String) (k id : ℕ) :
    idFromHostname (name ++ "-" ++ toString k) = .ok id ↔ id = k + 1 ∧ k + 1 < 2 ^ 64 := by
  have hlist : (name ++ "-" ++ toString k).toList = name.toList ++ '-' :: Nat.toDigits 10 k := by
    simp [String.toList_append]
  rw [idFromHostname, hlist, Text.rsplitOnce_append (Text.notMem_toDigits (by decide) k)]
  dsimp only
  rw [Text.parseUnsigned_toDigits]
  by_cases hk : k < 2 ^ 64
  · rw [if_pos hk]
    dsimp only
    split_ifs with hk'
    · rw [Except.ok.injEq]
      exact ⟨fun h => ⟨h.symm, hk'⟩, fun h => h.1.symm⟩
    · exact iff_of_false (by simp) fun h => hk' h.2
  · rw [if_neg hk]
    exact iff_of_false (by simp) fun h => hk (by omega)

/-- With the same arguments for all pods, and an address with a port for each node : a pod starts
exactly if its number is below that of the nodes, and then its id is its number plus one, one
of the ids of the nodes. -/
theorem pod_starts_iff (hid : args.id = none) (hderive : args.deriveId = true)
    (hlen : ∀ httpNodes ∈ args.httpNodes, httpNodes.length = args.nodes.length)
    (hports : ∀ node ∈ args.nodes, (advertisedPort node).isSome = true)
    (hsize : args.nodes.length < 2 ^ 64) (name : String) (k : ℕ) :
    ((∃ st, args.start (some (name ++ "-" ++ toString k)) = some st) ↔ k < args.nodes.length) ∧
      ∀ st, args.start (some (name ++ "-" ++ toString k)) = some st →
        st.config.id = k + 1 ∧ st.config.nodes = List.range' 1 args.nodes.length ∧
          k + 1 ∈ st.config.nodes := by
  have hnode : ∀ id, args.nodeId (some (name ++ "-" ++ toString k)) = some id ↔
      id = k + 1 ∧ k + 1 < 2 ^ 64 := by
    intro id
    rw [← idFromHostname_pod name, nodeId, resolveId, hid, hderive]
    cases idFromHostname (name ++ "-" ++ toString k) with
    | error => simp
    | ok id' => simp
  -- whichever pod starts has its number below that of the nodes
  have hstarted : ∀ st, args.start (some (name ++ "-" ++ toString k)) = some st →
      k < args.nodes.length ∧ st.config = args.config (k + 1) := by
    intro st hst
    obtain ⟨-, -, id, hid', hconfig, -, address, -, haddress, -⟩ := start_eq_some.mp hst
    obtain ⟨rfl, -⟩ := (hnode id).mp hid'
    have hlt := (List.getElem?_eq_some_iff.mp haddress).1
    exact ⟨by omega, hconfig⟩
  refine ⟨⟨fun ⟨st, hst⟩ => (hstarted st hst).1, fun hk => ?_⟩, fun st hst => ?_⟩
  · obtain ⟨addrs, haddrs⟩ := exists_httpAddrs hports
    obtain ⟨port, hport⟩ := Option.isSome_iff_exists.mp (hports _ (List.getElem_mem hk))
    exact ⟨⟨args.config (k + 1), addrs⟩, start_eq_some.mpr ⟨hlen, haddrs, k + 1,
      (hnode _).mpr ⟨rfl, by omega⟩, rfl, Nat.succ_pos k, _, port, List.getElem?_eq_getElem hk,
      hport⟩⟩
  · obtain ⟨hk, hconfig⟩ := hstarted st hst
    rw [hconfig]
    exact ⟨rfl, rfl, mem_config_nodes.mpr ⟨Nat.succ_pos k, hk⟩⟩

/-- The third pod of three. -/
theorem pod_starts_iff_third : ∃ st, pods.start (some "raft-kv-2") = some st ∧
    st.config.id = 3 ∧ 3 ∈ st.config.nodes := by
  have hports : ∀ node ∈ pods.nodes, (advertisedPort node).isSome = true := by
    intro node hnode
    simp only [pods, List.mem_cons, List.not_mem_nil, or_false] at hnode
    rcases hnode with rfl | rfl | rfl
    · exact Option.isSome_of_eq_some (advertisedPort_append "raft-kv-0.headless" 9000)
    · exact Option.isSome_of_eq_some (advertisedPort_append "raft-kv-1.headless" 9000)
    · exact Option.isSome_of_eq_some (advertisedPort_append "raft-kv-2.headless" 9000)
  obtain ⟨hstarts, hconfig⟩ :=
    @pod_starts_iff pods rfl rfl (by simp [pods]) hports (by decide) "raft-kv" 2
  obtain ⟨st, hst⟩ := hstarts.mpr (by decide)
  obtain ⟨hid, -, hmem⟩ := hconfig st hst
  exact ⟨st, hst, hid, hmem⟩

end Args

end FerrisFerry

import Supercache.Cluster

/-!
How a put finds its owner. Every node has a ring of its own, and the rings may
disagree. A node that is not the owner in its own ring passes the put on; a put
that has been passed on twice is applied where it is. Only one node applies it,
and that node sends it to the replicas of its own ring.
-/
namespace Supercache.Routing

open Wire Lru LoadCalls

structure Node where
  cfg : Config
  cluster : Option Cluster
  ks : KsRuntime

structure Request where
  key : Bytes
  value : Bytes
  ttl : Option ℤ

structure Times where
  mint : ℤ
  apply : ℤ
  peek : ℤ
  again : ℤ
  walk : Walk

structure Fanout where
  peers : List Peer
  ent : Entry

namespace Node

variable (node : Node) (req : Request)

def elsewhere (key : Bytes) : Option Peer := node.cluster.bind fun c => c.elsewhere key

def replicaFanout (key : Bytes) (force : Bool) : List Peer :=
  (node.cluster.map fun c => c.replicaFanout node.cfg key force).getD []

def replicas (key : Bytes) : List Peer :=
  (node.cluster.map fun c => c.replicaPeers node.cfg key c.selfID).getD []

def validate : Except Failure Unit := do
  node.cfg.validateKey req.key
  node.cfg.validateValueSize req.value
  node.cfg.validateKeyLen req.key

def putMinted (t : Times) (force : Bool) (ks : KsRuntime) (ent : Entry) :
    Node × Option Fanout × Except Failure Unit :=
  let (store, ok) := ks.store.perform t.apply req.key (Store.acceptIfNewer req.key ent)
  let ks := { ks with store := store }
  if ok then ({ node with ks := ks }, some ⟨node.replicaFanout req.key force, ent⟩, .ok ())
  else
    let (ks, cur) := ks.peek t.peek req.key
    if cur.any fun cur => !cur.isTombstone && ent.version ≤ cur.version then
      ({ node with ks := ks }, none, .ok ())
    else
      let (ks, cur) := ks.peek t.again req.key
      let gone := cur.any fun cur => cur.isTombstone && ent.version ≤ cur.version
      ({ node with ks := ks }, none, if gone then .ok () else .error .invalidArgument)

/-- `putLocalApply`: the node afterwards, what it sends out, and the result. -/
def putLocalApply (t : Times) (force : Bool) : Node × Option Fanout × Except Failure Unit :=
  let (ks, version) := node.ks.nextVersion t.mint t.walk req.key 0
  node.putMinted req t force ks
    ⟨req.value, version, expireAt t.mint (req.ttl.getD node.cfg.ttl), 0⟩

theorem sections_putMinted (t : Times) (force : Bool) (ttl : ℤ) (ks : KsRuntime) (ent : Entry) :
    ([t.apply, t.peek, t.again].foldl
      (fun s now => Owner.putLocalApply req.key req.value ttl now t.walk s.1 s.2)
      (ks, .minted ent)).1 = (node.putMinted req t force ks ent).1.ks := by
  rw [List.foldl_cons, Owner.putLocalApply, putMinted]
  rcases ks.store.perform t.apply req.key (Store.acceptIfNewer req.key ent) with ⟨store, ok⟩
  cases ok with
  | true => rfl
  | false =>
    cases hwon : (store.perform t.peek req.key (Store.peek req.key)).2.any
      fun cur => !cur.isTombstone && decide (ent.version ≤ cur.version) with
    | true => simp [Owner.putLocalApply, KsRuntime.peek, hwon]
    | false => simp [Owner.putLocalApply, KsRuntime.peek, hwon]

/-- The sections of a put one after another, undisturbed, come to the whole call. -/
theorem sections_putLocalApply (t : Times) (force : Bool) :
    ([t.mint, t.apply, t.peek, t.again].foldl
      (fun s now => Owner.putLocalApply req.key req.value (req.ttl.getD node.cfg.ttl) now t.walk
        s.1 s.2) (node.ks, .start)).1 = (node.putLocalApply req t force).1.ks :=
  node.sections_putMinted req t force _ _ _

end Node

/-- What a put has come to: the nodes, the `ForwardPut` calls made, the nodes that applied it with
what each sent out, and the result. -/
structure Outcome where
  nodes : List Node
  forwards : ℕ
  applied : List (ℕ × Option Fanout)
  result : Except Failure Unit

def maxForwardHops : ℕ := 1

section Route

variable (resolve : Bytes → Option ℕ) (req : Request) (times : ℕ → Times)

def applyAt (force : Bool) (i : ℕ) (out : Outcome) : Outcome :=
  match out.nodes[i]? with
  | none => out
  | some node =>
    let (node, fanout, result) := node.putLocalApply req (times i) force
    ⟨out.nodes.set i node, out.forwards, out.applied ++ [(i, fanout)], result⟩

def forwardPut (serve : ℕ → Option Outcome) (addr : Bytes) (nodes : List Node) : Option Outcome :=
  match resolve addr with
  | none => some ⟨nodes, 1, [], .error .unavailable⟩
  | some j => (serve j).map fun out => { out with forwards := out.forwards + 1 }

def fallBack (i : ℕ) (out : Outcome) : Outcome :=
  match out.result with
  | .ok () => out
  | .error _ => applyAt req times true i out

def putLocalAtHop : ℕ → ℕ → ℕ → List Node → Option Outcome
  | 0, _, _, _ => none
  | fuel + 1, hop, i, nodes =>
    match nodes[i]? with
    | none => some ⟨nodes, 0, [], .error .unavailable⟩
    | some node =>
      match node.validate req with
      | .error err => some ⟨nodes, 0, [], .error err⟩
      | .ok () =>
        match node.elsewhere req.key with
        | none => some (applyAt req times false i ⟨nodes, 0, [], .ok ()⟩)
        | some owner =>
          if owner.addr ≠ [] ∧ hop < maxForwardHops then
            (forwardPut resolve (fun j => putLocalAtHop fuel (hop + 1) j nodes) owner.addr
              nodes).map (fallBack req times i)
          else some (applyAt req times true i ⟨nodes, 0, [], .ok ()⟩)

def putViaCluster (fuel i : ℕ) (nodes : List Node) : Option Outcome :=
  match nodes[i]? with
  | none => some ⟨nodes, 0, [], .error .unavailable⟩
  | some node =>
    match node.elsewhere req.key with
    | none => putLocalAtHop resolve req times fuel 0 i nodes
    | some owner =>
      if owner.addr = [] then some ⟨nodes, 0, [], .error .unavailable⟩
      else
        (forwardPut resolve (fun j => putLocalAtHop resolve req times fuel 0 j nodes) owner.addr
          nodes).map fun out => { out with result := out.result.mapError fun _ => .unavailable }

end Route

section Statement

variable (resolve : Bytes → Option ℕ) (req : Request) (times : ℕ → Times) (nodes : List Node)

/-- The node's ring is a new one whose peers have been set any number of times. -/
def Node.Built (node : Node) : Prop :=
  ∀ c, node.cluster = some c → ∃ (vnodes : ℤ) (views : List (List Peer)),
    c.ring = views.foldl Ring.setPeers (Ring.new vnodes)

def Node.nextHop (node : Node) : Option ℕ :=
  ((node.elsewhere req.key).filter fun owner => owner.addr ≠ []).bind fun owner =>
    resolve owner.addr

def Reachable : Prop :=
  ∀ node ∈ nodes, ∀ owner, node.elsewhere req.key = some owner → owner.addr ≠ [] →
    ∃ j, resolve owner.addr = some j ∧ j < nodes.length

def nextHopAt (i : ℕ) : ℕ := ((nodes[i]?.bind fun node => node.nextHop resolve req).getD i)

def destination (i : ℕ) : ℕ := nextHopAt resolve req nodes (nextHopAt resolve req nodes i)

/-- The put fits into the node's byte budget, and its version does not wrap there or nothing
unexpired is there to refuse it. -/
def Node.Wins (node : Node) (t : Times) : Prop :=
  Store.tooBig (node.ks.store.env 0) (req.key.length + (req.value.length + 64)) = false ∧
    (node.ks.counter t.mint req.key + 1 < 2 ^ 64 ∨
      ¬ Has (fun e => e.expired t.apply = false) (node.ks.store.lookup req.key))

/-- There were two forwards at most, and one node applied the put and sent it to the replicas of
its own ring. -/
def RoutedOnce (out : Outcome) : Prop :=
  out.forwards ≤ 2 ∧ ∃ i node ent, nodes[i]? = some node ∧
    out.applied = [(i, some ⟨node.replicas req.key, ent⟩)]

end Statement

section Apply

variable {req : Request} {node : Node} {t : Times} {force : Bool}

/-- Such a ring has no owner without an identity. -/
theorem owner_id_ne {vnodes : ℤ} {views : List (List Peer)} {key : Bytes} {owner : Peer}
    (h : (views.foldl Ring.setPeers (Ring.new vnodes)).owner key = some owner) : owner.id ≠ [] := by
  rcases views.eq_nil_or_concat with rfl | ⟨views, peers, rfl⟩
  · cases h
  · rw [List.concat_eq_append, List.foldl_append, List.foldl_cons, List.foldl_nil, Ring.owner] at h
    split at h
    · cases h
    · obtain ⟨-, hid, hne⟩ := Ring.peers_setPeers_of_some _ peers h
      exact hid ▸ hne

/-- A node that applies a put as the owner, or has to send it, sends it to all replicas. -/
theorem replicaFanout_eq (hbuilt : node.Built) (h : force = true ∨ node.elsewhere req.key = none) :
    node.replicaFanout req.key force = node.replicas req.key := by
  unfold Node.replicaFanout Node.replicas
  cases hc : node.cluster with
  | none => rfl
  | some c =>
    simp only [Option.map_some, Option.getD_some, Cluster.replicaFanout]
    refine if_neg ?_
    rintro ⟨hforce, hany⟩
    have hnone : c.elsewhere req.key = none := by
      simpa [Node.elsewhere, hc] using h.resolve_left (by simpa using hforce)
    obtain ⟨vnodes, views, hring⟩ := hbuilt c hc
    cases howner : c.ring.owner req.key with
    | none => simp [howner] at hany
    | some owner =>
      have hid : owner.id ≠ [] := owner_id_ne (hring ▸ howner)
      simp only [howner, Option.any_some, decide_eq_true_eq] at hany
      simp [Cluster.elsewhere, howner, hid, hany] at hnone

/-- A put that wins is sent to the replicas of the node's own ring, any other one to nobody. -/
theorem putLocalApply_spec (hbuilt : node.Built)
    (hver : node.ks.counter t.mint req.key < 2 ^ 64) (hle : t.mint ≤ t.apply)
    (hforce : force = true ∨ node.elsewhere req.key = none) :
    (node.Wins req t → ∃ ent, (node.putLocalApply req t force).2 =
        (some ⟨node.replicas req.key, ent⟩, .ok ())) ∧
      (¬ node.Wins req t → (node.putLocalApply req t force).2.1 = none) := by
  let w := node.ks.nextVersion t.mint t.walk req.key 0
  let ent : Entry := ⟨req.value, w.2, expireAt t.mint (req.ttl.getD node.cfg.ttl), 0⟩
  have hcall : node.putLocalApply req t force = node.putMinted req t force w.1 ent := rfl
  have hout : Outdated w.1.store t.apply req.key ent ↔ _ := outdated_mint_iff hle hver t.walk rfl
  have hfits : Store.tooBig (w.1.store.env t.apply) (entryCost req.key ent) =
      Store.tooBig (node.ks.store.env 0) (req.key.length + (req.value.length + 64)) := by
    rw [env_nextVersion t.mint t.apply t.walk req.key 0 node.ks]
    rfl
  rw [hcall]
  refine ⟨fun ⟨hroom, hnewer⟩ => ⟨ent, ?_⟩, fun hlost => ?_⟩
  · have hnew : ¬ Outdated w.1.store t.apply req.key ent := by
      intro hstale
      obtain ⟨hwrap, hstands⟩ := hout.mp hstale
      rcases hnewer with hlt | hfree
      · omega
      · exact hfree hstands
    have hok : (w.1.store.perform t.apply req.key (Store.acceptIfNewer req.key ent)).2 = true := by
      rw [Memory.perform_ret, acceptIfNewer_of_not_outdated hnew, Store.set, hfits, hroom]
      rfl
    simp only [Node.putMinted, hok, if_true, replicaFanout_eq hbuilt hforce]
  · have hok : (w.1.store.perform t.apply req.key (Store.acceptIfNewer req.key ent)).2 = false := by
      by_cases hstale : Outdated w.1.store t.apply req.key ent
      · obtain ⟨it, hit, hx, hold⟩ := hstale
        rw [Memory.perform_ret, hit, Store.acceptIfNewer_of_le (w.1.store.env t.apply) it _ hx hold]
        rfl
      · -- the entry is newer than what is there, so it was its size that lost
        have hbig : Store.tooBig (w.1.store.env t.apply) (entryCost req.key ent) = true := by
          rw [hfits]
          refine Bool.eq_true_of_not_eq_false fun hroom => hlost ⟨hroom, ?_⟩
          by_contra hnot
          push Not at hnot
          exact hstale (hout.mpr ⟨by omega, hnot.2⟩)
        rw [Memory.perform_ret, acceptIfNewer_of_not_outdated hstale, Store.set, hbig]
        rfl
    simp only [Node.putMinted, hok, Bool.false_eq_true, if_false]
    split <;> rfl

end Apply

/-- What is asked of the cluster: its rings, the put's validation, 64-bit versions, clocks that do
not go back, and addresses that lead to nodes. -/
structure Healthy (resolve : Bytes → Option ℕ) (req : Request) (times : ℕ → Times)
    (nodes : List Node) : Prop where
  built : ∀ node ∈ nodes, node.Built
  valid : ∀ node ∈ nodes, node.validate req = .ok ()
  versions : ∀ i (node : Node), nodes[i]? = some node →
    node.ks.counter (times i).mint req.key < 2 ^ 64
  clock : ∀ i, (times i).mint ≤ (times i).apply
  reachable : Reachable resolve req nodes

/-- The put came to the node after so many forwards: if it wins there, that is all that happened,
and if it does not, the node sent nothing. -/
structure Delivered (req : Request) (times : ℕ → Times) (nodes : List Node) (j n : ℕ)
    (out : Outcome) : Prop where
  forwards : out.forwards = n
  won : ∀ node, nodes[j]? = some node → node.Wins req (times j) →
    (∃ ent, out.applied = [(j, some ⟨node.replicas req.key, ent⟩)]) ∧ out.result = .ok ()
  lost : ∀ node, nodes[j]? = some node → ¬ node.Wins req (times j) → (j, none) ∈ out.applied

section Hops

variable {resolve : Bytes → Option ℕ} {req : Request} {times : ℕ → Times} {nodes : List Node}
  {i j n : ℕ} {out : Outcome}

theorem Delivered.forwarded (h : Delivered req times nodes j n out) :
    Delivered req times nodes j (n + 1) { out with forwards := out.forwards + 1 } :=
  ⟨congrArg (· + 1) h.forwards, h.won, h.lost⟩

theorem Delivered.mapError (h : Delivered req times nodes j n out) (f : Failure → Failure) :
    Delivered req times nodes j n { out with result := out.result.mapError f } := by
  refine ⟨h.forwards, fun node hnode hwins => ?_, h.lost⟩
  obtain ⟨happlied, hresult⟩ := h.won node hnode hwins
  exact ⟨happlied, by rw [hresult]; rfl⟩

/-- A forward that fails is to a node where the put does not win. -/
theorem Delivered.fallBack (hj : j < nodes.length) (h : Delivered req times nodes j n out) :
    Delivered req times nodes j n (fallBack req times i out) := by
  unfold Routing.fallBack
  cases hresult : out.result with
  | ok => exact h
  | error err =>
    have hnever : ∀ node, nodes[j]? = some node → ¬ node.Wins req (times j) := by
      intro node hnode hwins
      rw [(h.won node hnode hwins).2] at hresult
      cases hresult
    have hnode := List.getElem?_eq_getElem hj
    have hlost := h.lost _ hnode (hnever _ hnode)
    simp only [applyAt]
    cases out.nodes[i]? with
    | none => exact h
    | some node =>
      exact ⟨h.forwards, fun node hnode hwins => absurd hwins (hnever node hnode),
        fun _ _ _ => List.mem_append_left _ hlost⟩

variable (h : Healthy resolve req times nodes)

theorem nextHopAt_of_none {node : Node} (hnode : nodes[j]? = some node)
    (hels : node.elsewhere req.key = none) : nextHopAt resolve req nodes j = j := by
  simp [nextHopAt, hnode, Node.nextHop, hels]

theorem nextHopAt_of_unaddressed {node : Node} {owner : Peer} (hnode : nodes[j]? = some node)
    (hels : node.elsewhere req.key = some owner) (haddr : owner.addr = []) :
    nextHopAt resolve req nodes j = j := by
  simp [nextHopAt, hnode, Node.nextHop, hels, haddr, Option.filter]

theorem nextHopAt_of_some {node : Node} {owner : Peer} {k : ℕ} (hnode : nodes[j]? = some node)
    (hels : node.elsewhere req.key = some owner) (haddr : owner.addr ≠ [])
    (hk : resolve owner.addr = some k) : nextHopAt resolve req nodes j = k := by
  simp [nextHopAt, hnode, Node.nextHop, hels, haddr, hk, Option.filter]

include h

theorem delivered_applyAt {node : Node} {force : Bool} (hnode : nodes[j]? = some node)
    (hforce : force = true ∨ node.elsewhere req.key = none) :
    Delivered req times nodes j 0 (applyAt req times force j ⟨nodes, 0, [], .ok ()⟩) := by
  have hmem := List.mem_of_getElem? hnode
  obtain ⟨hwon, hlost⟩ := putLocalApply_spec (h.built node hmem)
    (h.versions j node hnode) (h.clock j) hforce
  simp only [applyAt, hnode, List.nil_append]
  refine ⟨rfl, fun node' hnode' hwins => ?_, fun node' hnode' hlose => ?_⟩
  · cases hnode.symm.trans hnode'
    obtain ⟨ent, hent⟩ := hwon hwins
    simp only [hent]
    exact ⟨⟨ent, rfl⟩, trivial⟩
  · cases hnode.symm.trans hnode'
    simp only [hlost hlose, List.mem_singleton]

/-- A put that has been passed on by a node it was passed to is applied where it is. -/
theorem hop_one (fuel : ℕ) (hj : j < nodes.length) :
    ∃ out, putLocalAtHop resolve req times (fuel + 1) 1 j nodes = some out ∧
      Delivered req times nodes j 0 out := by
  have hnode := List.getElem?_eq_getElem hj
  have hvalid := h.valid _ (List.getElem_mem hj)
  rw [putLocalAtHop, hnode]
  simp only [hvalid]
  cases hels : nodes[j].elsewhere req.key with
  | none => exact ⟨_, rfl, delivered_applyAt h hnode (Or.inr hels)⟩
  | some owner =>
    simp only [maxForwardHops, lt_self_iff_false, and_false, if_false]
    exact ⟨_, rfl, delivered_applyAt h hnode (Or.inl rfl)⟩

/-- A put that comes to a node for the first time ends up at the owner in that node's ring. -/
theorem hop_zero (fuel : ℕ) (hj : j < nodes.length) :
    ∃ out n, putLocalAtHop resolve req times (fuel + 2) 0 j nodes = some out ∧ n ≤ 1 ∧
      Delivered req times nodes (nextHopAt resolve req nodes j) n out := by
  have hnode := List.getElem?_eq_getElem hj
  have hvalid := h.valid _ (List.getElem_mem hj)
  rw [putLocalAtHop, hnode]
  simp only [hvalid]
  cases hels : nodes[j].elsewhere req.key with
  | none =>
    rw [nextHopAt_of_none hnode hels]
    exact ⟨_, 0, rfl, zero_le_one, delivered_applyAt h hnode (Or.inr hels)⟩
  | some owner =>
    by_cases haddr : owner.addr = []
    · rw [nextHopAt_of_unaddressed hnode hels haddr]
      simp only [haddr, ne_eq, not_true_eq_false, false_and, if_false]
      exact ⟨_, 0, rfl, zero_le_one, delivered_applyAt h hnode (Or.inl rfl)⟩
    · obtain ⟨k, hk, hlt⟩ := h.reachable _ (List.getElem_mem hj) owner hels haddr
      obtain ⟨out, hout, hdel⟩ := hop_one h fuel hlt
      rw [nextHopAt_of_some hnode hels haddr hk]
      simp only [ne_eq, haddr, not_false_eq_true, maxForwardHops, zero_lt_one, and_self, if_true,
        forwardPut, hk, zero_add, hout, Option.map_some]
      exact ⟨_, 1, rfl, le_rfl, hdel.forwarded.fallBack hlt⟩

theorem nextHopAt_lt (hj : j < nodes.length) : nextHopAt resolve req nodes j < nodes.length := by
  have hnode := List.getElem?_eq_getElem hj
  cases hels : nodes[j].elsewhere req.key with
  | none => rwa [nextHopAt_of_none hnode hels]
  | some owner =>
    by_cases haddr : owner.addr = []
    · rwa [nextHopAt_of_unaddressed hnode hels haddr]
    · obtain ⟨k, hk, hlt⟩ := h.reachable _ (List.getElem_mem hj) owner hels haddr
      rwa [nextHopAt_of_some hnode hels haddr hk]

omit h in
/-- A delivered put went through once exactly when it won. -/
theorem Delivered.routedOnce_iff (hj : j < nodes.length) (hn : n ≤ 2)
    (hdel : Delivered req times nodes j n out) :
    RoutedOnce req nodes out ↔ ∀ node, nodes[j]? = some node → node.Wins req (times j) := by
  have hnode := List.getElem?_eq_getElem hj
  refine ⟨fun ⟨_, i, node', ent, _, happlied⟩ node hj' => ?_, fun hwins => ?_⟩
  · by_contra hlose
    have hmem := hdel.lost node hj' hlose
    simp [happlied] at hmem
  · obtain ⟨⟨ent, happlied⟩, -⟩ := hdel.won _ hnode (hwins _ hnode)
    exact ⟨hdel.forwards.trans_le hn, j, _, ent, hnode, happlied⟩

/-- Where a client's put comes to, if the owner in the first node's ring can be sent to. -/
theorem delivered_putViaCluster (fuel : ℕ) (hi : i < nodes.length)
    (haddressed : ∀ owner, nodes[i].elsewhere req.key = some owner → owner.addr ≠ []) :
    ∃ out n, putViaCluster resolve req times (fuel + 2) i nodes = some out ∧ n ≤ 2 ∧
      Delivered req times nodes (destination resolve req nodes i) n out := by
  have hnode := List.getElem?_eq_getElem hi
  simp only [putViaCluster, hnode, destination]
  cases hels : nodes[i].elsewhere req.key with
  | none =>
    obtain ⟨out, n, hout, hn, hdel⟩ := hop_zero h fuel hi
    simp only [nextHopAt_of_none hnode hels] at hdel ⊢
    exact ⟨out, n, hout, hn.trans one_le_two, hdel⟩
  | some owner =>
    have haddr := haddressed owner hels
    obtain ⟨k, hk, hlt⟩ := h.reachable _ (List.getElem_mem hi) owner hels haddr
    obtain ⟨out, n, hout, hn, hdel⟩ := hop_zero h fuel hlt
    simp only [nextHopAt_of_some hnode hels haddr hk, haddr, if_false, forwardPut, hk, hout,
      Option.map_some]
    exact ⟨_, n + 1, rfl, Nat.succ_le_succ hn, hdel.forwarded.mapError _⟩

end Hops

/-- For any cluster of nodes with any rings, a client's put is passed on twice at most. It is
applied by one node, which sends it to the replicas of its own ring, exactly when the first node
can send to the owner in its ring and the put wins where it ends up. -/
theorem put_routed_once_iff (resolve : Bytes → Option ℕ) (req : Request) (times : ℕ → Times)
    (nodes : List Node) (h : Healthy resolve req times nodes) (i fuel : ℕ)
    (hi : i < nodes.length) :
    ∃ out, putViaCluster resolve req times (fuel + 2) i nodes = some out ∧ out.forwards ≤ 2 ∧
      (RoutedOnce req nodes out ↔
        (∀ owner, nodes[i].elsewhere req.key = some owner → owner.addr ≠ []) ∧
        ∀ node, nodes[destination resolve req nodes i]? = some node →
          node.Wins req (times (destination resolve req nodes i))) := by
  by_cases haddressed : ∀ owner, nodes[i].elsewhere req.key = some owner → owner.addr ≠ []
  · obtain ⟨out, n, hout, hn, hdel⟩ := delivered_putViaCluster h fuel hi haddressed
    have hend : destination resolve req nodes i < nodes.length :=
      nextHopAt_lt h (nextHopAt_lt h hi)
    refine ⟨out, hout, hdel.forwards.trans_le hn, ?_⟩
    rw [hdel.routedOnce_iff hend hn]
    exact ⟨fun hwins => ⟨haddressed, hwins⟩, And.right⟩
  · -- the owner has no address, and the put fails before any node applies it
    refine ⟨⟨nodes, 0, [], .error .unavailable⟩, ?_, Nat.zero_le 2, ?_⟩
    · push Not at haddressed
      obtain ⟨owner, hels, haddr⟩ := haddressed
      simp only [putViaCluster, List.getElem?_eq_getElem hi, hels, haddr, if_true]
    · refine ⟨fun ⟨_, _, _, _, _, happlied⟩ => ?_, fun hgood => absurd hgood.1 haddressed⟩
      cases happlied

def Node.knowing (self : Bytes) (peer : Peer) (ks : KsRuntime) : Node :=
  ⟨⟨10, 20, 50, 0, 0, 0, -1⟩, some ⟨self, (Ring.new 1).setPeers [peer]⟩, ks⟩

def threeNodes (last : KsRuntime) : List Node :=
  let ks : KsRuntime := ⟨Memory.newMemory 1000 100, ∅, 0⟩
  [.knowing [97] ⟨[98], [1]⟩ ks, .knowing [98] ⟨[99], [2]⟩ ks, .knowing [99] ⟨[97], [0]⟩ last]

theorem mem_threeNodes {last : KsRuntime} {node : Node} (h : node ∈ threeNodes last) :
    ∃ self peer ks, node = .knowing self peer ks := by
  simp only [threeNodes, List.mem_cons, List.not_mem_nil, or_false] at h
  rcases h with rfl | rfl | rfl
  · exact ⟨_, _, _, rfl⟩
  · exact ⟨_, _, _, rfl⟩
  · exact ⟨_, _, _, rfl⟩

theorem built_threeNodes (last : KsRuntime) : ∀ node ∈ threeNodes last, node.Built := by
  intro node hnode c hc
  obtain ⟨self, peer, ks, rfl⟩ := mem_threeNodes hnode
  cases hc
  exact ⟨1, [[peer]], rfl⟩

/-- The put goes from the first node to the second and the third, and no further. -/
theorem put_routed_once_three :
    let req : Request := ⟨[107], [7], none⟩
    let nodes := threeNodes ⟨Memory.newMemory 1000 100, ∅, 0⟩
    ∃ out, putViaCluster (fun addr => addr.head?.map UInt8.toNat) req
        (fun _ => ⟨1, 2, 3, 4, ⟨[], []⟩⟩) 2 0 nodes = some out ∧
      out.forwards ≤ 2 ∧ RoutedOnce req nodes out := by
  intro req nodes
  have hleads : ∀ node ∈ nodes, (node.elsewhere req.key).all (fun owner =>
      (owner.addr.head?.map UInt8.toNat).any fun j => j < 3) = true := by decide +kernel
  have hcounters : ∀ node ∈ nodes, node.ks.counter 1 req.key + 1 < 2 ^ 64 := by decide +kernel
  have hhealthy : Healthy (fun addr => addr.head?.map UInt8.toNat) req
      (fun _ => ⟨1, 2, 3, 4, ⟨[], []⟩⟩) nodes := by
    refine ⟨built_threeNodes _, ?_, ?_, fun _ => by decide, ?_⟩
    · intro node hnode
      rcases mem_threeNodes hnode with ⟨self, peer, ks, rfl⟩
      rfl
    · intro i node hnode
      exact (Nat.lt_succ_self _).trans (hcounters node (List.mem_of_getElem? hnode))
    · intro node hnode owner hels _
      have hlead := hleads node hnode
      rw [hels, Option.all_some, Option.any_eq_true] at hlead
      obtain ⟨j, hj, hlt⟩ := hlead
      exact ⟨j, hj, of_decide_eq_true hlt⟩
  obtain ⟨out, hout, hfew, honce⟩ := put_routed_once_iff (fun addr => addr.head?.map UInt8.toNat)
    req (fun _ => ⟨1, 2, 3, 4, ⟨[], []⟩⟩) nodes hhealthy 0 0 (by decide)
  refine ⟨out, hout, hfew, honce.mpr ⟨?_, ?_⟩⟩
  · have haddr : ((nodes[0]).elsewhere req.key).all (fun owner => owner.addr ≠ []) = true := by
      decide +kernel
    intro owner hels
    rw [hels, Option.all_some] at haddr
    exact of_decide_eq_true haddr
  · intro node hnode
    have hmem := List.mem_of_getElem? hnode
    have hfits : ∀ node ∈ nodes, Store.tooBig (node.ks.store.env 0)
        (req.key.length + (req.value.length + 64)) = false := by decide +kernel
    exact ⟨hfits node hmem, Or.inl (hcounters node hmem)⟩

/-- The third node's budget of ten bytes is too small for the put, and its error makes the second
node apply the put as well. If instead the third node's counter for the key has come to its end,
it keeps what it has and sends nothing. -/
theorem put_applied_twice_or_kept :
    let req : Request := ⟨[107], [7], none⟩
    let put := fun last => (putViaCluster (fun addr => addr.head?.map UInt8.toNat) req
      (fun _ => ⟨1, 2, 3, 4, ⟨[], []⟩⟩) 2 0 (threeNodes last)).map fun out =>
        out.applied.map fun a => (a.1, a.2.isSome)
    let full : Mem := ((Memory.newMemory 1000 100).perform 0 [107]
      (Store.acceptIfNewer [107] ⟨[1], 2 ^ 64 - 1, 0, 0⟩)).1
    put ⟨Memory.newMemory 10 100, ∅, 0⟩ = some [(2, false), (1, true)] ∧
      put ⟨full, ∅, 0⟩ = some [(2, false)] := by
  intro req put full
  exact ⟨by decide +kernel, by decide +kernel⟩

end Supercache.Routing

import Supercache.LoadCalls
import Supercache.Ring

/-!
A node's view of its cluster, and what the calls ask of it: whether a key is
another node's, whether this node keeps a copy, and where a write goes.
-/
namespace Supercache

open Wire

structure Cluster where
  selfID : Bytes
  ring : Ring

def Config.effectiveReplication (cfg : Config) (peerCount : ℕ) : ℤ :=
  if peerCount = 0 then 1
  else if cfg.replicationFactor < 0 then peerCount
  else
    let rf := if cfg.replicationFactor = 0 then 3 else cfg.replicationFactor
    if peerCount < rf then peerCount else rf

namespace Cluster

variable (c : Cluster) (cfg : Config) (key : Bytes)

def elsewhere : Option Peer :=
  (c.ring.owner key).filter fun owner => owner.id ≠ [] ∧ owner.id ≠ c.selfID

def holdsReplica : Bool :=
  c.ring.isReplica key c.selfID (cfg.effectiveReplication c.ring.len)

def replicaPeers (except : Bytes) : List Peer :=
  c.ring.replicasExcept key except (cfg.effectiveReplication c.ring.len)

def replicaFanout (force : Bool) : List Peer :=
  if !force ∧ (c.ring.owner key).any fun owner => owner.id ≠ c.selfID then []
  else c.replicaPeers cfg key c.selfID

end Cluster

end Supercache

import Supercache.Engine

/-!
The owner's calls on plain keys, cut into their locked sections: a put, the
entry left by a load that found nothing, and the fill of a load that found a
value. Each mints a version and then applies it, in two separate sections, so
each can be overtaken in between.
-/
namespace Supercache.Owner

open Wire Lru

inductive Put where
  | start
  | minted (ent : Entry)
  | rejected (ent : Entry)
  | recheck (ent : Entry)
  | finished (ent : Entry) (failed : Bool)
deriving DecidableEq

/-- One locked section of `putLocalApply`. A put that finds a version at least
its own reports success without having stored anything. -/
def putLocalApply (key value : Bytes) (ttl now : ℤ) (walk : Walk) (ks : KsRuntime) :
    Put → KsRuntime × Put
  | .start =>
    let (ks, version) := ks.nextVersion now walk key 0
    (ks, .minted ⟨value, version, expireAt now ttl, 0⟩)
  | .minted ent =>
    let (store, ok) := ks.store.perform now key (Store.acceptIfNewer key ent)
    ({ ks with store := store }, if ok then .finished ent false else .rejected ent)
  | .rejected ent =>
    let (store, cur) := ks.store.perform now key (Store.peek key)
    let won := cur.any fun cur => !cur.isTombstone && ent.version ≤ cur.version
    ({ ks with store := store }, if won then .finished ent false else .recheck ent)
  | .recheck ent =>
    let (store, cur) := ks.store.perform now key (Store.peek key)
    let gone := cur.any fun cur => cur.isTombstone && ent.version ≤ cur.version
    ({ ks with store := store }, .finished ent !gone)
  | .finished ent failed => (ks, .finished ent failed)

inductive Negative where
  | start
  | peeked
  | minted (ent : Entry)
  | finished
deriving DecidableEq

def storeNegative (key : Bytes) (ttl now : ℤ) (walk : Walk) (ks : KsRuntime) :
    Negative → KsRuntime × Negative
  | .start =>
    if ttl ≤ 0 then (ks, .finished)
    else
      let (store, cur) := ks.store.perform now key (Store.peek key)
      let filled := cur.any fun cur => !cur.isNegative
      ({ ks with store := store }, if filled then .finished else .peeked)
  | .peeked =>
    let (ks, version) := ks.nextVersion now walk key 0
    (ks, .minted ⟨[], version, expireAt now ttl, flagNegative⟩)
  | .minted ent =>
    let (store, _) := ks.store.perform now key (Store.acceptNegative key ent)
    ({ ks with store := store }, .finished)
  | .finished => (ks, .finished)

inductive Fill where
  | start
  | missed
  | minted (ent : Entry)
  | rejected
  | finished (stored : Bool)
deriving DecidableEq

def loadThrough (key value : Bytes) (ttl now : ℤ) (walk : Walk) (ks : KsRuntime) :
    Fill → KsRuntime × Fill
  | .start =>
    let (store, cur) := ks.store.perform now key (Store.get key)
    let filled := cur.any fun cur => !cur.isNegative
    ({ ks with store := store }, if filled then .finished false else .missed)
  | .missed =>
    let (ks, version) := ks.nextVersion now walk key 0
    (ks, .minted ⟨value, version, expireAt now ttl, 0⟩)
  | .minted ent =>
    let (store, ok) := ks.store.perform now key (Store.acceptIfNewer key ent)
    ({ ks with store := store }, if ok then .finished true else .rejected)
  | .rejected =>
    let (store, _) := ks.store.perform now key (Store.get key)
    ({ ks with store := store }, .finished false)
  | .finished stored => (ks, .finished stored)

end Supercache.Owner

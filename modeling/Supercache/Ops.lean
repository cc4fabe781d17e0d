import Supercache.CachedModes
import Supercache.SnapshotModes
import Supercache.JsonMode

/-!
All calls of the store as data, so that runs are lists. The calls of the plain
modes work on any kind of item; the calls of the modes with a cached value work
on the store's own items. Closing the store is the one call without a key, and
is not among them.
-/
namespace Supercache

open Wire Lru Store

inductive Ret where
  | entry (e : Option Entry)
  | bool (b : Bool)
  | pair (p : Bool × Bool)
  | nat (n : ℕ)
  | optNat (n : Option ℕ)
  | optInt (n : Option ℤ)
  | optBool (b : Option Bool)
  | optPos (p : Option (Option ℕ))
  | optBits (b : Option UInt64)
  | optBytes (b : Option Bytes)
  | point (p : Option Geo.Point)
  | counted (c : ℤ × Bool × Bool)
  | popped (p : Option Bytes × Bool)
  | items (xs : List Bytes)
  | fields (xs : List (Bytes × Bytes))
  | scored (xs : List (Bytes × UInt64))
  | places (xs : List Geo.Member)
  | chart (xs : Option (List (Bytes × ℕ)))
  | hits (xs : Option (List (Bytes × UInt32)))
  | vector (v : Option (List UInt32))
  | added (x : XAdded)
  | range (r : Except Unit (Option (List (Bytes × Bytes))))

def Verb.map {α ρ τ : Type} (f : ρ → τ) (v : Verb α ρ) : Verb α τ := fun env old =>
  let plan := v env old
  ⟨plan.act, plan.tally, fun still => f (plan.ret still)⟩

inductive PlainCall where
  | get
  | peek
  | peekVersion
  | set (e : Entry)
  | acceptIfNewer (e : Entry)
  | acceptNegative (e : Entry)
  | delete
  | deleteIfVersion (version : ℕ)
  | cIncr (delta : ℤ) (version : ℕ) (expireAt : ℤ)
  | cGet
  | hasCounter
  | cInstall (blob : Bytes) (version : ℕ) (expireAt : ℤ)
  | bloomAdd (item : Bytes) (m k version : ℕ) (expireAt : ℤ)
  | bloomTest (item : Bytes) (m k : ℕ)
  | bloomMerge (bits : Bytes) (m k version : ℕ) (expireAt : ℤ)
  | bSet (offset : ℕ) (bit : Bool) (version : ℕ) (expireAt maxValue : ℤ)
  | bGet (offset : ℕ)
  | bCount (start stop : ℤ)
  | bPos (bit : Bool) (start stop : ℤ)
  | hasBitmap
  | bInstall (blob : Bytes) (version : ℕ) (expireAt : ℤ)
  | hllAdd (item : Bytes) (version : ℕ) (expireAt maxValue : ℤ)
  | hllCount
  | hasHLL
  | hllInstall (blob : Bytes) (version : ℕ) (expireAt : ℤ)
  | topkAdd (item : Bytes) (version : ℕ) (expireAt : ℤ) (k : ℕ) (maxValue : ℤ)
  | topkList (k : ℕ)
  | hasTopK
  | topkInstall (blob : Bytes) (version : ℕ) (expireAt : ℤ) (k : ℕ)
  | cmsIncr (item : Bytes) (n version : ℕ) (expireAt maxValue : ℤ)
  | cmsQuery (item : Bytes)
  | hasCMS
  | cmsInstall (blob : Bytes) (version : ℕ) (expireAt : ℤ)
  | vAdd (member : Bytes) (vec : List UInt32) (version : ℕ) (expireAt maxValue : ℤ)
  | vRem (member : Bytes) (version : ℕ) (expireAt : ℤ)
  | vSim (vec : List UInt32) (k metric : ℤ)
  | vCard
  | vDim
  | vEmb (member : Bytes)
  | hasVectorSet
  | vsInstall (blob : Bytes) (version : ℕ) (expireAt : ℤ)
  | xAdd (payload : Bytes) (version : ℕ) (expireAt maxValue autoTrim : ℤ) (nowMilli : ℕ)
  | xDel (id : Bytes) (version : ℕ) (expireAt : ℤ)
  | xTrim (maxLen : ℤ) (version : ℕ) (expireAt : ℤ)
  | xRange (start stop : Bytes) (count : ℤ) (rev : Bool)
  | xLen
  | hasStream
  | sxInstall (blob : Bytes) (version : ℕ) (expireAt : ℤ)

inductive CachedCall where
  | setAdd (item : Bytes) (version : ℕ) (expireAt : ℤ)
  | setRemove (item : Bytes) (version : ℕ) (expireAt : ℤ)
  | setContains (item : Bytes)
  | hasSet
  | setCard
  | setMembers
  | setInstall (blob : Bytes) (version : ℕ) (expireAt : ℤ)
  | zAdd (member : Bytes) (score : UInt64) (version : ℕ) (expireAt : ℤ)
  | zRem (member : Bytes) (version : ℕ) (expireAt : ℤ)
  | zScore (member : Bytes)
  | zCard
  | hasZSet
  | zRange (start stop : ℤ)
  | zRangeByScore (min max : UInt64)
  | zInstall (blob : Bytes) (version : ℕ) (expireAt : ℤ)
  | geoAdd (member : Bytes) (p : Geo.Point) (version : ℕ) (expireAt : ℤ)
  | geoRem (member : Bytes) (version : ℕ) (expireAt : ℤ)
  | geoPos (member : Bytes)
  | geoCard
  | hasGeo
  | geoDist (a b : Bytes)
  | geoRadius (centre : Geo.Point) (radiusM : UInt64) (limit : ℤ)
  | geoInstall (blob : Bytes) (version : ℕ) (expireAt : ℤ)
  | lPush (item : Bytes) (version : ℕ) (expireAt : ℤ)
  | rPush (item : Bytes) (version : ℕ) (expireAt : ℤ)
  | lPop (version : ℕ) (expireAt : ℤ)
  | rPop (version : ℕ) (expireAt : ℤ)
  | lLen
  | hasList
  | lIndex (idx : ℤ)
  | lRange (start stop : ℤ)
  | lInstall (blob : Bytes) (version : ℕ) (expireAt : ℤ)
  | hSet (field value : Bytes) (version : ℕ) (expireAt : ℤ)
  | hDel (field : Bytes) (version : ℕ) (expireAt : ℤ)
  | hGet (field : Bytes)
  | hExists (field : Bytes)
  | hLen
  | hasHash
  | hGetAll
  | hInstall (blob : Bytes) (version : ℕ) (expireAt : ℤ)
  | jSet (path raw : Bytes) (version : ℕ) (expireAt maxValue : ℤ)
  | jDel (path : Bytes) (version : ℕ) (expireAt : ℤ)
  | jGet (path : Bytes)
  | hasJSON
  | jInstall (blob : Bytes) (version : ℕ) (expireAt : ℤ)

inductive Call where
  | plain (c : PlainCall)
  | cached (c : CachedCall)

def PlainCall.verb {α : Type} [Stored α] (key : Bytes) : PlainCall → Verb α Ret
  | get => (Store.get key).map .entry
  | peek => (Store.peek key).map .entry
  | peekVersion => Store.peekVersion.map .optNat
  | set e => (Store.set key e).map .bool
  | acceptIfNewer e => (Store.acceptIfNewer key e).map .bool
  | acceptNegative e => (Store.acceptNegative key e).map .bool
  | delete => Store.delete.map .bool
  | deleteIfVersion v => (Store.deleteIfVersion key v).map .bool
  | cIncr delta v x => (Store.cIncr key delta v x).map .counted
  | cGet => Store.cGet.map .optInt
  | hasCounter => Store.hasCounter.map .bool
  | cInstall blob v x => (Store.cInstall key blob v x).map .bool
  | bloomAdd item m k v x => (Store.bloomAdd key item m k v x).map .bool
  | bloomTest item m k => (Store.bloomTest item m k).map .bool
  | bloomMerge bits m k v x => (Store.bloomMerge key bits m k v x).map .bool
  | bSet offset bit v x maxValue => (Store.bSet key offset bit v x maxValue).map .pair
  | bGet offset => (Store.bGet offset).map .optBool
  | bCount start stop => (Store.bCount start stop).map .optNat
  | bPos bit start stop => (Store.bPos bit start stop).map .optPos
  | hasBitmap => Store.hasBitmap.map .bool
  | bInstall blob v x => (Store.bInstall key blob v x).map .bool
  | hllAdd item v x maxValue => (Store.hllAdd key item v x maxValue).map .pair
  | hllCount => Store.hllCount.map .optNat
  | hasHLL => Store.hasHLL.map .bool
  | hllInstall blob v x => (Store.hllInstall key blob v x).map .bool
  | topkAdd item v x k maxValue => (Store.topkAdd key item v x k maxValue).map .pair
  | topkList k => (Store.topkList k).map .chart
  | hasTopK => Store.hasTopK.map .bool
  | topkInstall blob v x k => (Store.topkInstall key blob v x k).map .bool
  | cmsIncr item n v x maxValue => (Store.cmsIncr key item n v x maxValue).map .pair
  | cmsQuery item => (Store.cmsQuery item).map .optNat
  | hasCMS => Store.hasCMS.map .bool
  | cmsInstall blob v x => (Store.cmsInstall key blob v x).map .bool
  | vAdd member vec v x maxValue => (Store.vAdd key member vec v x maxValue).map .pair
  | vRem member v x => (Store.vRem key member v x).map .bool
  | vSim vec k metric => (Store.vSim vec k metric).map .hits
  | vCard => Store.vCard.map .optNat
  | vDim => Store.vDim.map .optNat
  | vEmb member => (Store.vEmb member).map .vector
  | hasVectorSet => Store.hasVectorSet.map .bool
  | vsInstall blob v x => (Store.vsInstall key blob v x).map .bool
  | xAdd payload v x maxValue autoTrim ms =>
    (Store.xAdd key payload v x maxValue autoTrim ms).map .added
  | xDel id v x => (Store.xDel key id v x).map .bool
  | xTrim maxLen v x => (Store.xTrim key maxLen v x).map .bool
  | xRange start stop count rev => (Store.xRange start stop count rev).map .range
  | xLen => Store.xLen.map .optNat
  | hasStream => Store.hasStream.map .bool
  | sxInstall blob v x => (Store.sxInstall key blob v x).map .bool

def CachedCall.verb (key : Bytes) : CachedCall → Verb LruItem Ret
  | setAdd item v x => (Store.setAdd key item v x).map .bool
  | setRemove item v x => (Store.setRemove key item v x).map .bool
  | setContains item => (Store.setContains item).map .bool
  | hasSet => Store.hasSet.map .bool
  | setCard => Store.setCard.map .nat
  | setMembers => Store.setMembers.map .items
  | setInstall blob v x => (Store.setInstall key blob v x).map .bool
  | zAdd member score v x => (Store.zAdd key member score v x).map .bool
  | zRem member v x => (Store.zRem key member v x).map .bool
  | zScore member => (Store.zScore member).map .optBits
  | zCard => Store.zCard.map .nat
  | hasZSet => Store.hasZSet.map .bool
  | zRange start stop => (Store.zRange start stop).map .scored
  | zRangeByScore min max => (Store.zRangeByScore min max).map .scored
  | zInstall blob v x => (Store.zInstall key blob v x).map .bool
  | geoAdd member p v x => (Store.geoAdd key member p v x).map .bool
  | geoRem member v x => (Store.geoRem key member v x).map .bool
  | geoPos member => (Store.geoPos member).map .point
  | geoCard => Store.geoCard.map .nat
  | hasGeo => Store.hasGeo.map .bool
  | geoDist a b => (Store.geoDist a b).map .optBits
  | geoRadius centre radiusM limit => (Store.geoRadius centre radiusM limit).map .places
  | geoInstall blob v x => (Store.geoInstall key blob v x).map .bool
  | lPush item v x => (Store.lPush key item v x).map .bool
  | rPush item v x => (Store.rPush key item v x).map .bool
  | lPop v x => (Store.lPop key v x).map .popped
  | rPop v x => (Store.rPop key v x).map .popped
  | lLen => Store.lLen.map .nat
  | hasList => Store.hasList.map .bool
  | lIndex idx => (Store.lIndex idx).map .optBytes
  | lRange start stop => (Store.lRange start stop).map .items
  | lInstall blob v x => (Store.lInstall key blob v x).map .bool
  | hSet field value v x => (Store.hSet key field value v x).map .bool
  | hDel field v x => (Store.hDel key field v x).map .bool
  | hGet field => (Store.hGet field).map .optBytes
  | hExists field => (Store.hExists field).map .bool
  | hLen => Store.hLen.map .nat
  | hasHash => Store.hasHash.map .bool
  | hGetAll => Store.hGetAll.map .fields
  | hInstall blob v x => (Store.hInstall key blob v x).map .bool
  | jSet path raw v x maxValue => (Store.jSet key path raw v x maxValue).map .pair
  | jDel path v x => (Store.jDel key path v x).map .pair
  | jGet path => (Store.jGet path).map .optBytes
  | hasJSON => Store.hasJSON.map .bool
  | jInstall blob v x => (Store.jInstall key blob v x).map .bool

def Call.verb (key : Bytes) : Call → Verb LruItem Ret
  | plain c => c.verb key
  | cached c => c.verb key

structure Op where
  now : ℤ
  key : Bytes
  call : Call

abbrev Mem := Memory LruItem

def step (m : Mem) (op : Op) : Mem × Ret := m.perform op.now op.key (op.call.verb op.key)

def run (m : Mem) (ops : List Op) : Mem := ops.foldl (fun m op => (step m op).1) m

def answers (m : Mem) : List Op → List Ret
  | [] => []
  | op :: ops => (step m op).2 :: answers (step m op).1 ops

end Supercache

import Supercache.Collections
import Supercache.FloatBits

/-!
The sorted set and the geo index. Scores and coordinates are kept as the bit
patterns that go over the wire; a sorted set refuses NaN and a geo index every
coordinate outside the globe. The members of a sorted set are written in rank
order, those of a geo index in byte order.
-/
namespace Supercache

open Wire FloatBits

namespace ZSet

open ByteMap

abbrev Scores := Map UInt64

def new : Scores := ∅

def add (z : Scores) (member : Bytes) (score : UInt64) : Option Scores :=
  if isNaN score then none else some (z.insert member score)

def rem (z : Scores) (member : Bytes) : Scores := z.erase member

def score (z : Scores) (member : Bytes) : Option UInt64 := z[member]?

def card (z : Scores) : ℕ := z.size

def less (a b : Bytes × UInt64) : Bool :=
  if eqBits a.2 b.2 then compare a.1 b.1 == .lt else ltBits a.2 b.2

def ordered (z : Scores) : List (Bytes × UInt64) :=
  z.toList.insertionSort fun a b => less b a = false

def range (z : Scores) (start stop : ℤ) : List (Bytes × UInt64) := rangeOf (ordered z) start stop

def rangeByScore (z : Scores) (min max : UInt64) : List (Bytes × UInt64) :=
  let rec go : List (Bytes × UInt64) → List (Bytes × UInt64)
    | [] => []
    | m :: rest =>
      if ltBits m.2 min then go rest else if ltBits max m.2 then [] else m :: go rest
  go (ordered z)

def record : RecordCodec UInt64 where
  write e := putBits e.2 ++ putBlob e.1
  read b :=
    match readBits b with
    | none => none
    | some (score, b) => (blob b).map fun p => ((p.1, score), p.2)
  accepts score := !isNaN score
  size e := 8 + (uvarintSize e.1.length + e.1.length)
  Fits e := e.1.length < 2 ^ 64
  read_write := by
    intro e rest h
    rw [List.append_assoc]
    simp only [readBits_putBits, blob_putBlob e.1 rest h, Option.map_some]
  write_ne_nil := by
    intro e h
    have := congrArg List.length h
    simp at this
  fits_of_read := by
    intro b e rest h
    split at h
    · simp at h
    · obtain ⟨p, hp, hpe⟩ := Option.map_eq_some_iff.mp h
      rw [Prod.mk.injEq] at hpe
      rw [← hpe.1]
      exact blob_length_lt hp
  length_write := by
    intro e
    simp

def encode (z : Scores) : Bytes := record.encodeEntries (ordered z)

def approxWireBytes (z : Scores) : ℕ := record.approxWireBytes z

def decode (b : Bytes) : Option Scores := record.decode b

def encodeAdd (member : Bytes) (score : UInt64) : Bytes := encode ((add new member score).getD new)

def decodeAdd (b : Bytes) : Option (Bytes × UInt64) :=
  match decode b with
  | none => none
  | some z =>
    match ordered z with
    | [m] => some m
    | _ => none

theorem ordered_perm (z : Scores) : (ordered z).Perm z.toList := List.perm_insertionSort _ _

theorem decode_encode (z : Scores) (h : record.Storable z) : decode (encode z) = some z :=
  record.decode_encodeEntries z (ordered z) (ordered_perm z) h

theorem encode_length (z : Scores) : (encode z).length = approxWireBytes z :=
  record.encodeEntries_length z (ordered z) (ordered_perm z)

theorem decodeAdd_encodeAdd (member : Bytes) (score : UInt64) (hm : member.length < 2 ^ 64)
    (hs : isNaN score = false) : decodeAdd (encodeAdd member score) = some (member, score) := by
  have hadd : (add new member score).getD new = new.insert member score := by simp [add, hs]
  have hstore : record.Storable (new.insert member score) :=
    record.storable_insert record.storable_empty hm (by simp [record, hs])
  have hord : ordered (new.insert member score) = [(member, score)] := by
    simp [ordered, new, toList_singleton]
  rw [encodeAdd, hadd, decodeAdd, decode_encode _ hstore]
  simp only [hord]

end ZSet

namespace Geo

open ByteMap

structure Point where
  lon : UInt64
  lat : UInt64
deriving DecidableEq, Repr

structure Member where
  member : Bytes
  lon : UInt64
  lat : UInt64
  dist : UInt64
deriving DecidableEq, Repr

abbrev Index := Map Point

def new : Index := ∅

def maxLon : UInt64 := 0x4066800000000000

def maxLat : UInt64 := 0x4056800000000000

def signBit : UInt64 := 0x8000000000000000

def validCoord (p : Point) : Bool :=
  !isNaN p.lon && !isNaN p.lat && !isInf p.lon && !isInf p.lat &&
    leBits (maxLon ||| signBit) p.lon && leBits p.lon maxLon &&
    leBits (maxLat ||| signBit) p.lat && leBits p.lat maxLat

def add (g : Index) (member : Bytes) (p : Point) : Option Index :=
  if validCoord p then some (g.insert member p) else none

def rem (g : Index) (member : Bytes) : Index := g.erase member

def pos (g : Index) (member : Bytes) : Option Point := g[member]?

def card (g : Index) : ℕ := g.size

def earthRadiusM : Float := 6371008.8

def pi : Float := 3.141592653589793

def haversine (lon1 lat1 lon2 lat2 : Float) : Float :=
  let φ1 := lat1 * pi / 180
  let φ2 := lat2 * pi / 180
  let Δφ := (lat2 - lat1) * pi / 180
  let Δl := (lon2 - lon1) * pi / 180
  let sinΔφ := Float.sin (Δφ / 2)
  let sinΔl := Float.sin (Δl / 2)
  let h := sinΔφ * sinΔφ + Float.cos φ1 * Float.cos φ2 * sinΔl * sinΔl
  2 * earthRadiusM * Float.asin (min 1 (Float.sqrt h))

def distance (p q : Point) : Float :=
  haversine (Float.ofBits p.lon) (Float.ofBits p.lat) (Float.ofBits q.lon) (Float.ofBits q.lat)

def dist (g : Index) (a b : Bytes) : Option UInt64 :=
  match pos g a, pos g b with
  | some pa, some pb => some (distance pa pb).toBits
  | _, _ => none

def less (a b : Member) : Bool :=
  if eqBits a.dist b.dist then compare a.member b.member == .lt else ltBits a.dist b.dist

def radius (g : Index) (centre : Point) (radiusM : UInt64) (limit : ℤ) : List Member :=
  let near := g.toList.filterMap fun e =>
    let d := (distance centre e.2).toBits
    if ltBits radiusM d then none
    else some { member := e.1, lon := e.2.lon, lat := e.2.lat, dist := d }
  let out := near.insertionSort fun a b => less b a = false
  if 0 < limit ∧ limit < out.length then out.take limit.toNat else out

def record : RecordCodec Point where
  write e := putBits e.2.lon ++ (putBits e.2.lat ++ putBlob e.1)
  read b :=
    match readBits b with
    | none => none
    | some (lon, b) =>
      match readBits b with
      | none => none
      | some (lat, b) => (blob b).map fun p => ((p.1, ⟨lon, lat⟩), p.2)
  accepts := validCoord
  size e := 16 + (uvarintSize e.1.length + e.1.length)
  Fits e := e.1.length < 2 ^ 64
  read_write := by
    intro e rest h
    simp only [List.append_assoc, readBits_putBits, blob_putBlob e.1 rest h, Option.map_some]
  write_ne_nil := by
    intro e h
    have := congrArg List.length h
    simp at this
  fits_of_read := by
    intro b e rest h
    split at h
    · simp at h
    · split at h
      · simp at h
      · obtain ⟨p, hp, hpe⟩ := Option.map_eq_some_iff.mp h
        rw [Prod.mk.injEq] at hpe
        rw [← hpe.1]
        exact blob_length_lt hp
  length_write := by
    intro e
    simp
    omega

def orderedMembers (g : Index) : List (Bytes × Point) := g.toList

def encode (g : Index) : Bytes := record.encodeEntries (orderedMembers g)

def approxWireBytes (g : Index) : ℕ := record.approxWireBytes g

def decode (b : Bytes) : Option Index := record.decode b

def encodeAdd (member : Bytes) (p : Point) : Bytes := encode ((add new member p).getD new)

def decodeAdd (b : Bytes) : Option (Bytes × Point) :=
  match decode b with
  | none => none
  | some g =>
    match orderedMembers g with
    | [m] => some m
    | _ => none

theorem decode_encode (g : Index) (h : record.Storable g) : decode (encode g) = some g :=
  record.decode_encodeEntries g g.toList (List.Perm.refl _) h

theorem encode_length (g : Index) : (encode g).length = approxWireBytes g :=
  record.encodeEntries_length g g.toList (List.Perm.refl _)

theorem decodeAdd_encodeAdd (member : Bytes) (p : Point) (hm : member.length < 2 ^ 64)
    (hp : validCoord p = true) : decodeAdd (encodeAdd member p) = some (member, p) := by
  have hadd : (add new member p).getD new = new.insert member p := by simp [add, hp]
  have hstore : record.Storable (new.insert member p) :=
    record.storable_insert record.storable_empty hm hp
  have hord : orderedMembers (new.insert member p) = [(member, p)] := by
    simp [orderedMembers, new, toList_singleton]
  rw [encodeAdd, hadd, decodeAdd, decode_encode _ hstore]
  simp only [hord]

end Geo

end Supercache

import Supercache.Collections
import Supercache.FloatBits

/-!
The values that are stored as a snapshot and decoded for every operation: the
Space-Saving table, the vector set and the stream. A snapshot decoder checks
everything it reads and refuses bytes left over.
-/
namespace Supercache

open Wire FloatBits

namespace TopKX

open ByteMap

structure Table where
  k : ℕ
  slots : List (Bytes × ℕ)
  idx : Map ℕ

def new (k : ℕ) : Table := { k := k, slots := [], idx := ∅ }

def maxUint64 : ℕ := 2 ^ 64 - 1

def lessSlot (a b : Bytes × ℕ) : Bool :=
  decide (a.2 < b.2) || (a.2 == b.2 && compare a.1 b.1 == .lt)

def minSlot (slots : List (Bytes × ℕ)) : ℕ :=
  (List.range slots.length).foldl
    (fun m i => if lessSlot (slots.getD i ([], 0)) (slots.getD m ([], 0)) then i else m) 0

def Table.add (t : Table) (item : Bytes) : Option Table :=
  if item = [] then none
  else
    match t.idx[item]? with
    | some i =>
      let c := (t.slots.getD i ([], 0)).2
      if c = maxUint64 then none
      else some { t with slots := t.slots.set i ((t.slots.getD i ([], 0)).1, c + 1) }
    | none =>
      if t.slots.length < t.k then
        some { t with
          slots := t.slots ++ [(item, 1)]
          idx := t.idx.insert item t.slots.length }
      else
        let m := minSlot t.slots
        let c := (t.slots.getD m ([], 0)).2
        if c = maxUint64 then none
        else
          some { t with
            slots := t.slots.set m (item, c + 1)
            idx := (t.idx.erase (t.slots.getD m ([], 0)).1).insert item m }

def lessRow (a b : Bytes × ℕ) : Bool :=
  decide (b.2 < a.2) || (a.2 == b.2 && compare a.1 b.1 == .lt)

def Table.list (t : Table) : List (Bytes × ℕ) :=
  t.slots.insertionSort fun a b => lessRow b a = false

def Table.encode (t : Table) : Bytes :=
  t.list.flatMap fun e => putUvarint e.2 ++ putBlob e.1

def readRow (b : Bytes) : Option ((Bytes × ℕ) × Bytes) :=
  match uvarint b with
  | none => none
  | some (count, b) =>
    if count = 0 then none
    else
      match blob b with
      | none => none
      | some (item, rest) => if item = [] then none else some ((item, count), rest)

def decode (b : Bytes) (k : ℕ) : Option Table :=
  if k < 1 then none
  else
    match readAll readRow b.length b with
    | none => none
    | some rows =>
      rows.foldlM (fun t e =>
        if t.idx.contains e.1 ∨ t.k ≤ t.slots.length then none
        else some { t with slots := t.slots ++ [e], idx := t.idx.insert e.1 t.slots.length })
        (new k)

end TopKX

namespace VecSet

open ByteMap

def minDim : ℕ := 2

def maxDim : ℕ := 256

def maxMembers : ℕ := 512

def maxMemberLen : ℕ := 255

inductive Metric where
  | cosine
  | l2
  | ip
deriving DecidableEq, Repr

def Metric.ofInt (n : ℤ) : Metric := if n = 1 then .l2 else if n = 2 then .ip else .cosine

def validDim (dim : ℕ) : Bool := minDim ≤ dim && dim ≤ maxDim

def finite (vec : List UInt32) : Bool := vec.all isFinite32

def clampK (k : ℤ) : ℕ := if k ≤ 0 then 10 else if 50 < k then 50 else k.toNat

structure VSet where
  dim : ℕ
  vals : Map (List UInt32)

def newSet (dim : ℕ) : VSet := { dim := dim, vals := ∅ }

def VSet.card (s : VSet) : ℕ := s.vals.size

def VSet.emb (s : VSet) (member : Bytes) : Option (List UInt32) := s.vals[member]?

def VSet.add (s : VSet) (member : Bytes) (vec : List UInt32) : Option VSet :=
  if !validDim s.dim ∨ vec.length ≠ s.dim ∨ !finite vec then none
  else if member.length < 1 ∨ maxMemberLen < member.length then none
  else if !s.vals.contains member ∧ maxMembers ≤ s.vals.size then none
  else some { s with vals := s.vals.insert member vec }

def VSet.rem (s : VSet) (member : Bytes) : VSet := { s with vals := s.vals.erase member }

def putVec (vec : List UInt32) : Bytes := vec.flatMap fun x => leBytes 4 x.toNat

def prefixSnapshot : UInt8 := 0x53

def VSet.encode (s : VSet) : Bytes :=
  prefixSnapshot :: (leBytes 2 s.dim ++ leBytes 2 s.vals.size ++
    s.vals.toList.flatMap fun e => UInt8.ofNat e.1.length :: (e.1 ++ putVec e.2))

def takeVec : ℕ → Bytes → List UInt32
  | 0, _ => []
  | n + 1, b => UInt32.ofNat (leNat (b.take 4)) :: takeVec n (b.drop 4)

def readRecords : ℕ → VSet → Bytes → Option VSet
  | 0, s, b => if b = [] then some s else none
  | count + 1, s, b =>
    match b with
    | [] => none
    | len :: b =>
      let idLen := len.toNat
      if idLen < 1 ∨ b.length < idLen + 4 * s.dim then none
      else
        let vec := takeVec s.dim (b.drop idLen)
        if !finite vec then none
        else
          match s.add (b.take idLen) vec with
          | none => none
          | some s => readRecords count s (b.drop (idLen + 4 * s.dim))

def decodeSnapshot : Bytes → Option VSet
  | p :: d0 :: d1 :: c0 :: c1 :: rest =>
    let dim := leNat [d0, d1]
    let count := leNat [c0, c1]
    if p ≠ prefixSnapshot then none
    else if !validDim dim ∨ maxMembers < count then none
    else readRecords count (newSet dim) rest
  | _ => none

def sumOver (a b : List UInt32) (f : Float → Float → Float) : Float :=
  (List.zip a b).foldl
    (fun s p => s + f (Float32.ofBits p.1).toFloat (Float32.ofBits p.2).toFloat) 0

def scoreOf (a b : List UInt32) (m : Metric) : Float32 :=
  if a = [] ∨ a.length ≠ b.length then 0
  else
    match m with
    | .l2 => (Float.sqrt (sumOver a b fun x y => (x - y) * (x - y))).toFloat32
    | .ip => (sumOver a b fun x y => x * y).toFloat32
    | .cosine =>
      let dot := sumOver a b fun x y => x * y
      let na := sumOver a b fun x _ => x * x
      let nb := sumOver a b fun _ y => y * y
      if na == 0 || nb == 0 then 0 else (dot / (Float.sqrt na * Float.sqrt nb)).toFloat32

def lessHit (m : Metric) (a b : Bytes × Float32) : Bool :=
  if a.2 == b.2 then compare a.1 b.1 == .lt
  else
    match m with
    | .l2 => decide (a.2 < b.2)
    | _ => decide (b.2 < a.2)

def VSet.sim (s : VSet) (query : List UInt32) (k : ℤ) (m : Metric) :
    Option (List (Bytes × UInt32)) :=
  if query.length ≠ s.dim ∨ !finite query then none
  else
    let rows := s.vals.toList.map fun e => (e.1, scoreOf query e.2 m)
    let sorted := rows.insertionSort fun a b => lessHit m b a = false
    some ((sorted.take (clampK k)).map fun r => (r.1, r.2.toBits))

end VecSet

namespace Stream

def hardCap : ℕ := 4096

def defaultMax : ℕ := 512

structure Entry where
  ms : ℕ
  seq : ℕ
  payload : Bytes
deriving DecidableEq, Repr

structure Log where
  lastMs : ℕ
  lastSeq : ℕ
  entries : List Entry
deriving DecidableEq, Repr

def new : Log := { lastMs := 0, lastSeq := 0, entries := [] }

def decimal (n : ℕ) : Bytes := (Nat.toDigits 10 n).map fun c => UInt8.ofNat c.toNat

def isDigit (c : UInt8) : Bool := 0x30 ≤ c && c ≤ 0x39

def parseUint (b : Bytes) : Option ℕ :=
  if b = [] ∨ !b.all isDigit then none
  else
    let n := b.foldl (fun n c => n * 10 + (c.toNat - 0x30)) 0
    if n < 2 ^ 64 then some n else none

def formatID (ms seq : ℕ) : Bytes := decimal ms ++ 0x2D :: decimal seq

def parseID (s : Bytes) : Option (ℕ × ℕ) :=
  match s.dropWhile (· != 0x2D) with
  | [] => none
  | _ :: seq =>
    match parseUint (s.takeWhile (· != 0x2D)), parseUint seq with
    | some ms, some seq => some (ms, seq)
    | _, _ => none

inductive Bound where
  | min
  | max
  | at (ms seq : ℕ) (exclusive : Bool)
deriving DecidableEq, Repr

/-- A number without a dash means the first id of that millisecond at the start
and the last one at the end. -/
def parseBound (s : Bytes) (isStart : Bool) : Option Bound :=
  if s = [] ∨ s = [0x2D] then some .min
  else if s = [0x2B] then some .max
  else
    let ex := s.head? == some 0x28
    let s := if ex then s.tail else s
    if ex ∧ (!isStart ∨ s = []) then none
    else if s.contains 0x2D then
      match parseID s with
      | none => none
      | some (ms, seq) => some (.at ms seq ex)
    else
      match parseUint s with
      | none => none
      | some ms => some (.at ms (if isStart then 0 else 2 ^ 64 - 1) ex)

def idLt (a b : ℕ × ℕ) : Bool := decide (a.1 < b.1) || (a.1 == b.1 && decide (a.2 < b.2))

def Bound.below (b : Bound) (e : Entry) : Bool :=
  match b with
  | .min => false
  | .max => true
  | .at ms seq exclusive =>
    if exclusive then !idLt (ms, seq) (e.ms, e.seq) else idLt (e.ms, e.seq) (ms, seq)

def Bound.above (b : Bound) (e : Entry) : Bool :=
  match b with
  | .max => false
  | .min => true
  | .at ms seq _ => idLt (ms, seq) (e.ms, e.seq)

def clampCount (n : ℤ) : ℕ := if n ≤ 0 then 0 else if defaultMax < n then defaultMax else n.toNat

def Log.mint (l : Log) (now : ℕ) : ℕ × ℕ :=
  let now := if now < l.lastMs then l.lastMs else now
  if now = l.lastMs then (now, (l.lastSeq + 1) % 2 ^ 64) else (now, 0)

def Log.trim (l : Log) (maxLen : ℤ) : Log :=
  if maxLen < 0 then l
  else { l with entries := l.entries.drop (l.entries.length - maxLen.toNat) }

def Log.append (l : Log) (payload : Bytes) (now : ℕ) (autoTrim : ℤ) : Option (Bytes × Log) :=
  if autoTrim ≤ 0 ∧ hardCap ≤ l.entries.length then none
  else
    let (ms, seq) := l.mint now
    let l : Log := { lastMs := ms, lastSeq := seq, entries := l.entries ++ [⟨ms, seq, payload⟩] }
    let l := if 0 < autoTrim then l.trim autoTrim else l
    let l := if hardCap < l.entries.length then l.trim hardCap else l
    some (formatID ms seq, l)

def Log.del (l : Log) (ms seq : ℕ) : Log :=
  { l with entries := l.entries.filter fun e => !(e.ms == ms && e.seq == seq) }

def Log.range (l : Log) (start stop : Bound) (count : ℤ) (rev : Bool) : List Entry :=
  let inside := (if rev then l.entries.reverse else l.entries).filter fun e =>
    !(start.below e || stop.above e)
  let count := clampCount count
  if 0 < count then inside.take count else inside

def prefixSnapshot : UInt8 := 0x53

def putEntry (e : Entry) : Bytes := putUvarint e.ms ++ (putUvarint e.seq ++ putBlob e.payload)

def Log.encode (l : Log) : Bytes :=
  prefixSnapshot :: (putUvarint l.lastMs ++ (putUvarint l.lastSeq ++
    (putUvarint l.entries.length ++ l.entries.flatMap putEntry)))

def readEntry (b : Bytes) : Option (Entry × Bytes) :=
  match uvarint b with
  | none => none
  | some (ms, b) =>
    match uvarint b with
    | none => none
    | some (seq, b) =>
      match blob b with
      | none => none
      | some (payload, rest) => some (⟨ms, seq, payload⟩, rest)

def readEntries : ℕ → Bytes → Option (List Entry)
  | 0, b => if b = [] then some [] else none
  | n + 1, b =>
    match readEntry b with
    | none => none
    | some (e, rest) => (readEntries n rest).map (e :: ·)

def decodeSnapshot : Bytes → Option Log
  | [] => none
  | p :: b =>
    if p ≠ prefixSnapshot then none
    else
      match uvarint b with
      | none => none
      | some (lastMs, b) =>
        match uvarint b with
        | none => none
        | some (lastSeq, b) =>
          match uvarint b with
          | none => none
          | some (n, b) =>
            if hardCap < n then none
            else (readEntries n b).map fun es => ⟨lastMs, lastSeq, es⟩

/-- The numbers fit 64 bits. -/
structure Entry.Fits (e : Entry) : Prop where
  ms : e.ms < 2 ^ 64
  seq : e.seq < 2 ^ 64
  payload : e.payload.length < 2 ^ 64

/-- The numbers of a log fit 64 bits. -/
structure Log.Fits (l : Log) : Prop where
  lastMs : l.lastMs < 2 ^ 64
  lastSeq : l.lastSeq < 2 ^ 64
  entries : ∀ e ∈ l.entries, e.Fits

/-- A log that its snapshot can carry. -/
structure Log.Valid (l : Log) : Prop extends l.Fits where
  length : l.entries.length ≤ hardCap

theorem readEntry_putEntry (e : Entry) (rest : Bytes) (he : e.Fits) :
    readEntry (putEntry e ++ rest) = some (e, rest) := by
  simp only [readEntry, putEntry, List.append_assoc, uvarint_putUvarint _ _ he.ms,
    uvarint_putUvarint _ _ he.seq, blob_putBlob _ _ he.payload]

theorem readEntries_flatMap (es : List Entry) (hes : ∀ e ∈ es, e.Fits) :
    readEntries es.length (es.flatMap putEntry) = some es := by
  induction es with
  | nil => rfl
  | cons e es ih =>
    obtain ⟨he, hrest⟩ := List.forall_mem_cons.mp hes
    simp only [List.length_cons, List.flatMap_cons, readEntries, readEntry_putEntry e _ he,
      ih hrest, Option.map_some]

theorem decodeSnapshot_encode {l : Log} (hl : l.Valid) : decodeSnapshot l.encode = some l := by
  have hlen : l.entries.length < 2 ^ 64 := lt_of_le_of_lt hl.length (by decide)
  simp only [Log.encode, decodeSnapshot, ne_eq, not_true_eq_false, if_false,
    uvarint_putUvarint _ _ hl.lastMs, uvarint_putUvarint _ _ hl.lastSeq,
    uvarint_putUvarint _ _ hlen,
    Nat.not_lt.mpr hl.length, readEntries_flatMap _ hl.entries, Option.map_some]

theorem fits_of_readEntry {b rest : Bytes} {e : Entry} (h : readEntry b = some (e, rest)) :
    e.Fits := by
  unfold readEntry at h
  rcases hms : uvarint b with _ | ⟨ms, b₁⟩
  · simp [hms] at h
  · simp only [hms] at h
    rcases hseq : uvarint b₁ with _ | ⟨seq, b₂⟩
    · simp [hseq] at h
    · simp only [hseq] at h
      rcases hpayload : blob b₂ with _ | ⟨payload, b₃⟩
      · simp [hpayload] at h
      · simp only [hpayload] at h
        obtain ⟨rfl, -⟩ := Prod.mk.inj (Option.some.inj h)
        exact ⟨uvarint_lt hms, uvarint_lt hseq, blob_length_lt hpayload⟩

theorem fits_of_readEntries {n : ℕ} {b : Bytes} {es : List Entry}
    (h : readEntries n b = some es) : es.length = n ∧ ∀ e ∈ es, e.Fits := by
  induction n generalizing b es with
  | zero =>
    unfold readEntries at h
    split at h
    · obtain rfl := Option.some.inj h
      exact ⟨rfl, by simp⟩
    · simp at h
  | succ n ih =>
    unfold readEntries at h
    rcases he : readEntry b with _ | ⟨e, rest⟩
    · simp [he] at h
    · simp only [he] at h
      obtain ⟨es', hes', rfl⟩ := Option.map_eq_some_iff.mp h
      obtain ⟨hlen, hfits⟩ := ih hes'
      exact ⟨by simp [hlen], List.forall_mem_cons.mpr ⟨fits_of_readEntry he, hfits⟩⟩

/-- What is accepted is well formed. -/
theorem valid_of_decodeSnapshot {b : Bytes} {l : Log} (h : decodeSnapshot b = some l) :
    l.Valid := by
  unfold decodeSnapshot at h
  split at h
  · simp at h
  · split at h
    · simp at h
    · split at h
      · simp at h
      next lastMs b₁ hms =>
        rcases hseq : uvarint b₁ with _ | ⟨lastSeq, b₂⟩
        · simp [hseq] at h
        · simp only [hseq] at h
          rcases hn : uvarint b₂ with _ | ⟨n, b₃⟩
          · simp [hn] at h
          · simp only [hn] at h
            by_cases hcap : hardCap < n
            · simp [hcap] at h
            · rw [if_neg hcap] at h
              obtain ⟨es, hes, rfl⟩ := Option.map_eq_some_iff.mp h
              obtain ⟨hlen, hfits⟩ := fits_of_readEntries hes
              exact ⟨⟨uvarint_lt hms, uvarint_lt hseq, hfits⟩, by simp only [hlen]; omega⟩

namespace Log.Fits

variable {l : Log}

variable (hl : l.Fits)
include hl

theorem sublist {es : List Entry} (hes : es.Sublist l.entries) :
    ({ l with entries := es } : Log).Fits :=
  ⟨hl.lastMs, hl.lastSeq, fun e he => hl.entries e (hes.subset he)⟩

theorem trim (maxLen : ℤ) : (l.trim maxLen).Fits := by
  unfold Log.trim
  split
  · exact hl
  · exact hl.sublist (List.drop_sublist _ _)

theorem mint {now : ℕ} (hnow : now < 2 ^ 64) :
    (l.mint now).1 < 2 ^ 64 ∧ (l.mint now).2 < 2 ^ 64 := by
  have hclock : (if now < l.lastMs then l.lastMs else now) < 2 ^ 64 := by
    split
    · exact hl.lastMs
    · exact hnow
  unfold Log.mint
  generalize (if now < l.lastMs then l.lastMs else now) = clock at hclock
  dsimp only
  split
  · exact ⟨hclock, Nat.mod_lt _ (by decide)⟩
  · exact ⟨hclock, Nat.two_pow_pos 64⟩

theorem pushed {ms seq : ℕ} {payload : Bytes} (hms : ms < 2 ^ 64)
    (hseq : seq < 2 ^ 64) (hpayload : payload.length < 2 ^ 64) :
    (⟨ms, seq, l.entries ++ [⟨ms, seq, payload⟩]⟩ : Log).Fits := by
  refine ⟨hms, hseq, fun e he => ?_⟩
  rcases List.mem_append.mp he with he | he
  · exact hl.entries e he
  · rw [List.mem_singleton.mp he]
    exact ⟨hms, hseq, hpayload⟩

theorem capped :
    (if hardCap < l.entries.length then l.trim hardCap else l).Valid := by
  split
  · refine ⟨hl.trim hardCap, ?_⟩
    simp only [Log.trim, Int.not_lt.mpr (Int.natCast_nonneg hardCap), if_false, Int.toNat_natCast,
      List.length_drop]
    omega
  · exact ⟨hl, by omega⟩

end Log.Fits

namespace Log.Valid

variable {l : Log}

theorem new : Stream.new.Valid := ⟨⟨by decide, by decide, by simp [Stream.new]⟩, by decide⟩

theorem trim (hl : l.Valid) (maxLen : ℤ) : (l.trim maxLen).Valid := by
  refine ⟨hl.toFits.trim maxLen, le_trans ?_ hl.length⟩
  unfold Log.trim
  split
  · exact le_rfl
  · exact (List.drop_sublist _ _).length_le

theorem del (hl : l.Valid) (ms seq : ℕ) : (l.del ms seq).Valid :=
  ⟨hl.toFits.sublist List.filter_sublist, (List.length_filter_le _ _).trans hl.length⟩

theorem append (hl : l.Valid) {payload id : Bytes} {now : ℕ} {autoTrim : ℤ} {l' : Log}
    (hnow : now < 2 ^ 64) (hpayload : payload.length < 2 ^ 64)
    (h : l.append payload now autoTrim = some (id, l')) : l'.Valid := by
  obtain ⟨hms, hseq⟩ := hl.toFits.mint hnow
  have hpushed := hl.toFits.pushed hms hseq hpayload
  unfold Log.append at h
  split at h
  · simp at h
  · obtain ⟨-, rfl⟩ := Prod.mk.inj (Option.some.inj h)
    refine Log.Fits.capped ?_
    split
    · exact hpushed.trim autoTrim
    · exact hpushed

end Log.Valid

end Stream

end Supercache

import Supercache.Collections

/-!
The fixed-size values that are stored as their own blob: the 64-bit counter,
the Bloom filter, the bitmap, the dense HyperLogLog registers and the Count-Min
sketch. Hashes are computed in 64-bit machine words.
-/
namespace Supercache

open Wire

namespace Counter

def encode (v : ℤ) : Bytes := leBytes 8 (v % 2 ^ 64).toNat

def decode (b : Bytes) : Option ℤ :=
  if b.length ≠ 8 then none
  else
    let n := leNat b
    some (if n < 2 ^ 63 then n else (n : ℤ) - 2 ^ 64)

def maxInt64 : ℤ := 2 ^ 63 - 1

def minInt64 : ℤ := -2 ^ 63

def add (cur delta : ℤ) : Option ℤ :=
  if 0 < delta ∧ maxInt64 - delta < cur then none
  else if delta < 0 ∧ cur < minInt64 - delta then none
  else some (cur + delta)

theorem decode_encode (v : ℤ) (hlo : minInt64 ≤ v) (hhi : v ≤ maxInt64) :
    decode (encode v) = some v := by
  unfold minInt64 at hlo
  unfold maxInt64 at hhi
  have hlen : (encode v).length = 8 := leBytes_length 8 _
  have hval : (leNat (encode v) : ℤ) = v % 2 ^ 64 := by
    rw [encode, leNat_leBytes, Nat.mod_eq_of_lt (by omega)]
    omega
  simp only [decode, hlen, ne_eq, not_true_eq_false, if_false, Option.some.injEq]
  split <;> omega

theorem encode_length (v : ℤ) : (encode v).length = 8 := leBytes_length 8 _

theorem isSome_decode_encode (v : ℤ) : (decode (encode v)).isSome = true := by
  rw [decode, if_neg (not_not.mpr (encode_length v))]
  rfl

end Counter

namespace Fnv

def offset64 : UInt64 := 14695981039346656037

def prime64 : UInt64 := 1099511628211

def hash64a (item : Bytes) : UInt64 := item.foldl (fun h c => (h ^^^ c.toUInt64) * prime64) offset64

def hash64 (item : Bytes) : UInt64 := item.foldl (fun h c => (h * prime64) ^^^ c.toUInt64) offset64

def mix64 (x : UInt64) : UInt64 :=
  let x := x ^^^ (x >>> 30)
  let x := x * 0xbf58476d1ce4e5b9
  let x := x ^^^ (x >>> 27)
  let x := x * 0x94d049bb133111eb
  x ^^^ (x >>> 31)

end Fnv

namespace Bloom

structure Filter where
  bits : Bytes
  m : ℕ
  k : ℕ

def open_ (m k : ℕ) (bits : Bytes) : Option Filter :=
  if m < 8 ∨ k < 1 then none
  else if bits.length ≠ (m + 7) / 8 then none
  else some { bits := bits, m := m, k := k }

def hash2 (item : Bytes) : UInt64 × UInt64 :=
  let h2 := Fnv.hash64 item
  (Fnv.hash64a item, if h2 &&& 1 = 0 then h2 + 1 else h2)

def indexes (m k : ℕ) (item : Bytes) : List ℕ :=
  let (h1, h2) := hash2 item
  (List.range k).map fun i => ((h1 + UInt64.ofNat i * h2) % UInt64.ofNat m).toNat

def setBit (bits : Bytes) (idx : ℕ) : Bytes :=
  bits.modify (idx / 8) fun b => b ||| (1 <<< UInt8.ofNat (idx % 8))

def testBit (bits : Bytes) (idx : ℕ) : Bool :=
  (bits.getD (idx / 8) 0) &&& (1 <<< UInt8.ofNat (idx % 8)) != 0

def Filter.add (f : Filter) (item : Bytes) : Filter :=
  { f with bits := (indexes f.m f.k item).foldl setBit f.bits }

def Filter.test (f : Filter) (item : Bytes) : Bool :=
  f.bits ≠ [] && (indexes f.m f.k item).all (testBit f.bits)

def Filter.merge (f other : Filter) : Filter :=
  if f.m ≠ other.m ∨ f.k ≠ other.k ∨ f.bits.length ≠ other.bits.length then f
  else { f with bits := List.zipWith (· ||| ·) f.bits other.bits }

theorem or_and_distrib (a b c : UInt8) : (a ||| b) &&& c = (a &&& c) ||| (b &&& c) := by
  apply UInt8.eq_of_toBitVec_eq
  simp only [UInt8.toBitVec_and, UInt8.toBitVec_or]
  ext i hi
  simp [Bool.and_or_distrib_right]

variable {m k : ℕ} {bits : Bytes} {f : Filter}

theorem bits_of_open (h : open_ m k bits = some f) : f.bits = bits := by
  unfold open_ at h
  split at h
  · simp at h
  · split at h
    · simp at h
    · rw [← Option.some.inj h]

theorem setBit_length (bits : Bytes) (idx : ℕ) : (setBit bits idx).length = bits.length :=
  List.length_modify ..

/-- A bit that was set stays set. -/
theorem testBit_setBit (bits : Bytes) (idx i : ℕ) (h : testBit bits i = true) :
    testBit (setBit bits idx) i = true := by
  unfold testBit setBit at *
  rw [List.getD_eq_getElem?_getD] at h ⊢
  rw [List.getElem?_modify]
  cases hget : bits[i / 8]? with
  | none => simp [hget] at h
  | some b =>
    rw [hget] at h
    simp only [Option.map_eq_map, Option.map_some, Option.getD_some, bne_iff_ne, ne_eq] at h ⊢
    split
    · rw [or_and_distrib, UInt8.or_eq_zero_iff]
      exact fun hzero => h hzero.1
    · exact h

/-- The bit that is set is set, if it lies inside. -/
theorem testBit_setBit_self (bits : Bytes) (idx : ℕ) (h : idx / 8 < bits.length) :
    testBit (setBit bits idx) idx = true := by
  have hmask : ∀ i < 8, (1 : UInt8) <<< UInt8.ofNat i ≠ 0 := by decide
  unfold testBit setBit
  rw [List.getD_eq_getElem?_getD, List.getElem?_modify, List.getElem?_eq_getElem h]
  simp only [Option.map_eq_map, Option.map_some, Option.getD_some, if_true, bne_iff_ne, ne_eq]
  rw [or_and_distrib, UInt8.and_self, UInt8.or_eq_zero_iff]
  exact fun hzero => hmask _ (Nat.mod_lt _ (by decide)) hzero.2

theorem foldl_setBit_length (idxs : List ℕ) (bits : Bytes) :
    (idxs.foldl setBit bits).length = bits.length := by
  induction idxs generalizing bits with
  | nil => rfl
  | cons idx rest ih => rw [List.foldl_cons, ih, setBit_length]

theorem Filter.add_length (f : Filter) (item : Bytes) : (f.add item).bits.length = f.bits.length :=
  foldl_setBit_length _ _

theorem Filter.merge_length (f other : Filter) : (f.merge other).bits.length = f.bits.length := by
  unfold Filter.merge
  by_cases hdiffer : f.m ≠ other.m ∨ f.k ≠ other.k ∨ f.bits.length ≠ other.bits.length
  · rw [if_pos hdiffer]
  · rw [if_neg hdiffer]
    have hlen : f.bits.length = other.bits.length := by
      simp only [not_or, not_not] at hdiffer
      exact hdiffer.2.2
    rw [List.length_zipWith, ← hlen, Nat.min_self]

theorem testBit_foldl_setBit (idxs : List ℕ) (bits : Bytes) (i : ℕ)
    (h : testBit bits i = true) : testBit (idxs.foldl setBit bits) i = true := by
  induction idxs generalizing bits with
  | nil => exact h
  | cons idx rest ih => exact ih _ (testBit_setBit bits idx i h)

theorem testBit_foldl_setBit_of_mem (idxs : List ℕ) (bits : Bytes)
    (hin : ∀ idx ∈ idxs, idx / 8 < bits.length) :
    ∀ idx ∈ idxs, testBit (idxs.foldl setBit bits) idx = true := by
  induction idxs generalizing bits with
  | nil => simp
  | cons first rest ih =>
    obtain ⟨hfirst, hrest⟩ := List.forall_mem_cons.mp hin
    refine List.forall_mem_cons.mpr ⟨?_, ?_⟩
    · exact testBit_foldl_setBit rest _ first (testBit_setBit_self bits first hfirst)
    · exact ih (setBit bits first) fun idx hidx => by
        rw [setBit_length]
        exact hrest idx hidx

theorem indexes_lt (hm : 0 < m) (k : ℕ) (item : Bytes) : ∀ idx ∈ indexes m k item, idx < m := by
  intro idx hidx
  obtain ⟨i, -, rfl⟩ := List.mem_map.mp hidx
  rw [UInt64.toNat_mod, UInt64.toNat_ofNat']
  by_cases hlt : m < 2 ^ 64
  · rw [Nat.mod_eq_of_lt hlt]
    exact Nat.mod_lt _ hm
  · refine (Nat.mod_le _ _).trans_lt ((UInt64.toNat_lt _).trans_le ?_)
    exact Nat.not_lt.mp hlt

/-- A shape some filter has, the empty filter can have. -/
theorem open_zeros_of_open (h : open_ m k bits = some f) :
    (open_ m k (List.replicate ((m + 7) / 8) 0)).isSome = true := by
  unfold open_ at *
  by_cases hbad : m < 8 ∨ k < 1
  · rw [if_pos hbad] at h
    simp at h
  · rw [if_neg hbad] at h
    simp only [if_neg hbad, List.length_replicate, ne_eq, not_true_eq_false, if_false,
      Option.isSome_some]

/-- A filter has an item that was added. -/
theorem open_add (h : open_ m k bits = some f) (item : Bytes) :
    ∃ f', open_ m k (f.add item).bits = some f' ∧ f'.test item = true := by
  unfold open_ at h
  split at h
  · simp at h
  · split at h
    · simp at h
    next hmk hlen =>
      obtain rfl := Option.some.inj h
      rw [not_not] at hlen
      have hlen' : ((indexes m k item).foldl setBit bits).length = (m + 7) / 8 := by
        rw [foldl_setBit_length, hlen]
      have hin : ∀ idx ∈ indexes m k item, idx / 8 < bits.length := by
        intro idx hidx
        have hlt := indexes_lt (by omega) k item idx hidx
        omega
      refine ⟨⟨(indexes m k item).foldl setBit bits, m, k⟩, ?_, ?_⟩
      · simp only [open_, Filter.add, if_neg hmk, hlen', ne_eq, not_true_eq_false, if_false]
      · have hne : (indexes m k item).foldl setBit bits ≠ [] := by
          rw [← List.length_pos_iff, hlen']
          omega
        simp only [Filter.test, hne, ne_eq, not_false_eq_true, decide_true, Bool.true_and,
          List.all_eq_true]
        exact testBit_foldl_setBit_of_mem _ bits hin

end Bloom

namespace BitmapX

def encodedLen (offset : ℕ) : Option ℕ :=
  let need := offset / 8 + 1
  if 2 ^ 63 - 1 < need then none else some need

def bitMask (offset : ℕ) : UInt8 := 1 <<< UInt8.ofNat (7 - offset % 8)

def get (buf : Bytes) (offset : ℕ) : Bool :=
  match encodedLen offset with
  | none => false
  | some need =>
    if buf.length < need then false else (buf.getD (need - 1) 0) &&& bitMask offset != 0

def set (buf : Bytes) (offset : ℕ) (bit : Bool) : Bytes :=
  match encodedLen offset with
  | none => buf
  | some need =>
    let buf := buf ++ List.replicate (need - buf.length) 0
    buf.modify (offset / 8) fun b =>
      if bit then b ||| bitMask offset else b &&& ~~~(bitMask offset)

def normalizeByteRange (n start stop : ℤ) : Option (ℕ × ℕ) := clampRange n start stop

def onesCount (b : UInt8) : ℕ :=
  ((List.range 8).filter fun s => b &&& (1 <<< UInt8.ofNat s) != 0).length

def count (buf : Bytes) (start stop : ℤ) : ℕ :=
  match normalizeByteRange buf.length start stop with
  | none => 0
  | some (lo, hi) => (((buf.drop lo).take (hi - lo + 1)).map onesCount).sum

def pos (buf : Bytes) (bit : Bool) (start stop : ℤ) : Option ℕ :=
  match normalizeByteRange buf.length start stop with
  | none => none
  | some (lo, hi) =>
    (List.range' lo (hi - lo + 1)).findSome? fun i =>
      let b := buf.getD i 0
      -- the first bit of the byte that is as wanted
      let hit := (List.range 8).find? fun s => (b &&& (1 <<< UInt8.ofNat (7 - s)) != 0) == bit
      hit.map fun s => i * 8 + s

end BitmapX

namespace HllX

def registers : ℕ := 2 ^ 14

def regBits : ℕ := 6

def denseSize : ℕ := 12288

def new : Bytes := List.replicate denseSize 0

def getReg (regs : Bytes) (i : ℕ) : ℕ :=
  if registers ≤ i ∨ regs.length ≠ denseSize then 0
  else
    let off := i * regBits / 8
    let fb := i * regBits % 8
    let b0 := (regs.getD off 0).toNat
    let b1 := (regs.getD (off + 1) 0).toNat
    (b0 / 2 ^ fb ||| b1 * 2 ^ (8 - fb)) % 64

def setReg (regs : Bytes) (i v : ℕ) : Bytes :=
  if registers ≤ i ∨ regs.length ≠ denseSize then regs
  else
    let v := v % 64
    let off := i * regBits / 8
    let fb := i * regBits % 8
    let low := UInt8.ofNat (0x3f * 2 ^ fb)
    let high := UInt8.ofNat (0x3f / 2 ^ (8 - fb))
    let regs := regs.modify off fun b => (b &&& ~~~low) ||| UInt8.ofNat (v * 2 ^ fb)
    regs.modify (off + 1) fun b => (b &&& ~~~high) ||| UInt8.ofNat (v / 2 ^ (8 - fb))

def leadingZeros (w : UInt64) : ℕ := 64 - w.toNat.size

def add (regs item : Bytes) : Bytes :=
  if regs.length ≠ denseSize ∨ item = [] then regs
  else
    let x := Fnv.mix64 (Fnv.hash64a item)
    let idx := (x >>> 50).toNat
    let w := x <<< 14
    let rho := if w = 0 then 51 else leadingZeros w + 1
    let rho := if 63 < rho then 63 else rho
    if getReg regs idx < rho then setReg regs idx rho else regs

def count (regs : Bytes) : ℕ :=
  if regs.length ≠ denseSize then 0
  else
    let m : Float := Float.ofNat registers
    let rs := (List.range registers).map (getReg regs)
    let zeros := rs.count 0
    let sum := rs.foldl (fun s r => s + Float.scaleB 1 (-(r : ℤ))) 0
    let alpha := 0.7213 / (1 + 1.079 / m)
    let e := alpha * m * m / sum
    let e := if e ≤ 2.5 * m ∧ 0 < zeros then m * Float.log (m / Float.ofNat zeros) else e
    (Float.floor (e + 0.5)).toUInt64.toNat

end HllX

namespace CmsX

def depth : ℕ := 4

def width : ℕ := 2048

def denseSize : ℕ := 65536

def new : Bytes := List.replicate denseSize 0

def delta (n : ℕ) : ℕ := if n = 0 then 1 else n

def columns (item : Bytes) : List ℕ :=
  let x := Fnv.mix64 (Fnv.hash64a item)
  let h1 := x >>> 32
  let h2 := (x &&& 0xffffffff) ||| 1
  (List.range depth).map fun i => ((h1 + UInt64.ofNat i * h2) &&& 2047).toNat

def cellOff (row col : ℕ) : ℕ := (row * width + col) * 8

def cell (sketch : Bytes) (off : ℕ) : ℕ := leNat ((sketch.drop off).take 8)

def putCell (sketch : Bytes) (off v : ℕ) : Bytes :=
  sketch.take off ++ leBytes 8 v ++ sketch.drop (off + 8)

def offsets (item : Bytes) : List ℕ := (columns item).mapIdx cellOff

inductive Fault where
  | size
  | empty
  | overflow
deriving DecidableEq

/-- Works in place: what the call makes of the bytes of the sketch, and its error if it has one. -/
def incr (sketch item : Bytes) (n : ℕ) : Bytes × Option Fault :=
  if sketch.length ≠ denseSize then (sketch, some .size)
  else if item = [] then (sketch, some .empty)
  else
    let d := delta n
    let offs := offsets item
    if offs.any fun off => 2 ^ 64 - 1 - d < cell sketch off then (sketch, some .overflow)
    else (offs.foldl (fun s off => putCell s off (cell s off + d)) sketch, none)

def query (sketch item : Bytes) : ℕ :=
  if sketch.length ≠ denseSize ∨ item = [] then 0
  else (offsets item).foldl (fun m off => min m (cell sketch off)) (2 ^ 64 - 1)

end CmsX

end Supercache

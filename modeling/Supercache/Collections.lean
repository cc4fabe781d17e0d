import Supercache.ByteMap

/-!
The exact set, the field hash and the list, each with the blob it is stored as.
Set members and hash fields are written in byte order behind their lengths,
list items from head to tail. Reading a blob back gives the value it was
written from, and the size estimate used for the byte budget is exact.
-/
namespace Supercache

open Wire

/-- The window from `start` to `stop` of `n` positions. Negative bounds count from
the end; the window is cut to the positions there are. -/
def clampRange (n start stop : ℤ) : Option (ℕ × ℕ) :=
  if n = 0 then none
  else
    let start := if start < 0 then n + start else start
    let stop := if stop < 0 then n + stop else stop
    let start := if start < 0 then 0 else start
    let stop := if n ≤ stop then n - 1 else stop
    if stop < start ∨ n ≤ start then none else some (start.toNat, stop.toNat)

def rangeOf {α : Type} (xs : List α) (start stop : ℤ) : List α :=
  match clampRange xs.length start stop with
  | none => []
  | some (lo, hi) => (xs.drop lo).take (hi - lo + 1)

theorem clampRange_all (n : ℕ) : clampRange (n + 1 : ℕ) 0 (-1) = some (0, n) := by
  have hneg : (-1 : ℤ) < 0 := by omega
  have hne : ((n + 1 : ℕ) : ℤ) ≠ 0 := by omega
  have hstop : ¬ ((n + 1 : ℕ) : ℤ) ≤ ((n + 1 : ℕ) : ℤ) + -1 := by omega
  have hin : ¬ (((n + 1 : ℕ) : ℤ) + -1 < 0 ∨ ((n + 1 : ℕ) : ℤ) ≤ 0) := by omega
  have hlast : (((n + 1 : ℕ) : ℤ) + -1).toNat = n := by omega
  simp only [clampRange, hneg, hne, hstop, hin, hlast, Int.lt_irrefl, if_true, if_false,
    Int.toNat_zero]

/-- The whole list, from its first element to its last. -/
theorem rangeOf_all {α : Type} (xs : List α) : rangeOf xs 0 (-1) = xs := by
  cases xs with
  | nil => rfl
  | cons x rest =>
    simp only [rangeOf, List.length_cons, clampRange_all]
    simp

namespace SetX

open ByteMap

abbrev Members := Map Unit

def new : Members := ∅

def add (s : Members) (item : Bytes) : Members := s.insert item ()

def remove (s : Members) (item : Bytes) : Members := s.erase item

def contains (s : Members) (item : Bytes) : Bool := Std.ExtTreeMap.contains s item

def len (s : Members) : ℕ := s.size

def members (s : Members) : List Bytes := s.toList.map Prod.fst

def fromMembers (items : List Bytes) : Members := items.foldl add new

def encode (s : Members) : Bytes := (members s).flatMap putBlob

def approxWireBytes (s : Members) : ℕ :=
  ((members s).map fun k => uvarintSize k.length + k.length).sum

def decode (b : Bytes) : Option (List Bytes) :=
  (readAll blob b.length b).map fun items => members (fromMembers items)

def decodeSet (b : Bytes) : Option Members := (decode b).map fromMembers

def record : RecordCodec Unit where
  write e := putBlob e.1
  read b := (blob b).map fun p => ((p.1, ()), p.2)
  accepts _ := true
  size e := uvarintSize e.1.length + e.1.length
  Fits e := e.1.length < 2 ^ 64
  read_write := by
    intro e rest h
    rw [blob_putBlob e.1 rest h]
    rfl
  write_ne_nil := by
    intro e h
    exact putUvarint_ne_nil _ (List.append_eq_nil_iff.mp h).1
  fits_of_read := by
    intro b e rest h
    obtain ⟨p, hp, hpe⟩ := Option.map_eq_some_iff.mp h
    rw [Prod.mk.injEq] at hpe
    rw [← hpe.1]
    exact blob_length_lt hp
  length_write := fun e => putBlob_length e.1

theorem fromMembers_eq (items : List Bytes) :
    fromMembers items = ofEntries (items.map fun i => (i, ())) := by
  rw [ofEntries, List.foldl_map]
  rfl

theorem fromMembers_members (s : Members) : fromMembers (members s) = s := by
  rw [fromMembers_eq]
  apply ofEntries_eq_of_perm
  simp only [members, List.map_map]
  rw [show (fun i => (i, ())) ∘ Prod.fst = (id : Bytes × Unit → _) from rfl, List.map_id]

theorem encode_eq (s : Members) : encode s = record.encodeEntries s.toList := by
  simp only [encode, members, RecordCodec.encodeEntries, record, List.flatMap_map]

theorem readAll_record (fuel : ℕ) (b : Bytes) :
    readAll record.read fuel b = (readAll blob fuel b).map (List.map fun i => (i, ())) := by
  induction fuel generalizing b with
  | zero => cases b <;> rfl
  | succ fuel ih =>
    cases b with
    | nil => rfl
    | cons c b =>
      unfold readAll
      simp only [record]
      cases blob (c :: b) with
      | none => rfl
      | some p =>
        simp only [Option.map_some]
        change (readAll record.read fuel p.2).map _ = _
        rw [ih]
        cases readAll blob fuel p.2 <;> rfl

theorem decodeSet_eq (b : Bytes) : decodeSet b = record.decode b := by
  unfold decodeSet decode RecordCodec.decode
  rw [readAll_record]
  cases readAll blob b.length b with
  | none => rfl
  | some items =>
    simp only [Option.map_some, fromMembers_members]
    simp [record, fromMembers_eq]

theorem decodeSet_encode (s : Members) (h : record.Storable s) : decodeSet (encode s) = some s := by
  rw [decodeSet_eq, encode_eq]
  exact record.decode_encodeEntries s s.toList (List.Perm.refl _) h

theorem encode_length (s : Members) : (encode s).length = approxWireBytes s := by
  rw [encode_eq, record.encodeEntries_length s s.toList (List.Perm.refl _)]
  simp only [approxWireBytes, RecordCodec.approxWireBytes, members, List.map_map]
  rfl

end SetX

namespace HashX

open ByteMap

abbrev Fields := Map Bytes

def new : Fields := ∅

def set (h : Fields) (field value : Bytes) : Fields := h.insert field value

def del (h : Fields) (field : Bytes) : Fields := h.erase field

def get (h : Fields) (field : Bytes) : Option Bytes := h[field]?

def exists_ (h : Fields) (field : Bytes) : Bool := Std.ExtTreeMap.contains h field

def len (h : Fields) : ℕ := h.size

def all (h : Fields) : List (Bytes × Bytes) := h.toList

def encodeSet (field value : Bytes) : Bytes := putBlob field ++ putBlob value

def consumePair (b : Bytes) : Option ((Bytes × Bytes) × Bytes) :=
  match blob b with
  | none => none
  | some (field, b) =>
    match blob b with
    | none => none
    | some (value, rest) => some ((field, value), rest)

def record : RecordCodec Bytes where
  write e := encodeSet e.1 e.2
  read := consumePair
  accepts _ := true
  size e := uvarintSize e.1.length + e.1.length + (uvarintSize e.2.length + e.2.length)
  Fits e := e.1.length < 2 ^ 64 ∧ e.2.length < 2 ^ 64
  read_write := by
    intro e rest h
    rw [encodeSet, List.append_assoc]
    simp only [consumePair, blob_putBlob e.1 _ h.1, blob_putBlob e.2 rest h.2]
  write_ne_nil := by
    intro e h
    rw [encodeSet, putBlob, List.append_assoc] at h
    exact putUvarint_ne_nil _ (List.append_eq_nil_iff.mp h).1
  fits_of_read := by
    intro b e rest h
    unfold consumePair at h
    rcases hfield : blob b with _ | ⟨field, b'⟩
    · simp [hfield] at h
    · simp only [hfield] at h
      rcases hvalue : blob b' with _ | ⟨value, rest'⟩
      · simp [hvalue] at h
      · simp only [hvalue] at h
        simp only [Option.some.injEq, Prod.mk.injEq] at h
        rw [← h.1]
        exact ⟨blob_length_lt hfield, blob_length_lt hvalue⟩
  length_write := by
    intro e
    simp [encodeSet]

def encode (h : Fields) : Bytes := record.encodeEntries (all h)

def approxWireBytes (h : Fields) : ℕ := record.approxWireBytes h

def decode (b : Bytes) : Option Fields := record.decode b

def decodeSet (b : Bytes) : Option (Bytes × Bytes) :=
  if b = [] then none
  else
    match consumePair b with
    | none => none
    | some (pair, rest) => if rest = [] then some pair else none

theorem decode_encode (h : Fields) (hh : record.Storable h) : decode (encode h) = some h :=
  record.decode_encodeEntries h h.toList (List.Perm.refl _) hh

theorem encode_length (h : Fields) : (encode h).length = approxWireBytes h :=
  record.encodeEntries_length h h.toList (List.Perm.refl _)

theorem decodeSet_encodeSet (field value : Bytes) (hfield : field.length < 2 ^ 64)
    (hvalue : value.length < 2 ^ 64) : decodeSet (encodeSet field value) = some (field, value) := by
  have hne := record.write_ne_nil (field, value)
  have hread := record.read_write (field, value) [] ⟨hfield, hvalue⟩
  rw [List.append_nil] at hread
  simp only [record] at hne hread
  simp [decodeSet, hne, hread]

end HashX

namespace ListX

abbrev Items := List Bytes

def new : Items := []

def lPush (l : Items) (item : Bytes) : Items := item :: l

def rPush (l : Items) (item : Bytes) : Items := l ++ [item]

def lPop : Items → Option (Bytes × Items)
  | [] => none
  | item :: rest => some (item, rest)

def rPop (l : Items) : Option (Bytes × Items) :=
  match l.getLast? with
  | none => none
  | some item => some (item, l.dropLast)

def len (l : Items) : ℕ := l.length

def resolve (l : Items) (idx : ℤ) : Option ℕ :=
  let n : ℤ := l.length
  if n = 0 then none
  else
    let idx := if idx < 0 then n + idx else idx
    if idx < 0 ∨ n ≤ idx then none else some idx.toNat

def index (l : Items) (idx : ℤ) : Option Bytes := (resolve l idx).bind fun i => l[i]?

def range (l : Items) (start stop : ℤ) : List Bytes := rangeOf l start stop

def encode (l : Items) : Bytes := l.flatMap putBlob

def approxWireBytes (l : Items) : ℕ := (l.map fun i => uvarintSize i.length + i.length).sum

def decode (b : Bytes) : Option Items := readAll blob b.length b

def Storable (l : Items) : Prop := ∀ item ∈ l, item.length < 2 ^ 64

theorem decode_encode (l : Items) (h : Storable l) : decode (encode l) = some l :=
  readAll_flatMap l _ (fun item hi rest => blob_putBlob item rest (h item hi))
    (fun _ _ hnil => putUvarint_ne_nil _ (List.append_eq_nil_iff.mp hnil).1) (Nat.le_refl _)

theorem storable_of_decode {b : Bytes} {l : Items} (h : decode b = some l) : Storable l :=
  readAll_forall (fun _ _ _ => blob_length_lt) _ b l h

theorem encode_length (l : Items) : (encode l).length = approxWireBytes l := by
  simp only [encode, approxWireBytes, List.length_flatMap, putBlob_length]

end ListX

end Supercache

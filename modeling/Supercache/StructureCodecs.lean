import Supercache.Slices
import Supercache.SortedEntries

/-!
The codecs of the five structures that the store keeps decoded. An encoder sorts what it finds in
a map; a decoder cuts one record after another off its input. Each is lossless: a value has one
encoding, of the estimated size, which decodes to it. No decoder reads outside its input.
-/
namespace Supercache

open Wire FloatBits Slices ByteMap StrictSort

section Formats

variable {X V : Type}

/-- How values are written, sized and read. Where the source goes through a map there is an
outcome for every order. -/
structure Format (X : Type) where
  Valid : X → Prop
  Encodes : X → Bytes → Prop
  Sizes : X → ℕ → Prop
  decode : Bytes → Checked X

structure Format.Lossless (F : Format X) : Prop where
  canonical : ∀ x, F.Valid x → ∃ out, ∀ out', F.Encodes x out' ↔ out' = out
  size : ∀ x out n, F.Valid x → F.Encodes x out → F.Sizes x n → n = out.length
  round_trip : ∀ x out, F.Valid x → F.Encodes x out → (F.decode out).run = some (.ok x)
  ends : ∀ b, ((F.decode b).run).isSome = true
  again : ∀ b x, (F.decode b).run = some (.ok x) → (∃ out, F.Encodes x out) ∧
    ∀ out, F.Encodes x out → (F.decode out).run = some (.ok x)

/-- It suffices that one function gives the outcomes of the encoder and that the decoder ends
as a function that inverts it. -/
theorem Format.lossless {F : Format X} (encode : X → Bytes) {decode : Bytes → Option X}
    (hencodes : ∀ x, F.Valid x → ∀ out, F.Encodes x out ↔ out = encode x)
    (hsizes : ∀ x n, F.Sizes x n → n = (encode x).length)
    (hends : ∀ b, Ends (F.decode b) (decode b))
    (hround : ∀ x, F.Valid x → decode (encode x) = some x)
    (hvalid : ∀ b x, decode b = some x → F.Valid x) : F.Lossless := by
  have htrip : ∀ x, F.Valid x → (F.decode (encode x)).run = some (.ok x) := by
    intro x hx
    have hend := hends (encode x)
    rw [hround x hx] at hend
    exact ends_some_iff.mp hend
  refine ⟨fun x hx => ⟨encode x, hencodes x hx⟩, ?_, ?_, ?_, ?_⟩
  · intro x out n hx hout hn
    rw [(hencodes x hx out).mp hout]
    exact hsizes x n hn
  · intro x out hx hout
    rw [(hencodes x hx out).mp hout]
    exact htrip x hx
  · exact fun b => (hends b).isSome
  · intro b x hrun
    have hx := hvalid b x ((hends b).eq_some hrun)
    refine ⟨⟨encode x, (hencodes x hx _).mpr rfl⟩, fun out hout => ?_⟩
    rw [(hencodes x hx out).mp hout]
    exact htrip x hx

def mapFormat (C : RecordCodec V) (less : Bytes × V → Bytes × V → Bool)
    (decode : Bytes → Checked (Map V)) : Format (Map V) where
  Valid := C.Storable
  Encodes m out := ∃ es, Sorts less m.toList es ∧ out = C.encodeEntries es
  Sizes m n := ∃ es : List (Bytes × V), es.Perm m.toList ∧ n = (es.map C.size).sum
  decode := decode

theorem mapFormat_lossless {C : RecordCodec V} {less : Bytes × V → Bytes × V → Bool}
    {decode : Bytes → Checked (Map V)} {sorted : Map V → List (Bytes × V)}
    (hsorts : ∀ m, C.Storable m → Sorts less m.toList (sorted m))
    (hunique : ∀ m es, C.Storable m → Sorts less m.toList es → es = sorted m)
    (hperm : ∀ m, (sorted m).Perm m.toList)
    (hends : ∀ b, Ends (decode b) (C.decode b)) : (mapFormat C less decode).Lossless := by
  refine Format.lossless (fun m => C.encodeEntries (sorted m)) ?_ ?_ hends ?_ ?_
  · intro m hm out
    constructor
    · rintro ⟨es, hes, rfl⟩
      rw [hunique m es hm hes]
    · rintro rfl
      exact ⟨sorted m, hsorts m hm, rfl⟩
  · rintro m n ⟨es, hes, rfl⟩
    rw [C.encodeEntries_length m _ (hperm m)]
    exact (hes.map C.size).sum_eq
  · exact fun m hm => C.decode_encodeEntries m _ (hperm m) hm
  · exact fun b m => C.storable_of_decode

theorem foldlM_accepts (C : RecordCodec V) (es : List (Bytes × V)) (m : Map V) :
    es.foldlM (fun m e => if C.accepts e.2 then some (m.insert e.1 e.2) else none) m =
      if es.all fun e => C.accepts e.2 then some (es.foldl (fun m e => m.insert e.1 e.2) m)
      else none := by
  induction es generalizing m with
  | nil => rfl
  | cons e es ih =>
    rw [List.foldlM_cons, List.all_cons, List.foldl_cons]
    cases haccept : C.accepts e.2 with
    | false => rfl
    | true =>
      rw [if_pos rfl, Bool.true_and]
      exact ih _

/-- The loop that collects the records of a map codec ends as the codec says. -/
theorem ends_record {C : RecordCodec V} {body : Map V → Bytes → Checked (Map V × Bytes)}
    (h : Collects body C.read fun m e => if C.accepts e.2 then some (m.insert e.1 e.2) else none)
    (b : Bytes) :
    Ends (if b.length = 0 then pure ∅ else consumeAll body b.length ∅ b) (C.decode b) := by
  have hloop := h.ends_consumeAll b.length ∅ b (Nat.le_refl _)
  have heq : C.decode b = (readAll C.read b.length b).bind fun es => es.foldlM
      (fun m e => if C.accepts e.2 then some (m.insert e.1 e.2) else none) ∅ := by
    unfold RecordCodec.decode
    cases readAll C.read b.length b with
    | none => rfl
    | some es => exact (foldlM_accepts C es ∅).symm
  rw [← heq] at hloop
  cases b with
  | nil => exact ends_pure ∅
  | cons c b =>
    rw [if_neg (by simp)]
    exact hloop

/-- A record that ends with its name is read from a shorter input. -/
theorem length_lt_of_blob {b rest : Bytes} {n : ℕ} {v : V} {e : Bytes × V}
    (h : ((blob (b.drop n)).bind fun p => some ((p.1, v), p.2)) = some (e, rest)) :
    rest.length < b.length := by
  obtain ⟨p, hp, h⟩ := Option.bind_eq_some_iff.mp h
  obtain ⟨-, rfl⟩ := Prod.mk.inj (Option.some.inj h)
  have hlt := blob_length_rest_lt hp
  rw [List.length_drop] at hlt
  omega

end Formats

section Items

def collectItem (bad truncated : String) (out : List Bytes) (b : Bytes) :
    Checked (List Bytes × Bytes) := do
  let (item, rest) ← readItem bad truncated b
  pure (out ++ [item], rest)

theorem foldlM_push (xs ys : List Bytes) :
    xs.foldlM (fun out x => some (out ++ [x])) ys = some (ys ++ xs) := by
  induction xs generalizing ys with
  | nil => simp
  | cons x xs ih =>
    rw [List.foldlM_cons, Option.bind_eq_bind, Option.bind_some, ih, List.append_assoc]
    rfl

theorem ends_items (bad truncated : String) (b : Bytes) :
    Ends (consumeAll (collectItem bad truncated) b.length [] b) (readAll blob b.length b) := by
  have hcollects : Collects (collectItem bad truncated) blob fun out x => some (out ++ [x]) := by
    refine ⟨fun out b _ => ?_, fun b item rest => blob_length_rest_lt⟩
    exact (ends_readItem bad truncated b).bind fun p _ => ends_pure _
  have hloop := hcollects.ends_consumeAll b.length [] b (Nat.le_refl _)
  have hitems : (readAll blob b.length b).bind
      (fun xs => xs.foldlM (fun out x => some (out ++ [x])) []) = readAll blob b.length b := by
    simp only [foldlM_push, List.nil_append, Option.bind_fun_some]
  rwa [hitems] at hloop

end Items

namespace SetX

def decodeSlices (b : Bytes) : Checked (List Bytes) :=
  if b.length = 0 then pure []
  else do
    let out ← consumeAll (collectItem "set: bad uvarint" "set: truncated item") b.length [] b
    pure (members (fromMembers out))

def decodeSetSlices (b : Bytes) : Checked Members := do
  let mem ← decodeSlices b
  pure (fromMembers mem)

def format : Format Members := mapFormat record nameLess decodeSetSlices

theorem ends_decodeSlices (b : Bytes) : Ends (decodeSlices b) (decode b) := by
  unfold decodeSlices decode
  cases b with
  | nil => exact ends_pure []
  | cons c b =>
    rw [if_neg (by simp), Option.map_eq_bind]
    exact (ends_items _ _ (c :: b)).bind fun out _ => ends_pure _

theorem ends_decodeSetSlices (b : Bytes) : Ends (decodeSetSlices b) (decodeSet b) := by
  unfold decodeSetSlices decodeSet
  rw [Option.map_eq_bind]
  exact (ends_decodeSlices b).bind fun mem _ => ends_pure _

theorem format_lossless : format.Lossless :=
  mapFormat_lossless (fun m _ => sorts_toList m) (fun _ _ _ hes => eq_toList_of_sorts hes)
    (fun _ => List.Perm.refl _) fun b => decodeSet_eq b ▸ ends_decodeSetSlices b

end SetX

namespace HashX

def consumePairSlices (b : Bytes) : Checked ((Bytes × Bytes) × Bytes) := do
  let (field, b) ← readItem "hashx: bad field uvarint" "hashx: truncated field" b
  let (value, rest) ← readItem "hashx: bad value uvarint" "hashx: truncated value" b
  pure ((field, value), rest)

def collectPair (h : Fields) (b : Bytes) : Checked (Fields × Bytes) := do
  let ((field, value), rest) ← consumePairSlices b
  pure (set h field value, rest)

def decodeSlices (b : Bytes) : Checked Fields :=
  if b.length = 0 then pure new else consumeAll collectPair b.length new b

def format : Format Fields := mapFormat record nameLess decodeSlices

theorem consumePair_eq (b : Bytes) : consumePair b = (blob b).bind fun p =>
    (blob p.2).bind fun q => some ((p.1, q.1), q.2) := by
  unfold consumePair
  cases blob b with
  | none => rfl
  | some p => cases hq : blob p.2 <;> simp [hq]

theorem ends_consumePairSlices (b : Bytes) : Ends (consumePairSlices b) (consumePair b) := by
  rw [consumePair_eq]
  exact (ends_readItem _ _ b).bind fun p _ => (ends_readItem _ _ p.2).bind fun q _ => ends_pure _

theorem consumePair_length_lt {b rest : Bytes} {e : Bytes × Bytes}
    (h : consumePair b = some (e, rest)) : rest.length < b.length := by
  rw [consumePair_eq] at h
  obtain ⟨p, hp, h⟩ := Option.bind_eq_some_iff.mp h
  obtain ⟨q, hq, h⟩ := Option.bind_eq_some_iff.mp h
  obtain ⟨-, rfl⟩ := Prod.mk.inj (Option.some.inj h)
  exact (blob_length_rest_lt hq).trans (blob_length_rest_lt hp)

theorem collects_collectPair : Collects collectPair record.read fun h e =>
    if record.accepts e.2 then some (h.insert e.1 e.2) else none where
  ends _ b _ := (ends_consumePairSlices b).bind fun _ _ => ends_pure _
  shrinks _ _ _ := consumePair_length_lt

theorem ends_decodeSlices (b : Bytes) : Ends (decodeSlices b) (decode b) :=
  ends_record collects_collectPair b

theorem format_lossless : format.Lossless :=
  mapFormat_lossless (fun m _ => sorts_toList m) (fun _ _ _ hes => eq_toList_of_sorts hes)
    (fun _ => List.Perm.refl _) ends_decodeSlices

end HashX

namespace ListX

def decodeSlices (b : Bytes) : Checked Items :=
  if b.length = 0 then pure new
  else consumeAll (collectItem "list: bad uvarint" "list: truncated item") b.length new b

def format : Format Items where
  Valid := Storable
  Encodes l out := out = encode l
  Sizes l n := n = approxWireBytes l
  decode := decodeSlices

theorem ends_decodeSlices (b : Bytes) : Ends (decodeSlices b) (decode b) := by
  unfold decodeSlices
  cases b with
  | nil => exact ends_pure new
  | cons c b =>
    rw [if_neg (by simp)]
    exact ends_items _ _ (c :: b)

theorem format_lossless : format.Lossless :=
  Format.lossless encode (fun _ _ _ => Iff.rfl) (fun l _ hn => hn.trans (encode_length l).symm)
    ends_decodeSlices decode_encode fun _ _ => storable_of_decode

end ListX

namespace ZSet

def collectMember (z : Scores) (b : Bytes) : Checked (Scores × Bytes) :=
  if b.length < 8 then throw "zset: truncated score"
  else do
    let bits ← initial b 8
    let b ← tail b 8
    let (member, rest) ← readItem "zset: bad uvarint" "zset: truncated member" b
    let z ← orThrow "zset: NaN score" (add z member (UInt64.ofNat (leNat bits)))
    pure (z, rest)

def decodeSlices (b : Bytes) : Checked Scores :=
  if b.length = 0 then pure new else consumeAll collectMember b.length new b

def format : Format Scores := mapFormat record less decodeSlices

theorem read_of_short {b : Bytes} (h : b.length < 8) : record.read b = none := by
  simp [record, readBits, h]

theorem read_of_long {b : Bytes} (h : 8 ≤ b.length) :
    record.read b = (blob (b.drop 8)).bind fun p =>
      some ((p.1, UInt64.ofNat (leNat (b.take 8))), p.2) := by
  simp [record, readBits, Nat.not_lt.mpr h, Option.map_eq_bind]

theorem add_eq (z : Scores) (member : Bytes) (score : UInt64) : add z member score =
      if record.accepts score then some (z.insert member score) else none := by
  cases hnan : isNaN score <;> simp [add, record, hnan]

theorem collects_collectMember : Collects collectMember record.read fun z e =>
    if record.accepts e.2 then some (z.insert e.1 e.2) else none := by
  constructor
  · intro z b _
    unfold collectMember
    by_cases hshort : b.length < 8
    · rw [if_pos hshort, read_of_short hshort]
      exact ends_throw _
    · rw [if_neg hshort, read_of_long (by omega), Option.bind_assoc]
      refine (ends_initial (by omega)).then ((ends_tail (by omega)).then ?_)
      refine (ends_readItem _ _ _).bind fun p _ => ?_
      rw [Option.bind_some, ← add_eq, Option.map_eq_bind]
      exact (ends_orThrow _ _).bind fun z _ => ends_pure _
  · intro b e rest h
    by_cases hshort : b.length < 8
    · rw [read_of_short hshort] at h
      cases h
    · rw [read_of_long (by omega)] at h
      exact length_lt_of_blob h

theorem ends_decodeSlices (b : Bytes) : Ends (decodeSlices b) (decode b) :=
  ends_record collects_collectMember b

theorem ordered_of_storable {z : Scores} (h : record.Storable z) : Ordered z := by
  intro e he
  have haccepts := (h e he).2
  rwa [record, Bool.not_eq_true'] at haccepts

theorem format_lossless : format.Lossless :=
  mapFormat_lossless (fun _ hz => (ordered_of_storable hz).sorts)
    (fun _ _ hz hes => (ordered_of_storable hz).eq_ordered hes) ordered_perm ends_decodeSlices

end ZSet

namespace Geo

def collectPoint (g : Index) (b : Bytes) : Checked (Index × Bytes) :=
  if b.length < 16 then throw "geo: truncated coord"
  else do
    let lon ← initial b 8
    let lat ← cut b 8 16
    let b ← tail b 16
    let (member, rest) ← readItem "geo: bad uvarint" "geo: truncated member" b
    let p : Point := ⟨UInt64.ofNat (leNat lon), UInt64.ofNat (leNat lat)⟩
    let g ← orThrow "geo: invalid lon/lat" (add g member p)
    pure (g, rest)

def decodeSlices (b : Bytes) : Checked Index :=
  if b.length = 0 then pure new else consumeAll collectPoint b.length new b

def format : Format Index := mapFormat record nameLess decodeSlices

theorem read_of_short {b : Bytes} (h : b.length < 16) : record.read b = none := by
  by_cases hlon : b.length < 8
  · simp [record, readBits, hlon]
  · have hlat : b.length - 8 < 8 := by omega
    simp [record, readBits, hlon, hlat]

theorem read_of_long {b : Bytes} (h : 16 ≤ b.length) :
    record.read b = (blob (b.drop 16)).bind fun p => some ((p.1, ⟨UInt64.ofNat (leNat (b.take 8)),
        UInt64.ofNat (leNat ((b.take 16).drop 8))⟩), p.2) := by
  have hlon : ¬ b.length < 8 := by omega
  have hlat : ¬ b.length - 8 < 8 := by omega
  have hcut : (b.drop 8).take 8 = (b.take 16).drop 8 := by rw [List.drop_take]
  simp [record, readBits, hlon, hlat, hcut, Option.map_eq_bind]

theorem collects_collectPoint : Collects collectPoint record.read fun g e =>
    if record.accepts e.2 then some (g.insert e.1 e.2) else none := by
  constructor
  · intro g b _
    unfold collectPoint
    by_cases hshort : b.length < 16
    · rw [if_pos hshort, read_of_short hshort]
      exact ends_throw _
    · rw [if_neg hshort, read_of_long (by omega), Option.bind_assoc]
      refine (ends_initial (by omega)).then ((ends_cut (by omega) (by omega)).then
        ((ends_tail (by omega)).then ?_))
      refine (ends_readItem _ _ _).bind fun p _ => ?_
      rw [Option.bind_some, Option.map_eq_bind]
      exact (ends_orThrow _ _).bind fun g _ => ends_pure _
  · intro b e rest h
    by_cases hshort : b.length < 16
    · rw [read_of_short hshort] at h
      cases h
    · rw [read_of_long (by omega)] at h
      exact length_lt_of_blob h

theorem ends_decodeSlices (b : Bytes) : Ends (decodeSlices b) (decode b) :=
  ends_record collects_collectPoint b

theorem format_lossless : format.Lossless :=
  mapFormat_lossless (fun m _ => sorts_toList m) (fun _ _ _ hes => eq_toList_of_sorts hes)
    (fun _ => List.Perm.refl _) ends_decodeSlices

end Geo

/-- Every value of the five structures has one encoding, of the estimated size, which decodes to
it. The decoders end on every input without reading outside it, and a value that one of them
returns decodes from its own encoding. -/
theorem structures_lossless :
    SetX.format.Lossless ∧ HashX.format.Lossless ∧ ListX.format.Lossless ∧
      ZSet.format.Lossless ∧ Geo.format.Lossless :=
  ⟨SetX.format_lossless, HashX.format_lossless, ListX.format_lossless, ZSet.format_lossless,
    Geo.format_lossless⟩

end Supercache

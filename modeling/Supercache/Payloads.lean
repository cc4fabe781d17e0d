import Supercache.SnapshotFormats
import Supercache.ScoredCollections

/-!
The payloads of forwarded operations. A node that does not own a name packs the arguments of an
operation into the value of an entry, and the owner unpacks them. Vector sets and streams carry
snapshots and operations under one flag; there the first byte keeps the kinds apart.
-/
namespace Supercache

open Wire FloatBits

/-- Values of several kinds under one flag: each kind's decoder takes only values that begin with
the kind's own tag. -/
structure Tagged (K : Type) where
  tag : K → UInt8
  accepts : K → Bytes → Bool
  tag_inj : ∀ k k', tag k = tag k' → k = k'
  nil : ∀ k, accepts k [] = false
  head_of_accepts : ∀ k p b, accepts k (p :: b) = true → p = tag k

namespace Tagged

variable {K : Type} (F : Tagged K) {k k' : K} {b : Bytes}

theorem head (h : F.accepts k b = true) : b.head? = some (F.tag k) := by
  cases b with
  | nil => exact absurd ((F.nil k).symm.trans h) Bool.false_ne_true
  | cons p b => rw [List.head?_cons, F.head_of_accepts k p b h]

theorem kind_eq (hhead : b.head? = some (F.tag k)) (h : F.accepts k' b = true) : k' = k :=
  F.tag_inj k' k (Option.some.inj ((F.head h).symm.trans hhead))

end Tagged

namespace JsonX

def encodeSet (path raw : Bytes) : Bytes := putUvarint path.length ++ (path ++ raw)

def decodeSet (b : Bytes) : Except String (Bytes × Bytes) :=
  match uvarint b with
  | none => .error "jsonx: bad set uvarint"
  | some (v, rest) =>
    if rest.length < v then .error "jsonx: truncated set path" else .ok (rest.take v, rest.drop v)

theorem decodeSet_encodeSet {path : Bytes} (raw : Bytes) (hpath : path.length < 2 ^ 64) :
    decodeSet (encodeSet path raw) = .ok (path, raw) := by
  simp [decodeSet, encodeSet, uvarint_putUvarint _ _ hpath]

end JsonX

namespace BitmapX

def errInbox : String := "bitmapx: invalid inbox"

def encodeSet (offset : ℕ) (bit : Bool) : Bytes := putUvarint offset ++ [if bit then 1 else 0]

def decodeSet (b : Bytes) : Except String (ℕ × Bool) :=
  match uvarint b with
  | some (v, [c]) =>
    if c = 0 then .ok (v, false) else if c = 1 then .ok (v, true) else .error errInbox
  | _ => .error errInbox

theorem decodeSet_encodeSet {offset : ℕ} (bit : Bool) (hoffset : offset < 2 ^ 64) :
    decodeSet (encodeSet offset bit) = .ok (offset, bit) := by
  rw [decodeSet, encodeSet, uvarint_putUvarint _ _ hoffset]
  cases bit <;> rfl

end BitmapX

namespace CmsX

def errEmpty : String := "cmsx: empty item"

def encodeInbox (n : ℕ) (item : Bytes) : Except String Bytes :=
  if item = [] then .error errEmpty else .ok (putUvarint (delta n) ++ item)

def decodeInbox (b : Bytes) : Except String (ℕ × Bytes) :=
  match uvarint b with
  | none => .error "cmsx: bad inbox"
  | some (n, item) => if item = [] then .error errEmpty else .ok (n, item)

/-- No amount is read as one. -/
theorem decodeInbox_encodeInbox {n : ℕ} {item b : Bytes} (hn : n < 2 ^ 64)
    (h : encodeInbox n item = .ok b) : decodeInbox b = .ok (delta n, item) := by
  have hdelta : delta n < 2 ^ 64 := by
    unfold delta
    split <;> omega
  unfold encodeInbox at h
  by_cases hempty : item = []
  · rw [if_pos hempty] at h
    cases h
  · rw [if_neg hempty] at h
    cases h
    simp [decodeInbox, uvarint_putUvarint _ _ hdelta, hempty]

end CmsX

namespace VecSet

def prefixAdd : UInt8 := 0x41

def prefixRem : UInt8 := 0x52

def encodeInboxAdd (member : Bytes) (vec : List UInt32) : Except String Bytes :=
  if member.length < 1 ∨ maxMemberLen < member.length ∨ !validDim vec.length ∨ !finite vec then
    .error "vecset: bad vector"
  else .ok (prefixAdd :: UInt8.ofNat member.length :: (member ++ putVec vec))

def encodeInboxRem (member : Bytes) : Except String Bytes :=
  if member.length < 1 ∨ maxMemberLen < member.length then .error "vecset: bad member"
  else .ok (prefixRem :: member)

def decodeInboxAdd : Bytes → Except String (Bytes × List UInt32)
  | p :: len :: b =>
    let idLen := len.toNat
    if p ≠ prefixAdd then .error errBadBlob
    else if idLen < 1 ∨ maxMemberLen < idLen ∨ b.length ≤ idLen then .error errBadBlob
    else if (b.length - idLen) % 4 ≠ 0 then .error errBadBlob
    else
      let dim := (b.length - idLen) / 4
      let vec := takeVec dim (b.drop idLen)
      if !validDim dim ∨ !finite vec then .error errBadBlob else .ok (b.take idLen, vec)
  | _ => .error errBadBlob

def decodeInboxRem : Bytes → Except String Bytes
  | p :: member =>
    if p ≠ prefixRem ∨ member.length < 1 ∨ maxMemberLen < member.length then .error errBadBlob
    else .ok member
  | _ => .error errBadBlob

/-- A vector and its member come back. -/
theorem decodeInboxAdd_encodeInboxAdd {member b : Bytes} {vec : List UInt32}
    (h : encodeInboxAdd member vec = .ok b) : decodeInboxAdd b = .ok (member, vec) := by
  unfold encodeInboxAdd at h
  split at h
  · cases h
  next hargs =>
    simp only [not_or, Nat.not_lt, Bool.not_eq_true', Bool.not_eq_false, maxMemberLen] at hargs
    obtain ⟨hpos, hle, hdim, hfinite⟩ := hargs
    cases h
    have hlen : (UInt8.ofNat member.length).toNat = member.length := by
      simp only [UInt8.toNat_ofNat']
      omega
    have hdims : minDim ≤ vec.length := by
      rw [validDim, Bool.and_eq_true, decide_eq_true_eq] at hdim
      exact hdim.1
    have hrest : (member ++ putVec vec).length - member.length = vec.length * 4 := by
      rw [List.length_append, length_putVec]
      omega
    have hvec : takeVec vec.length (putVec vec) = vec := by
      have htake := takeVec_putVec vec []
      rwa [List.append_nil] at htake
    have hroom : ¬ (member.length < 1 ∨ maxMemberLen < member.length ∨
        (member ++ putVec vec).length ≤ member.length) := by
      rw [List.length_append, length_putVec, maxMemberLen]
      unfold minDim at hdims
      omega
    simp only [decodeInboxAdd, hlen, hroom, hrest, ne_eq, not_true_eq_false, if_false,
      Nat.mul_mod_left, Nat.mul_div_cancel vec.length (by decide : 0 < 4), List.drop_left,
      List.take_left, hvec, hdim, hfinite, Bool.not_true, Bool.false_eq_true, or_self]

theorem decodeInboxRem_encodeInboxRem {member b : Bytes} (h : encodeInboxRem member = .ok b) :
    decodeInboxRem b = .ok member := by
  unfold encodeInboxRem at h
  by_cases hbad : member.length < 1 ∨ maxMemberLen < member.length
  · rw [if_pos hbad] at h
    cases h
  · rw [if_neg hbad] at h
    cases h
    rw [decodeInboxRem, if_neg]
    simpa using hbad

inductive Kind where
  | snapshot
  | add
  | rem

def Kind.tag : Kind → UInt8
  | snapshot => prefixSnapshot
  | add => prefixAdd
  | rem => prefixRem

def accepts : Kind → Bytes → Bool
  | .snapshot, b => (decodeSnapshot b).isSome
  | .add, b => (decodeInboxAdd b).isOk
  | .rem, b => (decodeInboxRem b).isOk

inductive Value : Kind → Bytes → Prop
  | encode (s : VSet) : Value .snapshot s.encode
  | encodeInboxAdd {member vec b} : encodeInboxAdd member vec = .ok b → Value .add b
  | encodeInboxRem {member b} : encodeInboxRem member = .ok b → Value .rem b
  | accepted {k b} : accepts k b = true → Value k b

def tagged : Tagged Kind where
  tag := Kind.tag
  accepts := accepts
  tag_inj := by
    intro k k' h
    cases k <;> cases k' <;> first | rfl | exact absurd h (by decide)
  head_of_accepts := by
    intro k p b h
    by_contra hne
    cases k with
    | snapshot =>
      simp only [accepts] at h
      unfold decodeSnapshot at h
      split at h
      next heq =>
        obtain ⟨rfl, -⟩ := List.cons.inj heq
        have hne : p ≠ prefixSnapshot := hne
        simp only [ne_eq, hne, not_false_eq_true, if_true] at h
        cases h
      · cases h
    | add =>
      cases b with
      | nil => cases h
      | cons len b =>
        have hne : p ≠ prefixAdd := hne
        simp only [accepts, decodeInboxAdd, ne_eq, hne, not_false_eq_true, if_true] at h
        cases h
    | rem =>
      have hne : p ≠ prefixRem := hne
      simp only [accepts, decodeInboxRem, ne_eq, hne, not_false_eq_true, true_or, if_true] at h
      cases h
  nil := by
    intro k
    cases k <;> rfl

theorem Value.head {k : Kind} {b : Bytes} (h : Value k b) : b.head? = some k.tag := by
  cases h with
  | encode s => rfl
  | encodeInboxAdd h =>
    unfold VecSet.encodeInboxAdd at h
    split at h
    · cases h
    · cases h
      rfl
  | encodeInboxRem h =>
    unfold VecSet.encodeInboxRem at h
    split at h
    · cases h
    · cases h
      rfl
  | accepted h => exact tagged.head h

end VecSet

namespace Stream

def prefixAdd : UInt8 := 0x41

def prefixDel : UInt8 := 0x44

def prefixTrim : UInt8 := 0x54

def encodeInbox (tag : UInt8) (b : Bytes) : Bytes := tag :: putBlob b

def decodeInbox (tag : UInt8) : Bytes → Except String Bytes
  | [] => .error errBadBlob
  | p :: b =>
    if p ≠ tag then .error errBadBlob
    else
      match blob b with
      | none => .error errBadBlob
      | some (item, _) => .ok item

def encodeInboxAdd (payload : Bytes) : Bytes := encodeInbox prefixAdd payload

def decodeInboxAdd (blob : Bytes) : Except String Bytes := decodeInbox prefixAdd blob

def encodeInboxDel (id : Bytes) : Bytes := encodeInbox prefixDel id

def decodeInboxDel (blob : Bytes) : Except String Bytes := decodeInbox prefixDel blob

def encodeInboxTrim (maxLen : ℤ) : Bytes := prefixTrim :: putUvarint (maxLen % 2 ^ 64).toNat

def decodeInboxTrim : Bytes → Except String ℤ
  | [] => .error errBadBlob
  | p :: b =>
    if p ≠ prefixTrim then .error errBadBlob
    else
      match uvarint b with
      | some (n, []) => if 2 ^ 63 ≤ n then .error errBadBlob else .ok n
      | _ => .error errBadBlob

theorem decodeInbox_encodeInbox (tag : UInt8) {b : Bytes} (hb : b.length < 2 ^ 64) :
    decodeInbox tag (encodeInbox tag b) = .ok b := by
  have hread := blob_putBlob b [] hb
  rw [List.append_nil] at hread
  simp [decodeInbox, encodeInbox, hread]

theorem decodeInboxTrim_encodeInboxTrim {maxLen : ℤ} (hpos : 0 ≤ maxLen) (hlt : maxLen < 2 ^ 63) :
    decodeInboxTrim (encodeInboxTrim maxLen) = .ok maxLen := by
  have hsame : (maxLen % 2 ^ 64).toNat = maxLen.toNat := by
    rw [Int.emod_eq_of_lt hpos (by omega)]
  have hread := uvarint_putUvarint maxLen.toNat [] (by omega)
  rw [List.append_nil] at hread
  have hint : ¬ 2 ^ 63 ≤ maxLen.toNat := by omega
  have hcast : ((maxLen.toNat : ℕ) : ℤ) = maxLen := Int.toNat_of_nonneg hpos
  simp only [decodeInboxTrim, encodeInboxTrim, hsame, hread, hint, ne_eq, not_true_eq_false,
    if_false, hcast]

inductive Kind where
  | snapshot
  | add
  | del
  | trim

def Kind.tag : Kind → UInt8
  | snapshot => prefixSnapshot
  | add => prefixAdd
  | del => prefixDel
  | trim => prefixTrim

def accepts : Kind → Bytes → Bool
  | .snapshot, b => (decodeSnapshot b).isSome
  | .add, b => (decodeInboxAdd b).isOk
  | .del, b => (decodeInboxDel b).isOk
  | .trim, b => (decodeInboxTrim b).isOk

inductive Value : Kind → Bytes → Prop
  | encode (l : Log) : Value .snapshot l.encode
  | encodeInboxAdd (payload) : Value .add (encodeInboxAdd payload)
  | encodeInboxDel (id) : Value .del (encodeInboxDel id)
  | encodeInboxTrim (maxLen) : Value .trim (encodeInboxTrim maxLen)
  | accepted {k b} : accepts k b = true → Value k b

def tagged : Tagged Kind where
  tag := Kind.tag
  accepts := accepts
  tag_inj := by
    intro k k' h
    cases k <;> cases k' <;> first | rfl | exact absurd h (by decide)
  head_of_accepts := by
    intro k p b h
    by_contra hne
    cases k with
    | snapshot =>
      have hne : p ≠ prefixSnapshot := hne
      simp only [accepts, decodeSnapshot, ne_eq, hne, not_false_eq_true, if_true] at h
      cases h
    | add =>
      have hne : p ≠ prefixAdd := hne
      simp only [accepts, decodeInboxAdd, decodeInbox, ne_eq, hne, not_false_eq_true, if_true] at h
      cases h
    | del =>
      have hne : p ≠ prefixDel := hne
      simp only [accepts, decodeInboxDel, decodeInbox, ne_eq, hne, not_false_eq_true, if_true] at h
      cases h
    | trim =>
      have hne : p ≠ prefixTrim := hne
      simp only [accepts, decodeInboxTrim, ne_eq, hne, not_false_eq_true, if_true] at h
      cases h
  nil := by
    intro k
    cases k <;> rfl

theorem Value.head {k : Kind} {b : Bytes} (h : Value k b) : b.head? = some k.tag := by
  cases h with
  | encode | encodeInboxAdd | encodeInboxDel | encodeInboxTrim => rfl
  | accepted h => exact tagged.head h

end Stream

/-- Forwarded operations carry their arguments exactly, and no decoder of vector sets or streams
accepts what another one's encoder makes or another one accepts. -/
theorem payloads_exact :
    (∀ path raw : Bytes, path.length < 2 ^ 64 →
      JsonX.decodeSet (JsonX.encodeSet path raw) = .ok (path, raw)) ∧
    (∀ offset bit, offset < 2 ^ 64 →
      BitmapX.decodeSet (BitmapX.encodeSet offset bit) = .ok (offset, bit)) ∧
    (∀ n item b, n < 2 ^ 64 → CmsX.encodeInbox n item = .ok b →
      CmsX.decodeInbox b = .ok (if n = 0 then 1 else n, item)) ∧
    (∀ field value : Bytes, field.length < 2 ^ 64 → value.length < 2 ^ 64 →
      HashX.decodeSet (HashX.encodeSet field value) = some (field, value)) ∧
    (∀ (member : Bytes) score, member.length < 2 ^ 64 → isNaN score = false →
      ZSet.decodeAdd (ZSet.encodeAdd member score) = some (member, score)) ∧
    (∀ member vec b, VecSet.encodeInboxAdd member vec = .ok b →
      VecSet.decodeInboxAdd b = .ok (member, vec)) ∧
    (∀ member b, VecSet.encodeInboxRem member = .ok b → VecSet.decodeInboxRem b = .ok member) ∧
    (∀ payload : Bytes, payload.length < 2 ^ 64 →
      Stream.decodeInboxAdd (Stream.encodeInboxAdd payload) = .ok payload) ∧
    (∀ id : Bytes, id.length < 2 ^ 64 →
      Stream.decodeInboxDel (Stream.encodeInboxDel id) = .ok id) ∧
    (∀ maxLen, 0 ≤ maxLen → maxLen < 2 ^ 63 →
      Stream.decodeInboxTrim (Stream.encodeInboxTrim maxLen) = .ok maxLen) ∧
    (∀ k k' b, VecSet.Value k b → VecSet.accepts k' b = true → k' = k) ∧
    ∀ k k' b, Stream.Value k b → Stream.accepts k' b = true → k' = k := by
  refine ⟨fun _ raw => JsonX.decodeSet_encodeSet raw, fun _ bit => BitmapX.decodeSet_encodeSet bit,
    fun _ _ _ => CmsX.decodeInbox_encodeInbox, HashX.decodeSet_encodeSet, ZSet.decodeAdd_encodeAdd,
    fun _ _ _ => VecSet.decodeInboxAdd_encodeInboxAdd,
    fun _ _ => VecSet.decodeInboxRem_encodeInboxRem, fun _ => Stream.decodeInbox_encodeInbox _,
    fun _ => Stream.decodeInbox_encodeInbox _, fun _ => Stream.decodeInboxTrim_encodeInboxTrim,
    ?_, ?_⟩
  · intro k k' b hvalue haccepts
    exact VecSet.tagged.kind_eq hvalue.head haccepts
  · intro k k' b hvalue haccepts
    exact Stream.tagged.kind_eq hvalue.head haccepts

end Supercache

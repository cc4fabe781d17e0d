import Supercache.MachineInt
import Supercache.TopKChart

/-!
Whether the limits of a TopK keyspace leave room for its tables. The configuration is checked
against the size of a full table of the longest items, computed in 64-bit integers. As long as it
does not wrap, no table outgrows it.
-/
namespace Supercache.TopKX

open Wire Lru ByteMap Store MachineInt

section Config

def worstEncodedSize (k maxItem : Int64) : Int64 :=
  if k < 1 ∨ maxItem < 0 then 0
  else k * (10 + Int64.ofNat (uvarintSize maxItem.toUInt64.toNat) + maxItem)

def defaultMaxKeyLen : Int64 := 512

def defaultMaxValueSize : Int64 := 1048576

def defaultTopKSize : Int64 := 100

structure Config where
  name : Bytes
  maxBytes : Int64
  topKSize : Int64
  maxKeyLen : Int64
  maxValueSize : Int64

def Config.effectiveTopKSize (c : Config) : Int64 :=
  if c.topKSize ≤ 0 then defaultTopKSize else c.topKSize

def Config.validate (c : Config) : Except String Unit :=
  if c.name = [] then .error "keyspace: name is required"
  else if c.maxBytes < 0 then .error "keyspace: MaxBytes must be >= 0"
  else if c.topKSize < 0 then .error "keyspace: TopKSize must be >= 0"
  else
    let maxItem := if 0 < c.maxKeyLen then c.maxKeyLen else defaultMaxKeyLen
    let maxVal := if 0 < c.maxValueSize then c.maxValueSize else defaultMaxValueSize
    let need := worstEncodedSize c.effectiveTopKSize maxItem
    if 0 < maxVal ∧ maxVal < need then
      .error s!"keyspace: ModeTopK WorstEncodedSize {need} > MaxValueSize {maxVal}"
    else .ok ()

structure Limits where
  maxKeyLen : Int64
  maxValueSize : Int64
  maxKeyLen_pos : 0 < maxKeyLen
  maxValueSize_pos : 0 < maxValueSize

def Limits.default : Limits := ⟨defaultMaxKeyLen, defaultMaxValueSize, by decide, by decide⟩

def Limits.itemMax (e : Limits) (c : Config) : Int64 :=
  if 0 < c.maxKeyLen then c.maxKeyLen else e.maxKeyLen

def Limits.maxValue (e : Limits) (c : Config) : Int64 :=
  if 0 < c.maxValueSize then c.maxValueSize else e.maxValueSize

def Limits.topkNeed (e : Limits) (c : Config) : Except String Unit :=
  let max := e.maxValue c
  if 0 < max ∧ max < worstEncodedSize c.effectiveTopKSize (e.itemMax c) then
    .error "supercache: value too large"
  else .ok ()

def Config.slots (c : Config) : ℕ := c.effectiveTopKSize.toInt.toNat

/-- A call that the engine makes, with an item no longer than allowed. -/
def Limits.Adds (e : Limits) (c : Config) (op : Op) : Prop :=
  ∃ item version expireAt,
    op.call = .plain (.topkAdd item version expireAt c.slots (e.maxValue c).toInt) ∧
      (item.length : ℤ) ≤ (e.itemMax c).toInt

/-- No table outgrows the size that the limits were checked against, and no call is refused
for the size of its value. -/
def Limits.Suffice (e : Limits) (c : Config) : Prop :=
  (∀ (xs : List Bytes) (t : Table), (∀ x ∈ xs, (x.length : ℤ) ≤ (e.itemMax c).toInt) →
    xs.foldlM Table.add (new c.slots) = some t →
      (t.encode.length : ℤ) ≤ (worstEncodedSize c.effectiveTopKSize (e.itemMax c)).toInt) ∧
  ∀ (ttl : ℤ) (ops : List Op), (∀ op ∈ ops, e.Adds c op) →
    (∀ a ∈ answers (Memory.newMemory c.maxBytes.toInt ttl) ops, tooLarge a = false) ∧
      ∀ key, ∀ it ∈ (run (Memory.newMemory c.maxBytes.toInt ttl) ops).lookup key,
        (it.entry.value.length : ℤ) ≤
          (worstEncodedSize c.effectiveTopKSize (e.itemMax c)).toInt

/-- The configuration is valid, and the engine finds room for its tables. -/
def Limits.Accepts (e : Limits) (c : Config) : Prop := c.validate = .ok () ∧ e.topkNeed c = .ok ()

theorem Limits.itemMax_pos (e : Limits) (c : Config) : 0 < (e.itemMax c).toInt := by
  have hpos : 0 < e.itemMax c := by
    unfold Limits.itemMax
    split
    · assumption
    · exact e.maxKeyLen_pos
  rwa [Int64.lt_iff_toInt_lt, Int64.toInt_zero] at hpos

theorem Limits.maxValue_pos (e : Limits) (c : Config) : 0 < e.maxValue c := by
  unfold Limits.maxValue
  split
  · assumption
  · exact e.maxValueSize_pos

theorem Config.effectiveTopKSize_pos (c : Config) : 1 ≤ c.effectiveTopKSize.toInt := by
  unfold Config.effectiveTopKSize
  by_cases hpos : c.topKSize ≤ 0
  · rw [if_pos hpos]
    decide
  · rw [if_neg hpos]
    rw [Int64.le_iff_toInt_le, Int64.toInt_zero] at hpos
    omega

theorem Limits.Accepts.worst_le {e : Limits} {c : Config} (h : e.Accepts c) :
    (worstEncodedSize c.effectiveTopKSize (e.itemMax c)).toInt ≤ (e.maxValue c).toInt := by
  have hneed := h.2
  unfold Limits.topkNeed at hneed
  dsimp only at hneed
  split at hneed
  · cases hneed
  next hroom =>
    rw [not_and, Int64.lt_iff_toInt_lt (x := e.maxValue c), not_lt] at hroom
    exact hroom (e.maxValue_pos c)

end Config

section Machine

def exactSize (k maxItem : ℕ) : ℕ := k * (10 + uvarintSize maxItem + maxItem)

theorem uvarintSize_le (x : ℕ) : uvarintSize x ≤ 10 := by
  have hsize : ∀ fuel x, sizeGroups fuel x ≤ fuel := by
    intro fuel
    induction fuel with
    | zero => exact fun x => Nat.le_refl 0
    | succ fuel ih =>
      intro x
      unfold sizeGroups
      split
      · omega
      · have := ih (x / 128)
        omega
  exact hsize 10 x

theorem uvarintSize_pos (x : ℕ) : 1 ≤ uvarintSize x := by
  unfold uvarintSize sizeGroups
  split <;> omega

theorem uvarintSize_mono {x y : ℕ} (h : x ≤ y) : uvarintSize x ≤ uvarintSize y := by
  have hsize : ∀ fuel x y, x ≤ y → sizeGroups fuel x ≤ sizeGroups fuel y := by
    intro fuel
    induction fuel with
    | zero => exact fun x y _ => Nat.le_refl 0
    | succ fuel ih =>
      intro x y hxy
      unfold sizeGroups
      split
      · split <;> omega
      · rw [if_neg (by omega)]
        have := ih (x / 128) (y / 128) (Nat.div_le_div_right hxy)
        omega
  exact hsize 10 x y h

/-- The size the check computes, modulo `2 ^ 64`. -/
theorem toInt_worstEncodedSize {k maxItem : Int64} (hk : 1 ≤ k.toInt) (hitem : 0 ≤ maxItem.toInt) :
    (worstEncodedSize k maxItem).toInt =
      (exactSize k.toInt.toNat maxItem.toInt.toNat : ℤ).bmod (2 ^ 64) := by
  have hk' : ¬ k < 1 := by
    rw [Int64.lt_iff_toInt_lt, Int64.toInt_one]
    omega
  have hitem' : ¬ maxItem < 0 := by
    rw [Int64.lt_iff_toInt_lt, Int64.toInt_zero]
    omega
  have hnat : maxItem.toUInt64.toNat = maxItem.toInt.toNat :=
    Int64.toNat_toUInt64_of_le (by
      rw [Int64.le_iff_toInt_le, Int64.toInt_zero]
      exact hitem)
  have hsize := uvarintSize_le maxItem.toInt.toNat
  have hten : (10 : Int64).toInt = 10 := rfl
  have hvarint : (Int64.ofNat (uvarintSize maxItem.toInt.toNat)).toInt =
      uvarintSize maxItem.toInt.toNat := Int64.toInt_ofNat_of_lt (by omega)
  have hsum : (10 + Int64.ofNat (uvarintSize maxItem.toInt.toNat)).toInt =
      10 + uvarintSize maxItem.toInt.toNat := by
    rw [toInt_add ⟨by omega, by omega⟩, hvarint, hten]
  have hcast : (exactSize k.toInt.toNat maxItem.toInt.toNat : ℤ) =
      k.toInt * (10 + uvarintSize maxItem.toInt.toNat + maxItem.toInt) := by
    rw [exactSize, Nat.cast_mul, Nat.cast_add, Nat.cast_add, Int.toNat_of_nonneg (by omega),
      Int.toNat_of_nonneg hitem]
    rfl
  unfold worstEncodedSize
  rw [if_neg (not_or.mpr ⟨hk', hitem'⟩), hnat, Int64.toInt_mul, Int64.toInt_add, hsum,
    Int.mul_bmod_bmod, hcast]

end Machine

section Bound

variable {t t' : Table} {item : Bytes} {k maxItem : ℕ}

def Table.Short (maxItem : ℕ) (t : Table) : Prop := ∀ e ∈ t.slots, e.1.length ≤ maxItem

theorem Table.encode_length (t : Table) : t.encode.length =
      (t.slots.map fun e => uvarintSize e.2 + (uvarintSize e.1.length + e.1.length)).sum := by
  have hperm : t.list.Perm t.slots := List.perm_insertionSort _ _
  rw [Table.encode, List.length_flatMap]
  simp only [List.length_append, putUvarint_length, putBlob_length]
  exact (hperm.map _).sum_eq

theorem Table.Short.encode_length_le (h : t.Short maxItem) (hbound : t.slots.length ≤ k) :
    t.encode.length ≤ exactSize k maxItem := by
  have hrow : ∀ n ∈ t.slots.map fun e => uvarintSize e.2 + (uvarintSize e.1.length + e.1.length),
      n ≤ 10 + uvarintSize maxItem + maxItem := by
    intro n hn
    obtain ⟨e, he, rfl⟩ := List.mem_map.mp hn
    have hcount := uvarintSize_le e.2
    have hlen := h e he
    have hvarint := uvarintSize_mono hlen
    omega
  calc t.encode.length
      ≤ t.slots.length * (10 + uvarintSize maxItem + maxItem) := by
        rw [t.encode_length]
        simpa using List.sum_le_card_nsmul _ _ hrow
    _ ≤ exactSize k maxItem := Nat.mul_le_mul_right _ hbound

theorem Table.Added.short (hadded : t.Added item t') (h : t.Short maxItem)
    (hitem : item.length ≤ maxItem) : t'.Short maxItem := by
  have hset : ∀ i c, ∀ e ∈ t.slots.set i (item, c), e.1.length ≤ maxItem := by
    intro i c e he
    rcases List.mem_or_eq_of_mem_set he with hmem | rfl
    · exact h e hmem
    · exact hitem
  cases hadded with
  | hit i c hslot hmax => exact hset i (c + 1)
  | grow hnew hroom =>
    exact List.forall_mem_append.mpr ⟨h, List.forall_mem_singleton.mpr hitem⟩
  | replace m old hnew hfull hslot hmin hmax => exact hset m (old.2 + 1)

theorem short_of_foldlM (hk : 1 ≤ k) {xs : List Bytes} (hxs : ∀ x ∈ xs, x.length ≤ maxItem)
    (t : Table) (h : xs.foldlM Table.add (new k) = some t) : t.Short maxItem := by
  induction xs using List.reverseRecOn generalizing t with
  | nil =>
    rw [← Option.some.inj h]
    intro e he
    exact absurd he List.not_mem_nil
  | append_singleton xs x ih =>
    rw [List.foldlM_append, Option.bind_eq_bind, Option.bind_eq_some_iff] at h
    obtain ⟨t₀, hrun, hlast⟩ := h
    obtain ⟨hk', hindex, -⟩ := charts_of_foldlM hk t₀ hrun
    obtain ⟨hxs, hx⟩ := List.forall_mem_append.mp hxs
    have hadd : t₀.add x = some t := by simpa using hlast
    exact (added_of_add (hk' ▸ hk) hindex hadd).2.short (ih hxs t₀ hrun) (hx x (by simp))

end Bound

section Stored

variable {k maxItem : ℕ} {maxValue : ℤ} {item : Bytes} {cur : Option Bytes}

/-- Bytes that hold a table of short items, and not too many of them. -/
structure Slim (k maxItem : ℕ) (value : Bytes) : Prop where
  decodes : ∃ t, decode value k = some t ∧ t.Short maxItem
  size : value.length ≤ exactSize k maxItem

theorem not_overLimit {n : ℕ} (hn : n ≤ exactSize k maxItem)
    (hmax : (exactSize k maxItem : ℤ) ≤ maxValue) : overLimit maxValue n = false := by
  simp only [overLimit, Bool.and_eq_false_iff, decide_eq_false_iff_not]
  omega

theorem exists_short (hcur : ∀ b ∈ cur, Slim k maxItem b) :
    ∃ t, tableOf k cur = some t ∧ t.Short maxItem := by
  cases cur with
  | none => exact ⟨new k, rfl, fun e he => absurd he List.not_mem_nil⟩
  | some b => exact (hcur b rfl).decodes

section Calls

variable (hk : 1 ≤ k) (hmaxItem : maxItem < 2 ^ 64) (hmax : (exactSize k maxItem : ℤ) ≤ maxValue)

include hk hmaxItem hmax

section

variable (hitem : item.length ≤ maxItem)
include hitem

variable (hcur : ∀ b ∈ cur, Slim k maxItem b)
include hcur

/-- The bytes that a call makes are again slim, so it does not refuse them. -/
theorem topkApply_slim :
    topkApply item k maxValue cur = .refuse (false, false) ∨ ∃ blob, Slim k maxItem blob ∧
        topkApply item k maxValue cur = .commit blob fun still => (still, false) := by
  obtain ⟨t, ht, hshort⟩ := exists_short hcur
  obtain ⟨hvalid, htk⟩ := valid_tableOf hk ht
  rw [topkApply_eq ht]
  cases hadd : t.add item with
  | none => exact .inl rfl
  | some t' =>
    obtain ⟨hvalid', htk'⟩ := hvalid.add (by omega) hadd
    have hshort' := (added_of_add hvalid.pos hvalid.index hadd).2.short hshort hitem
    have hbound : t'.slots.length ≤ k := htk ▸ htk' ▸ hvalid'.bound
    have hsize := hshort'.encode_length_le hbound
    obtain ⟨u, hdecode, hslots⟩ := decode_encode hvalid' hk hbound
    refine .inr ⟨t'.encode, ⟨⟨u, hdecode, fun e he => ?_⟩, hsize⟩, ?_⟩
    · rw [hslots] at he
      exact hshort' e ((List.perm_insertionSort _ _).mem_iff.mp he)
    · simp only [Option.elim_some, commitWithin, not_overLimit hsize hmax, Bool.false_eq_true,
        if_false]

theorem slim_of_commit {blob : Bytes} {r : Bool → Bool × Bool}
    (hop : topkApply item k maxValue cur = .commit blob r) : Slim k maxItem blob := by
  rcases topkApply_slim hk hmaxItem hmax hitem hcur with hop' | ⟨blob', hblob, hop'⟩
  · rw [hop'] at hop
    cases hop
  · rw [hop'] at hop
    cases hop
    exact hblob

theorem not_tooLarge_of_answers {r : Bool × Bool}
    (h : (topkApply item k maxValue cur).Answers r) : r.2 = false := by
  rcases topkApply_slim hk hmaxItem hmax hitem hcur with hop | ⟨blob, -, hop⟩
  · rw [hop] at h
    cases h
    rfl
  · rw [hop] at h
    cases h
    rfl

end

variable {key : Bytes} {version : ℕ} {expireAt : ℤ} {env : Env} {old : Option LruItem}

section

variable (hitem : item.length ≤ maxItem) (hold : ∀ it ∈ old, Slim k maxItem it.entry.value)
include hitem hold

theorem result_topkAdd_slim :
    ∀ it ∈ (topkAdd key item version expireAt k maxValue env old).act.result old,
      Slim k maxItem it.entry.value := by
  intro it hit
  unfold topkAdd at hit
  split at hit
  · exact hold it hit
  · split at hit
    · exact hold it hit
    · cases written_mutatePlain hit with
      | kept hkept => exact hold it hkept
      | new hmade hflags =>
        obtain ⟨r, hop⟩ := hmade
        exact slim_of_commit hk hmaxItem hmax hitem (fun b hb => absurd hb (by simp)) hop
      | amended a ha ht hhas hmade hflags =>
        obtain ⟨r, hop⟩ := hmade
        refine slim_of_commit hk hmaxItem hmax hitem (fun b hb => ?_) hop
        rw [← Option.some.inj hb]
        exact hold a ha

theorem ret_topkAdd_slim (still : Bool) :
    ((topkAdd key item version expireAt k maxValue env old).ret still).2 = false := by
  unfold topkAdd
  rw [if_neg (Nat.not_lt.mpr hk)]
  split
  · rfl
  · rcases answers_mutatePlain key version expireAt (false, false) (topkApply item k maxValue) env
      old still with href | hnone | ⟨a, ha, -, hsome⟩
    · rw [href]
    · exact not_tooLarge_of_answers hk hmaxItem hmax hitem (fun b hb => absurd hb (by simp)) hnone
    · refine not_tooLarge_of_answers hk hmaxItem hmax hitem (fun b hb => ?_) hsome
      rw [← Option.some.inj hb]
      exact hold a ha

end

/-- One call keeps every value of the store slim and is not refused for its size. -/
theorem slim_step {m : Mem} (hm : ∀ key, ∀ it ∈ m.lookup key, Slim k maxItem it.entry.value)
    {op : Op} (hitem : item.length ≤ maxItem)
    (hop : op.call = .plain (.topkAdd item version expireAt k maxValue)) :
    tooLarge (step m op).2 = false ∧
      ∀ key, ∀ it ∈ (step m op).1.lookup key, Slim k maxItem it.entry.value := by
  have hverb : op.call.verb op.key =
      (topkAdd op.key item version expireAt k maxValue).map .pair := by rw [hop]; rfl
  refine ⟨?_, fun key it hit => ?_⟩
  · have hret : ((topkAdd op.key item version expireAt k maxValue (m.env op.now)
        (m.lookup op.key)).ret ((step m op).1.lookup op.key).isSome).2 = false :=
      ret_topkAdd_slim hk hmaxItem hmax hitem (hm op.key) _
    have hans : (step m op).2 = .pair ((topkAdd op.key item version expireAt k maxValue
        (m.env op.now) (m.lookup op.key)).ret ((step m op).1.lookup op.key).isSome) := by
      rw [step, Memory.perform_ret, hverb]
      rfl
    rw [hans]
    simp only [tooLarge, hret, Bool.and_false]
  · by_cases hkey : op.key = key
    · subst hkey
      refine Memory.forall_lookup_perform (P := fun it => Slim k maxItem it.entry.value) m op.now
        op.key ?_ it hit
      rw [hverb]
      exact result_topkAdd_slim hk hmaxItem hmax hitem (hm op.key)
    · exact hm key it (Memory.lookup_perform_of_ne m op.now hkey _ hit)

theorem slim_run {ops : List Op} (hops : ∀ op ∈ ops, ∃ item version expireAt,
      op.call = .plain (.topkAdd item version expireAt k maxValue) ∧ item.length ≤ maxItem)
    {m : Mem} (hm : ∀ key, ∀ it ∈ m.lookup key, Slim k maxItem it.entry.value) :
    (∀ a ∈ answers m ops, tooLarge a = false) ∧
      ∀ key, ∀ it ∈ (run m ops).lookup key, Slim k maxItem it.entry.value := by
  induction ops generalizing m with
  | nil => exact ⟨fun a ha => absurd ha List.not_mem_nil, hm⟩
  | cons op ops ih =>
    obtain ⟨⟨item, version, expireAt, hcall, hitem⟩, hops⟩ := List.forall_mem_cons.mp hops
    obtain ⟨hret, hm'⟩ := slim_step hk hmaxItem hmax hm hitem hcall
    obtain ⟨hans, hrun⟩ := ih hops hm'
    exact ⟨List.forall_mem_cons.mpr ⟨hret, hans⟩, hrun⟩

end Calls

end Stored

section Wrapped

variable {k maxItem : ℕ}

/-- New items are counted in slots of their own while there is room. -/
theorem foldlM_add_new (t : Table) (xs : List Bytes) (hnodup : xs.Nodup) (hne : ∀ x ∈ xs, x ≠ [])
    (hfree : ∀ x ∈ xs, t.idx[x]? = none) (hroom : t.slots.length + xs.length ≤ t.k) :
    ∃ t', xs.foldlM Table.add t = some t' ∧ t'.slots = t.slots ++ xs.map fun x => (x, 1) := by
  induction xs generalizing t with
  | nil => exact ⟨t, rfl, (List.append_nil _).symm⟩
  | cons x xs ih =>
    obtain ⟨hx, hfree⟩ := List.forall_mem_cons.mp hfree
    obtain ⟨hxne, hne⟩ := List.forall_mem_cons.mp hne
    obtain ⟨hnew, hnodup⟩ := List.nodup_cons.mp hnodup
    rw [List.length_cons] at hroom
    rw [List.foldlM_cons, add_of_room hxne hx (by omega)]
    obtain ⟨t', hfold, hslots⟩ := ih { t with
        slots := t.slots ++ [(x, 1)]
        idx := t.idx.insert x t.slots.length } hnodup hne (fun y hy => by
      rw [getElem?_insert, if_neg, hfree y hy]
      exact fun heq => hnew (heq ▸ hy)) (by
      simp only [List.length_append, List.length_singleton]
      omega)
    refine ⟨t', hfold, ?_⟩
    rw [hslots, List.append_assoc, List.singleton_append, List.map_cons]

/-- There are items of eight bytes and more for every slot. -/
theorem exists_full (hk : k ≤ 2 ^ 64) (hmaxItem : 8 ≤ maxItem) :
    ∃ (xs : List Bytes) (t : Table), (∀ x ∈ xs, x.length = maxItem) ∧
      xs.foldlM Table.add (new k) = some t ∧ t.encode.length =
      k * (1 + uvarintSize maxItem + maxItem) := by
  have hpow : 2 ^ 64 ≤ 256 ^ maxItem := by
    calc 2 ^ 64 = 256 ^ 8 := by norm_num
      _ ≤ 256 ^ maxItem := Nat.pow_le_pow_right (by norm_num) hmaxItem
  have hinj : ∀ i < k, ∀ j < k, leBytes maxItem i = leBytes maxItem j → i = j := by
    intro i hi j hj heq
    have hnat := congrArg leNat heq
    rwa [leNat_leBytes, leNat_leBytes, Nat.mod_eq_of_lt (by omega), Nat.mod_eq_of_lt (by omega)]
      at hnat
  have hlen : ∀ x ∈ (List.range k).map (leBytes maxItem), x.length = maxItem := by
    intro x hx
    obtain ⟨i, -, rfl⟩ := List.mem_map.mp hx
    exact leBytes_length maxItem i
  obtain ⟨t, hrun, hslots⟩ := foldlM_add_new (new k) ((List.range k).map (leBytes maxItem))
    (List.Nodup.map_on (fun i hi j hj => hinj i (List.mem_range.mp hi) j (List.mem_range.mp hj))
      List.nodup_range)
    (fun x hx hnil => by
      have := hlen x hx
      rw [hnil, List.length_nil] at this
      omega)
    (fun x _ => by simp [new]) (by simp [new])
  refine ⟨_, t, hlen, hrun, ?_⟩
  have hone : uvarintSize 1 = 1 := rfl
  rw [t.encode_length, hslots]
  simp only [new, List.nil_append, List.map_map, Function.comp_def, leBytes_length, hone,
    List.map_const', List.sum_replicate, List.length_range, smul_eq_mul]
  ring

/-- A size that wraps is less than that of a full table of single counts. -/
theorem bmod_lt_of_wraps (hmaxItem : 8 ≤ maxItem) (hwraps : 2 ^ 63 ≤ exactSize k maxItem) :
    (exactSize k maxItem : ℤ).bmod (2 ^ 64) < (k * (1 + uvarintSize maxItem + maxItem) : ℕ) := by
  have hvarint := uvarintSize_pos maxItem
  have hsplit : exactSize k maxItem = k * (1 + uvarintSize maxItem + maxItem) + 9 * k := by
    unfold exactSize
    ring
  have hlow : k * 10 ≤ k * (1 + uvarintSize maxItem + maxItem) :=
    Nat.mul_le_mul_left k (by omega)
  have hcast : ((2 ^ 64 : ℕ) : ℤ) = 2 ^ 64 := by norm_num
  have hlt := Int.bmod_lt (x := (exactSize k maxItem : ℤ)) (Nat.two_pow_pos 64)
  obtain ⟨j, hj⟩ := Int.dvd_self_sub_bmod (x := (exactSize k maxItem : ℤ)) (m := 2 ^ 64)
  rw [hcast] at hlt hj
  generalize (exactSize k maxItem : ℤ).bmod (2 ^ 64) = w at hlt hj ⊢
  generalize k * (1 + uvarintSize maxItem + maxItem) = n at hsplit hlow ⊢
  -- either the single counts save less than one round, or the table is larger than half of one
  have hround : 1 ≤ j := by omega
  omega

end Wrapped

/-- As long as the size of a full table of the longest items stays below `2 ^ 63`, the limits
that were checked suffice for every sequence of calls. Where items may have eight bytes and
more, that is also needed: else some table outgrows the size that wrapped. -/
theorem limits_suffice (e : Limits) (c : Config) (h : e.Accepts c) :
    (exactSize c.slots (e.itemMax c).toInt.toNat < 2 ^ 63 → e.Suffice c) ∧
      (8 ≤ (e.itemMax c).toInt.toNat → e.Suffice c →
        exactSize c.slots (e.itemMax c).toInt.toNat < 2 ^ 63) := by
  have hkpos := c.effectiveTopKSize_pos
  have hitem := e.itemMax_pos c
  have hworst := toInt_worstEncodedSize hkpos hitem.le
  have hk : 1 ≤ c.slots := by
    unfold Config.slots
    omega
  have hmaxItem : (e.itemMax c).toInt.toNat < 2 ^ 64 := by
    have := (e.itemMax c).toInt_lt
    omega
  refine ⟨fun hexact => ?_, fun height hsuffice => ?_⟩
  · rw [bmod_eq_self ⟨by omega, by exact_mod_cast hexact⟩] at hworst
    have hmax := h.worst_le
    rw [hworst] at hmax
    refine ⟨fun xs t hxs hrun => ?_, fun ttl ops hops => ?_⟩
    · rw [hworst]
      have hshort : t.Short (e.itemMax c).toInt.toNat := by
        refine short_of_foldlM hk (fun x hx => ?_) t hrun
        have := hxs x hx
        omega
      exact_mod_cast hshort.encode_length_le (charts_of_foldlM hk t hrun).2.2.bound
    · have hcalls : ∀ op ∈ ops, ∃ item version expireAt,
          op.call = .plain (.topkAdd item version expireAt c.slots (e.maxValue c).toInt) ∧
            item.length ≤ (e.itemMax c).toInt.toNat := by
        intro op hop
        obtain ⟨item, version, expireAt, hcall, hlen⟩ := hops op hop
        exact ⟨item, version, expireAt, hcall, by omega⟩
      have hempty : ∀ key, ∀ it ∈ (Memory.newMemory c.maxBytes.toInt ttl : Mem).lookup key,
          Slim c.slots (e.itemMax c).toInt.toNat it.entry.value :=
        fun key it hit => absurd hit (Option.not_mem_none it)
      obtain ⟨hans, hslim⟩ := slim_run hk hmaxItem hmax hcalls hempty
      refine ⟨hans, fun key it hit => ?_⟩
      rw [hworst]
      exact_mod_cast (hslim key it hit).size
  · by_contra hwraps
    rw [not_lt] at hwraps
    have hslots : c.slots ≤ 2 ^ 64 := by
      have := c.effectiveTopKSize.toInt_lt
      unfold Config.slots
      omega
    obtain ⟨xs, t, hlen, hrun, hsize⟩ := exists_full hslots height
    have hfits := hsuffice.1 xs t (fun x hx => by rw [hlen x hx]; omega) hrun
    rw [hworst, hsize] at hfits
    exact absurd hfits (not_le.mpr (bmod_lt_of_wraps height hwraps))

/-- The default limits. -/
theorem limits_suffice_default :
    Limits.default.Suffice ⟨ascii "c", 0, 0, 0, 0⟩ :=
  (limits_suffice Limits.default ⟨ascii "c", 0, 0, 0, 0⟩ ⟨rfl, rfl⟩).1 (by decide +kernel)

/-- With `2 ^ 60` slots and items of up to five bytes the size wraps to zero, so a limit of two
bytes is accepted, and the first call finds its value too large. -/
theorem not_limits_suffice :
    Limits.default.Accepts ⟨ascii "c", 0, 1152921504606846976, 5, 2⟩ ∧
      ¬ Limits.default.Suffice ⟨ascii "c", 0, 1152921504606846976, 5, 2⟩ := by
  refine ⟨⟨rfl, rfl⟩, fun h => ?_⟩
  have hadds : ∀ op ∈ [(⟨0, [7], .plain (.topkAdd [1] 1 0 1152921504606846976 2)⟩ : Op)],
      Limits.default.Adds ⟨ascii "c", 0, 1152921504606846976, 5, 2⟩ op := by
    rw [List.forall_mem_singleton]
    exact ⟨[1], 1, 0, rfl, by decide +kernel⟩
  have hans := (h.2 0 _ hadds).1
  revert hans
  decide +kernel

end Supercache.TopKX

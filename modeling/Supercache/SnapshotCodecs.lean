import Supercache.Sketches
import Supercache.Snapshots
import Supercache.StrictSort

/-!
What the snapshot decoders accept, and what the operations make of it. Whatever is
decoded is well formed, every operation keeps it well formed, and the bytes of a well
formed value are accepted again. The sketches have no decoder but their size, which
every operation keeps.
-/
namespace Supercache

open Wire

namespace TopKX

open ByteMap

structure RowFits (e : Bytes × ℕ) : Prop where
  item : e.1 ≠ []
  length : e.1.length < 2 ^ 64
  count : e.2 ≠ 0
  bound : e.2 < 2 ^ 64

/-- No more rows than the table has room for, each in its place. -/
structure Table.Valid (t : Table) : Prop where
  pos : 0 < t.k
  bound : t.slots.length ≤ t.k
  rows : ∀ e ∈ t.slots, RowFits e
  index : Indexes (t.slots.map Prod.fst) t.idx

variable {k : ℕ} {t : Table} {slots : List (Bytes × ℕ)}

theorem valid_new (hk : 0 < k) : (new k).Valid :=
  ⟨hk, Nat.zero_le k, by simp [new], Indexes.empty⟩

def Table.enter (t : Table) (e : Bytes × ℕ) : Option Table :=
  if t.idx.contains e.1 ∨ t.k ≤ t.slots.length then none
  else some { t with slots := t.slots ++ [e], idx := t.idx.insert e.1 t.slots.length }

theorem decode_eq (b : Bytes) (k : ℕ) : decode b k =
      if k < 1 then none
      else (readAll readRow b.length b).bind fun rows => rows.foldlM Table.enter (new k) := by
  unfold decode
  split
  · rfl
  · cases readAll readRow b.length b with
    | none => rfl
    | some rows => rfl

theorem getElem?_of_not_contains {item : Bytes} (h : ¬ t.idx.contains item = true) :
    t.idx[item]? = none := by
  simpa using h

namespace Table.Valid

variable {t t' : Table}

variable {e : Bytes × ℕ}

/-- A new item in a slot of its own. -/
theorem push (h : t.Valid) (hroom : t.slots.length < t.k) (he : RowFits e)
    (hnew : t.idx[e.1]? = none) :
    Table.Valid { t with slots := t.slots ++ [e], idx := t.idx.insert e.1 t.slots.length } where
  pos := h.pos
  bound := by
    simp only [List.length_append, List.length_singleton]
    omega
  rows := List.forall_mem_append.mpr ⟨h.rows, List.forall_mem_singleton.mpr he⟩
  index := by
    have hpush := h.index.push hnew
    rw [List.length_map] at hpush
    simpa only [List.map_append, List.map_singleton] using hpush

theorem enter (h : t.Valid) (he : RowFits e) (henter : t.enter e = some t') :
    t'.Valid ∧ t'.k = t.k := by
  unfold Table.enter at henter
  by_cases htaken : t.idx.contains e.1 = true ∨ t.k ≤ t.slots.length
  · rw [if_pos htaken] at henter
    simp at henter
  · rw [if_neg htaken] at henter
    rw [not_or] at htaken
    rw [← Option.some.inj henter]
    exact ⟨h.push (by omega) he (getElem?_of_not_contains htaken.1), rfl⟩

theorem foldlM_enter (h : t.Valid) {rows : List (Bytes × ℕ)} (hrows : ∀ e ∈ rows, RowFits e)
    (hfold : rows.foldlM Table.enter t = some t') : t'.Valid ∧ t'.k = t.k := by
  induction rows generalizing t with
  | nil =>
    rw [← Option.some.inj hfold]
    exact ⟨h, rfl⟩
  | cons e rows ih =>
    obtain ⟨he, hrest⟩ := List.forall_mem_cons.mp hrows
    rw [List.foldlM_cons, Option.bind_eq_bind, Option.bind_eq_some_iff] at hfold
    obtain ⟨t₁, henter, hfold⟩ := hfold
    obtain ⟨hvalid, hk⟩ := h.enter he henter
    obtain ⟨hvalid', hk'⟩ := ih hvalid hrest hfold
    exact ⟨hvalid', hk'.trans hk⟩

end Table.Valid

theorem fits_of_readRow (b : Bytes) (e : Bytes × ℕ) (rest : Bytes)
    (h : readRow b = some (e, rest)) : RowFits e := by
  unfold readRow at h
  rcases hcount : uvarint b with _ | ⟨count, b₁⟩
  · simp [hcount] at h
  · simp only [hcount] at h
    by_cases hzero : count = 0
    · simp [hzero] at h
    · rw [if_neg hzero] at h
      rcases hitem : blob b₁ with _ | ⟨item, b₂⟩
      · simp [hitem] at h
      · simp only [hitem] at h
        by_cases hempty : item = []
        · simp [hempty] at h
        · rw [if_neg hempty] at h
          rw [Option.some.injEq, Prod.mk.injEq] at h
          rw [← h.1]
          exact ⟨hempty, blob_length_lt hitem, hzero, uvarint_lt hcount⟩

theorem readRow_write {e : Bytes × ℕ} (he : RowFits e) (rest : Bytes) :
    readRow (putUvarint e.2 ++ putBlob e.1 ++ rest) = some (e, rest) := by
  rw [List.append_assoc]
  simp only [readRow, uvarint_putUvarint _ _ he.bound, blob_putBlob _ _ he.length, he.count,
    he.item, if_false]

/-- What is accepted is well formed. -/
theorem valid_of_decode {b : Bytes} (h : decode b k = some t) : t.Valid ∧ t.k = k := by
  rw [decode_eq] at h
  by_cases hk : k < 1
  · simp [hk] at h
  · rw [if_neg hk] at h
    obtain ⟨rows, hrows, hfold⟩ := Option.bind_eq_some_iff.mp h
    exact (valid_new (by omega)).foldlM_enter
      (readAll_forall fits_of_readRow _ b rows hrows) hfold

/-- Rows with items of their own are admitted while there is room. -/
theorem foldlM_enter_eq (t : Table) (rows : List (Bytes × ℕ))
    (hnodup : (rows.map Prod.fst).Nodup) (hfree : ∀ e ∈ rows, t.idx[e.1]? = none)
    (hroom : t.slots.length + rows.length ≤ t.k) :
    ∃ t', rows.foldlM Table.enter t = some t' ∧ t'.slots = t.slots ++ rows := by
  induction rows generalizing t with
  | nil => exact ⟨t, rfl, (List.append_nil _).symm⟩
  | cons e rows ih =>
    obtain ⟨he, hrest⟩ := List.forall_mem_cons.mp hfree
    rw [List.map_cons, List.nodup_cons] at hnodup
    rw [List.length_cons] at hroom
    have henter : t.enter e =
        some { t with slots := t.slots ++ [e], idx := t.idx.insert e.1 t.slots.length } := by
      unfold Table.enter
      rw [if_neg]
      rw [not_or]
      exact ⟨by simpa using he, by omega⟩
    rw [List.foldlM_cons, henter]
    obtain ⟨t', hfold, hslots⟩ := ih { t with
        slots := t.slots ++ [e]
        idx := t.idx.insert e.1 t.slots.length } hnodup.2 (fun e' he' => by
      rw [getElem?_insert, if_neg, hrest e' he']
      exact fun heq => hnodup.1 (heq ▸ List.mem_map_of_mem he')) (by
      simp only [List.length_append, List.length_singleton]
      omega)
    refine ⟨t', hfold, ?_⟩
    rw [hslots, List.append_assoc, List.singleton_append]

/-- A snapshot is read back in any table with room for it, its rows in the order of the chart. -/
theorem decode_encode (h : t.Valid) (hpos : 0 < k) (hroom : t.slots.length ≤ k) :
    ∃ t', decode t.encode k = some t' ∧ t'.slots = t.list := by
  have hperm : t.list.Perm t.slots := List.perm_insertionSort _ _
  have hread : readAll readRow t.encode.length t.encode = some t.list :=
    readAll_flatMap t.list _ (fun e he rest => readRow_write (h.rows e (hperm.mem_iff.mp he)) rest)
      (fun e _ => by simp [putUvarint_ne_nil]) (Nat.le_refl _)
  rw [decode_eq, if_neg (by omega), hread]
  refine foldlM_enter_eq (new k) t.list ?_ (fun e _ => by simp [new]) ?_
  · exact ((hperm.map Prod.fst).nodup_iff).mpr h.index.nodup
  · rw [hperm.length_eq]
    simpa [new] using hroom

theorem lessSlot_iff (a b : Bytes × ℕ) :
    lessSlot a b = true ↔ a.2 < b.2 ∨ a.2 = b.2 ∧ compare a.1 b.1 = .lt := by
  simp [lessSlot]

theorem getElem?_of_lt {i : ℕ} (h : i < slots.length) :
    slots[i]? = some (slots.getD i ([], 0)) := by
  rw [List.getD_eq_getElem?_getD, List.getElem?_eq_getElem h]
  rfl

/-- The victim is the slot that no other precedes. -/
theorem minSlot_spec (hpos : 0 < slots.length) (hnodup : (slots.map Prod.fst).Nodup) :
    ∃ old, slots[minSlot slots]? = some old ∧ ∀ e ∈ slots, lessSlot e old = false := by
  have hless : ∀ i j, i < slots.length → j < slots.length →
      (lessSlot (slots.getD i ([], 0)) (slots.getD j ([], 0)) = true ↔
        (slots.getD i ([], 0)).2 < (slots.getD j ([], 0)).2 ∨
          (slots.getD i ([], 0)).2 = (slots.getD j ([], 0)).2 ∧
            compare (slots.getD i ([], 0)).1 (slots.getD j ([], 0)).1 = .lt) :=
    fun i j _ _ => lessSlot_iff _ _
  have hin : ∀ i ∈ 0 :: List.range slots.length, i < slots.length := by
    refine List.forall_mem_cons.mpr ⟨hpos, fun i hi => List.mem_range.mp hi⟩
  have hname : ∀ i, i < slots.length → ∀ j, j < slots.length → i ≠ j →
      (slots.getD i ([], 0)).1 ≠ (slots.getD j ([], 0)).1 := by
    intro i hi j hj hne heq
    refine hne ((List.getElem?_inj (by simpa using hi) hnodup).mp ?_)
    rw [List.getElem?_map, List.getElem?_map, getElem?_of_lt hi, getElem?_of_lt hj]
    exact congrArg some heq
  obtain ⟨hmem, hmin⟩ := StrictSort.foldl_least (StrictSort.orders_of_lex hless)
    (List.range slots.length) 0 hin fun i hi j hj hne =>
      StrictSort.less_or_less hless (hin i hi) (hin j hj) (hname i (hin i hi) j (hin j hj) hne)
  refine ⟨_, getElem?_of_lt (hin _ hmem), fun e he => ?_⟩
  obtain ⟨i, hi⟩ := List.mem_iff_getElem?.mp he
  have hlt : i < slots.length := (List.getElem?_eq_some_iff.mp hi).1
  have heq : slots.getD i ([], 0) = e := Option.some.inj ((getElem?_of_lt hlt).symm.trans hi)
  rw [← heq]
  exact hmin i (List.mem_cons_of_mem 0 (List.mem_range.mpr hlt))

inductive Table.Added (t : Table) (item : Bytes) : Table → Prop
  | hit (i c : ℕ) (hslot : t.slots[i]? = some (item, c)) (hmax : c ≠ maxUint64) :
    Added t item { t with slots := t.slots.set i (item, c + 1) }
  | grow (hnew : t.idx[item]? = none) (hroom : t.slots.length < t.k) :
    Added t item { t with
      slots := t.slots ++ [(item, 1)]
      idx := t.idx.insert item t.slots.length }
  | replace (m : ℕ) (old : Bytes × ℕ) (hnew : t.idx[item]? = none) (hfull : t.k ≤ t.slots.length)
    (hslot : t.slots[m]? = some old) (hmin : ∀ e ∈ t.slots, lessSlot e old = false)
    (hmax : old.2 ≠ maxUint64) :
    Added t item { t with
      slots := t.slots.set m (item, old.2 + 1)
      idx := (t.idx.erase old.1).insert item m }

section Add

variable {t t' : Table} {item : Bytes}

variable {i : ℕ}

theorem slot_of_index (hindex : Indexes (t.slots.map Prod.fst) t.idx) (hi : t.idx[item]? = some i) :
    ∃ c, t.slots[i]? = some (item, c) := by
  have hfst := (hindex item i).mp hi
  rw [List.getElem?_map, Option.map_eq_some_iff] at hfst
  obtain ⟨e, he, rfl⟩ := hfst
  exact ⟨e.2, he⟩

theorem add_of_hit (hne : item ≠ []) {c : ℕ} (hi : t.idx[item]? = some i)
    (hslot : t.slots[i]? = some (item, c)) : t.add item =
      if c = maxUint64 then none else some { t with slots := t.slots.set i (item, c + 1) } := by
  have hget : t.slots.getD i ([], 0) = (item, c) := by
    rw [List.getD_eq_getElem?_getD, hslot]
    rfl
  simp only [Table.add, hne, if_false, hi, hget]

theorem add_of_room (hne : item ≠ []) (hnew : t.idx[item]? = none) (hroom : t.slots.length < t.k) :
    t.add item = some { t with
      slots := t.slots ++ [(item, 1)]
      idx := t.idx.insert item t.slots.length } := by
  simp only [Table.add, hne, if_false, hnew, hroom, if_true]

theorem add_of_full (hne : item ≠ []) (hnew : t.idx[item]? = none) (hfull : t.k ≤ t.slots.length)
    {old : Bytes × ℕ} (hslot : t.slots[minSlot t.slots]? = some old) : t.add item =
      if old.2 = maxUint64 then none
      else some { t with
        slots := t.slots.set (minSlot t.slots) (item, old.2 + 1)
        idx := (t.idx.erase old.1).insert item (minSlot t.slots) } := by
  have hget : t.slots.getD (minSlot t.slots) ([], 0) = old := by
    rw [List.getD_eq_getElem?_getD, hslot]
    rfl
  simp only [Table.add, hne, if_false, hnew, Nat.not_lt.mpr hfull, hget]

/-- An accepted item enters the table as an observation. -/
theorem added_of_add (hpos : 0 < t.k) (hindex : Indexes (t.slots.map Prod.fst) t.idx)
    (hadd : t.add item = some t') : item ≠ [] ∧ t.Added item t' := by
  by_cases hne : item = []
  · simp [Table.add, hne] at hadd
  refine ⟨hne, ?_⟩
  cases hi : t.idx[item]? with
  | some i =>
    obtain ⟨c, hslot⟩ := slot_of_index hindex hi
    rw [add_of_hit hne hi hslot] at hadd
    by_cases hmax : c = maxUint64
    · simp [hmax] at hadd
    · rw [if_neg hmax] at hadd
      rw [← Option.some.inj hadd]
      exact .hit i c hslot hmax
  | none =>
    by_cases hroom : t.slots.length < t.k
    · rw [add_of_room hne hi hroom] at hadd
      rw [← Option.some.inj hadd]
      exact .grow hi hroom
    · rw [Nat.not_lt] at hroom
      obtain ⟨old, hslot, hmin⟩ := minSlot_spec (by omega) hindex.nodup
      rw [add_of_full hne hi hroom hslot] at hadd
      by_cases hmax : old.2 = maxUint64
      · simp [hmax] at hadd
      · rw [if_neg hmax] at hadd
        rw [← Option.some.inj hadd]
        exact .replace _ old hi hroom hslot hmin hmax

section

variable (h : t.Added item t')
include h

/-- The index goes on saying where each item stands. -/
theorem Table.Added.index (hindex : Indexes (t.slots.map Prod.fst) t.idx) :
    Indexes (t'.slots.map Prod.fst) t'.idx := by
  cases h with
  | hit i c hslot hmax =>
    have hfst : (t.slots.map Prod.fst)[i]? = some item := by
      rw [List.getElem?_map, hslot]
      rfl
    obtain ⟨hlt, heq⟩ := List.getElem?_eq_some_iff.mp hfst
    rw [List.map_set, ← heq, List.set_getElem_self]
    exact hindex
  | grow hnew hroom =>
    have hpush := hindex.push hnew
    rw [List.length_map] at hpush
    simpa only [List.map_append, List.map_singleton] using hpush
  | replace m old hnew hfull hslot hmin hmax =>
    simp only [List.map_set]
    refine hindex.replace ?_ hnew
    rw [List.getElem?_map, hslot]
    rfl

theorem Table.Added.k_eq : t'.k = t.k := by
  cases h <;> rfl

theorem Table.Added.bound (hbound : t.slots.length ≤ t.k) :
    t'.slots.length ≤ t.k := by
  cases h with
  | hit i c hslot hmax => simpa using hbound
  | grow hnew hroom => simpa using hroom
  | replace m old hnew hfull hslot hmin hmax => simpa using hbound

theorem Table.Added.rows (hrows : ∀ e ∈ t.slots, RowFits e)
    (hne : item ≠ []) (hitem : item.length < 2 ^ 64) : ∀ e ∈ t'.slots, RowFits e := by
  have hrow : ∀ c < 2 ^ 64 - 1, RowFits (item, c + 1) := fun c hc =>
    ⟨hne, hitem, Nat.succ_ne_zero c, by dsimp only; omega⟩
  have hset : ∀ i c, c < 2 ^ 64 - 1 → ∀ e ∈ t.slots.set i (item, c + 1), RowFits e := by
    intro i c hc e he
    rcases List.mem_or_eq_of_mem_set he with hmem | rfl
    · exact hrows e hmem
    · exact hrow c hc
  cases h with
  | hit i c hslot hmax =>
    have hbound := (hrows _ (List.mem_of_getElem? hslot)).bound
    unfold maxUint64 at hmax
    exact hset i c (by dsimp only at hbound; omega)
  | grow hnew hroom =>
    exact List.forall_mem_append.mpr
      ⟨hrows, List.forall_mem_singleton.mpr (hrow 0 (by norm_num))⟩
  | replace m old hnew hfull hslot hmin hmax =>
    have hbound := (hrows _ (List.mem_of_getElem? hslot)).bound
    unfold maxUint64 at hmax
    exact hset m old.2 (by omega)

end

/-- One more observation keeps the table well formed. -/
theorem Table.Valid.add (h : t.Valid) (hitem : item.length < 2 ^ 64)
    (hadd : t.add item = some t') : t'.Valid ∧ t'.k = t.k := by
  obtain ⟨hne, hadded⟩ := added_of_add h.pos h.index hadd
  have hk := hadded.k_eq
  exact ⟨⟨hk ▸ h.pos, hk ▸ hadded.bound h.bound, hadded.rows h.rows hne hitem,
    hadded.index h.index⟩, hk⟩

end Add

end TopKX

namespace VecSet

open ByteMap

structure RecordFits (dim : ℕ) (e : Bytes × List UInt32) : Prop where
  pos : 1 ≤ e.1.length
  length : e.1.length ≤ maxMemberLen
  dim : e.2.length = dim
  finite : finite e.2 = true

structure VSet.Valid (s : VSet) : Prop where
  dim : validDim s.dim = true
  size : s.vals.size ≤ maxMembers
  records : ∀ e ∈ s.vals.toList, RecordFits s.dim e

theorem valid_newSet {dim : ℕ} (h : validDim dim = true) : (newSet dim).Valid :=
  ⟨h, by simp [newSet], by simp [newSet]⟩

namespace VSet.Valid

variable {s s' : VSet}

/-- An accepted vector keeps the set valid. -/
theorem add (h : s.Valid) {member : Bytes} {vec : List UInt32} (hadd : s.add member vec = some s') :
    s'.Valid ∧ s'.dim = s.dim := by
  unfold VSet.add at hadd
  by_cases hbad : (!validDim s.dim) = true ∨ vec.length ≠ s.dim ∨ (!finite vec) = true
  · rw [if_pos hbad] at hadd
    simp at hadd
  · rw [if_neg hbad] at hadd
    by_cases hlong : member.length < 1 ∨ maxMemberLen < member.length
    · rw [if_pos hlong] at hadd
      simp at hadd
    · rw [if_neg hlong] at hadd
      split at hadd
      · simp at hadd
      next hroom =>
        simp only [not_or, not_not, Bool.not_eq_true, Bool.not_eq_false', not_lt] at hbad hlong
        rw [← Option.some.inj hadd]
        refine ⟨⟨h.dim, ?_, ?_⟩, rfl⟩
        · rw [Std.ExtTreeMap.size_insert]
          by_cases hheld : s.vals.contains member
          · rw [if_pos hheld]
            exact h.size
          · rw [if_neg hheld]
            rw [not_and, not_le] at hroom
            have hlt := hroom (by
              rw [Bool.not_eq_true', Bool.eq_false_iff]
              exact fun h => hheld (Std.ExtTreeMap.mem_iff_contains.mpr h))
            omega
        · rintro ⟨k, v⟩ he
          rw [Std.ExtTreeMap.mem_toList_iff_getElem?_eq_some, getElem?_insert] at he
          by_cases heq : member = k
          · rw [if_pos heq] at he
            subst heq
            rw [← Option.some.inj he]
            exact ⟨hlong.1, hlong.2, hbad.2.1, hbad.2.2⟩
          · rw [if_neg heq] at he
            exact h.records _ (Std.ExtTreeMap.mem_toList_iff_getElem?_eq_some.mpr he)

theorem rem (h : s.Valid) (member : Bytes) : (s.rem member).Valid where
  dim := h.dim
  size := le_trans Std.ExtTreeMap.size_erase_le h.size
  records := by
    rintro ⟨k, v⟩ he
    rw [Std.ExtTreeMap.mem_toList_iff_getElem?_eq_some] at he
    simp only [VSet.rem, getElem?_erase] at he
    split at he
    · simp at he
    · exact h.records _ (Std.ExtTreeMap.mem_toList_iff_getElem?_eq_some.mpr he)

end VSet.Valid

variable {s : VSet} {b : Bytes}

theorem valid_of_readRecords {count : ℕ} {s' : VSet} (h : s.Valid)
    (hread : readRecords count s b = some s') : s'.Valid := by
  induction count generalizing s b with
  | zero =>
    unfold readRecords at hread
    split at hread
    · rw [← Option.some.inj hread]
      exact h
    · simp at hread
  | succ count ih =>
    unfold readRecords at hread
    split at hread
    · simp at hread
    · dsimp only at hread
      split at hread
      · simp at hread
      · split at hread
        · simp at hread
        · split at hread
          · simp at hread
          next hadd =>
            exact ih (h.add hadd).1 hread

/-- What is accepted is well formed. -/
theorem valid_of_decodeSnapshot (h : decodeSnapshot b = some s) : s.Valid := by
  unfold decodeSnapshot at h
  split at h
  · dsimp only at h
    split at h
    · simp at h
    · split at h
      · simp at h
      next hdim =>
        rw [not_or] at hdim
        exact valid_of_readRecords (valid_newSet (by simpa using hdim.1)) h
  · simp at h

theorem takeVec_putVec (vec : List UInt32) (rest : Bytes) :
    takeVec vec.length (putVec vec ++ rest) = vec := by
  induction vec with
  | nil => rfl
  | cons x vec ih =>
    have hsplit : putVec (x :: vec) ++ rest = leBytes 4 x.toNat ++ (putVec vec ++ rest) := by
      simp [putVec]
    have htake : (leBytes 4 x.toNat ++ (putVec vec ++ rest)).take 4 = leBytes 4 x.toNat :=
      List.take_left' (leBytes_length 4 _)
    have hdrop : (leBytes 4 x.toNat ++ (putVec vec ++ rest)).drop 4 = putVec vec ++ rest :=
      List.drop_left' (leBytes_length 4 _)
    have hword : UInt32.ofNat (leNat (leBytes 4 x.toNat)) = x := by
      rw [leNat_leBytes, Nat.mod_eq_of_lt (by have := x.toNat_lt; omega), UInt32.ofNat_toNat]
    rw [hsplit, List.length_cons, takeVec, htake, hdrop, hword, ih]

theorem length_putVec (vec : List UInt32) : (putVec vec).length = 4 * vec.length := by
  induction vec with
  | nil => rfl
  | cons x vec ih =>
    have hcons : putVec (x :: vec) = leBytes 4 x.toNat ++ putVec vec := rfl
    rw [hcons, List.length_append, leBytes_length, ih, List.length_cons]
    omega

theorem add_of_room (hdim : validDim s.dim = true) {e : Bytes × List UInt32}
    (he : RecordFits s.dim e) (hroom : s.vals.size < maxMembers) :
    s.add e.1 e.2 = some { s with vals := s.vals.insert e.1 e.2 } := by
  have hpos := he.pos
  have hlength := he.length
  unfold VSet.add
  rw [if_neg (by simp [hdim, he.dim, he.finite]), if_neg (by omega), if_neg (by omega)]

/-- Records are read back one after another while there is room. -/
theorem readRecords_flatMap (es : List (Bytes × List UInt32)) (s : VSet)
    (hdim : validDim s.dim = true) (hes : ∀ e ∈ es, RecordFits s.dim e)
    (hroom : s.vals.size + es.length ≤ maxMembers) :
    readRecords es.length s (es.flatMap fun e => UInt8.ofNat e.1.length :: (e.1 ++ putVec e.2)) =
      some { s with vals := es.foldl (fun m e => m.insert e.1 e.2) s.vals } := by
  induction es generalizing s with
  | nil => rfl
  | cons e es ih =>
    obtain ⟨he, hrest⟩ := List.forall_mem_cons.mp hes
    rw [List.length_cons] at hroom
    have hlen : (UInt8.ofNat e.1.length).toNat = e.1.length := by
      have hbound := he.length
      unfold maxMemberLen at hbound
      rw [UInt8.toNat_ofNat', Nat.mod_eq_of_lt (by omega)]
    have hadd := add_of_room hdim he (by omega)
    have hsize : (s.vals.insert e.1 e.2).size ≤ s.vals.size + 1 := Std.ExtTreeMap.size_insert_le
    rw [List.flatMap_cons, List.length_cons, List.cons_append, List.append_assoc]
    generalize hrecords : (es.flatMap fun e => UInt8.ofNat e.1.length :: (e.1 ++ putVec e.2)) = rest
    have hfits : ¬ (e.1.length < 1 ∨
        (e.1 ++ (putVec e.2 ++ rest)).length < e.1.length + 4 * s.dim) := by
      have hpos := he.pos
      simp only [List.length_append, length_putVec, he.dim]
      omega
    have hvec : takeVec s.dim ((e.1 ++ (putVec e.2 ++ rest)).drop e.1.length) = e.2 := by
      rw [List.drop_left, ← he.dim, takeVec_putVec]
    have hdrop : (e.1 ++ (putVec e.2 ++ rest)).drop (e.1.length + 4 * s.dim) = rest := by
      rw [← List.append_assoc]
      refine List.drop_left' ?_
      rw [List.length_append, length_putVec, he.dim]
    unfold readRecords
    simp only [hlen, hfits, if_false, hvec, he.finite, Bool.not_true, Bool.false_eq_true,
      List.take_left, hadd, hdrop]
    rw [← hrecords]
    exact ih _ hdim hrest (by dsimp only; omega)

/-- A well formed set is read back from its bytes. -/
theorem decodeSnapshot_encode (h : s.Valid) : decodeSnapshot s.encode = some s := by
  have hdim : s.dim < 256 ^ 2 := by
    have hvalid := h.dim
    rw [validDim, Bool.and_eq_true, decide_eq_true_eq, decide_eq_true_eq] at hvalid
    exact lt_of_le_of_lt hvalid.2 (by decide)
  have hcount : s.vals.size < 256 ^ 2 := by
    have hsize := h.size
    unfold maxMembers at hsize
    omega
  obtain ⟨d₀, d₁, hd⟩ := List.length_eq_two.mp (leBytes_length 2 s.dim)
  obtain ⟨c₀, c₁, hc⟩ := List.length_eq_two.mp (leBytes_length 2 s.vals.size)
  have hleDim : leNat [d₀, d₁] = s.dim := by rw [← hd, leNat_leBytes, Nat.mod_eq_of_lt hdim]
  have hleCount : leNat [c₀, c₁] = s.vals.size := by
    rw [← hc, leNat_leBytes, Nat.mod_eq_of_lt hcount]
  have hheader : ¬ ((!validDim s.dim) = true ∨ maxMembers < s.vals.size) := by
    rw [not_or]
    exact ⟨by simp [h.dim], Nat.not_lt.mpr h.size⟩
  have hread := readRecords_flatMap s.vals.toList (newSet s.dim) h.dim h.records
    (by rw [Std.ExtTreeMap.length_toList]; simpa [newSet] using h.size)
  have hvals : s.vals.toList.foldl (fun m e => m.insert e.1 e.2) (newSet s.dim).vals = s.vals :=
    ofEntries_eq_of_perm s.vals s.vals.toList (List.Perm.refl _)
  rw [hvals] at hread
  unfold VSet.encode
  rw [hd, hc]
  simp only [List.cons_append, List.nil_append, decodeSnapshot, ne_eq, not_true_eq_false, if_false,
    hleDim, hleCount, hheader]
  rw [← Std.ExtTreeMap.length_toList, hread]
  rfl

end VecSet

namespace HllX

theorem setReg_length (regs : Bytes) (i v : ℕ) : (setReg regs i v).length = regs.length := by
  unfold setReg
  split
  · rfl
  · simp only [List.length_modify]

theorem add_length (regs item : Bytes) : (add regs item).length = regs.length := by
  have hraised : ∀ i rho, (if getReg regs i < rho then setReg regs i rho else regs).length =
      regs.length := by
    intro i rho
    split
    · exact setReg_length regs i rho
    · rfl
  unfold add
  split
  · rfl
  · exact hraised _ _

end HllX

namespace CmsX

theorem putCell_length (sketch : Bytes) {off : ℕ} (v : ℕ) (h : off + 8 ≤ sketch.length) :
    (putCell sketch off v).length = sketch.length := by
  simp only [putCell, List.length_append, List.length_take, leBytes_length, List.length_drop]
  omega

def column (item : Bytes) (row : ℕ) : ℕ := (columns item).getD row 0

variable {row : ℕ}

theorem getElem?_columns (item : Bytes) (hrow : row < depth) :
    (columns item)[row]? = some (column item row) := by
  have hlen : row < (columns item).length := by simpa [columns] using hrow
  rw [column, List.getD_eq_getElem _ _ hlen, List.getElem?_eq_getElem hlen]

theorem offsets_eq (item : Bytes) :
    offsets item = (List.range depth).map fun row => cellOff row (column item row) := by
  refine List.ext_getElem? fun row => ?_
  rw [offsets, List.getElem?_mapIdx, List.getElem?_map]
  by_cases hrow : row < depth
  · rw [getElem?_columns item hrow, List.getElem?_range hrow, Option.map_some, Option.map_some]
  · have hlen : (columns item).length = depth := by simp [columns]
    rw [List.getElem?_eq_none (by omega), List.getElem?_eq_none (by rw [List.length_range]; omega),
      Option.map_none, Option.map_none]

theorem column_lt (item : Bytes) (row : ℕ) : column item row < width := by
  rw [column, List.getD_eq_getElem?_getD, columns, List.getElem?_map]
  cases (List.range depth)[row]? with
  | none =>
    rw [Option.map_none, Option.getD_none]
    decide
  | some i =>
    rw [Option.map_some, Option.getD_some, UInt64.toNat_and]
    exact lt_of_le_of_lt Nat.and_le_right (by decide)

theorem cellOff_le {col : ℕ} (hrow : row < depth) (hcol : col < width) :
    cellOff row col + 8 ≤ denseSize := by
  unfold depth at hrow
  unfold cellOff denseSize
  unfold width at hcol ⊢
  omega

theorem offsets_le (item : Bytes) : ∀ off ∈ offsets item, off + 8 ≤ denseSize := by
  rw [offsets_eq]
  intro off hoff
  obtain ⟨row, hrow, rfl⟩ := List.mem_map.mp hoff
  exact cellOff_le (List.mem_range.mp hrow) (column_lt item row)

/-- Adding keeps the size of a sketch. -/
theorem incr_length {sketch item sketch' : Bytes} {n : ℕ}
    (h : incr sketch item n = (sketch', none)) : sketch'.length = denseSize := by
  have hfold : ∀ offs : List ℕ, (∀ off ∈ offs, off + 8 ≤ denseSize) → ∀ s : Bytes,
      s.length = denseSize → (offs.foldl (fun s off => putCell s off
        (cell s off + delta n)) s).length = denseSize := by
    intro offs
    induction offs with
    | nil => exact fun _ s hs => hs
    | cons off offs ih =>
      intro hoffs s hs
      obtain ⟨hoff, hrest⟩ := List.forall_mem_cons.mp hoffs
      exact ih hrest _ ((putCell_length s _ (hs ▸ hoff)).trans hs)
  unfold incr at h
  by_cases hsize : sketch.length = denseSize
  · rw [if_neg (not_not.mpr hsize)] at h
    by_cases hitem : item = []
    · rw [if_pos hitem] at h
      simp at h
    · rw [if_neg hitem] at h
      cases hfull : (offsets item).any fun off => 2 ^ 64 - 1 - delta n < cell sketch off with
      | true =>
        rw [if_pos hfull] at h
        simp at h
      | false =>
        rw [if_neg (Bool.eq_false_iff.mp hfull)] at h
        rw [← (Prod.mk.inj h).1]
        exact hfold _ (offsets_le item) sketch hsize
  · rw [if_pos hsize] at h
    simp at h

end CmsX

end Supercache

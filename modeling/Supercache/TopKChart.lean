import Supercache.Ops
import Supercache.PlainResults
import Supercache.Schedule
import Supercache.SnapshotCodecs
import Supercache.SpaceSaving

/-!
A TopK table is a Space-Saving chart, and its slots may stand in any order: what one more
observation does, which slot it takes and what the chart lists depend on the rows only.
So the store may write the table down and read it back, which sorts the slots, at every
call.
-/
namespace Supercache.TopKX

open Wire ByteMap SpaceSaving

section Guarantees

variable {t t' : Table} {item : Bytes}

def Table.chart (t : Table) : Chart Bytes := t.slots

/-- The other rows stay when one is written over. -/
theorem exists_rest {slots : List (Bytes × ℕ)} {i : ℕ} {old : Bytes × ℕ}
    (h : slots[i]? = some old) : ∃ rest : Chart Bytes, (slots : Chart Bytes) = old ::ₘ rest ∧
      ∀ e, (slots.set i e : Chart Bytes) = e ::ₘ rest := by
  obtain ⟨hlt, rfl⟩ := List.getElem?_eq_some_iff.mp h
  refine ⟨(slots.eraseIdx i : List (Bytes × ℕ)), ?_, fun e => ?_⟩
  · exact Multiset.coe_eq_coe.mpr (List.getElem_cons_eraseIdx_perm hlt).symm
  · exact Multiset.coe_eq_coe.mpr (List.set_perm_cons_eraseIdx hlt e)

theorem not_mem_items (hindex : Indexes (t.slots.map Prod.fst) t.idx)
    (hnew : t.idx[item]? = none) : item ∉ items t.chart :=
  hindex.not_mem hnew

/-- The code takes the steps of the algorithm. -/
theorem Table.Added.observes (h : t.Added item t')
    (hindex : Indexes (t.slots.map Prod.fst) t.idx) : Observes t.k item t.chart t'.chart := by
  unfold Table.chart
  cases h with
  | hit i c hslot hmax =>
    obtain ⟨rest, hold, hset⟩ := exists_rest hslot
    rw [hold, hset]
    exact .hit c rest
  | grow hnew hroom =>
    rw [← Multiset.coe_add, Multiset.add_comm]
    exact .grow _ (not_mem_items hindex hnew) hroom
  | replace m old hnew hfull hslot hmin hmax =>
    obtain ⟨rest, hold, hset⟩ := exists_rest hslot
    have habsent := not_mem_items hindex hnew
    have hcard : t.k ≤ Multiset.card (t.slots : Chart Bytes) := hfull
    rw [Table.chart, hold] at habsent
    rw [hold] at hcard
    rw [hold, hset]
    refine .replace old rest habsent hcard fun e he => ?_
    have hmem : e ∈ (t.slots : Chart Bytes) := hold ▸ Multiset.mem_cons_of_mem he
    have hless := hmin e hmem
    rw [Bool.eq_false_iff, Ne, lessSlot_iff, not_or] at hless
    exact Nat.not_lt.mp hless.1

theorem charts_of_foldlM {k : ℕ} (hpos : 0 < k) {xs : List Bytes} (t : Table)
    (h : xs.foldlM Table.add (new k) = some t) :
    t.k = k ∧ Indexes (t.slots.map Prod.fst) t.idx ∧ Charts k xs t.chart := by
  induction xs using List.reverseRecOn generalizing t with
  | nil =>
    rw [← Option.some.inj h]
    exact ⟨rfl, Indexes.empty, Charts.empty k⟩
  | append_singleton xs x ih =>
    rw [List.foldlM_append, Option.bind_eq_bind, Option.bind_eq_some_iff] at h
    obtain ⟨t₀, hrun, hlast⟩ := h
    obtain ⟨hk, hindex, hcharts⟩ := ih t₀ hrun
    have hadd : t₀.add x = some t := by simpa using hlast
    have hadded := (added_of_add (hk ▸ hpos) hindex hadd).2
    exact ⟨hadded.k_eq.trans hk, hadded.index hindex,
      hcharts.observe (hk ▸ hadded.observes hindex)⟩

/-- After any sequence of additions the table counts each item it tracks from `f` to
`f + e`, where `f` is how often the item was added and `e` is zero or the least count of a
full table, and an item that it does not track was added at most `e` times. -/
theorem table_space_saving (k : ℕ) (hk : 1 ≤ k) (xs : List Bytes) (t : Table)
    (h : xs.foldlM Table.add (new k) = some t) :
    t.slots.length ≤ k ∧ (t.slots.map Prod.fst).Nodup ∧
      (∀ (x : Bytes) (i : ℕ), t.idx[x]? = some i ↔ ∃ n, t.slots[i]? = some (x, n)) ∧
      (t.slots.map Prod.snd).sum = xs.length ∧
      (∃ e, (t.slots.length < k → e = 0) ∧
        (t.slots.length = k → (∃ row ∈ t.slots, row.2 = e) ∧ ∀ row ∈ t.slots, e ≤ row.2) ∧
        (∀ row ∈ t.slots, xs.count row.1 ≤ row.2 ∧ row.2 ≤ xs.count row.1 + e) ∧
        ∀ x ∉ t.slots.map Prod.fst, xs.count x ≤ e) ∧
      ∀ x, (xs.length : ℚ) / k < xs.count x → x ∈ t.slots.map Prod.fst := by
  obtain ⟨hk', hindex, hcharts⟩ := charts_of_foldlM hk t h
  refine ⟨hcharts.bound, hindex.nodup, fun x i => ?_, hcharts.total, ⟨slack k t.chart, ?_, ?_, ?_,
    hcharts.untracked⟩, fun x hx => ?_⟩
  · rw [hindex x i, List.getElem?_map, Option.map_eq_some_iff]
    constructor
    · rintro ⟨row, hrow, rfl⟩
      exact ⟨row.2, hrow⟩
    · rintro ⟨n, hrow⟩
      exact ⟨(x, n), hrow, rfl⟩
  · exact fun hroom => slack_of_room hroom
  · intro hfull
    rw [slack_of_full (c := t.chart) hfull.ge]
    have hne : t.chart ≠ 0 := by
      intro hempty
      have hlen : t.slots.length = 0 := congrArg Multiset.card hempty
      omega
    exact ⟨exists_least hne, fun row hrow => least_le hrow⟩
  · exact fun row hrow => ⟨hcharts.low row hrow, hcharts.high row hrow⟩
  · refine hcharts.heavy ?_
    have hkpos : (0 : ℚ) < k := by exact_mod_cast hk
    rw [div_lt_iff₀ hkpos, mul_comm] at hx
    exact_mod_cast hx

/-- Three items compete for two slots. -/
theorem table_space_saving_two : ∃ t : Table,
    ([[1], [2], [1], [3], [1]] : List Bytes).foldlM Table.add (new 2) = some t ∧
      [1] ∈ t.slots.map Prod.fst := by
  have hrun :
      (([[1], [2], [1], [3], [1]] : List Bytes).foldlM Table.add (new 2)).isSome = true := by
    decide +kernel
  obtain ⟨t, ht⟩ := Option.isSome_iff_exists.mp hrun
  refine ⟨t, ht, (table_space_saving 2 (by decide) _ t ht).2.2.2.2.2 [1] ?_⟩
  have hcount : List.count [1] ([[1], [2], [1], [3], [1]] : List Bytes) = 3 := by decide
  rw [hcount]
  norm_num

end Guarantees

section Reordered

variable {t u : Table} {item : Bytes}

theorem lessRow_iff (a b : Bytes × ℕ) :
    lessRow a b = true ↔ OrderDual.toDual a.2 < OrderDual.toDual b.2 ∨
      OrderDual.toDual a.2 = OrderDual.toDual b.2 ∧ compare a.1 b.1 = .lt := by
  simp [lessRow]

theorem list_eq_of_perm (hnodup : (t.slots.map Prod.fst).Nodup) (hperm : t.slots.Perm u.slots) :
    t.list = u.list := by
  have hless : ∀ a b, True → True → _ := fun a b _ _ => lessRow_iff a b
  exact StrictSort.sort_eq_of_perm (StrictSort.orders_of_lex hless) (fun _ _ => trivial)
    (StrictSort.comparable_of_lex hless (fun _ _ => trivial) hnodup) hperm

/-- The victim does not depend on where the slots stand. -/
theorem victim_eq_of_perm {slots slots' : List (Bytes × ℕ)} (hpos : 0 < slots.length)
    (hnodup : (slots.map Prod.fst).Nodup) (hperm : slots.Perm slots') :
    slots[minSlot slots]? = slots'[minSlot slots']? := by
  have hnodup' := (hperm.map Prod.fst).nodup_iff.mp hnodup
  obtain ⟨old, hold, hmin⟩ := minSlot_spec hpos hnodup
  obtain ⟨old', hold', hmin'⟩ := minSlot_spec (hperm.length_eq ▸ hpos) hnodup'
  have hmem := List.mem_of_getElem? hold
  have hmem' := hperm.mem_iff.mpr (List.mem_of_getElem? hold')
  rw [hold, hold', Option.some.injEq]
  by_cases hname : old.1 = old'.1
  · exact List.inj_on_of_nodup_map hnodup hmem hmem' hname
  · have hless : ∀ a b, True → True → _ := fun a b _ _ => lessSlot_iff a b
    rcases StrictSort.less_or_less hless trivial trivial hname with hlt | hlt
    · exact absurd (hlt.symm.trans (hmin' old (hperm.mem_iff.mp hmem))) (by simp)
    · exact absurd (hlt.symm.trans (hmin old' hmem')) (by simp)

theorem perm_set {slots slots' : List (Bytes × ℕ)} {i j : ℕ} {old : Bytes × ℕ}
    (hperm : slots.Perm slots') (hi : slots[i]? = some old) (hj : slots'[j]? = some old)
    (e : Bytes × ℕ) : (slots.set i e).Perm (slots'.set j e) := by
  obtain ⟨rest, hold, hset⟩ := exists_rest hi
  obtain ⟨rest', hold', hset'⟩ := exists_rest hj
  have hrest : rest = rest' := by
    rw [← Multiset.cons_inj_right old, ← hold, ← hold']
    exact Multiset.coe_eq_coe.mpr hperm
  rw [← Multiset.coe_eq_coe, hset, hset', hrest]

/-- One more observation has the same rows or is refused alike. -/
theorem add_perm (hindex : Indexes (t.slots.map Prod.fst) t.idx)
    (hindex' : Indexes (u.slots.map Prod.fst) u.idx) (hpos : 0 < t.k) (hk : t.k = u.k)
    (hperm : t.slots.Perm u.slots) (item : Bytes) :
    Option.Rel (fun t' u' => t'.slots.Perm u'.slots) (t.add item) (u.add item) := by
  have hlen := hperm.length_eq
  by_cases hne : item = []
  · simp only [Table.add, hne, if_true]
    exact .none
  cases hi : t.idx[item]? with
  | some i =>
    obtain ⟨c, hslot⟩ := slot_of_index hindex hi
    obtain ⟨j, hslot'⟩ := List.mem_iff_getElem?.mp (hperm.mem_iff.mp (List.mem_of_getElem? hslot))
    have hj : u.idx[item]? = some j := by
      rw [hindex' item j, List.getElem?_map, hslot']
      rfl
    rw [add_of_hit hne hi hslot, add_of_hit hne hj hslot']
    split
    · exact .none
    · exact .some (perm_set hperm hslot hslot' _)
  | none =>
    have hnew : u.idx[item]? = none := by
      rw [Option.eq_none_iff_forall_ne_some]
      intro j hj
      have hmem := List.mem_of_getElem? ((hindex' item j).mp hj)
      exact hindex.not_mem hi ((hperm.map Prod.fst).mem_iff.mpr hmem)
    by_cases hroom : t.slots.length < t.k
    · rw [add_of_room hne hi hroom, add_of_room hne hnew (by omega)]
      exact .some (hperm.append_right _)
    · have hsome : 0 < t.slots.length := by omega
      obtain ⟨old, hslot, -⟩ := minSlot_spec hsome hindex.nodup
      have hslot' := (victim_eq_of_perm hsome hindex.nodup hperm).symm.trans hslot
      rw [add_of_full hne hi (by omega) hslot, add_of_full hne hnew (by omega) hslot']
      split
      · exact .none
      · exact .some (perm_set hperm hslot hslot' _)

end Reordered

section Stored

open Store Schedule

def tableOf (k : ℕ) : Option Bytes → Option Table
  | none => some (new k)
  | some blob => decode blob k

def Represents (k : ℕ) (t : Table) (cur : Option Bytes) : Prop :=
  ∃ u, tableOf k cur = some u ∧ u.slots.Perm t.slots

theorem represents_encode {t : Table} (h : t.Valid) {k : ℕ} (hk : t.k = k) :
    Represents k t (some t.encode) := by
  subst hk
  obtain ⟨u, hdecode, hslots⟩ := decode_encode h h.pos h.bound
  exact ⟨u, hdecode, hslots ▸ List.perm_insertionSort _ _⟩

theorem valid_tableOf {k : ℕ} (hk : 0 < k) {cur : Option Bytes} {u : Table}
    (h : tableOf k cur = some u) : u.Valid ∧ u.k = k := by
  cases cur with
  | none =>
    rw [← Option.some.inj h]
    exact ⟨valid_new hk, rfl⟩
  | some blob => exact valid_of_decode h

variable {k : ℕ} {t : Table} {item : Bytes} {cur : Option Bytes}

theorem topkApply_eq (h : tableOf k cur = some t) (item : Bytes) (maxValue : ℤ) :
    topkApply item k maxValue cur =
      (t.add item).elim (.refuse (false, false)) fun t' => commitWithin maxValue t'.encode := by
  have hbind : (tableOf k cur).bind (fun t => t.add item) = t.add item := by
    rw [h]
    rfl
  have htab : topkApply item k maxValue cur =
      ((tableOf k cur).bind fun t => t.add item).elim (.refuse (false, false))
        fun t' => commitWithin maxValue t'.encode := by
    unfold topkApply
    cases cur with
    | none => cases hadd : (some (new k)).bind fun t => t.add item <;> simp [tableOf, hadd]
    | some blob => cases hadd : (decode blob k).bind fun t => t.add item <;> simp [tableOf, hadd]
  rw [htab, hbind]

/-- Decoding, adding and encoding add to the table that the bytes represent. -/
theorem topkApply_spec (hvalid : t.Valid) (htk : t.k = k) (hrep : Represents k t cur)
    (hitem : item.length < 2 ^ 64) (maxValue : ℤ) :
    (t.add item = none ∧ topkApply item k maxValue cur = .refuse (false, false)) ∨
      topkApply item k maxValue cur = .refuse (false, true) ∨
      ∃ t' blob, t.add item = some t' ∧ Represents k t' (some blob) ∧
        topkApply item k maxValue cur = .commit blob fun still => (still, false) := by
  obtain ⟨u, hu, hperm⟩ := hrep
  have hpos : 0 < k := htk ▸ hvalid.pos
  obtain ⟨huvalid, huk⟩ := valid_tableOf hpos hu
  have hadd := add_perm huvalid.index hvalid.index huvalid.pos (huk.trans htk.symm) hperm item
  rw [topkApply_eq hu]
  cases hua : u.add item with
  | none =>
    rw [hua] at hadd
    cases hta : t.add item with
    | none => exact .inl ⟨rfl, rfl⟩
    | some t' =>
      rw [hta] at hadd
      cases hadd
  | some u' =>
    rw [hua] at hadd
    cases hta : t.add item with
    | none =>
      rw [hta] at hadd
      cases hadd
    | some t' =>
      rw [hta] at hadd
      cases hadd with
      | some hperm' =>
      obtain ⟨huvalid', huk'⟩ := huvalid.add hitem hua
      obtain ⟨w, hw, hwperm⟩ := represents_encode huvalid' (huk'.trans huk)
      simp only [Option.elim_some, commitWithin]
      split
      · exact .inr (.inl rfl)
      · exact .inr (.inr ⟨t', u'.encode, rfl, ⟨w, hw, hwperm.trans hperm'⟩, rfl⟩)

/-- A live entry with the rows of the table. -/
structure Holds (k : ℕ) (t : Table) (it : LruItem) : Prop where
  live : it.entry.isTombstone = false
  flag : it.entry.has flagTopK = true
  rows : Represents k t (some it.entry.value)

/-- An add to the stored table adds to the chart. -/
theorem holds_topkAdd (hk : 1 ≤ k) (hvalid : t.Valid) (htk : t.k = k) {key : Bytes} {version : ℕ}
    {expireAt maxValue : ℤ} {env : Env} {old : Option LruItem}
    (hsees : Sees flagTopK env.now old cur)
    (hrep : Represents k t cur) (hne : item ≠ []) (hitem : item.length < 2 ^ 64) {still : Bool}
    (hfits : (topkAdd key item version expireAt k maxValue env old).ret still ≠ (false, true)) :
    ∀ it ∈ (topkAdd key item version expireAt k maxValue env old).act.result old,
      Holds k ((t.add item).getD t) it := by
  intro it hit
  simp only [topkAdd, Nat.not_lt.mpr hk, hne, if_false] at hfits hit
  rcases topkApply_spec hvalid htk hrep hitem maxValue with
    ⟨hadd, hop⟩ | hop | ⟨t', blob, hadd, hrep', hop⟩
  · obtain ⟨-, hkeep⟩ := mutatePlain_of_refuse key version expireAt (false, false) hsees hop
    obtain ⟨rfl, rfl⟩ := hkeep it hit
    rw [hadd]
    cases hsees with
    | live a hexp ht hhas => exact ⟨ht, hhas, hrep⟩
  · obtain ⟨hret, -⟩ := mutatePlain_of_refuse key version expireAt (false, false) hsees hop
    rw [hret] at hfits
    exact absurd rfl hfits
  · obtain ⟨-, it', hit', hvalue, hflags⟩ :=
      mutatePlain_of_commit key version expireAt (false, false) hsees hop
    rw [hit'] at hit
    obtain rfl := Option.some.inj hit
    rw [hadd]
    refine ⟨?_, ?_, hvalue ▸ hrep'⟩
    · change ((entry it').flags &&& flagTombstone != 0) = false
      rw [hflags]
      rfl
    · change ((entry it').flags &&& flagTopK != 0) = true
      rw [hflags]
      rfl

/-- A `TopKAdd` call but for its name and the size of the table. -/
structure Observation where
  item : Bytes
  version : ℕ
  expireAt : ℤ
  maxValue : ℤ
  now : ℤ

def Observation.op (key : Bytes) (k : ℕ) (o : Observation) : Op :=
  ⟨o.now, key, .plain (.topkAdd o.item o.version o.expireAt k o.maxValue)⟩

def observe (key : Bytes) (k : ℕ) (m : Mem) (o : Observation) : Mem := (step m (o.op key k)).1

def Table.observe (t : Table) (o : Observation) : Table := (t.add o.item).getD t

def tooLarge : Ret → Bool
  | .pair (applied, tooLarge) => !applied && tooLarge
  | _ => false

theorem Table.Valid.observe (h : t.Valid) {o : Observation} (ho : o.item.length < 2 ^ 64) :
    (t.observe o).Valid ∧ (t.observe o).k = t.k := by
  unfold Table.observe
  cases hadd : t.add o.item with
  | none => exact ⟨h, rfl⟩
  | some t' => exact h.add ho hadd

variable {key : Bytes} {m : Mem}

theorem holds_observe (hvalid : t.Valid) (htk : t.k = k) {o : Observation}
    (hsees : Sees flagTopK o.now (m.lookup key) cur) (hrep : Represents k t cur)
    (hne : o.item ≠ []) (hitem : o.item.length < 2 ^ 64)
    (hfits : tooLarge (step m (o.op key k)).2 = false) :
    ∀ it ∈ (observe key k m o).lookup key, Holds k (t.observe o) it := by
  have hret : (topkAdd key o.item o.version o.expireAt k o.maxValue (m.env o.now)
      (m.lookup key)).ret ((observe key k m o).lookup key).isSome ≠ (false, true) := by
    intro heq
    have hlarge : tooLarge (step m (o.op key k)).2 = tooLarge (.pair (false, true)) :=
      congrArg (fun p => tooLarge (.pair p)) heq
    rw [hfits] at hlarge
    simp [tooLarge] at hlarge
  exact m.forall_lookup_perform o.now key
    (holds_topkAdd (htk ▸ hvalid.pos) hvalid htk hsees hrep hne hitem hret)

/-- What is stored keeps up with the table in memory. -/
theorem holds_run (hvalid : t.Valid) (htk : t.k = k) (hholds : ∀ it ∈ m.lookup key, Holds k t it)
    {os : List Observation}
    (hlive : Along (observe key k) (fun m o => m.live key o.now = true) m os)
    (hitems : ∀ o ∈ os, o.item ≠ [] ∧ o.item.length < 2 ^ 64)
    (hfits : ∀ a ∈ answers m (os.map (Observation.op key k)), tooLarge a = false) :
    (os.foldl Table.observe t).Valid ∧ ∀ it ∈ (run m (os.map (Observation.op key k))).lookup key,
        Holds k (os.foldl Table.observe t) it := by
  induction os generalizing m t with
  | nil => exact ⟨hvalid, hholds⟩
  | cons o os ih =>
    obtain ⟨⟨hne, hitem⟩, hitems⟩ := List.forall_mem_cons.mp hitems
    obtain ⟨hfit, hfits⟩ := List.forall_mem_cons.mp hfits
    obtain ⟨it, hit, hexp⟩ := Memory.live_iff.mp hlive.1
    have hstored := hholds it hit
    have hsees : Sees flagTopK o.now (m.lookup key) (some it.entry.value) := by
      rw [hit]
      exact .live it hexp hstored.live hstored.flag
    obtain ⟨hvalid', htk'⟩ := hvalid.observe hitem
    exact ih hvalid' (htk'.trans htk)
      (holds_observe hvalid htk hsees hstored.rows hne hitem hfit) hlive.2 hitems hfits

theorem topkList_of_holds {it : LruItem} (hit : m.lookup key = some it) {now : ℤ}
    (hexp : it.entry.expired now = false) (hholds : Holds k t it)
    (hnodup : (t.slots.map Prod.fst).Nodup) :
    (step m ⟨now, key, .plain (.topkList k)⟩).2 = .chart (some t.list) := by
  obtain ⟨u, hdecode, hperm⟩ := hholds.rows
  change Ret.chart ((topkList k (m.env now) (m.lookup key)).ret _) = _
  have hlist : u.list = t.list :=
    list_eq_of_perm ((hperm.map Prod.fst).nodup_iff.mpr hnodup) hperm
  have hentry : Stored.entry it = it.entry := rfl
  have hdecode' : decode it.entry.value k = some u := hdecode
  have henv : (m.env now).now = now := rfl
  simp only [topkList, readLive, hit, hentry, henv, hexp, hholds.live, hholds.flag, Plan.skip,
    hdecode', hlist, Bool.false_eq_true, Bool.not_true, or_self, if_false, Option.map_some]

/-- The store lists what a table in memory lists after the same observations, though at every
call it reads the table from its bytes and writes it back in another order. The victim is
the same in every order, and the bytes of a table have its rows. -/
theorem topkList_eq_list (k : ℕ) (hk : 1 ≤ k) (m : Mem) (key : Bytes) (first : Observation)
    (rest : List Observation) (hstart : m.live key first.now = false)
    (hlive : Along (observe key k) (fun m o => m.live key o.now = true)
      (observe key k m first) rest)
    (hitems : ∀ o ∈ first :: rest, o.item ≠ [] ∧ o.item.length < 2 ^ 64)
    (hfits : ∀ a ∈ answers m ((first :: rest).map (Observation.op key k)), tooLarge a = false)
    (now : ℤ)
    (hnow : (run m ((first :: rest).map (Observation.op key k))).live key now = true) :
    (step (run m ((first :: rest).map (Observation.op key k)))
        ⟨now, key, .plain (.topkList k)⟩).2 =
      .chart (some ((first :: rest).foldl Table.observe (new k)).list) ∧
    (∀ slots slots' : List (Bytes × ℕ), slots ≠ [] → (slots.map Prod.fst).Nodup →
      slots.Perm slots' → slots[minSlot slots]? = slots'[minSlot slots']?) ∧
    ∀ t : Table, t.Valid → ∀ k', 1 ≤ k' → t.slots.length ≤ k' →
      ∃ t', decode t.encode k' = some t' ∧ t'.slots.Perm t.slots := by
  refine ⟨?_, fun slots slots' hne => victim_eq_of_perm (List.length_pos_iff.mpr hne),
    fun t ht k' hpos hroom => ?_⟩
  · have hsees : Sees flagTopK first.now (m.lookup key) none := by
      cases hit : m.lookup key with
      | none => exact .missing
      | some it => exact .lapsed it (by simpa [Memory.live, hit] using hstart)
    obtain ⟨⟨hne, hitem⟩, hitems⟩ := List.forall_mem_cons.mp hitems
    obtain ⟨hfit, hfits⟩ := List.forall_mem_cons.mp hfits
    have hnew : (new k).Valid := valid_new hk
    obtain ⟨hvalid, htk⟩ := hnew.observe hitem
    obtain ⟨hvalid', hholds⟩ := holds_run hvalid htk
      (holds_observe hnew rfl hsees ⟨new k, rfl, .refl _⟩ hne hitem hfit) hlive hitems hfits
    obtain ⟨it, hit, hexp⟩ := Memory.live_iff.mp hnow
    exact topkList_of_holds hit hexp (hholds it hit) hvalid'.index.nodup
  · obtain ⟨t', hdecode, hslots⟩ := decode_encode ht hpos hroom
    exact ⟨t', hdecode, hslots ▸ List.perm_insertionSort _ _⟩

def shared : List Observation :=
  [⟨[2], 1, 0, 0, 1⟩, ⟨[2], 1, 0, 0, 2⟩, ⟨[3], 1, 9, 100, 3⟩]

/-- The stored table and the chart after all calls. -/
theorem topkList_eq_list_shared :
    (step (run (Memory.newMemory 0 60) (((⟨[1], 1, 0, 0, 0⟩ : Observation) :: shared).map
        (Observation.op [7] 2))) ⟨4, [7], .plain (.topkList 2)⟩).2 =
      .chart (some (((⟨[1], 1, 0, 0, 0⟩ : Observation) :: shared).foldl Table.observe
        (new 2)).list) :=
  (topkList_eq_list 2 (by decide) (Memory.newMemory 0 60) [7] ⟨[1], 1, 0, 0, 0⟩ shared
    (by decide +kernel) (by decide +kernel) (by decide +kernel) (by decide +kernel) 4
    (by decide +kernel)).1

end Stored

end Supercache.TopKX

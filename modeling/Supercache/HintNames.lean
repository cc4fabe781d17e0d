import Supercache.Hints

/-!
When the identities of hints keep names apart. An identity joins the keyspace, the key and, for an
item-add of a Bloom filter, the item with zero bytes, which names and items may have themselves.
Two names stay apart if neither, written out with its zero byte, is followed by a zero byte in the
other.
-/
namespace Supercache.Hints

open Wire ByteMap

inductive KeyError where
  | emptyKeyspace
  | emptyKey
  | keyTooLarge
deriving DecidableEq

def validateKey (maxKeyLen : ℤ) (ksName key : Bytes) : Except KeyError Unit :=
  if ksName = [] then .error .emptyKeyspace
  else if key = [] then .error .emptyKey
  else if maxKeyLen < key.length then .error .keyTooLarge
  else .ok ()

namespace FanoutHint

def isBloomAdd (h : FanoutHint) : Bool := h.ent.has flagBloomAdd

def name (h : FanoutHint) : Bytes := h.ks ++ 0 :: h.key

theorem id_of_add {h : FanoutHint} (hadd : h.isBloomAdd = true) :
    h.id = h.name ++ 0 :: h.ent.value := by
  have hflag : h.ent.has flagBloomAdd = true := hadd
  rw [id, hintID, if_pos hflag, name, List.append_assoc, List.cons_append]

theorem id_of_not_add {h : FanoutHint} (hadd : h.isBloomAdd = false) : h.id = h.name := by
  have hflag : ¬ h.ent.has flagBloomAdd = true := Bool.eq_false_iff.mp hadd
  rw [id, hintID, if_neg hflag, name]

/-- The engine takes the name, and the item if there is one. -/
def Accepted (maxKeyLen : ℤ) (h : FanoutHint) : Prop :=
  validateKey maxKeyLen h.ks h.key = .ok () ∧
    (h.isBloomAdd = true → h.ent.value ≠ [] ∧ (h.ent.value.length : ℤ) ≤ maxKeyLen)

end FanoutHint

/-- Hints for one name that are both item-adds of one item, or both no item-adds. -/
def Alike (a b : FanoutHint) : Prop :=
  a.ks = b.ks ∧ a.key = b.key ∧ a.isBloomAdd = b.isBloomAdd ∧
    (a.isBloomAdd = true → a.ent.value = b.ent.value)

/-- Neither hint is queued or popped in place of the other, unless they are alike. -/
structure Apart (a b : FanoutHint) : Prop where
  alike : a.id = b.id → Alike a b
  queued : ¬ Alike a b → ∀ (q : PeerHintQ) (hintMax : ℕ),
    (q.enqueue hintMax b).items[a.id]? ≠ some b
  popped : ¬ Alike a b → ∀ q : PeerHintQ, (q.pop b.id).items[a.id]? = q.items[a.id]?

/-- An item-add for the first name can be taken for a hint for the second. -/
def Continues (maxKeyLen : ℤ) (first second : Bytes) : Prop :=
  ∃ rest : Bytes, second = first ++ 0 :: rest ∧
    (rest ≠ [] ∧ (rest.length : ℤ) ≤ maxKeyLen ∨ rest = [] ∧ 2 ≤ maxKeyLen)

/-- Two different names that hints may mistake for each other. -/
def Overlap (maxKeyLen : ℤ) (ks₁ key₁ ks₂ key₂ : Bytes) : Prop :=
  ks₁ ++ 0 :: key₁ = ks₂ ++ 0 :: key₂ ∨
    Continues maxKeyLen (ks₁ ++ 0 :: key₁) (ks₂ ++ 0 :: key₂) ∨
    Continues maxKeyLen (ks₂ ++ 0 :: key₂) (ks₁ ++ 0 :: key₁)

section Identities

variable {a b : FanoutHint} {maxKeyLen : ℤ}

/-- Hints that are not alike are apart if their identities differ. -/
theorem apart_of (h : a.id = b.id → Alike a b) : Apart a b where
  alike := h
  queued hnot q hintMax hqueued := by
    have hid := ((q.enqueue hintMax b).filed a.id b hqueued).2
    exact hnot (h hid.symm)
  popped hnot q := by
    have hne : b.id ≠ a.id := fun hid => hnot (h hid.symm)
    exact (getElem?_erase q.items b.id a.id).trans (if_neg hne)

/-- Within one name identities are unambiguous. -/
theorem alike_of_name_eq (hks : a.ks = b.ks) (hkey : a.key = b.key) (hid : a.id = b.id) :
    Alike a b := by
  have hname : a.name = b.name := by rw [FanoutHint.name, FanoutHint.name, hks, hkey]
  have hlonger : ∀ s v : Bytes, s ++ 0 :: v ≠ s := by
    intro s v heq
    have hlen := congrArg List.length heq
    simp at hlen
  cases ha : a.isBloomAdd with
  | true =>
    cases hb : b.isBloomAdd with
    | true =>
      rw [FanoutHint.id_of_add ha, FanoutHint.id_of_add hb, hname] at hid
      refine ⟨hks, hkey, ha.trans hb.symm, fun _ => ?_⟩
      exact (List.cons.inj (List.append_cancel_left hid)).2
    | false =>
      rw [FanoutHint.id_of_add ha, FanoutHint.id_of_not_add hb, hname] at hid
      exact absurd hid (hlonger _ _)
  | false =>
    cases hb : b.isBloomAdd with
    | true =>
      rw [FanoutHint.id_of_not_add ha, FanoutHint.id_of_add hb, hname] at hid
      exact absurd hid.symm (hlonger _ _)
    | false => exact ⟨hks, hkey, ha.trans hb.symm, fun h => absurd (ha.symm.trans h) (by simp)⟩

/-- Two item-adds with one identity: the names are the same, or one continues the other. -/
theorem continues_of_adds {s t v w : Bytes} (h : s ++ 0 :: v = t ++ 0 :: w) (hne : w ≠ [])
    (hlen : (v.length : ℤ) ≤ maxKeyLen) (hst : s.length < t.length) : Continues maxKeyLen s t := by
  obtain ⟨c, hc⟩ : s <+: t :=
    List.prefix_of_prefix_length_le (List.prefix_append s (0 :: v)) (h ▸ List.prefix_append t _)
      hst.le
  have hrest : 0 :: v = c ++ 0 :: w := by
    rw [← hc, List.append_assoc] at h
    exact List.append_cancel_left h
  cases c with
  | nil =>
    rw [List.append_nil] at hc
    rw [hc] at hst
    exact absurd hst (lt_irrefl _)
  | cons x rest =>
    obtain ⟨rfl, -⟩ := List.cons.inj hrest
    have hv : v = rest ++ 0 :: w := (List.cons.inj hrest).2
    have hlenv := congrArg List.length hv
    have hw : 0 < w.length := List.length_pos_iff.mpr hne
    rw [List.length_append, List.length_cons] at hlenv
    refine ⟨rest, hc.symm, ?_⟩
    by_cases hrest' : rest = []
    · refine Or.inr ⟨hrest', ?_⟩
      rw [hrest', List.length_nil] at hlenv
      omega
    · exact Or.inl ⟨hrest', by omega⟩

/-- Hints with one identity are for one name, or for two that overlap. -/
theorem overlap_of_id_eq (ha : a.Accepted maxKeyLen) (hb : b.Accepted maxKeyLen)
    (hid : a.id = b.id) : Overlap maxKeyLen a.ks a.key b.ks b.key := by
  cases hadd : a.isBloomAdd with
  | true =>
    obtain ⟨hane, halen⟩ := ha.2 hadd
    rw [FanoutHint.id_of_add hadd] at hid
    cases hbdd : b.isBloomAdd with
    | true =>
      obtain ⟨hbne, hblen⟩ := hb.2 hbdd
      rw [FanoutHint.id_of_add hbdd] at hid
      rcases Nat.lt_trichotomy a.name.length b.name.length with hlt | heq | hgt
      · exact Or.inr (Or.inl (continues_of_adds hid hbne halen hlt))
      · exact Or.inl (List.append_inj_left hid heq)
      · exact Or.inr (Or.inr (continues_of_adds hid.symm hane hblen hgt))
    | false =>
      rw [FanoutHint.id_of_not_add hbdd] at hid
      exact Or.inr (Or.inl ⟨a.ent.value, hid.symm, Or.inl ⟨hane, halen⟩⟩)
  | false =>
    rw [FanoutHint.id_of_not_add hadd] at hid
    cases hbdd : b.isBloomAdd with
    | true =>
      obtain ⟨hbne, hblen⟩ := hb.2 hbdd
      rw [FanoutHint.id_of_add hbdd] at hid
      exact Or.inr (Or.inr ⟨b.ent.value, hid, Or.inl ⟨hbne, hblen⟩⟩)
    | false =>
      rw [FanoutHint.id_of_not_add hbdd] at hid
      exact Or.inl hid

def hintFor (ks key : Bytes) (ent : Entry) : FanoutHint := ⟨⟨[], []⟩, ks, key, ent, 0⟩

theorem not_add_plain (ks key : Bytes) : (hintFor ks key ⟨[], 1, 0, 0⟩).isBloomAdd = false := by
  have hplain : ((0 : ℕ) &&& flagBloomAdd != 0) = false := by decide
  exact hplain

theorem accepted_plain {ks key : Bytes} (h : validateKey maxKeyLen ks key = .ok ()) :
    (hintFor ks key ⟨[], 1, 0, 0⟩).Accepted maxKeyLen :=
  ⟨h, fun hadd => absurd hadd (Bool.eq_false_iff.mp (not_add_plain ks key))⟩

theorem accepted_add {ks key item : Bytes} (h : validateKey maxKeyLen ks key = .ok ())
    (hne : item ≠ []) (hlen : (item.length : ℤ) ≤ maxKeyLen) :
    (hintFor ks key ⟨item, 1, 0, flagBloomAdd⟩).Accepted maxKeyLen := ⟨h, fun _ => ⟨hne, hlen⟩⟩

theorem id_plain (ks key : Bytes) : (hintFor ks key ⟨[], 1, 0, 0⟩).id = ks ++ 0 :: key :=
  FanoutHint.id_of_not_add (not_add_plain ks key)

theorem id_add (ks key item : Bytes) :
    (hintFor ks key ⟨item, 1, 0, flagBloomAdd⟩).id = ks ++ 0 :: key ++ 0 :: item := by
  have hadd : (flagBloomAdd &&& flagBloomAdd != 0) = true := by decide
  exact FanoutHint.id_of_add hadd

/-- Where one name continues another there are hints for the two with one identity. -/
theorem exists_id_eq {ks₁ key₁ ks₂ key₂ : Bytes}
    (h₁ : validateKey maxKeyLen ks₁ key₁ = .ok ()) (h₂ : validateKey maxKeyLen ks₂ key₂ = .ok ())
    (h : Continues maxKeyLen (ks₁ ++ 0 :: key₁) (ks₂ ++ 0 :: key₂)) :
    ∃ e₁ e₂, (hintFor ks₁ key₁ e₁).Accepted maxKeyLen ∧ (hintFor ks₂ key₂ e₂).Accepted maxKeyLen ∧
      (hintFor ks₁ key₁ e₁).id = (hintFor ks₂ key₂ e₂).id := by
  obtain ⟨rest, hrest, ⟨hne, hlen⟩ | ⟨rfl, htwo⟩⟩ := h
  · -- the rest is an item that the first name takes
    refine ⟨⟨rest, 1, 0, flagBloomAdd⟩, ⟨[], 1, 0, 0⟩, accepted_add h₁ hne hlen,
      accepted_plain h₂, ?_⟩
    rw [id_add, id_plain, hrest]
  · -- the second name ends with the zero byte, which may as well begin the item
    have hone : (([1] : Bytes).length : ℤ) ≤ maxKeyLen := by
      simp only [List.length_cons, List.length_nil]
      omega
    refine ⟨⟨[0, 1], 1, 0, flagBloomAdd⟩, ⟨[1], 1, 0, flagBloomAdd⟩,
      accepted_add h₁ (by simp) (by simpa using htwo), accepted_add h₂ (by simp) hone, ?_⟩
    rw [id_add, id_add, hrest, List.append_assoc _ [0]]
    rfl

end Identities

/-- The hints for two names that the engine takes are kept apart exactly if the names are the same
or do not overlap. -/
theorem hint_names_apart_iff (maxKeyLen : ℤ) (ks₁ key₁ ks₂ key₂ : Bytes)
    (h₁ : validateKey maxKeyLen ks₁ key₁ = .ok ()) (h₂ : validateKey maxKeyLen ks₂ key₂ = .ok ()) :
    (∀ a b : FanoutHint, a.ks = ks₁ → a.key = key₁ → b.ks = ks₂ → b.key = key₂ →
      a.Accepted maxKeyLen → b.Accepted maxKeyLen → Apart a b) ↔
    (ks₁ = ks₂ ∧ key₁ = key₂) ∨ ¬ Overlap maxKeyLen ks₁ key₁ ks₂ key₂ := by
  constructor
  · intro hapart
    by_contra hnot
    obtain ⟨hne, hover⟩ := not_or.mp hnot
    -- two accepted hints with one identity would have one name
    have hclash : ∀ e₁ e₂, (hintFor ks₁ key₁ e₁).Accepted maxKeyLen →
        (hintFor ks₂ key₂ e₂).Accepted maxKeyLen →
        (hintFor ks₁ key₁ e₁).id ≠ (hintFor ks₂ key₂ e₂).id := by
      intro e₁ e₂ ha hb hid
      have halike := (hapart _ _ rfl rfl rfl rfl ha hb).alike hid
      exact hne ⟨halike.1, halike.2.1⟩
    rcases not_not.mp hover with heq | hfirst | hsecond
    · refine hclash _ _ (accepted_plain h₁) (accepted_plain h₂) ?_
      rw [id_plain, id_plain, heq]
    · obtain ⟨e₁, e₂, ha, hb, hid⟩ := exists_id_eq h₁ h₂ hfirst
      exact hclash e₁ e₂ ha hb hid
    · obtain ⟨e₂, e₁, hb, ha, hid⟩ := exists_id_eq h₂ h₁ hsecond
      exact hclash e₁ e₂ ha hb hid.symm
  · rintro (⟨rfl, rfl⟩ | hnot) a b haks hakey hbks hbkey ha hb
    · exact apart_of (alike_of_name_eq (haks.trans hbks.symm) (hakey.trans hbkey.symm))
    · refine apart_of fun hid => absurd (overlap_of_id_eq ha hb hid) ?_
      rw [haks, hakey, hbks, hbkey]
      exact hnot

/-- Two keys of one keyspace without zero bytes. -/
theorem hint_names_apart_letters :
    validateKey 512 [107] [97] = .ok () ∧ validateKey 512 [107] [98] = .ok () ∧
      ¬ Overlap 512 [107] [97] [107] [98] ∧
      Apart (hintFor [107] [97] ⟨[120], 1, 0, flagBloomAdd⟩)
      (hintFor [107] [98] ⟨[], 2, 0, 0⟩) := by
  have hover : ¬ Overlap 512 [107] [97] [107] [98] := by
    rintro (h | ⟨rest, h, -⟩ | ⟨rest, h, -⟩) <;> simp at h
  refine ⟨rfl, rfl, hover, ?_⟩
  exact (hint_names_apart_iff 512 [107] [97] [107] [98] rfl rfl).mpr (Or.inr hover) _ _ rfl rfl rfl
    rfl (accepted_add rfl (by simp) (by simp)) ⟨rfl, fun h => absurd h (by decide)⟩

/-- An item-add for one key and a delete of another key of the same keyspace, whose name has a zero
byte, have one identity, and the delete takes the place of the item-add. -/
theorem delete_replaces_add :
    let add := hintFor [107] [97] ⟨[120], 1, 0, flagBloomAdd⟩
    let del := hintFor [107] [97, 0, 120] ⟨[], 2, 0, flagTombstone⟩
    validateKey 512 add.ks add.key = .ok () ∧ validateKey 512 del.ks del.key = .ok () ∧
      add.id = del.id ∧ add.key ≠ del.key ∧
      ((PeerHintQ.empty.enqueue 4096 add).enqueue 4096 del).items[add.id]? = some del := by
  decide +kernel

end Supercache.Hints

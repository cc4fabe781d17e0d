import Supercache.Memory

/-!
The verbs every mode shares: reading an entry or its version, the unconditional
and the versioned writes, the negative entry, and the two deletes. A versioned
delete leaves a tombstone that turns away everything not newer than itself
until it expires.
-/
namespace Supercache.Store

open Wire Lru

def inPlace : WriteMode := ⟨false, true, true⟩

def clamped : WriteMode := ⟨true, true, true⟩

variable {α : Type} [Stored α]

def touch (key : Bytes) (a : α) (front : Bool) : Act α :=
  match flush a with
  | (a, true) => .write (entryCost key (entry a)) a ⟨true, front, false⟩
  | (a, false) => .amend a front

section

variable (key : Bytes) (a : α) (front : Bool)

theorem touch_eq : touch key a front =
    if (flush a).2 then .write (entryCost key (entry (flush a).1)) (flush a).1 ⟨true, front, false⟩
    else .amend (flush a).1 front := by
  unfold touch
  rcases flush a with ⟨a, _ | _⟩ <;> rfl

theorem result_touch :
    (touch key a front).result (some a) = some (flush a).1 := by
  unfold touch
  split <;> simp_all [Act.result]

theorem evicts_touch : (touch key a front).evicts = false := by
  unfold touch
  split <;> rfl

end

def get (key : Bytes) : Verb α (Option Entry) := fun env old =>
  match old with
  | none => ⟨.keep, .miss, fun _ => none⟩
  | some a =>
    if (entry a).expired env.now then ⟨.remove, .miss, fun _ => none⟩
    else if (entry a).isTombstone then ⟨.keep, .miss, fun _ => none⟩
    else ⟨touch key a true, .hit, fun _ => some (entry (flush a).1)⟩

def peek (key : Bytes) : Verb α (Option Entry) := fun env old =>
  match old with
  | none => .skip none
  | some a =>
    if (entry a).expired env.now then .drop none
    else ⟨touch key a false, .quiet, fun _ => some (entry (flush a).1)⟩

def peekVersion : Verb α (Option ℕ) := fun env old =>
  match old with
  | none => .skip none
  | some a => if (entry a).expired env.now then .drop none else .skip (some (entry a).version)

def tooBig (env : Env) (cost : ℕ) : Bool := 0 < env.maxBytes && env.maxBytes < cost

def replace (old : Option α) (cost : ℕ) (a : α) : Act α :=
  match old with
  | some _ => .write cost a inPlace
  | none => .insert cost a

omit [Stored α] in
theorem result_replace (old : Option α) (cost : ℕ) (a : α) :
    (replace old cost a).result old = some a := by
  cases old <;> rfl

def set (key : Bytes) (e : Entry) : Verb α Bool := fun env old =>
  if tooBig env (entryCost key e) then .skip false
  else ⟨replace old (entryCost key e) (fresh e), .quiet, fun _ => true⟩

def acceptIfNewer (key : Bytes) (e : Entry) : Verb α Bool := fun env old =>
  let accept : Plan α Bool :=
    if tooBig env (entryCost key e) then .skip false
    else ⟨replace old (entryCost key e) (fresh e), .quiet, fun _ => true⟩
  match old with
  | some a =>
    if !(entry a).expired env.now ∧ e.version ≤ (entry a).version then .stale false else accept
  | none => accept

def acceptNegative (key : Bytes) (e : Entry) : Verb α Bool := fun env old =>
  if tooBig env (entryCost key e) then .skip false
  else
    match old with
    | some a =>
      let accept : Plan α Bool :=
        ⟨.write (entryCost key e) (put a e) inPlace, .quiet, fun _ => true⟩
      if (entry a).expired env.now then accept
      else if (entry a).isTombstone then
        if e.version ≤ (entry a).version then .stale false else accept
      else if !(entry a).isNegative then .skip false
      else if e.version ≤ (entry a).version then .stale false
      else accept
    | none => ⟨.insert (entryCost key e) (fresh e), .quiet, fun _ => true⟩

def delete : Verb α Bool := fun _ old =>
  match old with
  | none => .skip false
  | some _ => .drop true

def tombstoneExpireAt (env : Env) : ℤ :=
  if env.tombstoneTTL ≤ 0 then 0 else env.now + env.tombstoneTTL

def tombstone (env : Env) (version : ℕ) : Entry where
  value := []
  version := version
  expireAt := tombstoneExpireAt env
  flags := flagTombstone

def deleteIfVersion (key : Bytes) (deleteVersion : ℕ) : Verb α Bool := fun env old =>
  let tomb := tombstone env deleteVersion
  match old with
  | some a =>
    if !(entry a).expired env.now ∧ deleteVersion < (entry a).version then .stale false
    else ⟨.write (entryCost key tomb) (put a tomb) inPlace, .quiet, fun _ => true⟩
  | none => ⟨.insert (entryCost key tomb) (fresh tomb), .quiet, fun _ => true⟩

section Single

variable (env : Env) (a : α)

theorem get_of_live (key : Bytes) (hx : (entry a).expired env.now = false)
    (ht : (entry a).isTombstone = false) :
    get key env (some a) = ⟨touch key a true, .hit, fun _ => some (entry (flush a).1)⟩ := by
  simp [get, hx, ht]

theorem get_of_expired (key : Bytes) (hx : (entry a).expired env.now = true) :
    get key env (some a) = ⟨.remove, .miss, fun _ => none⟩ :=
  if_pos hx

theorem get_of_tombstone (key : Bytes) (hx : (entry a).expired env.now = false)
    (ht : (entry a).isTombstone = true) : get key env (some a) = ⟨.keep, .miss, fun _ => none⟩ := by
  simp [get, hx, ht]

theorem peek_of_unexpired (key : Bytes) (hx : (entry a).expired env.now = false) :
    peek key env (some a) = ⟨touch key a false, .quiet, fun _ => some (entry (flush a).1)⟩ := by
  simp [peek, hx]

theorem peekVersion_of_unexpired (hx : (entry a).expired env.now = false) :
    peekVersion env (some a) = .skip (some (entry a).version) := by
  simp [peekVersion, hx]

theorem peekVersion_of_expired (hx : (entry a).expired env.now = true) :
    peekVersion env (some a) = .drop none := by
  simp [peekVersion, hx]

variable (key : Bytes)

theorem acceptIfNewer_of_le {e : Entry} (hx : (entry a).expired env.now = false)
    (hv : e.version ≤ (entry a).version) : acceptIfNewer key e env (some a) = .stale false := by
  simp [acceptIfNewer, hx, hv]

theorem acceptIfNewer_of_newer {e : Entry} {old : Option α}
    (hfits : tooBig env (entryCost key e) = false)
    (hnew : ∀ a, old = some a → (entry a).version < e.version) : acceptIfNewer key e env old =
      ⟨replace old (entryCost key e) (fresh e), .quiet, fun _ => true⟩ := by
  cases old with
  | none => simp [acceptIfNewer, hfits]
  | some a =>
    have hlt : ¬ e.version ≤ (entry a).version := Nat.not_le.mpr (hnew a rfl)
    simp [acceptIfNewer, hfits, hlt]

/-- The entry is stored in a new item, or nothing happens. -/
theorem acceptIfNewer_result (e : Entry) (old : Option α) :
    (acceptIfNewer key e env old).act.result old = old ∨
      (acceptIfNewer key e env old).act.result old = some (fresh e) := by
  unfold acceptIfNewer
  cases old with
  | none =>
    simp only
    split
    · exact Or.inl rfl
    · exact Or.inr rfl
  | some a =>
    simp only
    split
    · exact Or.inl rfl
    · split
      · exact Or.inl rfl
      · exact Or.inr rfl

theorem acceptNegative_of_positive {e : Entry}
    (hx : (entry a).expired env.now = false) (ht : (entry a).isTombstone = false)
    (hn : (entry a).isNegative = false) : (acceptNegative key e env (some a)).act = .keep := by
  simp only [acceptNegative, hx, ht, hn]
  split <;> rfl

/-- A negative entry is stored, or nothing happens. -/
theorem acceptNegative_result (e : Entry) (old : Option α) :
    (acceptNegative key e env old).act.result old = old ∨
      ∃ a, (acceptNegative key e env old).act.result old = some a ∧ entry a = e := by
  unfold acceptNegative
  split
  · exact Or.inl rfl
  · cases old with
    | none => exact Or.inr ⟨fresh e, rfl, Stored.entry_fresh e⟩
    | some a =>
      have hput : ∃ b, some (put a e) = some b ∧ entry b = e := ⟨_, rfl, Stored.entry_put a e⟩
      simp only
      split
      · exact Or.inr hput
      · split
        · split
          · exact Or.inl rfl
          · exact Or.inr hput
        · split
          · exact Or.inl rfl
          · split
            · exact Or.inl rfl
            · exact Or.inr hput

end Single

theorem tooBig_of_unbounded {env : Env} (h : env.maxBytes ≤ 0) (cost : ℕ) :
    tooBig env cost = false := by
  simp only [tooBig, Bool.and_eq_false_iff, decide_eq_false_iff_not]
  omega

end Supercache.Store

import Supercache.PlainModes

/-!
The JSON mode. The decoded document is cached beside the entry, but every
mutation also writes the entry's bytes, so the cache is never ahead of them. A
document is decoded when it is first needed and the cache is empty; since null
stands for an empty cache, the null document is decoded every time.
-/
namespace Supercache.Store

open Wire Lru JsonText

def jDoc (it : LruItem) : Option (Json × LruItem) :=
  if it.jDirty then some (it.jCache, it)
  else
    match it.jCache with
    | .null =>
      match JsonX.decode it.entry.value with
      | none => none
      | some v => some (v, { it with jCache := v })
    | doc => some (doc, it)

/-- Looking at the document leaves it in the cache: it was there already, or it has been decoded
from the entry's bytes. -/
theorem jDoc_spec {it it' : LruItem} {doc : Json} (h : jDoc it = some (doc, it')) :
    it' = { it with jCache := doc } ∧ (doc = it.jCache ∨
      it.jDirty = false ∧ it.jCache = .null ∧ JsonX.decode it.entry.value = some doc) := by
  unfold jDoc at h
  by_cases hdirty : it.jDirty
  · rw [if_pos hdirty] at h
    obtain ⟨rfl, rfl⟩ := Prod.mk.inj (Option.some.inj h)
    exact ⟨rfl, .inl rfl⟩
  · rw [if_neg hdirty] at h
    split at h
    next hnull =>
      split at h
      · simp at h
      next hdecode =>
        obtain ⟨rfl, rfl⟩ := Prod.mk.inj (Option.some.inj h)
        exact ⟨rfl, .inr ⟨by simpa using hdirty, hnull, hdecode⟩⟩
    · obtain ⟨rfl, rfl⟩ := Prod.mk.inj (Option.some.inj h)
      exact ⟨rfl, .inl rfl⟩

theorem entry_of_jDoc {it it' : LruItem} {doc : Json} (h : jDoc it = some (doc, it')) :
    it'.entry = it.entry := by
  rw [(jDoc_spec h).1]

def jSetCreate (p : JsonX.Path) (val : Json) : Except JsonX.Err Json :=
  if p = [] then .ok val else JsonX.set (.obj []) p val

def jReplaced (it : LruItem) (doc : Json) (version : ℕ) (expireAt : ℤ) : LruItem :=
  { it with
    entry := rewritten it.entry (JsonX.encode doc) version flagJSON expireAt
    jCache := doc
    jDirty := false }

def jCommitReplace (key : Bytes) (it : LruItem) (doc : Json) (stored : ℕ) (expireAt maxValue : ℤ) :
    Plan LruItem (Bool × Bool) :=
  if overLimit maxValue (JsonX.encode doc).length then
    ⟨.amend it false, .quiet, fun _ => (false, true)⟩
  else
    let it := jReplaced it doc stored expireAt
    ⟨.write (entryCost key it.entry) it clamped, .quiet, fun still => (still, false)⟩

def jItem (e : Entry) (doc : Json) : LruItem := { LruItem.new e with jCache := doc }

def jCommitInsert (key : Bytes) (doc : Json) (stored : ℕ) (expireAt maxValue : ℤ) :
    Plan LruItem (Bool × Bool) :=
  if overLimit maxValue (JsonX.encode doc).length then .drop (false, true)
  else
    let e : Entry := ⟨JsonX.encode doc, stored, expireAt, flagJSON⟩
    ⟨.insert (entryCost key e) (jItem e doc), .quiet, fun still => (still, false)⟩

def jSet (key path raw : Bytes) (version : ℕ) (expireAt maxValue : ℤ) :
    Verb LruItem (Bool × Bool) := fun env old =>
  match JsonX.decode raw, JsonX.parsePath path with
  | some val, some p =>
    let create : Plan LruItem (Bool × Bool) :=
      match jSetCreate p val with
      | .error _ => .drop (false, false)
      | .ok doc => jCommitInsert key doc 1 expireAt maxValue
    match old with
    | none => create
    | some it =>
      if it.entry.expired env.now then create
      else if it.entry.isTombstone then
        if version ≤ it.entry.version then .stale (false, false)
        else
          match jSetCreate p val with
          | .error _ => .skip (false, false)
          | .ok doc => jCommitReplace key it doc (bump it.entry.version) expireAt maxValue
      else if !it.entry.has flagJSON then .skip (false, false)
      else
        match jDoc it with
        | none => .skip (false, false)
        | some (doc, it) =>
          match JsonX.set doc p val with
          | .error _ => ⟨.amend it false, .quiet, fun _ => (false, false)⟩
          | .ok doc => jCommitReplace key it doc (bump it.entry.version) expireAt maxValue
  | _, _ => .skip (false, false)

def jDel (key path : Bytes) (version : ℕ) (expireAt : ℤ) : Verb LruItem (Bool × Bool) :=
  fun env old =>
    match old with
    | none => .skip (true, false)
    | some it =>
      if it.entry.expired env.now then .drop (true, false)
      else if it.entry.isTombstone then
        if version ≤ it.entry.version then .stale (false, false) else .skip (false, false)
      else if !it.entry.has flagJSON then .skip (false, false)
      else
        match JsonX.parsePath path with
        | none => .skip (false, false)
        | some p =>
          match jDoc it with
          | none => .skip (false, false)
          | some (doc, it) =>
            match JsonX.del doc p with
            | none => ⟨.amend it false, .quiet, fun _ => (true, false)⟩
            | some doc =>
              let it := jReplaced it doc (bump it.entry.version) expireAt
              ⟨.write (entryCost key it.entry) it clamped, .quiet, fun _ => (true, true)⟩

def jGet (path : Bytes) : Verb LruItem (Option Bytes) := fun env old =>
  match old with
  | none => .skip none
  | some it =>
    if it.entry.expired env.now then .drop none
    else if it.entry.isTombstone ∨ !it.entry.has flagJSON then .skip none
    else
      match JsonX.parsePath path with
      | none => .skip none
      | some p =>
        if p = [] ∧ !it.jDirty then .skip (some it.entry.value)
        else
          match jDoc it with
          | none => .skip none
          | some (doc, it) =>
            ⟨.amend it false, .quiet, fun _ => (JsonX.get doc p).map JsonX.encode⟩

def hasJSON : Verb LruItem Bool := readLive flagJSON false fun _ => true

def jInstall (key blob : Bytes) (version : ℕ) (expireAt : ℤ) : Verb LruItem Bool := fun env old =>
  match JsonX.decode blob with
  | none => .skip false
  | some doc =>
    let e : Entry := ⟨blob, version, expireAt, flagJSON⟩
    let install : Plan LruItem Bool := ⟨.insert (entryCost key e) (jItem e doc), .quiet, id⟩
    match old with
    | none => install
    | some it =>
      if it.entry.expired env.now then install
      else
        match installGate flagJSON version it.entry with
        | some tally => ⟨.keep, tally, fun _ => false⟩
        | none => install

end Supercache.Store

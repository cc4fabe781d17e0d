import Supercache.Footprint

/-!
The structured modes over any kind of item. A carrier says where the value of a mode is found in
an item, what a read leaves behind and how a mutation is written. The store's own carriers cache
the decoded value; the reference carriers decode and encode a bare entry every time.
-/
namespace Supercache

open Wire Lru JsonText

structure Carrier (α σ : Type) where
  flag : ℕ
  new : σ
  encode : σ → Bytes
  decode : Bytes → Option σ
  load : α → Option σ
  /-- What a read of the value leaves behind. -/
  note : α → σ → Act α
  commit : Bytes → α → σ → ℕ → ℤ → Act α
  /-- An item around an entry and its value. -/
  item : Entry → σ → α

namespace Carrier

variable {α σ ρ : Type} [Stored α] (C : Carrier α σ)

def create (key : Bytes) (version : ℕ) (expireAt : ℤ) (f : σ → Option σ) : Plan α Bool :=
  match f C.new with
  | none => .drop false
  | some s =>
    let e : Entry := ⟨C.encode s, version, expireAt, C.flag⟩
    ⟨.insert (entryCost key e) (C.item e s), .quiet, id⟩

def mutate (key : Bytes) (version : ℕ) (expireAt : ℤ) (stored : Option ℕ → ℕ)
    (f : σ → Option σ) : Verb α Bool := fun env old =>
  match old with
  | none => C.create key (stored none) expireAt f
  | some a =>
    if (entry a).expired env.now then C.create key (stored none) expireAt f
    else if (entry a).isTombstone then
      if version ≤ (entry a).version then .stale false
      else C.create key (stored (some (entry a).version)) expireAt f
    else if (entry a).has C.flag then
      match C.load a with
      | none => .skip false
      | some s =>
        match f s with
        | none => .skip false
        | some s => ⟨C.commit key a s (stored (some (entry a).version)) expireAt, .quiet, id⟩
    else .skip false

def removeVerb (key : Bytes) (version : ℕ) (expireAt : ℤ) (stored : Option ℕ → ℕ)
    (f : σ → Option σ) : Verb α Bool := fun env old =>
  match old with
  | none => .skip true
  | some a =>
    if (entry a).expired env.now then .drop true
    else if (entry a).isTombstone then
      if version ≤ (entry a).version then .stale false else .skip true
    else if !(entry a).has C.flag then .skip false
    else C.mutate key version expireAt stored f env old

def read (miss : ρ) (f : σ → ρ) : Verb α ρ := fun env old =>
  match old with
  | none => .skip miss
  | some a =>
    if (entry a).expired env.now then .drop miss
    else if (entry a).isTombstone ∨ !(entry a).has C.flag then .skip miss
    else
      match C.load a with
      | none => .skip miss
      | some s => ⟨C.note a s, .quiet, fun _ => f s⟩

def install (gate : Entry → Option Tally) (key blob : Bytes) (version : ℕ) (expireAt : ℤ) :
    Verb α Bool := fun env old =>
  let install : Plan α Bool :=
    match C.decode blob with
    | none => .drop false
    | some s =>
      let e : Entry := ⟨blob, version, expireAt, C.flag⟩
      ⟨.insert (entryCost key e) (C.item e s), .quiet, id⟩
  match old with
  | none => install
  | some a =>
    if (entry a).expired env.now then install
    else
      match gate (entry a) with
      | some tally => ⟨.keep, tally, fun _ => false⟩
      | none => install

def pop (key : Bytes) (version : ℕ) (expireAt : ℤ) (take : σ → Option (Bytes × σ)) :
    Verb α (Option Bytes × Bool) := fun env old =>
  match old with
  | none => .skip (none, true)
  | some a =>
    if (entry a).expired env.now then .drop (none, true)
    else if (entry a).isTombstone then
      if version ≤ (entry a).version then .stale (none, false) else .skip (none, true)
    else if !(entry a).has C.flag then .skip (none, false)
    else
      match C.load a with
      | none => .skip (none, false)
      | some s =>
        match take s with
        | none => .skip (none, true)
        | some (item, s) =>
          ⟨C.commit key a s (bump (entry a).version) expireAt, .quiet, fun _ => (some item, true)⟩

end Carrier

structure DocCarrier (α : Type) where
  /-- The entry's bytes are those of the document. -/
  clean : α → Bool
  /-- The document, and what looking at it leaves behind. -/
  doc : α → Option (Json × α)
  replaced : α → Json → ℕ → ℤ → α
  item : Entry → Json → α

namespace DocCarrier

variable {α : Type} [Stored α] (D : DocCarrier α)

def commitReplace (key : Bytes) (a : α) (doc : Json) (stored : ℕ) (expireAt maxValue : ℤ) :
    Plan α (Bool × Bool) :=
  if Store.overLimit maxValue (JsonX.encode doc).length then
    ⟨.amend a false, .quiet, fun _ => (false, true)⟩
  else
    let a := D.replaced a doc stored expireAt
    ⟨.write (entryCost key (entry a)) a Store.clamped, .quiet, fun still => (still, false)⟩

def commitInsert (key : Bytes) (doc : Json) (stored : ℕ) (expireAt maxValue : ℤ) :
    Plan α (Bool × Bool) :=
  if Store.overLimit maxValue (JsonX.encode doc).length then .drop (false, true)
  else
    let e : Entry := ⟨JsonX.encode doc, stored, expireAt, flagJSON⟩
    ⟨.insert (entryCost key e) (D.item e doc), .quiet, fun still => (still, false)⟩

def set (key path raw : Bytes) (version : ℕ) (expireAt maxValue : ℤ) :
    Verb α (Bool × Bool) := fun env old =>
  match JsonX.decode raw, JsonX.parsePath path with
  | some val, some p =>
    let create : Plan α (Bool × Bool) :=
      match Store.jSetCreate p val with
      | .error _ => .drop (false, false)
      | .ok doc => D.commitInsert key doc 1 expireAt maxValue
    match old with
    | none => create
    | some a =>
      if (entry a).expired env.now then create
      else if (entry a).isTombstone then
        if version ≤ (entry a).version then .stale (false, false)
        else
          match Store.jSetCreate p val with
          | .error _ => .skip (false, false)
          | .ok doc => D.commitReplace key a doc (bump (entry a).version) expireAt maxValue
      else if !(entry a).has flagJSON then .skip (false, false)
      else
        match D.doc a with
        | none => .skip (false, false)
        | some (doc, a) =>
          match JsonX.set doc p val with
          | .error _ => ⟨.amend a false, .quiet, fun _ => (false, false)⟩
          | .ok doc => D.commitReplace key a doc (bump (entry a).version) expireAt maxValue
  | _, _ => .skip (false, false)

def del (key path : Bytes) (version : ℕ) (expireAt : ℤ) : Verb α (Bool × Bool) := fun env old =>
  match old with
  | none => .skip (true, false)
  | some a =>
    if (entry a).expired env.now then .drop (true, false)
    else if (entry a).isTombstone then
      if version ≤ (entry a).version then .stale (false, false) else .skip (false, false)
    else if !(entry a).has flagJSON then .skip (false, false)
    else
      match JsonX.parsePath path with
      | none => .skip (false, false)
      | some p =>
        match D.doc a with
        | none => .skip (false, false)
        | some (doc, a) =>
          match JsonX.del doc p with
          | none => ⟨.amend a false, .quiet, fun _ => (true, false)⟩
          | some doc =>
            let a := D.replaced a doc (bump (entry a).version) expireAt
            ⟨.write (entryCost key (entry a)) a Store.clamped, .quiet, fun _ => (true, true)⟩

def get (path : Bytes) : Verb α (Option Bytes) := fun env old =>
  match old with
  | none => .skip none
  | some a =>
    if (entry a).expired env.now then .drop none
    else if (entry a).isTombstone ∨ !(entry a).has flagJSON then .skip none
    else
      match JsonX.parsePath path with
      | none => .skip none
      | some p =>
        if p = [] ∧ D.clean a then .skip (some (entry a).value)
        else
          match D.doc a with
          | none => .skip none
          | some (doc, a) =>
            ⟨.amend a false, .quiet, fun _ => (JsonX.get doc p).map JsonX.encode⟩

def install (key blob : Bytes) (version : ℕ) (expireAt : ℤ) : Verb α Bool := fun env old =>
  match JsonX.decode blob with
  | none => .skip false
  | some doc =>
    let e : Entry := ⟨blob, version, expireAt, flagJSON⟩
    let install : Plan α Bool := ⟨.insert (entryCost key e) (D.item e doc), .quiet, id⟩
    match old with
    | none => install
    | some a =>
      if (entry a).expired env.now then install
      else
        match Store.installGate flagJSON version (entry a) with
        | some tally => ⟨.keep, tally, fun _ => false⟩
        | none => install

end DocCarrier

structure Backend (α : Type) where
  slot : (m : Mode) → Carrier α m.Value
  doc : DocCarrier α

namespace Backend

variable {α : Type} [Stored α] (B : Backend α)

open Store in
def cachedVerb (key : Bytes) : CachedCall → Verb α Ret
  | .setAdd item v x =>
    ((B.slot .set).mutate key v x (fun _ => v) fun s => some (SetX.add s item)).map .bool
  | .setRemove item v x =>
    ((B.slot .set).removeVerb key v x (fun _ => v) fun s => some (SetX.remove s item)).map .bool
  | .setContains item => ((B.slot .set).read false fun s => SetX.contains s item).map .bool
  | .hasSet => ((B.slot .set).read false fun _ => true).map .bool
  | .setCard => ((B.slot .set).read 0 SetX.len).map .nat
  | .setMembers => ((B.slot .set).read [] SetX.members).map .items
  | .setInstall blob v x => ((B.slot .set).install (setInstallGate v) key blob v x).map .bool
  | .zAdd member score v x =>
    ((B.slot .zset).mutate key v x (fun _ => v) fun z => ZSet.add z member score).map .bool
  | .zRem member v x =>
    ((B.slot .zset).removeVerb key v x (fun _ => v) fun z => some (ZSet.rem z member)).map .bool
  | .zScore member => ((B.slot .zset).read none fun z => ZSet.score z member).map .optBits
  | .zCard => ((B.slot .zset).read 0 ZSet.card).map .nat
  | .hasZSet => ((B.slot .zset).read false fun _ => true).map .bool
  | .zRange start stop => ((B.slot .zset).read [] fun z => ZSet.range z start stop).map .scored
  | .zRangeByScore min max =>
    ((B.slot .zset).read [] fun z => ZSet.rangeByScore z min max).map .scored
  | .zInstall blob v x => ((B.slot .zset).install (installGate flagZSet v) key blob v x).map .bool
  | .geoAdd member p v x =>
    ((B.slot .geo).mutate key v x (fun _ => v) fun g => Geo.add g member p).map .bool
  | .geoRem member v x =>
    ((B.slot .geo).removeVerb key v x (fun _ => v) fun g => some (Geo.rem g member)).map .bool
  | .geoPos member => ((B.slot .geo).read none fun g => Geo.pos g member).map .point
  | .geoCard => ((B.slot .geo).read 0 Geo.card).map .nat
  | .hasGeo => ((B.slot .geo).read false fun _ => true).map .bool
  | .geoDist a b => ((B.slot .geo).read none fun g => Geo.dist g a b).map .optBits
  | .geoRadius centre radiusM limit =>
    ((B.slot .geo).read [] fun g => Geo.radius g centre radiusM limit).map .places
  | .geoInstall blob v x => ((B.slot .geo).install (installGate flagGeo v) key blob v x).map .bool
  | .lPush item v x =>
    ((B.slot .list).mutate key v x nextStored fun l => some (ListX.lPush l item)).map .bool
  | .rPush item v x =>
    ((B.slot .list).mutate key v x nextStored fun l => some (ListX.rPush l item)).map .bool
  | .lPop v x => ((B.slot .list).pop key v x ListX.lPop).map .popped
  | .rPop v x => ((B.slot .list).pop key v x ListX.rPop).map .popped
  | .lLen => ((B.slot .list).read 0 ListX.len).map .nat
  | .hasList => ((B.slot .list).read false fun _ => true).map .bool
  | .lIndex idx => ((B.slot .list).read none fun l => ListX.index l idx).map .optBytes
  | .lRange start stop => ((B.slot .list).read [] fun l => ListX.range l start stop).map .items
  | .lInstall blob v x => ((B.slot .list).install (installGate flagList v) key blob v x).map .bool
  | .hSet field value v x =>
    ((B.slot .hash).mutate key v x (fun _ => v) fun h => some (HashX.set h field value)).map .bool
  | .hDel field v x =>
    ((B.slot .hash).removeVerb key v x (fun _ => v) fun h => some (HashX.del h field)).map .bool
  | .hGet field => ((B.slot .hash).read none fun h => HashX.get h field).map .optBytes
  | .hExists field => ((B.slot .hash).read false fun h => HashX.exists_ h field).map .bool
  | .hLen => ((B.slot .hash).read 0 HashX.len).map .nat
  | .hasHash => ((B.slot .hash).read false fun _ => true).map .bool
  | .hGetAll => ((B.slot .hash).read [] HashX.all).map .fields
  | .hInstall blob v x => ((B.slot .hash).install (installGate flagHash v) key blob v x).map .bool
  | .jSet path raw v x maxValue => (B.doc.set key path raw v x maxValue).map .pair
  | .jDel path v x => (B.doc.del key path v x).map .pair
  | .jGet path => (B.doc.get path).map .optBytes
  | .hasJSON => (readLive flagJSON false fun _ => true : Verb α Bool).map .bool
  | .jInstall blob v x => (B.doc.install key blob v x).map .bool

def verb (key : Bytes) : Call → Verb α Ret
  | .plain c => c.verb key
  | .cached c => B.cachedVerb key c

def step (m : Memory α) (op : Op) : Memory α × Ret :=
  m.perform op.now op.key (B.verb op.key op.call)

def answers (m : Memory α) : List Op → List Ret
  | [] => []
  | op :: ops => (B.step m op).2 :: answers (B.step m op).1 ops

end Backend

section Lazy

def Kind.lazy {σ : Type} (K : Kind σ) : Carrier LruItem σ where
  flag := K.flag
  new := K.new
  encode := K.encode
  decode := K.decode
  load := K.load
  note it s :=
    match (K.slot it).cache with
    | some _ => .keep
    | none => .amend (K.setSlot it ⟨some s, (K.slot it).dirty⟩) false
  commit := K.commit
  item := K.itemOf

def lazyDoc : DocCarrier LruItem where
  clean it := !it.jDirty
  doc := Store.jDoc
  replaced := Store.jReplaced
  item := Store.jItem

def lazily : Backend LruItem where
  slot m := m.kind.lazy
  doc := lazyDoc

section Kind

variable {σ ρ : Type} (K : Kind σ) (key : Bytes) (version : ℕ) (expireAt : ℤ)

theorem Kind.create_eq (f : σ → Option σ) :
    K.create key version expireAt f = K.lazy.create key version expireAt f := by
  cases hf : f K.new with
  | none => simp [Kind.create, Carrier.create, Kind.lazy, hf]
  | some s => simp [Kind.create, Carrier.create, Kind.lazy, hf]

theorem Kind.mutate_eq (stored : Option ℕ → ℕ) (f : σ → Option σ) :
    K.mutate key version expireAt stored f = K.lazy.mutate key version expireAt stored f := by
  funext env old
  cases old with
  | none => exact K.create_eq key (stored none) expireAt f
  | some it =>
    simp only [Kind.mutate, Carrier.mutate, Kind.create_eq]
    congr 3

theorem Kind.removeVerb_eq (stored : Option ℕ → ℕ) (f : σ → Option σ) :
    K.removeVerb key version expireAt stored f =
      K.lazy.removeVerb key version expireAt stored f := by
  funext env old
  cases old with
  | none => rfl
  | some it =>
    simp only [Kind.removeVerb, Carrier.removeVerb, Kind.mutate_eq]
    rfl

theorem Kind.read_eq (miss : ρ) (f : σ → ρ) : K.read miss f = K.lazy.read miss f := by
  funext env old
  cases old with
  | none => rfl
  | some it =>
    simp only [Kind.read, Carrier.read, Kind.lazy, Kind.load]
    cases (K.slot it).cache with
    | none => rfl
    | some s => rfl

theorem Kind.install_eq (gate : Entry → Option Tally) (blob : Bytes) :
    Store.cachedInstall K gate key blob version expireAt =
      K.lazy.install gate key blob version expireAt := by
  funext env old
  simp only [Store.cachedInstall, Carrier.install, Kind.lazy]
  cases K.decode blob with
  | none => cases old <;> rfl
  | some s => cases old <;> rfl

theorem popVerb_eq (take : ListX.Items → Option (Bytes × ListX.Items)) :
    Store.popVerb key version expireAt take = lKind.lazy.pop key version expireAt take := by
  funext env old
  cases old with
  | none => rfl
  | some it =>
    simp only [Store.popVerb, Carrier.pop, Kind.lazy]
    cases lKind.load it with
    | none => rfl
    | some l =>
      dsimp only
      cases take l with
      | none => rfl
      | some p => rfl

end Kind

section Doc

variable (key path : Bytes) (version : ℕ) (expireAt : ℤ)

theorem jSet_eq (raw : Bytes) (maxValue : ℤ) : Store.jSet key path raw version expireAt maxValue =
      lazyDoc.set key path raw version expireAt maxValue := by
  funext env old
  simp only [Store.jSet, DocCarrier.set]
  cases JsonX.decode raw with
  | none => rfl
  | some val =>
    cases JsonX.parsePath path with
    | none => rfl
    | some p =>
      simp only [lazyDoc]
      cases old with
      | none => cases Store.jSetCreate p val <;> rfl
      | some it =>
        cases hdoc : Store.jDoc it with
        | none => cases Store.jSetCreate p val <;> simp only [hdoc] <;> rfl
        | some q =>
          cases hset : JsonX.set q.1 p val <;> cases Store.jSetCreate p val <;>
            simp only [hdoc, hset] <;> rfl

theorem jDel_eq : Store.jDel key path version expireAt = lazyDoc.del key path version expireAt := by
  funext env old
  cases old with
  | none => rfl
  | some it =>
    simp only [Store.jDel, DocCarrier.del, lazyDoc]
    cases JsonX.parsePath path with
    | none => rfl
    | some p =>
      cases Store.jDoc it with
      | none => rfl
      | some q =>
        cases JsonX.del q.1 p with
        | none => rfl
        | some doc => rfl

theorem jGet_eq : Store.jGet path = lazyDoc.get path := by
  funext env old
  cases old with
  | none => rfl
  | some it =>
    simp only [Store.jGet, DocCarrier.get, lazyDoc]
    cases JsonX.parsePath path with
    | none => rfl
    | some p =>
      cases Store.jDoc it with
      | none => rfl
      | some q => rfl

theorem jInstall_eq (blob : Bytes) :
    Store.jInstall key blob version expireAt = lazyDoc.install key blob version expireAt := by
  funext env old
  simp only [Store.jInstall, DocCarrier.install]
  cases JsonX.decode blob with
  | none => rfl
  | some doc => cases old <;> rfl

end Doc

/-- The store's calls are those of its own carriers. -/
theorem CachedCall.verb_eq (key : Bytes) (c : CachedCall) :
    c.verb key = lazily.cachedVerb key c := by
  cases c with
  | setAdd => exact congrArg (Verb.map _) (setKind.mutate_eq ..)
  | zAdd => exact congrArg (Verb.map _) (zKind.mutate_eq ..)
  | geoAdd => exact congrArg (Verb.map _) (gKind.mutate_eq ..)
  | lPush | rPush => exact congrArg (Verb.map _) (lKind.mutate_eq ..)
  | hSet => exact congrArg (Verb.map _) (hKind.mutate_eq ..)
  | setRemove => exact congrArg (Verb.map _) (setKind.removeVerb_eq ..)
  | zRem => exact congrArg (Verb.map _) (zKind.removeVerb_eq ..)
  | geoRem => exact congrArg (Verb.map _) (gKind.removeVerb_eq ..)
  | hDel => exact congrArg (Verb.map _) (hKind.removeVerb_eq ..)
  | lPop | rPop => exact congrArg (Verb.map _) (popVerb_eq ..)
  | setContains | hasSet | setCard | setMembers =>
    exact congrArg (Verb.map _) (setKind.read_eq ..)
  | zScore | zCard | hasZSet | zRange | zRangeByScore =>
    exact congrArg (Verb.map _) (zKind.read_eq ..)
  | geoPos | geoCard | hasGeo | geoDist | geoRadius =>
    exact congrArg (Verb.map _) (gKind.read_eq ..)
  | lLen | hasList | lIndex | lRange => exact congrArg (Verb.map _) (lKind.read_eq ..)
  | hGet | hExists | hLen | hasHash | hGetAll => exact congrArg (Verb.map _) (hKind.read_eq ..)
  | setInstall => exact congrArg (Verb.map _) (setKind.install_eq ..)
  | zInstall => exact congrArg (Verb.map _) (zKind.install_eq ..)
  | geoInstall => exact congrArg (Verb.map _) (gKind.install_eq ..)
  | lInstall => exact congrArg (Verb.map _) (lKind.install_eq ..)
  | hInstall => exact congrArg (Verb.map _) (hKind.install_eq ..)
  | jSet => exact congrArg (Verb.map _) (jSet_eq ..)
  | jDel => exact congrArg (Verb.map _) (jDel_eq ..)
  | jGet => exact congrArg (Verb.map _) (jGet_eq ..)
  | jInstall => exact congrArg (Verb.map _) (jInstall_eq ..)
  | hasJSON => rfl

/-- Nothing but the carriers tells the store from the reference. -/
theorem Call.verb_eq (key : Bytes) (c : Call) : c.verb key = lazily.verb key c := by
  cases c with
  | plain c => rfl
  | cached c => exact c.verb_eq key

end Lazy

section Eager

def Kind.eager {σ : Type} (K : Kind σ) : Carrier Entry σ where
  flag := K.flag
  new := K.new
  encode := K.encode
  decode := K.decode
  load e := K.decode e.value
  note _ _ := .keep
  commit key e s version expireAt :=
    let e' := { K.touched e version expireAt with value := K.encode s }
    .write (entryCost key e') e' Store.inPlace
  item e _ := e

def eagerDoc : DocCarrier Entry where
  clean _ := true
  doc e := (JsonX.decode e.value).map fun v => (v, e)
  replaced e doc version expireAt :=
    Store.rewritten e (JsonX.encode doc) version flagJSON expireAt
  item e _ := e

def eagerly : Backend Entry where
  slot m := m.kind.eager
  doc := eagerDoc

end Eager

end Supercache

import Supercache.Item
import Supercache.Sketches

/-!
The modes without a cached value. A mutation applies its operation to the entry's bytes and writes
the new bytes in place, over a live entry or a tombstone it supersedes. The version argument only
has to pass the tombstone; stored is one more than the version found, or one. Here are the modes
whose bytes are used as they are.
-/
namespace Supercache.Store

open Wire Lru

variable {α ρ : Type} [Stored α]

def readLive (flag : ℕ) (miss : ρ) (f : Entry → ρ) : Verb α ρ := fun env old =>
  match old with
  | none => .skip miss
  | some a =>
    if (entry a).expired env.now then .drop miss
    else if (entry a).isTombstone ∨ !(entry a).has flag then .skip miss
    else .skip (f (entry a))

/-- Why an install is turned away by an unexpired entry, if it is: an entry of
the same mode and a tombstone count as stale, any other entry does not. -/
def installGate (flag version : ℕ) (e : Entry) : Option Tally :=
  if version ≤ e.version then some (if e.isTombstone ∨ e.has flag then .stale else .quiet)
  else none

def plainInstall (gate : Entry → Option Tally) (flag : ℕ) (key blob : Bytes) (version : ℕ)
    (expireAt : ℤ) : Verb α Bool := fun env old =>
  let e : Entry := ⟨blob, version, expireAt, flag⟩
  let install : Plan α Bool := ⟨.insert (entryCost key e) (fresh e), .quiet, id⟩
  match old with
  | none => install
  | some a =>
    if (entry a).expired env.now then install
    else
      match gate (entry a) with
      | some tally => ⟨.keep, tally, fun _ => false⟩
      | none => install

def checkedInstall (ok : Bool) (flag : ℕ) (key blob : Bytes) (version : ℕ) (expireAt : ℤ) :
    Verb α Bool := fun env old =>
  if ok then plainInstall (installGate flag version) flag key blob version expireAt env old
  else .skip false

inductive Outcome (ρ : Type) where
  | refuse (r : ρ)
  | commit (blob : Bytes) (r : Bool → ρ)

def rewritten (e : Entry) (blob : Bytes) (version flag : ℕ) (expireAt : ℤ) : Entry where
  value := blob
  version := version
  expireAt := Entry.extend e.expireAt expireAt
  flags := flag

def writeOver (key : Bytes) (a : α) (blob : Bytes) (flag : ℕ) (expireAt : ℤ) (mode : WriteMode) :
    Act α :=
  let e := rewritten (entry a) blob (bump (entry a).version) flag expireAt
  .write (entryCost key e) (put a e) mode

/-- The mutation the plain modes share: the operation gets the bytes of the live
value, or nothing when the value is to be created. -/
def mutatePlain (flag : ℕ) (key : Bytes) (version : ℕ) (expireAt : ℤ) (refused : ρ)
    (op : Option Bytes → Outcome ρ) : Verb α ρ := fun env old =>
  let create : Plan α ρ :=
    match op none with
    | .refuse r => .drop r
    | .commit blob r =>
      let e : Entry := ⟨blob, 1, expireAt, flag⟩
      ⟨.insert (entryCost key e) (fresh e), .quiet, r⟩
  let amended (a : α) (cur : Option Bytes) : Plan α ρ :=
    match op cur with
    | .refuse r => .skip r
    | .commit blob r => ⟨writeOver key a blob flag expireAt clamped, .quiet, r⟩
  match old with
  | none => create
  | some a =>
    if (entry a).expired env.now then create
    else if (entry a).isTombstone then
      if version ≤ (entry a).version then .stale refused else amended a none
    else if (entry a).has flag then amended a (some (entry a).value)
    else .skip refused

def removePlain (flag : ℕ) (key : Bytes) (version : ℕ) (expireAt : ℤ)
    (op : Bytes → Option Bytes) : Verb α Bool := fun env old =>
  match old with
  | none => .skip true
  | some a =>
    if (entry a).expired env.now then .drop true
    else if (entry a).isTombstone then
      if version ≤ (entry a).version then .stale false else .skip true
    else if !(entry a).has flag then .skip false
    else
      match op (entry a).value with
      | none => .skip false
      | some blob =>
        ⟨writeOver key a blob flag expireAt ⟨true, true, false⟩, .quiet, fun _ => true⟩

def overLimit (maxValue : ℤ) (n : ℕ) : Bool := 0 < maxValue && maxValue < n

/-- Commits the new bytes unless they are over the value limit. The result says
whether the mutation was applied and whether it was too large. -/
def commitWithin (maxValue : ℤ) (blob : Bytes) : Outcome (Bool × Bool) :=
  if overLimit maxValue blob.length then .refuse (false, true)
  else .commit blob fun still => (still, false)

section Counter

def cIncr (key : Bytes) (delta : ℤ) (version : ℕ) (expireAt : ℤ) : Verb α (ℤ × Bool × Bool) :=
  fun env old =>
    -- unlike the other modes a counter over a tombstone is a new element
    let create (stored : ℕ) : Plan α (ℤ × Bool × Bool) :=
      let e : Entry := ⟨Counter.encode delta, stored, expireAt, flagCounter⟩
      ⟨.insert (entryCost key e) (fresh e), .quiet,
        fun still => if still then (delta, true, false) else (0, false, false)⟩
    match old with
    | none => create 1
    | some a =>
      if (entry a).expired env.now then create 1
      else if (entry a).isTombstone then
        if version ≤ (entry a).version then .stale (0, false, false)
        else create (bump (entry a).version)
      else if !(entry a).has flagCounter then .skip (0, false, false)
      else
        match Counter.decode (entry a).value with
        | none => .skip (0, false, false)
        | some cur =>
          match Counter.add cur delta with
          | none => .skip (cur, false, true)
          | some next =>
            ⟨writeOver key a (Counter.encode next) flagCounter expireAt inPlace, .quiet,
              fun _ => (next, true, false)⟩

def cGet : Verb α (Option ℤ) := readLive flagCounter none fun e => Counter.decode e.value

def hasCounter : Verb α Bool :=
  readLive flagCounter false fun e => (Counter.decode e.value).isSome

def cInstall (key blob : Bytes) (version : ℕ) (expireAt : ℤ) : Verb α Bool :=
  checkedInstall (Counter.decode blob).isSome flagCounter key blob version expireAt

end Counter

section Bloom

def bloomMutate (key : Bytes) (m k version : ℕ) (expireAt : ℤ) (f : Bloom.Filter → Bloom.Filter) :
    Verb α Bool := fun env old =>
  let create : Plan α Bool :=
    match Bloom.open_ m k (List.replicate ((m + 7) / 8) 0) with
    | none => .drop false
    | some filter =>
      let e : Entry := ⟨(f filter).bits, version, expireAt, flagBloom⟩
      ⟨.insert (entryCost key e) (fresh e), .quiet, id⟩
  match old with
  | none => create
  | some a =>
    if (entry a).expired env.now then create
    else if (entry a).isTombstone then
      if version ≤ (entry a).version then .stale false else create
    else if !(entry a).has flagBloom then .skip false
    else
      match Bloom.open_ m k (entry a).value with
      | none => .skip false
      | some filter =>
        ⟨.amend (put a { entry a with value := (f filter).bits }) true, .quiet, fun _ => true⟩

def bloomAdd (key item : Bytes) (m k version : ℕ) (expireAt : ℤ) : Verb α Bool :=
  bloomMutate key m k version expireAt fun f => f.add item

def bloomTest (item : Bytes) (m k : ℕ) : Verb α Bool :=
  readLive flagBloom false fun e =>
    match Bloom.open_ m k e.value with
    | none => false
    | some f => f.test item

/-- A test reads the filter of a live entry. -/
theorem bloomTest_of_live (env : Env) {a : α} {m k : ℕ} {f : Bloom.Filter} (item : Bytes)
    (hx : (entry a).expired env.now = false) (ht : (entry a).isTombstone = false)
    (hhas : (entry a).has flagBloom = true) (hopen : Bloom.open_ m k (entry a).value = some f)
    (still : Bool) : (bloomTest item m k env (some a)).ret still = f.test item := by
  simp [bloomTest, readLive, hx, ht, hhas, hopen, Plan.skip]

def bloomMerge (key bits : Bytes) (m k version : ℕ) (expireAt : ℤ) : Verb α Bool :=
  fun env old =>
    match Bloom.open_ m k bits with
    | none => .skip false
    | some remote => bloomMutate key m k version expireAt (fun f => f.merge remote) env old

end Bloom

section Bitmap

def bSet (key : Bytes) (offset : ℕ) (bit : Bool) (version : ℕ) (expireAt maxValue : ℤ) :
    Verb α (Bool × Bool) := fun env old =>
  match BitmapX.encodedLen offset with
  | none => .skip (false, true)
  | some need =>
    if overLimit maxValue need then .skip (false, true)
    else
      mutatePlain flagBitmap key version expireAt (false, false)
        (fun cur => commitWithin maxValue (BitmapX.set (cur.getD []) offset bit)) env old

def bGet (offset : ℕ) : Verb α (Option Bool) :=
  readLive flagBitmap none fun e => some (BitmapX.get e.value offset)

def bCount (start stop : ℤ) : Verb α (Option ℕ) :=
  readLive flagBitmap none fun e => some (BitmapX.count e.value start stop)

def bPos (bit : Bool) (start stop : ℤ) : Verb α (Option (Option ℕ)) :=
  readLive flagBitmap none fun e => some (BitmapX.pos e.value bit start stop)

def hasBitmap : Verb α Bool := readLive flagBitmap false fun _ => true

def bInstall (key blob : Bytes) (version : ℕ) (expireAt : ℤ) : Verb α Bool :=
  checkedInstall true flagBitmap key blob version expireAt

end Bitmap

section HLL

def hllAdd (key item : Bytes) (version : ℕ) (expireAt maxValue : ℤ) : Verb α (Bool × Bool) :=
  fun env old =>
    if overLimit maxValue HllX.denseSize then .skip (false, true)
    else
      mutatePlain flagHLL key version expireAt (false, false)
        (fun cur =>
          -- a value of another size is replaced by an empty sketch
          let work := cur.getD []
          let regs := if work.length = HllX.denseSize then work else HllX.new
          .commit (HllX.add regs item) fun still => (still, false)) env old

def hllCount : Verb α (Option ℕ) := readLive flagHLL none fun e => some (HllX.count e.value)

def hasHLL : Verb α Bool := readLive flagHLL false fun _ => true

def hllInstall (key blob : Bytes) (version : ℕ) (expireAt : ℤ) : Verb α Bool :=
  checkedInstall (blob.length = HllX.denseSize) flagHLL key blob version expireAt

end HLL

section CMS

def cmsApply (item : Bytes) (n : ℕ) (cur : Option Bytes) : Outcome (Bool × Bool) :=
  match CmsX.incr (cur.getD CmsX.new) item n with
  | (_, some _) => .refuse (false, false)
  | (blob, none) => .commit blob fun still => (still, false)

def cmsIncr (key item : Bytes) (n version : ℕ) (expireAt maxValue : ℤ) : Verb α (Bool × Bool) :=
  fun env old =>
    if item = [] then .skip (false, false)
    else if overLimit maxValue CmsX.denseSize then .skip (false, true)
    else mutatePlain flagCMS key version expireAt (false, false) (cmsApply item n) env old

def cmsQuery (item : Bytes) : Verb α (Option ℕ) :=
  readLive flagCMS none fun e => some (CmsX.query e.value item)

def hasCMS : Verb α Bool := readLive flagCMS false fun _ => true

def cmsInstall (key blob : Bytes) (version : ℕ) (expireAt : ℤ) : Verb α Bool :=
  checkedInstall (blob.length = CmsX.denseSize) flagCMS key blob version expireAt

end CMS

end Supercache.Store

import Supercache.PlainModes
import Supercache.Snapshots

/-!
The plain modes whose bytes are a snapshot: TopK, vector set and stream. Every
operation decodes the snapshot first and fails when it does not decode. A
removal from a vector set or a stream writes a new version even when it removes
nothing, and does not evict.
-/
namespace Supercache.Store

open Wire Lru

variable {α ρ : Type} [Stored α]

section TopK

def topkApply (item : Bytes) (k : ℕ) (maxValue : ℤ) (cur : Option Bytes) : Outcome (Bool × Bool) :=
  let tab :=
    match cur with
    | none => some (TopKX.new k)
    | some blob => TopKX.decode blob k
  match tab.bind fun t => t.add item with
  | none => .refuse (false, false)
  | some t => commitWithin maxValue t.encode

def topkAdd (key item : Bytes) (version : ℕ) (expireAt : ℤ) (k : ℕ) (maxValue : ℤ) :
    Verb α (Bool × Bool) := fun env old =>
  if k < 1 then .skip (false, true)
  else if item = [] then .skip (false, false)
  else mutatePlain flagTopK key version expireAt (false, false) (topkApply item k maxValue) env old

def topkList (k : ℕ) : Verb α (Option (List (Bytes × ℕ))) :=
  readLive flagTopK none fun e => (TopKX.decode e.value k).map fun t => t.list

def hasTopK : Verb α Bool := readLive flagTopK false fun _ => true

def topkInstall (key blob : Bytes) (version : ℕ) (expireAt : ℤ) (k : ℕ) : Verb α Bool :=
  checkedInstall (TopKX.decode blob k).isSome flagTopK key blob version expireAt

end TopK

section VectorSet

def vsApply (member : Bytes) (vec : List UInt32) (maxValue : ℤ) (cur : Option Bytes) :
    Outcome (Bool × Bool) :=
  let s :=
    match cur with
    | none => some (VecSet.newSet vec.length)
    | some blob => VecSet.decodeSnapshot blob
  match s with
  | none => .refuse (false, false)
  | some s =>
    if s.dim ≠ vec.length then .refuse (false, false)
    else
      match s.add member vec with
      | none => .refuse (false, false)
      | some s => commitWithin maxValue s.encode

def vAdd (key member : Bytes) (vec : List UInt32) (version : ℕ) (expireAt maxValue : ℤ) :
    Verb α (Bool × Bool) := fun env old =>
  if member.length < 1 ∨ VecSet.maxMemberLen < member.length ∨ !VecSet.validDim vec.length ∨
      !VecSet.finite vec then
    .skip (false, false)
  else
    mutatePlain flagVectorSet key version expireAt (false, false) (vsApply member vec maxValue)
      env old

def vRem (key member : Bytes) (version : ℕ) (expireAt : ℤ) : Verb α Bool :=
  removePlain flagVectorSet key version expireAt fun blob =>
    (VecSet.decodeSnapshot blob).map fun s => (s.rem member).encode

def liveVS {ρ : Type} (f : VecSet.VSet → Option ρ) : Verb α (Option ρ) :=
  readLive flagVectorSet none fun e => (VecSet.decodeSnapshot e.value).bind f

def vSim (vec : List UInt32) (k metric : ℤ) : Verb α (Option (List (Bytes × UInt32))) :=
  liveVS fun s => s.sim vec k (.ofInt metric)

def vCard : Verb α (Option ℕ) := liveVS fun s => some s.card

def vDim : Verb α (Option ℕ) := liveVS fun s => some s.dim

def vEmb (member : Bytes) : Verb α (Option (List UInt32)) := liveVS fun s => s.emb member

def hasVectorSet : Verb α Bool := readLive flagVectorSet false fun _ => true

def vsInstall (key blob : Bytes) (version : ℕ) (expireAt : ℤ) : Verb α Bool :=
  checkedInstall (VecSet.decodeSnapshot blob).isSome flagVectorSet key blob version expireAt

end VectorSet

section Stream

structure XAdded where
  id : Bytes
  applied : Bool
  tooLarge : Bool
  full : Bool
deriving DecidableEq, Repr

def sxApply (payload : Bytes) (maxValue autoTrim : ℤ) (nowMilli : ℕ) (cur : Option Bytes) :
    Outcome XAdded :=
  let log :=
    match cur with
    | none => some Stream.new
    | some blob => Stream.decodeSnapshot blob
  match log with
  | none => .refuse ⟨[], false, false, false⟩
  | some lg =>
    match lg.append payload nowMilli autoTrim with
    | none => .refuse ⟨[], false, false, true⟩
    | some (id, lg) =>
      if overLimit maxValue lg.encode.length then .refuse ⟨[], false, true, false⟩
      else .commit lg.encode fun still => ⟨id, still, false, false⟩

variable {payload blob : Bytes} {maxValue autoTrim : ℤ} {nowMilli : ℕ} {cur : Option Bytes}
  {r : Bool → XAdded}

/-- The log that an append commits. -/
theorem log_of_sxApply (h : sxApply payload maxValue autoTrim nowMilli cur = .commit blob r) :
    ∃ lg id lg', (cur = none ∧ lg = Stream.new ∨
        ∃ b, cur = some b ∧ Stream.decodeSnapshot b = some lg) ∧
      lg.append payload nowMilli autoTrim = some (id, lg') ∧ blob = lg'.encode ∧
      r = fun still => ⟨id, still, false, false⟩ := by
  unfold sxApply at h
  dsimp only at h
  split at h
  · simp at h
  next lg hlog =>
    rcases happend : lg.append payload nowMilli autoTrim with _ | ⟨id, lg'⟩
    · simp [happend] at h
    · simp only [happend] at h
      split at h
      · simp at h
      · obtain ⟨hblob, hr⟩ := Outcome.commit.inj h
        refine ⟨lg, id, lg', ?_, happend, hblob.symm, hr.symm⟩
        cases cur with
        | none => exact .inl ⟨rfl, (Option.some.inj hlog).symm⟩
        | some b => exact .inr ⟨b, rfl, hlog⟩

/-- It is a log that its bytes can be read back to. -/
theorem valid_of_sxApply (hpayload : payload.length < 2 ^ 64) (hmilli : nowMilli < 2 ^ 64)
    (h : sxApply payload maxValue autoTrim nowMilli cur = .commit blob r) :
    ∃ id lg', Stream.Log.Valid lg' ∧ blob = lg'.encode ∧
      r = fun still => ⟨id, still, false, false⟩ := by
  obtain ⟨lg, id, lg', hlog, happend, hblob, hr⟩ := log_of_sxApply h
  have hvalid : lg.Valid := by
    rcases hlog with ⟨-, rfl⟩ | ⟨b, -, hdecode⟩
    · exact Stream.Log.Valid.new
    · exact Stream.valid_of_decodeSnapshot hdecode
  exact ⟨id, lg', hvalid.append hmilli hpayload happend, hblob, hr⟩

def xAdd (key payload : Bytes) (version : ℕ) (expireAt maxValue autoTrim : ℤ) (nowMilli : ℕ) :
    Verb α XAdded :=
  mutatePlain flagStream key version expireAt ⟨[], false, false, false⟩
    (sxApply payload maxValue autoTrim nowMilli)

def xDel (key id : Bytes) (version : ℕ) (expireAt : ℤ) : Verb α Bool := fun env old =>
  match Stream.parseID id with
  | none => .skip false
  | some (ms, seq) =>
    removePlain flagStream key version expireAt (fun blob =>
      (Stream.decodeSnapshot blob).map fun lg => (lg.del ms seq).encode) env old

def xTrim (key : Bytes) (maxLen : ℤ) (version : ℕ) (expireAt : ℤ) : Verb α Bool := fun env old =>
  if maxLen < 0 then .skip false
  else
    removePlain flagStream key version expireAt (fun blob =>
      (Stream.decodeSnapshot blob).map fun lg => (lg.trim maxLen).encode) env old

def liveStream {ρ : Type} (f : Stream.Log → ρ) : Verb α (Option ρ) :=
  readLive flagStream none fun e => (Stream.decodeSnapshot e.value).map f

def xRange (start stop : Bytes) (count : ℤ) (rev : Bool) :
    Verb α (Except Unit (Option (List (Bytes × Bytes)))) := fun env old =>
  match Stream.parseBound start true, Stream.parseBound stop false with
  | some sb, some eb =>
    let plan : Plan α _ := liveStream (fun lg =>
      (lg.range sb eb count rev).map fun e => (Stream.formatID e.ms e.seq, e.payload)) env old
    ⟨plan.act, plan.tally, fun still => .ok (plan.ret still)⟩
  | _, _ => .skip (.error ())

def xLen : Verb α (Option ℕ) := liveStream fun lg => lg.entries.length

def hasStream : Verb α Bool :=
  readLive flagStream false fun e => (Stream.decodeSnapshot e.value).isSome

def sxInstall (key blob : Bytes) (version : ℕ) (expireAt : ℤ) : Verb α Bool := fun env old =>
  if (Stream.decodeSnapshot blob).isSome then
    plainInstall (fun e => if version ≤ e.version then some .stale else none) flagStream key blob
      version expireAt env old
  else .skip false

end Stream

end Supercache.Store

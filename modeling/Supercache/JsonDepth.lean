import Supercache.Carriers
import Supercache.JsonDecode
import Supercache.PlainResults

/-!
How deep the documents of the store nest. The decoder bounds the nesting of each
value that is written, but not of the document it is written into: a path adds its
own length. A document that nests too deep is stored and cannot be decoded again.
-/
namespace Supercache.JsonText

open Wire

section Depth

variable {d : ℕ}

theorem depthElems_le {xs : List Json} (h : ∀ x ∈ xs, depth x ≤ d) : depthElems xs ≤ d := by
  induction xs with
  | nil => exact Nat.zero_le d
  | cons x xs ih =>
    obtain ⟨hx, hxs⟩ := List.forall_mem_cons.mp h
    rw [depthElems]
    exact max_le hx (ih hxs)

theorem depthMembers_le {fs : List (Text × Json)} (h : ∀ f ∈ fs, depth f.2 ≤ d) :
    depthMembers fs ≤ d := by
  induction fs with
  | nil => exact Nat.zero_le d
  | cons f fs ih =>
    obtain ⟨hf, hfs⟩ := List.forall_mem_cons.mp h
    rw [depthMembers]
    exact max_le hf (ih hfs)

theorem Fits.depth_le {v : Json} (h : Fits d v) : JsonText.depth v ≤ d := by
  induction h with
  | arr d xs _ ih =>
    rw [JsonText.depth]
    exact Nat.succ_le_succ (depthElems_le ih)
  | obj d fs _ _ ih =>
    rw [JsonText.depth]
    exact Nat.succ_le_succ (depthMembers_le ih)
  | _ => exact Nat.zero_le _

def deep : ℕ → Json
  | 0 => .null
  | n + 1 => .arr [deep n]

theorem fits_deep (n : ℕ) : Fits n (deep n) := by
  induction n with
  | zero => exact .null 0
  | succ n ih => exact .arr n _ (List.forall_mem_singleton.mpr ih)

theorem depth_deep (n : ℕ) : depth (deep n) = n := by
  induction n with
  | zero => rfl
  | succ n ih => rw [deep, depth, depthElems, depthElems, ih, Nat.max_zero]

end Depth

end Supercache.JsonText

namespace Supercache.JsonX

open Wire JsonText

/-- A document is decoded again exactly when it does not nest too deep. -/
theorem isSome_decode_encode_iff {D : ℕ} {doc : Json} (h : Fits D doc) :
    (decode (encode doc)).isSome = true ↔ depth doc ≤ maxNestingDepth := by
  constructor
  · intro hsome
    have hdoc := h.spells
    rcases (decode_isSome_iff _).mp hsome with ⟨w, t, w', hw, ht, hw', heq⟩ | hover
    · obtain ⟨v, hv⟩ := ht.spells
      have hfront : w ++ (t ++ w') = [] ++ (JsonText.encode doc ++ []) := by
        rw [← heq, List.append_nil, List.nil_append]
        rfl
      obtain ⟨rfl, -⟩ := front_unique hw hv (stops_of_ws hw') ws_nil hdoc stops_nil hfront
      exact hv.fits.depth_le
    · exact absurd ⟨D, [], _, [], ws_nil, hdoc.isValue, ws_nil, (List.append_nil _).symm⟩
        hover.not_isText
  · intro hle
    have hstorable : Storable doc := h.depth.mono hle
    rw [decode_encode hstorable]
    rfl

end Supercache.JsonX

namespace Supercache

open Wire Lru Store JsonText

section Runs

inductive DocCall where
  | jSet (path raw : Bytes) (version : ℕ) (expireAt maxValue : ℤ)
  | jDel (path : Bytes) (version : ℕ) (expireAt : ℤ)

def DocCall.cached : DocCall → CachedCall
  | jSet path raw v x maxValue => .jSet path raw v x maxValue
  | jDel path v x => .jDel path v x

structure DocOp where
  now : ℤ
  call : DocCall

def DocOp.op (key : Bytes) (o : DocOp) : Op := ⟨o.now, key, .cached o.call.cached⟩

def DocCall.Shallow : DocCall → Prop
  | jSet path raw _ _ _ => ∀ p val, JsonX.parsePath path = some p → JsonX.decode raw = some val →
    p.length + depth val ≤ JsonX.maxNestingDepth
  | jDel _ _ _ => True

instance : ∀ c : DocCall, Decidable c.Shallow
  | .jSet path raw _ _ _ => decidable_of_iff
      (∀ p ∈ JsonX.parsePath path, ∀ val ∈ JsonX.decode raw,
        p.length + depth val ≤ JsonX.maxNestingDepth)
      ⟨fun h p val hp hval => h p hp val hval, fun h p hp val hval => h p val hp hval⟩
  | .jDel _ _ _ => .isTrue trivial

/-- An item with a document that can be decoded, which is also the one cached. -/
structure Decodable (it : LruItem) : Prop where
  clean : it.jDirty = false
  flags : it.entry.flags = flagJSON
  storable : JsonX.Storable it.jCache
  value : it.entry.value = JsonX.encode it.jCache

variable {it : LruItem} {doc val : Json} {old : Option LruItem} {raw : Bytes} {version : ℕ}

section

variable (h : Decodable it)
include h

theorem Decodable.decode : JsonX.decode it.entry.value = some it.jCache := by
  rw [h.value]
  exact JsonX.decode_encode h.storable

theorem Decodable.has : it.entry.has flagJSON = true := by
  rw [Entry.has_of_flags h.flags]
  decide

theorem Decodable.isTombstone : it.entry.isTombstone = false := by
  rw [Entry.isTombstone, Entry.has_of_flags h.flags]
  decide

theorem Decodable.jDoc : jDoc it = some (it.jCache, it) := by
  unfold Store.jDoc
  rw [if_neg (by simp [h.clean])]
  split
  next hnull =>
    -- the null document is decoded every time, and comes out the same
    rw [h.decode, hnull, ← hnull]
  · rfl

end

theorem decodable_jReplaced (it : LruItem) (h : JsonX.Storable doc) (version : ℕ) (expireAt : ℤ) :
    Decodable (jReplaced it doc version expireAt) :=
  ⟨rfl, rfl, h, rfl⟩

/-- What a plan leaves is decodable, and it says that it was applied only if it left
something. -/
structure Leaves (old : Option LruItem) (plan : Plan LruItem (Bool × Bool)) : Prop where
  result : ∀ it ∈ plan.act.result old, Decodable it
  applied : ∀ still, (plan.ret still).1 = true → still = true

theorem leaves_skip (h : ∀ it ∈ old, Decodable it) (large : Bool) :
    Leaves old (.skip (false, large)) :=
  ⟨h, fun _ => nofun⟩

theorem leaves_drop (old : Option LruItem) (large : Bool) : Leaves old (.drop (false, large)) :=
  ⟨fun _ => nofun, fun _ => nofun⟩

theorem leaves_jCommitInsert (key : Bytes) (h : JsonX.Storable doc) (stored : ℕ)
    (expireAt maxValue : ℤ) (old : Option LruItem) :
    Leaves old (jCommitInsert key doc stored expireAt maxValue) := by
  unfold jCommitInsert
  split
  · exact leaves_drop old true
  · refine ⟨fun it hit => ?_, fun still hstill => hstill⟩
    rw [← Option.some.inj hit]
    exact ⟨rfl, rfl, h, rfl⟩

theorem leaves_jCommitReplace (key : Bytes) (hit : Decodable it) (h : JsonX.Storable doc)
    (stored : ℕ) (expireAt maxValue : ℤ) :
    Leaves (some it) (jCommitReplace key it doc stored expireAt maxValue) := by
  unfold jCommitReplace
  split
  · refine ⟨fun it' hit' => ?_, fun _ => nofun⟩
    rw [← Option.some.inj hit']
    exact hit
  · refine ⟨fun it' hit' => ?_, fun still hstill => hstill⟩
    rw [← Option.some.inj hit']
    exact decodable_jReplaced it h stored expireAt

/-- One write of a document, within the bound. -/
theorem leaves_jSet (key : Bytes) {path : Bytes} {expireAt maxValue : ℤ}
    (hshallow : (DocCall.jSet path raw version expireAt maxValue).Shallow) (env : Env)
    (hold : ∀ it ∈ old, Decodable it) :
    Leaves old (jSet key path raw version expireAt maxValue env old) := by
  unfold jSet
  split
  next val p hval hp =>
    have hle := hshallow p val hp hval
    have hstorable := JsonX.storable_of_decode hval
    cases old with
    | none =>
      rcases hdoc : jSetCreate p val with _ | doc
      · exact leaves_drop none false
      · exact leaves_jCommitInsert key (storable_jSetCreate hstorable hle hdoc) 1 expireAt maxValue
          none
    | some it =>
      have hit := hold it rfl
      simp only [hit.isTombstone, hit.has, hit.jDoc, Bool.false_eq_true, if_false, Bool.not_true]
      split
      · rcases hdoc : jSetCreate p val with _ | doc
        · exact leaves_drop _ false
        · exact leaves_jCommitInsert key (storable_jSetCreate hstorable hle hdoc) 1 expireAt
            maxValue _
      · rcases hdoc : JsonX.set it.jCache p val with _ | doc
        · exact ⟨hold, fun _ => nofun⟩
        · exact leaves_jCommitReplace key hit (JsonX.storable_set hit.storable hstorable hle hdoc) _
            expireAt maxValue
  · exact leaves_skip hold false

theorem jDel_result (key path : Bytes) (version : ℕ) (expireAt : ℤ) (env : Env)
    (hold : ∀ it ∈ old, Decodable it) :
    ∀ it ∈ (jDel key path version expireAt env old).act.result old, Decodable it := by
  cases old with
  | none => exact hold
  | some it =>
    have hit := hold it rfl
    simp only [jDel, hit.isTombstone, hit.has, hit.jDoc, Bool.false_eq_true, if_false,
      Bool.not_true]
    split
    · exact fun it' hit' => absurd hit' (Option.not_mem_none it')
    · split
      · exact hold
      · split
        · exact hold
        next doc hdoc =>
          intro it' hit'
          rw [← Option.some.inj hit']
          exact decodable_jReplaced it (JsonX.storable_del hit.storable hdoc) _ expireAt

theorem decodable_step (m : Mem) (key : Bytes) {o : DocOp} (hshallow : o.call.Shallow)
    (h : ∀ it ∈ m.lookup key, Decodable it) :
    ∀ it ∈ (step m (o.op key)).1.lookup key, Decodable it := by
  refine m.forall_lookup_perform o.now key ?_
  obtain ⟨now, call⟩ := o
  cases call with
  | jSet path raw v x maxValue => exact (leaves_jSet key hshallow (m.env now) h).result
  | jDel path v x => exact jDel_result key path v x (m.env now) h

theorem decodable_run (m : Mem) (key : Bytes) {ops : List DocOp}
    (hshallow : ∀ o ∈ ops, o.call.Shallow) (h : ∀ it ∈ m.lookup key, Decodable it) :
    ∀ it ∈ (run m (ops.map (DocOp.op key))).lookup key, Decodable it := by
  induction ops generalizing m with
  | nil => exact h
  | cons o ops ih =>
    obtain ⟨ho, hops⟩ := List.forall_mem_cons.mp hshallow
    exact ih (step m (o.op key)).1 hops (decodable_step m key ho h)

/-- A snapshot that can be decoded is installed over every lower version. -/
theorem jInstall_of_decodes (key : Bytes) {blob : Bytes} (hdoc : JsonX.decode blob = some doc)
    (expireAt : ℤ) (hver : ∀ it ∈ old, it.entry.version < version) (env : Env) :
    jInstall key blob version expireAt env old =
      ⟨.insert (entryCost key ⟨blob, version, expireAt, flagJSON⟩)
        (jItem ⟨blob, version, expireAt, flagJSON⟩ doc), .quiet, id⟩ := by
  simp only [jInstall, hdoc]
  rcases old with _ | it
  · rfl
  · have hlt := hver it rfl
    simp only [installGate, if_neg (show ¬ version ≤ it.entry.version by omega), ite_self]

def installed (replica : Mem) (now : ℤ) (key : Bytes) (e : Entry) : Mem × Bool :=
  replica.perform now key (jInstall key e.value e.version e.expireAt)

/-- A replica takes the snapshot of an item: it decodes, and installing it over a lower
version stores it. An expired snapshot is not safe from the eviction that goes with
its own installation. -/
def Replicable (key : Bytes) (it : LruItem) : Prop :=
  (JsonX.decode it.entry.value).isSome = true ∧
    ∀ (replica : Mem) (now : ℤ),
      (∀ old ∈ replica.lookup key, old.entry.version < it.entry.version) →
      (it.entry.expired now = false ∨
        (installed replica now key it.entry).1.cache.evictions = replica.cache.evictions) →
      (installed replica now key it.entry).2 = true ∧
        ((installed replica now key it.entry).1.lookup key).map LruItem.entry = some it.entry

/-- A document that decodes is taken by a replica. -/
theorem Decodable.replicable (key : Bytes) (h : Decodable it) : Replicable key it := by
  refine ⟨by rw [h.decode]; rfl, fun replica now hver hkept => ?_⟩
  have hplan := jInstall_of_decodes key h.decode it.entry.expireAt hver (replica.env now)
  have hentry : (⟨it.entry.value, it.entry.version, it.entry.expireAt, flagJSON⟩ : Entry) =
      it.entry := by
    rw [← h.flags]
  rw [hentry] at hplan
  have hexpected : replica.expected now key
      (jInstall key it.entry.value it.entry.version it.entry.expireAt) key =
        some (jItem it.entry it.jCache) := by
    rw [Memory.expected, if_pos rfl, hplan]
    rfl
  have hlookup : (installed replica now key it.entry).1.lookup key =
      some (jItem it.entry it.jCache) := by
    rcases hkept with hlive | hsame
    · exact replica.lookup_perform_of_pinned hexpected
        (Entry.pinned_of_flags (by decide) h.has hlive)
    · rw [← hexpected]
      exact replica.lookup_perform_of_evictions_eq hsame key
  constructor
  · rw [installed, Memory.perform_ret, hplan]
    exact Option.isSome_iff_exists.mpr ⟨_, hlookup⟩
  · rw [hlookup]
    rfl

/-- As long as every value written stays within the decoder's bound together with the
path down to it, a document that was written can be installed at the replicas. -/
theorem jSet_replicable (m : Mem) (key : Bytes) (hnew : m.lookup key = none) (ops : List DocOp)
    (hops : ∀ o ∈ ops, o.call.Shallow) (now : ℤ) (path raw : Bytes) (version : ℕ)
    (expireAt maxValue : ℤ)
    (hlast : (DocCall.jSet path raw version expireAt maxValue).Shallow)
    (happlied : ((run m (ops.map (DocOp.op key))).perform now key
      (jSet key path raw version expireAt maxValue)).2.1 = true) :
    ∃ it, ((run m (ops.map (DocOp.op key))).perform now key
      (jSet key path raw version expireAt maxValue)).1.lookup key = some it ∧
      Replicable key it := by
  have hnone : ∀ it ∈ m.lookup key, Decodable it := by
    intro it hit
    rw [hnew] at hit
    simp at hit
  have hrun := decodable_run m key hops hnone
  have hleaves := leaves_jSet key hlast ((run m (ops.map (DocOp.op key))).env now) hrun
  rw [Memory.perform_ret] at happlied
  obtain ⟨it, hit⟩ := Option.isSome_iff_exists.mp (hleaves.applied _ happlied)
  exact ⟨it, hit, (Memory.forall_lookup_perform _ now key hleaves.result it hit).replicable key⟩

/-- One member of an array is deleted, and another array is written under a path that is still
to be made. -/
theorem jSet_replicable_nested :
    let ops : List DocOp := [⟨1, .jSet (ascii "$.a") (ascii "[1,2]") 1 0 0⟩,
      ⟨2, .jDel (ascii "$.a[0]") 2 0⟩]
    let r := (run (Memory.newMemory 0 0) (ops.map (DocOp.op [0x6B]))).perform 3 [0x6B]
      (jSet [0x6B] (ascii "$.b.c") (ascii "[3,[4]]") 3 0 0)
    (r.1.lookup [0x6B]).map (fun it => it.entry.value) =
        some (ascii "\x7b\"a\":[2],\"b\":\x7b\"c\":[3,[4]]\x7d\x7d") ∧
      ∃ it, r.1.lookup [0x6B] = some it ∧ Replicable [0x6B] it := by
  intro ops r
  exact ⟨by decide +kernel, jSet_replicable (Memory.newMemory 0 0) [0x6B] rfl ops
    (by decide +kernel) 3 (ascii "$.b.c") (ascii "[3,[4]]") 3 0 0 (by decide +kernel)
    (by decide +kernel)⟩

/-- Writing the value under one name of a document that does not exist yet. -/
theorem DocCarrier.perform_under_name {α : Type} [Stored α] (D : DocCarrier α) (key : Bytes)
    (hraw : JsonX.decode raw = some val) :
    let r := (Memory.newMemory 0 0 : Memory α).perform 0 key
      (D.set key [0x24, 0x2E, 0x61] raw 1 0 0)
    r.2 = (true, false) ∧ r.1.lookup key = some
      (D.item ⟨JsonX.encode (.obj [(['a'], val)]), 1, 0, flagJSON⟩ (.obj [(['a'], val)])) := by
  intro r
  have hpath : JsonX.parsePath [0x24, 0x2E, 0x61] = some [.key ['a']] := by decide +kernel
  have hnone : (Memory.newMemory 0 0 : Memory α).lookup key = none := rfl
  have hplan : D.set key [0x24, 0x2E, 0x61] raw 1 0 0 ((Memory.newMemory 0 0 : Memory α).env 0)
      none = D.commitInsert key (.obj [(['a'], val)]) 1 0 0 := by
    simp only [DocCarrier.set, hraw, hpath]
    rfl
  rw [DocCarrier.commitInsert, if_neg (by simp [overLimit])] at hplan
  have hlookup := Memory.lookup_perform_of_unbounded (Memory.newMemory 0 0 : Memory α) (le_refl 0) 0
    key (D.set key [0x24, 0x2E, 0x61] raw 1 0 0) key
  rw [Memory.expected, if_pos rfl, hnone, hplan] at hlookup
  refine ⟨?_, hlookup⟩
  rw [show r.2 = _ from Memory.perform_ret _ 0 key _, hnone, hplan, hlookup]
  rfl

/-- One more level than the decoder takes. -/
theorem decode_under_name (hval : JsonX.Storable val) (hdepth : depth val = JsonX.maxNestingDepth) :
    JsonX.decode (JsonX.encode (.obj [(['a'], val)])) = none := by
  have hfits : Fits (JsonX.maxNestingDepth + 1) (.obj [(['a'], val)]) :=
    .obj _ _ (List.pairwise_singleton _ _) (List.forall_mem_singleton.mpr hval)
  have hnot : ¬ depth (.obj [(['a'], val)]) ≤ JsonX.maxNestingDepth := by
    rw [depth, depthMembers, depthMembers, hdepth]
    omega
  rw [← JsonX.isSome_decode_encode_iff hfits] at hnot
  exact Option.not_isSome_iff_eq_none.mp hnot

theorem installed_of_decode_none (replica : Mem) (now : ℤ) (key : Bytes) {e : Entry}
    (h : JsonX.decode e.value = none) : (installed replica now key e).2 = false := by
  have hplan : jInstall key e.value e.version e.expireAt (replica.env now) (replica.lookup key) =
      .skip false := by
    simp only [jInstall, h]
  rw [installed, Memory.perform_ret, hplan]
  rfl

/-- The value that is written decodes, and its path is a good one; the document they
make is stored and no replica can read it. -/
theorem jSet_too_deep :
    let raw := JsonX.encode (deep JsonX.maxNestingDepth)
    let r := (Memory.newMemory 0 0 : Mem).perform 0 [0x6B]
      (jSet [0x6B] [0x24, 0x2E, 0x61] raw 1 0 0)
    r.2 = (true, false) ∧ ∃ it, r.1.lookup [0x6B] = some it ∧
      JsonX.decode it.entry.value = none ∧
      (installed (Memory.newMemory 0 0) 0 [0x6B] it.entry).2 = false := by
  intro raw r
  have hval : JsonX.Storable (deep JsonX.maxNestingDepth) := fits_deep JsonX.maxNestingDepth
  have hbad := decode_under_name hval (depth_deep JsonX.maxNestingDepth)
  obtain ⟨happlied, hlookup⟩ := lazyDoc.perform_under_name [0x6B] (JsonX.decode_encode hval)
  rw [← jSet_eq] at happlied hlookup
  exact ⟨happlied, _, hlookup, hbad, installed_of_decode_none _ 0 [0x6B] hbad⟩

end Runs

end Supercache

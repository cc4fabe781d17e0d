import Supercache.Accounting
import Supercache.PlainResults
import Supercache.SnapshotCodecs

/-!
Everything that is stored can be read back. Whatever the mutators and installs are called with,
the bytes that a structure ends up with, once the value held back has been written out, are
accepted by its decoder, so a live structure is never reported as missing.
-/
namespace Supercache

open Wire Lru Store JsonText

inductive Structure where
  | mode (m : Mode)
  | counter
  | hll
  | topk
  | cms
  | vectorSet
  | stream

namespace Structure

def flag : Structure → ℕ
  | mode m => m.kind.flag
  | counter => flagCounter
  | hll => flagHLL
  | topk => flagTopK
  | cms => flagCMS
  | vectorSet => flagVectorSet
  | stream => flagStream

/-- What the decoder accepts; of a sketch only the size is looked at. `k` is the number of
slots of a Space-Saving table. -/
def decodes (k : ℕ) : Structure → Bytes → Bool
  | mode m, b => (m.kind.decode b).isSome
  | counter, b => (Counter.decode b).isSome
  | hll, b => b.length = HllX.denseSize
  | topk, b => (TopKX.decode b k).isSome
  | cms, b => b.length = CmsX.denseSize
  | vectorSet, b => (VecSet.decodeSnapshot b).isSome
  | stream, b => (Stream.decodeSnapshot b).isSome

def isPlain : Structure → Bool
  | mode _ => false
  | _ => true

theorem flag_mem (s : Structure) : s.flag ∈ Entry.pinnedFlags := by
  cases s with
  | mode m => cases m <;> decide
  | _ => decide

variable {s : Structure}

theorem flag_inj {s' : Structure} (h : s.flag = s'.flag) : s = s' := by
  rcases s with (_ | _ | _ | _ | _) | _ | _ | _ | _ | _ | _ <;>
    rcases s' with (_ | _ | _ | _ | _) | _ | _ | _ | _ | _ | _ <;>
      first
      | rfl
      | exact absurd h (by decide)

theorem flag_ne_mode (hs : s.isPlain = true) (m : Mode) : s.flag ≠ m.kind.flag := by
  intro h
  have hflag : s.flag = (Structure.mode m).flag := h
  rw [flag_inj hflag] at hs
  exact absurd hs (by simp [isPlain])

theorem mode_inj {m m' : Mode} (h : m.kind.flag = m'.kind.flag) : m = m' := by
  have hflag : (Structure.mode m).flag = (Structure.mode m').flag := h
  exact Structure.mode.inj (flag_inj hflag)

end Structure

def idleFlags : List ℕ := [flagTombstone, flagBloom, flagJSON, flagBitmap]

theorem flag_not_idle (s : Structure) : s.flag ∉ idleFlags := by
  cases s with
  | mode m => cases m <;> decide
  | _ => decide

theorem eq_of_and_ne_zero {a b : ℕ} (ha : a ∈ Entry.pinnedFlags) (hb : b ∈ Entry.pinnedFlags)
    (h : a &&& b ≠ 0) : a = b := by
  have hall : ∀ a ∈ Entry.pinnedFlags, ∀ b ∈ Entry.pinnedFlags, a &&& b ≠ 0 → a = b := by decide
  exact hall a ha b hb h

/-- The value of a mode that an item holds can be encoded, and the bytes of a clean one
can be decoded. -/
structure Mode.Held (m : Mode) (it : LruItem) : Prop where
  backed : (m.kind.slot it).Backed
  storable : ∀ s, (m.kind.slot it).cache = some s → m.Storable s
  clean : (m.kind.slot it).dirty = false → (m.kind.decode it.entry.value).isSome = true

structure Readable (k : ℕ) (it : LruItem) : Prop where
  kind : it.entry.flags ∈ Entry.pinnedFlags
  plain : ∀ s : Structure, s.isPlain = true → it.entry.flags = s.flag →
    s.decodes k it.entry.value = true
  held : ∀ m : Mode, it.entry.flags = m.kind.flag → m.Held it

variable {m : Mode} {it : LruItem} {k : ℕ}

theorem held_setSlot {s : m.Value} {dirty : Bool} (hs : m.Storable s)
    (hclean : dirty = false → (m.kind.decode it.entry.value).isSome = true) :
    m.Held (m.kind.setSlot it ⟨some s, dirty⟩) where
  backed := by
    rw [m.kind.slot_setSlot]
    exact fun _ => Option.some_ne_none s
  storable s' hs' := by
    rw [m.kind.slot_setSlot] at hs'
    rw [← Option.some.inj hs']
    exact hs
  clean := by
    rw [m.kind.slot_setSlot, m.kind.entry_setSlot]
    exact hclean

theorem held_settle {s : m.Value} (hs : m.Storable s) : m.Held (m.settle it s) := by
  refine held_setSlot hs fun _ => ?_
  rw [m.decode_encode s hs]
  rfl

namespace Readable

theorem flags_eq (h : Readable k it) {flag : ℕ} (hflag : flag ∈ Entry.pinnedFlags)
    (hhas : it.entry.has flag = true) : it.entry.flags = flag :=
  eq_of_and_ne_zero h.kind hflag (by simpa [Entry.has] using hhas)

theorem of_idle (h : it.entry.flags ∈ idleFlags) : Readable k it where
  kind := by
    have hsub : ∀ flag ∈ idleFlags, flag ∈ Entry.pinnedFlags := by decide
    exact hsub _ h
  plain s _ hflags := absurd (hflags ▸ h) (flag_not_idle s)
  held m hflags := by
    rw [hflags] at h
    exact absurd h (flag_not_idle (.mode m))

/-- An entry of a structure without a cached value. -/
theorem of_plain (s : Structure) (hs : s.isPlain = true) (hflags : it.entry.flags = s.flag)
    (h : s.decodes k it.entry.value = true) : Readable k it where
  kind := hflags ▸ s.flag_mem
  plain _ _ hflags' := Structure.flag_inj (hflags.symm.trans hflags') ▸ h
  held m hflags' := absurd (hflags.symm.trans hflags') (Structure.flag_ne_mode hs m)

variable {m : Mode}

theorem of_mode (hflags : it.entry.flags = m.kind.flag) (h : m.Held it) : Readable k it where
  kind := hflags ▸ Structure.flag_mem (.mode m)
  plain s hs hflags' := absurd (hflags'.symm.trans hflags) (Structure.flag_ne_mode hs m)
  held m' hflags' := by
    rw [← Structure.mode_inj (hflags.symm.trans hflags')]
    exact h

variable (h : Readable k it)
include h

theorem load (hhas : it.entry.has m.kind.flag = true) :
    ∃ s, m.kind.load it = some s ∧ m.Storable s := by
  have hheld := h.held m (h.flags_eq (Structure.flag_mem (.mode m)) hhas)
  unfold Kind.load
  cases hcache : (m.kind.slot it).cache with
  | some s => exact ⟨s, rfl, hheld.storable s hcache⟩
  | none =>
    have hclean : (m.kind.slot it).dirty = false := by
      by_contra hdirty
      exact hheld.backed (by simpa using hdirty) hcache
    obtain ⟨s, hs⟩ := Option.isSome_iff_exists.mp (hheld.clean hclean)
    exact ⟨s, hs, m.storable_of_decode hs⟩

/-- A value of a mode is written out, and its bytes are accepted. -/
theorem held_flush (hflags : it.entry.flags = m.kind.flag) :
    m.Held it.flush.1 ∧ (m.kind.slot it.flush.1).dirty = false := by
  have hheld := h.held m hflags
  cases hdirty : (m.kind.slot it).dirty with
  | true =>
    obtain ⟨s, hs⟩ := Option.ne_none_iff_exists'.mp (hheld.backed hdirty)
    have hslot : m.kind.slot it = ⟨some s, true⟩ := by rw [← hs, ← hdirty]
    rw [Mode.flush_of_dirty hflags hslot]
    refine ⟨held_settle (hheld.storable s hs), ?_⟩
    rw [Mode.settle, m.kind.slot_setSlot]
  | false =>
    have hpending := m.kind.pending_of_clean hdirty
    rw [Mode.flush_of_flags hflags, m.kind.flushValue_of_none hpending]
    exact ⟨hheld, hdirty⟩

/-- Outside the modes nothing is held back. -/
theorem flush_of_bare (hidle : it.entry.flags ∉ idleFlags)
    (hmode : ∀ m : Mode, it.entry.flags ≠ m.kind.flag) : it.flush.1 = it := by
  have hnone : ∀ m : Mode, m.kind.pending it = none := by
    intro m
    refine m.kind.pending_of_not_has (Bool.eq_false_iff.mpr fun hhas => hmode m ?_)
    exact h.flags_eq (Structure.flag_mem (.mode m)) hhas
  have hjson : it.entry.has flagJSON = false := by
    refine Bool.eq_false_iff.mpr fun hhas => hidle ?_
    rw [h.flags_eq (by decide) hhas]
    decide
  have hsettled : it.Settled := ⟨hnone .set, hnone .zset, hnone .geo, hnone .list, hnone .hash,
    it.json_settled hjson⟩
  rw [hsettled.flush]

theorem flush : Readable k it.flush.1 := by
  obtain ⟨blob, hentry⟩ := it.entry_flush
  by_cases hidle : it.entry.flags ∈ idleFlags
  · exact of_idle (by rw [hentry]; exact hidle)
  · by_cases hmode : ∃ m : Mode, it.entry.flags = m.kind.flag
    · obtain ⟨m, hflags⟩ := hmode
      exact of_mode (by rw [hentry]; exact hflags) (h.held_flush hflags).1
    · rw [h.flush_of_bare hidle (not_exists.mp hmode)]
      exact h

end Readable

section Verbs

variable {ρ : Type} {k : ℕ} {key : Bytes}

def Preserves (k : ℕ) (v : Verb LruItem ρ) : Prop :=
  ∀ env old, (∀ it ∈ old, Readable k it) → ∀ it ∈ (v env old).act.result old, Readable k it

variable {v : Verb LruItem ρ}

theorem Preserves.map {τ : Type} (h : Preserves k v) (f : ρ → τ) : Preserves k (v.map f) := h

theorem Preserves.ite {c : Prop} [Decidable c] {r : ρ} (h : ¬ c → Preserves k v) :
    Preserves k (fun env old => if c then .skip r else v env old) := by
  intro env old hold
  dsimp only
  by_cases hc : c
  · rw [if_pos hc]
    exact hold
  · rw [if_neg hc]
    exact h hc env old hold

section Plain

theorem preserves_get : Preserves k (Store.get key) := by
  intro env old hold
  unfold Store.get
  split
  · exact hold
  · split
    · exact fun _ => nofun
    · split
      · exact hold
      · intro it hit
        rw [result_touch] at hit
        rw [← Option.some.inj hit]
        exact (hold _ rfl).flush

theorem preserves_peek : Preserves k (peek key) := by
  intro env old hold
  unfold peek
  split
  · exact hold
  · split
    · exact fun _ => nofun
    · intro it hit
      rw [result_touch] at hit
      rw [← Option.some.inj hit]
      exact (hold _ rfl).flush

theorem preserves_peekVersion : Preserves k (peekVersion : Verb LruItem (Option ℕ)) := by
  intro env old hold
  unfold peekVersion
  split
  · exact hold
  · split
    · exact fun _ => nofun
    · exact hold

theorem preserves_readLive (flag : ℕ) (miss : ρ) (f : Entry → ρ) :
    Preserves k (readLive flag miss f) :=
  fun _ _ hold it hit => hold it (result_readLive hit)

theorem preserves_delete : Preserves k delete := by
  intro env old _ it hit
  rw [result_delete] at hit
  exact absurd hit (by simp)

theorem preserves_deleteIfVersion (v : ℕ) : Preserves k (deleteIfVersion key v) := by
  intro env old hold it hit
  rcases result_deleteIfVersion hit with hkept | htomb
  · exact hold it hkept
  · refine Readable.of_idle ?_
    rw [show it.entry = tombstone env v from htomb]
    change flagTombstone ∈ idleFlags
    decide

variable {makes : Option Bytes → Bytes → Prop} {old : Option LruItem} {it : LruItem} {blob : Bytes}

/-- A plain mode whose operation makes bytes that are accepted. -/
theorem Readable.written {s : Structure} (hs : s.isPlain = true)
    (hmakes : ∀ cur b, makes cur b → s.decodes k b = true) (hold : ∀ it ∈ old, Readable k it)
    (h : Written s.flag makes old it) : Readable k it := by
  cases h with
  | kept h => exact hold it h
  | new h hflags => exact .of_plain s hs hflags (hmakes _ _ h)
  | amended a ha ht hhas h hflags => exact .of_plain s hs hflags (hmakes _ _ h)

theorem Readable.written_idle {flag : ℕ} (hflag : flag ∈ idleFlags)
    (hold : ∀ it ∈ old, Readable k it) (h : Written flag makes old it) : Readable k it := by
  cases h with
  | kept h => exact hold it h
  | new h hflags => exact .of_idle (hflags ▸ hflag)
  | amended a ha ht hhas h hflags => exact .of_idle (hflags ▸ hflag)

variable {s : Structure} (hs : s.isPlain = true) {version : ℕ} {expireAt : ℤ}

include hs

theorem preserves_mutatePlain {refused : ρ} {op : Option Bytes → Outcome ρ}
    (hop : ∀ cur b r, op cur = .commit b r → s.decodes k b = true) :
    Preserves k (mutatePlain s.flag key version expireAt refused op) := by
  intro env old hold it hit
  refine Readable.written hs (fun cur b hb => ?_) hold (written_mutatePlain hit)
  obtain ⟨r, hr⟩ := hb
  exact hop cur b r hr

theorem preserves_removePlain {op : Bytes → Option Bytes}
    (hop : ∀ cur b, op cur = some b → s.decodes k b = true) :
    Preserves k (removePlain s.flag key version expireAt op) := by
  intro env old hold it hit
  refine Readable.written hs (fun _ b hb => ?_) hold (written_removePlain hit)
  obtain ⟨cur, -, hr⟩ := hb
  exact hop cur b hr

theorem preserves_plainInstall {gate : Entry → Option Tally} (h : s.decodes k blob = true) :
    Preserves k (plainInstall gate s.flag key blob version expireAt) := by
  intro env old hold it hit
  refine Readable.written hs (fun _ b hb => ?_) hold (written_plainInstall hit)
  rw [hb.2]
  exact h

theorem preserves_checkedInstall {ok : Bool} (h : ok = true → s.decodes k blob = true) :
    Preserves k (checkedInstall ok s.flag key blob version expireAt) := by
  intro env old hold
  unfold checkedInstall
  by_cases hok : ok
  · rw [if_pos hok]
    exact preserves_plainInstall hs (h hok) env old hold
  · rw [if_neg hok]
    exact hold

end Plain

section Counters

theorem decodes_counter (v : ℤ) : Structure.counter.decodes k (Counter.encode v) = true :=
  Counter.isSome_decode_encode v

theorem preserves_cIncr (delta : ℤ) (version : ℕ) (expireAt : ℤ) :
    Preserves k (cIncr key delta version expireAt) := by
  have hwritten : ∀ {it : LruItem} {v : ℤ}, it.entry.flags = flagCounter →
      it.entry.value = Counter.encode v → Readable k it := by
    intro it v hflags hvalue
    have hdecodes : Structure.counter.decodes k it.entry.value = true := by
      rw [hvalue]
      exact decodes_counter v
    exact Readable.of_plain .counter rfl hflags hdecodes
  intro env old hold it hit
  unfold cIncr at hit
  split at hit
  · rw [← Option.some.inj hit]
    exact hwritten rfl rfl
  · split at hit
    · rw [← Option.some.inj hit]
      exact hwritten rfl rfl
    · split at hit
      · split at hit
        · exact hold it hit
        · rw [← Option.some.inj hit]
          exact hwritten rfl rfl
      · split at hit
        · exact hold it hit
        · split at hit
          · exact hold it hit
          · split at hit
            · exact hold it hit
            · rw [← Option.some.inj hit]
              exact hwritten rfl rfl

/-- A filter keeps the flags it has. -/
theorem flags_bloomMutate {m' k' version : ℕ} {expireAt : ℤ} {f : Bloom.Filter → Bloom.Filter}
    {env : Env} {old : Option LruItem} {it : LruItem}
    (h : (bloomMutate key m' k' version expireAt f env old).act.result old = some it) :
    old = some it ∨ it.entry.flags = flagBloom ∨
      ∃ a, old = some a ∧ a.entry.has flagBloom = true ∧ it.entry.flags = a.entry.flags := by
  cases old with
  | none =>
    simp only [bloomMutate] at h
    split at h
    · simp [Plan.drop, Act.result] at h
    · rw [← Option.some.inj h]
      exact .inr (.inl rfl)
  | some a =>
    simp only [bloomMutate] at h
    cases hopen : Bloom.open_ m' k' (List.replicate ((m' + 7) / 8) 0) with
    | none =>
      simp only [hopen] at h
      split at h
      · simp [Plan.drop, Act.result] at h
      · split at h
        · split at h
          · exact .inl h
          · simp [Plan.drop, Act.result] at h
        · by_cases hlacks : (!(entry a).has flagBloom)
          · rw [if_pos hlacks] at h
            exact .inl h
          · rw [if_neg hlacks] at h
            split at h
            · exact .inl h
            · rw [← Option.some.inj h]
              exact .inr (.inr ⟨a, rfl, by simpa [Stored.entry] using hlacks, rfl⟩)
    | some filter =>
      simp only [hopen] at h
      split at h
      · rw [← Option.some.inj h]
        exact .inr (.inl rfl)
      · split at h
        · split at h
          · exact .inl h
          · rw [← Option.some.inj h]
            exact .inr (.inl rfl)
        · by_cases hlacks : (!(entry a).has flagBloom)
          · rw [if_pos hlacks] at h
            exact .inl h
          · rw [if_neg hlacks] at h
            split at h
            · exact .inl h
            · rw [← Option.some.inj h]
              exact .inr (.inr ⟨a, rfl, by simpa [Stored.entry] using hlacks, rfl⟩)

theorem preserves_bloomMutate (m' k' version : ℕ) (expireAt : ℤ) (f : Bloom.Filter → Bloom.Filter) :
    Preserves k (bloomMutate key m' k' version expireAt f) := by
  have hidle : flagBloom ∈ idleFlags := by decide
  intro env old hold it hit
  rcases flags_bloomMutate hit with hkept | hflags | ⟨a, ha, hhas, hflags⟩
  · exact hold it hkept
  · exact Readable.of_idle (hflags ▸ hidle)
  · rw [(hold a ha).flags_eq (by decide) hhas] at hflags
    exact Readable.of_idle (hflags ▸ hidle)

end Counters

section Sketches

theorem preserves_hllAdd (item : Bytes) (version : ℕ) (expireAt maxValue : ℤ) :
    Preserves k (hllAdd key item version expireAt maxValue) := by
  -- the registers are those of the entry or new ones, of the same size
  have hmade : ∀ regs : Bytes, Structure.hll.decodes k
      (HllX.add (if regs.length = HllX.denseSize then regs else HllX.new) item) = true := by
    intro regs
    simp only [Structure.decodes, HllX.add_length, decide_eq_true_eq]
    split
    · assumption
    · exact List.length_replicate
  refine Preserves.ite fun _ => preserves_mutatePlain (s := .hll) rfl fun cur b r hop => ?_
  rw [← (Outcome.commit.inj hop).1]
  exact hmade _

theorem preserves_cmsIncr (item : Bytes) (n version : ℕ) (expireAt maxValue : ℤ) :
    Preserves k (cmsIncr key item n version expireAt maxValue) := by
  refine Preserves.ite fun _ => Preserves.ite fun _ =>
    preserves_mutatePlain (s := .cms) rfl fun cur b r hop => ?_
  unfold cmsApply at hop
  split at hop
  · simp at hop
  next blob hincr =>
    rw [← (Outcome.commit.inj hop).1]
    simpa [Structure.decodes] using CmsX.incr_length hincr

end Sketches

section Snapshots

theorem commitWithin_eq {maxValue : ℤ} {blob b : Bytes} {r : Bool → Bool × Bool}
    (h : commitWithin maxValue blob = .commit b r) : blob = b := by
  unfold commitWithin at h
  split at h
  · simp at h
  · exact (Outcome.commit.inj h).1

theorem preserves_topkAdd {item : Bytes} (hitem : item.length < 2 ^ 64) (version : ℕ)
    (expireAt : ℤ) (maxValue : ℤ) : Preserves k (topkAdd key item version expireAt k maxValue) := by
  refine Preserves.ite fun hk => Preserves.ite fun _ =>
    preserves_mutatePlain (s := .topk) rfl fun cur b r hop => ?_
  unfold topkApply at hop
  dsimp only at hop
  split at hop
  · simp at hop
  next t' hbind =>
    obtain ⟨t, ht, hadd⟩ := Option.bind_eq_some_iff.mp hbind
    have hvalid : t.Valid ∧ t.k = k := by
      cases cur with
      | none =>
        rw [← Option.some.inj ht]
        exact ⟨TopKX.valid_new (by omega), rfl⟩
      | some blob => exact TopKX.valid_of_decode ht
    obtain ⟨hvalid', hk'⟩ := hvalid.1.add hitem hadd
    have hroom : t'.slots.length ≤ k := hvalid.2 ▸ hk' ▸ hvalid'.bound
    obtain ⟨t'', hdecode, -⟩ := TopKX.decode_encode hvalid' (by omega) hroom
    rw [commitWithin_eq hop] at hdecode
    exact Option.isSome_iff_exists.mpr ⟨t'', hdecode⟩

theorem decodes_vectorSet {s : VecSet.VSet} (h : s.Valid) :
    Structure.vectorSet.decodes k s.encode = true := by
  rw [Structure.decodes, VecSet.decodeSnapshot_encode h]
  rfl

theorem preserves_vAdd (member : Bytes) (vec : List UInt32) (version : ℕ) (expireAt maxValue : ℤ) :
    Preserves k (vAdd key member vec version expireAt maxValue) := by
  refine Preserves.ite fun hargs =>
    preserves_mutatePlain (s := .vectorSet) rfl fun cur b r hop => ?_
  simp only [not_or, Bool.not_eq_true, Bool.not_eq_false'] at hargs
  unfold vsApply at hop
  dsimp only at hop
  split at hop
  · simp at hop
  next s hs =>
    have hvalid : s.Valid := by
      cases cur with
      | none =>
        rw [← Option.some.inj hs]
        exact VecSet.valid_newSet hargs.2.2.1
      | some blob => exact VecSet.valid_of_decodeSnapshot hs
    split at hop
    · simp at hop
    · rcases hadd : s.add member vec with _ | s'
      · simp [hadd] at hop
      · simp only [hadd] at hop
        rw [← commitWithin_eq hop]
        exact decodes_vectorSet (hvalid.add hadd).1

theorem preserves_vRem (member : Bytes) (version : ℕ) (expireAt : ℤ) :
    Preserves k (vRem key member version expireAt) := by
  refine preserves_removePlain (s := .vectorSet) rfl fun cur b hop => ?_
  obtain ⟨s, hs, rfl⟩ := Option.map_eq_some_iff.mp hop
  exact decodes_vectorSet ((VecSet.valid_of_decodeSnapshot hs).rem member)

theorem decodes_stream {l : Stream.Log} (h : l.Valid) :
    Structure.stream.decodes k l.encode = true := by
  rw [Structure.decodes, Stream.decodeSnapshot_encode h]
  rfl

theorem preserves_xAdd {payload : Bytes} (hpayload : payload.length < 2 ^ 64) (version : ℕ)
    (expireAt maxValue autoTrim : ℤ) {nowMilli : ℕ} (hnow : nowMilli < 2 ^ 64) :
    Preserves k (xAdd key payload version expireAt maxValue autoTrim nowMilli) := by
  refine preserves_mutatePlain (s := .stream) rfl fun cur b r hop => ?_
  obtain ⟨-, l, hvalid, rfl, -⟩ := valid_of_sxApply hpayload hnow hop
  exact decodes_stream hvalid

theorem preserves_xDel (id : Bytes) (version : ℕ) (expireAt : ℤ) :
    Preserves k (xDel key id version expireAt) := by
  intro env old hold
  unfold xDel
  split
  · exact hold
  · refine preserves_removePlain (s := .stream) rfl (fun cur b hop => ?_) env old hold
    obtain ⟨l, hl, rfl⟩ := Option.map_eq_some_iff.mp hop
    exact decodes_stream ((Stream.valid_of_decodeSnapshot hl).del _ _)

theorem preserves_xTrim (maxLen : ℤ) (version : ℕ) (expireAt : ℤ) :
    Preserves k (xTrim key maxLen version expireAt) := by
  refine Preserves.ite fun _ => (preserves_removePlain (s := .stream) rfl fun cur b hop => ?_)
  obtain ⟨l, hl, rfl⟩ := Option.map_eq_some_iff.mp hop
  exact decodes_stream ((Stream.valid_of_decodeSnapshot hl).trim maxLen)

theorem preserves_sxInstall (blob : Bytes) (version : ℕ) (expireAt : ℤ) :
    Preserves k (sxInstall key blob version expireAt) := by
  intro env old hold
  unfold sxInstall
  by_cases hok : (Stream.decodeSnapshot blob).isSome
  · rw [if_pos hok]
    exact preserves_plainInstall (s := .stream) rfl hok env old hold
  · rw [if_neg hok]
    exact hold

end Snapshots

section Cached

variable {m : Mode} {s : m.Value} {it : LruItem} {fits : Prop} {old : Option LruItem}
  {act : Act LruItem}

/-- A new item around a value that can be encoded. -/
theorem readable_itemOf {e : Entry} (hflags : e.flags = m.kind.flag) (hs : m.Storable s)
    (hdecode : (m.kind.decode e.value).isSome = true) : Readable k (m.kind.itemOf e s) := by
  refine Readable.of_mode ?_ (held_setSlot hs fun _ => hdecode)
  rw [Kind.itemOf, m.kind.entry_setSlot]
  exact hflags

theorem readable_commit {it' : LruItem} (hs : m.Storable s) {version : ℕ} {expireAt : ℤ}
    (h : (m.kind.commit key it s version expireAt).result (some it) = some it') :
    Readable k it' := by
  rw [← Option.some.inj h]
  refine Readable.of_mode ?_ (held_setSlot hs nofun)
  rw [m.kind.entry_setSlot]
  rfl

/-- What a call on a mode leaves is readable, if its arguments fit. -/
theorem ModeFootprint.readable (h : ModeFootprint m key fits old act) (hfits : fits)
    (hold : ∀ it ∈ old, Readable k it) : ∀ it ∈ act.result old, Readable k it := by
  cases h with
  | keep => exact hold
  | remove => exact fun _ => nofun
  | create e s hflags hvalue =>
    intro it hit
    rw [← Option.some.inj hit]
    rcases hvalue with ⟨hvalue, hstore⟩ | hdecode
    · refine readable_itemOf hflags (hstore hfits) ?_
      rw [hvalue, m.decode_encode s (hstore hfits)]
      rfl
    · exact readable_itemOf hflags (m.storable_of_decode hdecode) (by rw [hdecode]; rfl)
  | commit a s s' version expireAt hsome hflag hload hstore =>
    subst hsome
    obtain ⟨s₀, hs₀, hstorable⟩ := (hold a rfl).load hflag
    rw [hload] at hs₀
    rw [← Option.some.inj hs₀] at hstorable
    exact fun it hit => readable_commit (hstore hfits hstorable) hit
  | decoded a s hsome hflag hcache hdecode =>
    subst hsome
    intro it hit
    rw [← Option.some.inj hit]
    refine Readable.of_mode ?_ (held_setSlot (m.storable_of_decode hdecode) fun _ => ?_)
    · rw [m.kind.entry_setSlot]
      exact (hold a rfl).flags_eq (Structure.flag_mem (.mode m)) hflag
    · rw [hdecode]
      rfl

theorem Readable.of_json (h : it.entry.flags = flagJSON) : Readable k it := by
  refine .of_idle ?_
  rw [h]
  decide

/-- A document has no decoder of its own to satisfy. -/
theorem DocFootprint.readable (h : DocFootprint key fits old act) (hold : ∀ it ∈ old, Readable k it)
    : ∀ it ∈ act.result old, Readable k it := by
  cases h with
  | keep => exact hold
  | remove => exact fun _ => nofun
  | same a hsome =>
    subst hsome
    exact hold
  | document a a' doc hsome hflag hdoc =>
    subst hsome
    intro it hit
    rw [← Option.some.inj hit, (jDoc_spec hdoc).1]
    exact .of_json ((hold a rfl).flags_eq (by decide) hflag)
  | replaced a doc version expireAt hsome _ =>
    subst hsome
    intro it hit
    rw [← Option.some.inj hit]
    exact .of_json rfl
  | written e doc hflags _ =>
    intro it hit
    rw [← Option.some.inj hit]
    exact .of_json hflags

end Cached

end Verbs

/-- The calls on structures: no entry comes from outside, and lengths and clock readings
are 64-bit. The tables all have `k` slots. -/
def PlainCall.Structured (k : ℕ) : PlainCall → Prop
  | set _ | acceptIfNewer _ | acceptNegative _ => False
  | topkAdd item _ _ k' _ => k' = k ∧ item.length < 2 ^ 64
  | topkInstall _ _ _ k' => k' = k
  | xAdd payload _ _ _ _ nowMilli => payload.length < 2 ^ 64 ∧ nowMilli < 2 ^ 64
  | _ => True

def CachedCall.Structured : CachedCall → Prop
  | setAdd item _ _ | lPush item _ _ | rPush item _ _ => item.length < 2 ^ 64
  | zAdd member _ _ _ | geoAdd member _ _ _ => member.length < 2 ^ 64
  | hSet field value _ _ => field.length < 2 ^ 64 ∧ value.length < 2 ^ 64
  | _ => True

def Call.Structured (k : ℕ) : Call → Prop
  | plain c => c.Structured k
  | cached c => c.Structured

section Table

variable {k : ℕ} {key : Bytes}

/-- No plain call leaves bytes that do not decode. -/
theorem PlainCall.preserves (c : PlainCall) (hc : c.Structured k) : Preserves k (c.verb key) := by
  cases c with
  | set e | acceptIfNewer e | acceptNegative e => exact absurd hc id
  | get => exact preserves_get
  | peek => exact preserves_peek
  | peekVersion => exact preserves_peekVersion
  | delete => exact preserves_delete
  | deleteIfVersion v => exact preserves_deleteIfVersion v
  | cIncr delta v x => exact preserves_cIncr delta v x
  | cGet | hasCounter => exact (preserves_readLive flagCounter _ _).map _
  | cInstall blob v x => exact preserves_checkedInstall (s := .counter) rfl id
  | bloomAdd item m k' v x => exact preserves_bloomMutate m k' v x _
  | bloomTest => exact (preserves_readLive flagBloom _ _).map _
  | bloomMerge bits m k' v x =>
    intro env old hold
    change ∀ it ∈ (Store.bloomMerge key bits m k' v x env old).act.result old, _
    unfold Store.bloomMerge
    split
    · exact hold
    · exact preserves_bloomMutate m k' v x _ env old hold
  | bSet offset bit v x maxValue =>
    intro env old hold it hit
    change (Store.bSet key offset bit v x maxValue env old).act.result old = some it at hit
    unfold Store.bSet at hit
    split at hit
    · exact hold it hit
    · split at hit
      · exact hold it hit
      · exact Readable.written_idle (by decide) hold (written_mutatePlain hit)
  | bGet | bCount | bPos | hasBitmap => exact (preserves_readLive flagBitmap _ _).map _
  | bInstall blob v x =>
    intro env old hold it hit
    exact Readable.written_idle (by decide) hold (written_plainInstall hit)
  | hllAdd item v x maxValue => exact preserves_hllAdd item v x maxValue
  | hllCount | hasHLL => exact (preserves_readLive flagHLL _ _).map _
  | hllInstall blob v x => exact preserves_checkedInstall (s := .hll) rfl id
  | topkAdd item v x k' maxValue =>
    obtain ⟨rfl, hitem⟩ := hc
    exact preserves_topkAdd hitem v x maxValue
  | topkList | hasTopK => exact (preserves_readLive flagTopK _ _).map _
  | topkInstall blob v x k' =>
    obtain rfl := hc
    exact preserves_checkedInstall (s := .topk) rfl id
  | cmsIncr item n v x maxValue => exact preserves_cmsIncr item n v x maxValue
  | cmsQuery | hasCMS => exact (preserves_readLive flagCMS _ _).map _
  | cmsInstall blob v x => exact preserves_checkedInstall (s := .cms) rfl id
  | vAdd member vec v x maxValue => exact preserves_vAdd member vec v x maxValue
  | vRem member v x => exact preserves_vRem member v x
  | vSim | vCard | vDim | vEmb | hasVectorSet => exact (preserves_readLive flagVectorSet _ _).map _
  | vsInstall blob v x => exact preserves_checkedInstall (s := .vectorSet) rfl id
  | xAdd payload v x maxValue autoTrim ms => exact preserves_xAdd hc.1 v x maxValue autoTrim hc.2
  | xDel id v x => exact preserves_xDel id v x
  | xTrim maxLen v x => exact preserves_xTrim maxLen v x
  | xRange start stop count rev =>
    intro env old hold it hit
    change (Store.xRange start stop count rev env old).act.result old = some it at hit
    unfold Store.xRange at hit
    split at hit
    · exact hold it (result_readLive hit)
    · exact hold it hit
  | xLen | hasStream => exact (preserves_readLive flagStream _ _).map _
  | sxInstall blob v x => exact preserves_sxInstall blob v x

theorem CachedCall.preserves (c : CachedCall) (hc : c.Structured) : Preserves k (c.verb key) := by
  intro env old hold
  cases c with
  | jSet path raw v x maxValue =>
    -- how deep the document is does not matter here
    have hdoc : DocFootprint key False old (Store.jSet key path raw v x maxValue env old).act :=
      footprint_jSet path raw v x maxValue fun h => h.elim
    exact hdoc.readable hold
  | _ =>
    cases CachedCall.cachedFootprint _ with
    | mode m h => exact h.readable hc hold
    | doc h => exact h.readable hold

theorem Call.preserves (c : Call) (hc : c.Structured k) : Preserves k (c.verb key) := by
  cases c with
  | plain c => exact c.preserves hc
  | cached c => exact c.preserves hc

end Table

def Memory.AllReadable (k : ℕ) (m : Mem) : Prop := ∀ key, ∀ it ∈ m.lookup key, Readable k it

theorem allReadable_newMemory (k : ℕ) (maxBytes ttl : ℤ) :
    (Memory.newMemory maxBytes ttl : Mem).AllReadable k := by
  intro key it hit
  have hnone : (Memory.newMemory maxBytes ttl : Mem).lookup key = none := rfl
  rw [hnone] at hit
  exact absurd hit (by simp)

theorem allReadable_step {m : Mem} {op : Op} (hop : op.call.Structured k) (h : m.AllReadable k) :
    (step m op).1.AllReadable k := by
  intro key it hit
  by_cases hkey : op.key = key
  · subst hkey
    exact Memory.forall_lookup_perform m op.now op.key (op.call.preserves hop _ _ (h op.key)) it hit
  · exact h key it (Memory.lookup_perform_of_ne m op.now hkey _ hit)

theorem allReadable_run {ops : List Op} (hops : ∀ op ∈ ops, op.call.Structured k) {m : Mem}
    (h : m.AllReadable k) : (run m ops).AllReadable k := by
  induction ops generalizing m with
  | nil => exact h
  | cons op ops ih =>
    rw [List.forall_mem_cons] at hops
    exact ih hops.2 (allReadable_step hops.1 h)

inductive Structure.Asks (k : ℕ) : Structure → Call → Prop
  | get (s) : Asks k s (.plain .get)
  | peek (s) : Asks k s (.plain .peek)
  | peekVersion (s) : Asks k s (.plain .peekVersion)
  | hasSet : Asks k (.mode .set) (.cached .hasSet)
  | hasZSet : Asks k (.mode .zset) (.cached .hasZSet)
  | hasGeo : Asks k (.mode .geo) (.cached .hasGeo)
  | hasList : Asks k (.mode .list) (.cached .hasList)
  | hasHash : Asks k (.mode .hash) (.cached .hasHash)
  | cGet : Asks k .counter (.plain .cGet)
  | hasCounter : Asks k .counter (.plain .hasCounter)
  | hllCount : Asks k .hll (.plain .hllCount)
  | hasHLL : Asks k .hll (.plain .hasHLL)
  | topkList : Asks k .topk (.plain (.topkList k))
  | hasTopK : Asks k .topk (.plain .hasTopK)
  | cmsQuery (item : Bytes) : Asks k .cms (.plain (.cmsQuery item))
  | hasCMS : Asks k .cms (.plain .hasCMS)
  | vCard : Asks k .vectorSet (.plain .vCard)
  | vDim : Asks k .vectorSet (.plain .vDim)
  | hasVectorSet : Asks k .vectorSet (.plain .hasVectorSet)
  | xRange (start stop : Bytes) (count : ℤ) (rev : Bool) :
    Asks k .stream (.plain (.xRange start stop count rev))
  | xLen : Asks k .stream (.plain .xLen)
  | hasStream : Asks k .stream (.plain .hasStream)

def Ret.absent : Ret → Bool
  | entry e => e.isNone
  | bool b => !b
  | optNat n => n.isNone
  | optInt n => n.isNone
  | chart xs => xs.isNone
  | range (.ok xs) => xs.isNone
  | _ => false

section Live

variable {ρ : Type} {k : ℕ} {s : Structure} {env : Env} {it : LruItem}

theorem Readable.not_tombstone (h : Readable k it) (hhas : it.entry.has s.flag = true) :
    it.entry.isTombstone = false := by
  refine Bool.eq_false_iff.mpr fun ht => flag_not_idle s ?_
  rw [← h.flags_eq s.flag_mem hhas, h.flags_eq (by decide) ht]
  decide

theorem Readable.flush_of_plain (h : Readable k it) (hs : s.isPlain = true)
    (hhas : it.entry.has s.flag = true) : it.flush.1 = it := by
  have hflags := h.flags_eq s.flag_mem hhas
  refine h.flush_of_bare (hflags ▸ flag_not_idle s) fun m => ?_
  rw [hflags]
  exact Structure.flag_ne_mode hs m

/-- The written-out value is accepted by the decoder. -/
theorem Readable.decodes_flush (h : Readable k it) (hhas : it.entry.has s.flag = true) :
    s.decodes k it.flush.1.entry.value = true := by
  have hflags := h.flags_eq s.flag_mem hhas
  cases hs : s.isPlain with
  | true =>
    rw [h.flush_of_plain hs hhas]
    exact h.plain s hs hflags
  | false =>
    obtain ⟨m, rfl⟩ : ∃ m, s = .mode m := by
      cases s with
      | mode m => exact ⟨m, rfl⟩
      | _ => exact absurd hs (by decide)
    obtain ⟨hheld, hclean⟩ := h.held_flush hflags
    exact hheld.clean hclean

variable (hx : it.entry.expired env.now = false)

include hx

theorem Readable.ret_readLive (h : Readable k it) (hs : s.isPlain = true)
    (hhas : it.entry.has s.flag = true) (miss : ρ) (f : Entry → ρ) (still : Bool) :
    (readLive s.flag miss f env (some it)).ret still = f it.flush.1.entry := by
  rw [h.flush_of_plain hs hhas]
  simp [readLive, Stored.entry, hx, h.not_tombstone hhas, hhas, Plan.skip]

variable {m : Mode} {g : ρ → Ret} {miss : ρ}

variable (h : Readable k it)
include h

theorem Readable.ret_read (hhas : it.entry.has m.kind.flag = true) :
    ∃ v : m.Value, ∀ (ρ : Type) (miss : ρ) (f : m.Value → ρ) (still : Bool),
      (m.kind.read miss f env (some it)).ret still = f v := by
  obtain ⟨v, hload, -⟩ := h.load hhas
  exact ⟨v, fun ρ miss f still =>
    m.kind.ret_read_of_live miss f hx (h.not_tombstone (s := .mode m) hhas) hhas hload still⟩

theorem Readable.not_absent_read (hhas : it.entry.has m.kind.flag = true)
    {f : m.Value → ρ} (hf : ∀ v, (g (f v)).absent = false) (still : Bool) :
    (((m.kind.read miss f).map g env (some it)).ret still).absent = false := by
  obtain ⟨v, hv⟩ := h.ret_read hx hhas
  change (g ((m.kind.read miss f env (some it)).ret still)).absent = false
  rw [hv ρ miss f still]
  exact hf v

theorem Readable.not_absent_readLive (hs : s.isPlain = true)
    (hhas : it.entry.has s.flag = true) {f : Entry → ρ}
    (hf : ∀ e : Entry, s.decodes k e.value = true → (g (f e)).absent = false) (still : Bool) :
    (((readLive s.flag miss f).map g env (some it)).ret still).absent = false := by
  change (g ((readLive s.flag miss f env (some it)).ret still)).absent = false
  rw [h.ret_readLive hx hs hhas miss f still]
  exact hf _ (h.decodes_flush hhas)

/-- No question about a readable structure says missing. -/
theorem Readable.not_absent (hhas : it.entry.has s.flag = true) {c : Call}
    (hc : s.Asks k c) (key : Bytes) (still : Bool) :
    ((c.verb key env (some it)).ret still).absent = false := by
  have ht := h.not_tombstone hhas
  cases hc with
  | get => simp [Call.verb, PlainCall.verb, Verb.map, Store.get, Stored.entry, hx, ht, Ret.absent]
  | peek => simp [Call.verb, PlainCall.verb, Verb.map, Store.peek, Stored.entry, hx, Ret.absent]
  | peekVersion =>
    simp [Call.verb, PlainCall.verb, Verb.map, Store.peekVersion, Stored.entry, hx, Ret.absent,
      Plan.skip]
  | hasSet => exact h.not_absent_read (m := .set) hx hhas (fun _ => rfl) still
  | hasZSet => exact h.not_absent_read (m := .zset) hx hhas (fun _ => rfl) still
  | hasGeo => exact h.not_absent_read (m := .geo) hx hhas (fun _ => rfl) still
  | hasList => exact h.not_absent_read (m := .list) hx hhas (fun _ => rfl) still
  | hasHash => exact h.not_absent_read (m := .hash) hx hhas (fun _ => rfl) still
  | cGet =>
    refine h.not_absent_readLive (s := .counter) hx rfl hhas (fun e he => ?_) still
    exact Option.isNone_eq_false_iff.mpr he
  | hasCounter =>
    refine h.not_absent_readLive (s := .counter) hx rfl hhas (fun e he => ?_) still
    exact congrArg not he
  | hllCount | hasHLL =>
    exact h.not_absent_readLive (s := .hll) hx rfl hhas (fun _ _ => rfl) still
  | topkList =>
    refine h.not_absent_readLive (s := .topk) hx rfl hhas (fun e he => ?_) still
    exact Option.isNone_eq_false_iff.mpr (by rw [Option.isSome_map]; exact he)
  | hasTopK => exact h.not_absent_readLive (s := .topk) hx rfl hhas (fun _ _ => rfl) still
  | cmsQuery | hasCMS =>
    exact h.not_absent_readLive (s := .cms) hx rfl hhas (fun _ _ => rfl) still
  | vCard | vDim =>
    refine h.not_absent_readLive (s := .vectorSet) hx rfl hhas (fun e he => ?_) still
    obtain ⟨vs, hvs⟩ := Option.isSome_iff_exists.mp he
    simp [Ret.absent, hvs]
  | hasVectorSet =>
    exact h.not_absent_readLive (s := .vectorSet) hx rfl hhas (fun _ _ => rfl) still
  | xRange start stop count rev =>
    change (Ret.range ((Store.xRange start stop count rev env (some it)).ret still)).absent = false
    unfold Store.xRange
    split
    · refine h.not_absent_readLive (g := fun xs => .range (.ok xs)) (s := .stream) hx rfl hhas
        (fun e he => ?_) still
      exact Option.isNone_eq_false_iff.mpr (by rw [Option.isSome_map]; exact he)
    · rfl
  | xLen =>
    refine h.not_absent_readLive (s := .stream) hx rfl hhas (fun e he => ?_) still
    exact Option.isNone_eq_false_iff.mpr (by rw [Option.isSome_map]; exact he)
  | hasStream =>
    refine h.not_absent_readLive (s := .stream) hx rfl hhas (fun e he => ?_) still
    exact congrArg not he

end Live

/-- Whatever the calls were, a structure that is in the store has bytes that its decoder
accepts, and while it lives no read reports it as missing: the reads that can tell do not
say so, and any other read answers from the value of the structure. -/
theorem stored_readable (maxBytes ttl : ℤ) (k : ℕ) (ops : List Op)
    (hops : ∀ op ∈ ops, op.call.Structured k) (key : Bytes) (it : LruItem)
    (hit : (run (Memory.newMemory maxBytes ttl) ops).lookup key = some it) (s : Structure)
    (hs : it.entry.has s.flag = true) :
    s.decodes k it.flush.1.entry.value = true ∧
      ∀ now, it.entry.expired now = false →
        (∀ c, s.Asks k c →
          (step (run (Memory.newMemory maxBytes ttl) ops) ⟨now, key, c⟩).2.absent = false) ∧
        (∀ m : Mode, s = .mode m → ∃ v : m.Value, ∀ (ρ : Type) (miss : ρ) (f : m.Value → ρ),
          ((run (Memory.newMemory maxBytes ttl) ops).perform now key (m.kind.read miss f)).2 =
            f v) ∧
        (s.isPlain = true → ∀ (ρ : Type) (miss : ρ) (f : Entry → ρ),
          ((run (Memory.newMemory maxBytes ttl) ops).perform now key
            (readLive s.flag miss f)).2 = f it.flush.1.entry) := by
  have h := allReadable_run hops (allReadable_newMemory k maxBytes ttl) key it hit
  refine ⟨h.decodes_flush hs, fun now hx => ⟨fun c hc => ?_, ?_, fun hplain ρ miss f => ?_⟩⟩
  · rw [step, Memory.perform_ret]
    rw [hit]
    exact h.not_absent hx hs hc key _
  · rintro m rfl
    obtain ⟨v, hv⟩ := @Readable.ret_read k (Memory.env _ now) it hx m h hs
    refine ⟨v, fun ρ miss f => ?_⟩
    rw [Memory.perform_ret, hit]
    exact hv ρ miss f _
  · rw [Memory.perform_ret, hit]
    exact h.ret_readLive hx hplain hs miss f _

/-- Bytes that are not a set are not installed; the second of two members is held back. -/
theorem stored_readable_set :
    let m := run (Memory.newMemory 0 0) [⟨4, [1], .cached (.setInstall [9] 1 0)⟩,
      ⟨5, [1], .cached (.setAdd [7] 2 0)⟩, ⟨6, [1], .cached (.setAdd [8] 3 0)⟩]
    ∃ it, m.lookup [1] = some it ∧
      (Structure.mode .set).decodes 2 it.flush.1.entry.value = true ∧
      (step m ⟨7, [1], .cached .hasSet⟩).2.absent = false := by
  intro m
  have hany : (m.lookup [1]).any
      (fun it => it.entry.has flagSet && !it.entry.expired 7) = true := by decide +kernel
  obtain ⟨it, hit, hp⟩ := (Option.any_eq_true _ _).mp hany
  obtain ⟨hhas, hx⟩ : it.entry.has flagSet = true ∧ it.entry.expired 7 = false := by
    simpa using hp
  obtain ⟨hdecodes, hreads⟩ := stored_readable 0 0 2 _
    (by simp [Call.Structured, CachedCall.Structured]) [1] it hit (.mode .set) hhas
  exact ⟨it, hit, hdecodes, (hreads 7 hx).1 _ .hasSet⟩

end Supercache
